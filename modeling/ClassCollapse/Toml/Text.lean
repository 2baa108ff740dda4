import ClassCollapse.Text.Hex

/-!
# TOML strings

Strings between double quotes have escapes, those between single quotes have none, and three quotes
enclose several lines. Each reader starts after the opening quotes and yields the text and the rest.
-/

namespace ClassCollapse.Toml

/-- The blanks within a line. -/
def isSpace (c : Char) : Bool :=
  c == ' ' || c == '\t'

/-- The characters that strings and comments may hold as they are. -/
def isPlain (c : Char) : Bool :=
  c == '\t' || (0x20 ≤ c.toNat && c.toNat != 0x7F)

/-- The rest after a line end. The end of the text ends a line too. -/
def lineEnd? : List Char → Option (List Char)
  | [] => some []
  | '\n' :: rest => some rest
  | '\r' :: '\n' :: rest => some rest
  | _ => none

def shortEscape? : Char → Option Char
  | '"' => some '"'
  | '\\' => some '\\'
  | 'b' => some '\x08'
  | 'f' => some '\x0c'
  | 'n' => some '\n'
  | 'r' => some '\r'
  | 't' => some '\t'
  | _ => none

def numbered? (digits : List Char) : Option Char := do
  let values ← digits.mapM Text.hexValue?
  let n := values.foldl (fun n d => n * 16 + d) 0
  if n.isValidChar then some (Char.ofNat n) else none

/-- Puts a character in front of a text that was read. -/
def add (c : Char) (read : Option (List Char × List Char)) : Option (List Char × List Char) :=
  read.map fun (text, rest) => (c :: text, rest)

/-- A string between double quotes, on one line. -/
def basic? : List Char → Option (List Char × List Char)
  | [] => none
  | '"' :: rest => some ([], rest)
  | '\\' :: 'u' :: a :: b :: c :: d :: rest =>
    match numbered? [a, b, c, d] with
    | some x => add x (basic? rest)
    | none => none
  | '\\' :: 'U' :: a :: b :: c :: d :: e :: f :: g :: h :: rest =>
    match numbered? [a, b, c, d, e, f, g, h] with
    | some x => add x (basic? rest)
    | none => none
  | '\\' :: e :: rest =>
    match shortEscape? e with
    | some x => add x (basic? rest)
    | none => none
  | c :: rest => if c != '\\' && isPlain c then add c (basic? rest) else none

/-- A string between single quotes, on one line. -/
def literal? : List Char → Option (List Char × List Char)
  | [] => none
  | '\'' :: rest => some ([], rest)
  | c :: rest => if isPlain c then add c (literal? rest) else none

/-- The text that quotes add in front of the three that close a string: two at most. -/
def closing (quote : Char) (rest : List Char) : List Char × List Char :=
  match rest with
  | a :: b :: rest' =>
    if a = quote ∧ b = quote then ([quote, quote], rest')
    else if a = quote then ([quote], b :: rest') else ([], rest)
  | [a] => if a = quote then ([quote], []) else ([], rest)
  | [] => ([], [])

/-- A string between three double quotes. A backslash at the end of a line drops the line end and
all blanks and line ends after it; `skipping` holds while they are dropped. -/
def multiBasic? (skipping : Bool) : List Char → Option (List Char × List Char)
  | [] => none
  | '"' :: '"' :: '"' :: rest => some (closing '"' rest)
  | '\\' :: 'u' :: a :: b :: c :: d :: rest =>
    match numbered? [a, b, c, d] with
    | some x => add x (multiBasic? false rest)
    | none => none
  | '\\' :: 'U' :: a :: b :: c :: d :: e :: f :: g :: h :: rest =>
    match numbered? [a, b, c, d, e, f, g, h] with
    | some x => add x (multiBasic? false rest)
    | none => none
  | '\\' :: rest =>
    match (rest.dropWhile isSpace).head? with
    | none => none
    | some d =>
      if d = '\n' ∨ d = '\r' then multiBasic? true rest
      else match rest with
        | [] => none
        | e :: rest =>
          match shortEscape? e with
          | some x => add x (multiBasic? false rest)
          | none => none
  | '\r' :: '\n' :: rest =>
    if skipping then multiBasic? true rest else add '\n' (multiBasic? false rest)
  | c :: rest =>
    if c = '\n' then if skipping then multiBasic? true rest else add c (multiBasic? false rest)
    else if isSpace c && skipping then multiBasic? true rest
    else if isPlain c then add c (multiBasic? false rest)
    else none

/-- A string between three single quotes. -/
def multiLiteral? : List Char → Option (List Char × List Char)
  | [] => none
  | '\'' :: '\'' :: '\'' :: rest => some (closing '\'' rest)
  | '\r' :: '\n' :: rest => add '\n' (multiLiteral? rest)
  | c :: rest => if c = '\n' || isPlain c then add c (multiLiteral? rest) else none

/-- Drops a line end that follows the opening quotes. -/
def dropLineEnd : List Char → List Char
  | '\n' :: rest => rest
  | '\r' :: '\n' :: rest => rest
  | cs => cs

def string? : List Char → Option (List Char × List Char)
  | '"' :: '"' :: '"' :: rest => multiBasic? false (dropLineEnd rest)
  | '"' :: rest => basic? rest
  | '\'' :: '\'' :: '\'' :: rest => multiLiteral? (dropLineEnd rest)
  | '\'' :: rest => literal? rest
  | _ => none

end ClassCollapse.Toml
