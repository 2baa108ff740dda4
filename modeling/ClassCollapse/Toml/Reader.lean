import ClassCollapse.Toml.Scalar
import ClassCollapse.Toml.Text

/-!
# Reading TOML

A text is read line by line into headers and settings, from which the document is built. Values and
keys may be nested less than eighty deep.
-/

namespace ClassCollapse.Toml

def maxDepth : Nat := 80

/-- The characters of keys without quotes. -/
def isKeyPart (c : Char) : Bool :=
  c.isAlphanum || c == '-' || c == '_'

/-- The rest after a comment, without its line end. -/
def skipComment : List Char → List Char
  | '#' :: rest => rest.dropWhile isPlain
  | cs => cs

/-- The rest after the blanks, the comment and the line end that may follow an entry. -/
def finishLine? (cs : List Char) : Option (List Char) :=
  lineEnd? (skipComment (cs.dropWhile isSpace))

def keyPart? (cs : List Char) : Option (String × List Char) :=
  match cs with
  | '"' :: rest => (basic? rest).map fun (text, rest) => (String.ofList text, rest)
  | '\'' :: rest => (literal? rest).map fun (text, rest) => (String.ofList text, rest)
  | cs =>
    match cs.takeWhile isKeyPart with
    | [] => none
    | key => some (String.ofList key, cs.dropWhile isKeyPart)

/-- A dotted key with the blanks around its parts. -/
def keyWithin? : (parts : Nat) → List Char → Option (List String × List Char)
  | 0, _ => none
  | parts + 1, cs => do
    let (key, rest) ← keyPart? (cs.dropWhile isSpace)
    match rest.dropWhile isSpace with
    | '.' :: rest =>
      let (keys, rest) ← keyWithin? parts rest
      some (key :: keys, rest)
    | rest => some ([key], rest)

def key? (cs : List Char) : Option (List String × List Char) :=
  keyWithin? (maxDepth - 1) cs

/-- Skips blanks, line ends and comments, at most as many characters as `bound`. A comment has to
end with its line. -/
def skipLines : (bound : Nat) → List Char → Option (List Char)
  | 0, cs => some cs
  | bound + 1, cs =>
    match cs with
    | '\n' :: rest => skipLines bound rest
    | '\r' :: '\n' :: rest => skipLines bound rest
    | '#' :: rest => do
      let rest ← lineEnd? (rest.dropWhile isPlain)
      skipLines bound rest
    | c :: rest => if isSpace c then skipLines bound rest else some cs
    | [] => some []

def skip (cs : List Char) : Option (List Char) :=
  skipLines cs.length cs

mutual

/-- A value. The first argument bounds the number of steps, the second one is the depth. -/
def readValue : Nat → Nat → List Char → Option (Toml × List Char)
  | 0, _, _ => none
  | bound + 1, depth, cs =>
    match cs with
    | '[' :: rest => if depth + 1 < maxDepth then do
        let rest ← skip rest
        match rest with
        | ']' :: rest => some (.array [], rest)
        | rest => (readItems bound (depth + 1) rest).map fun (items, rest) => (.array items, rest)
      else none
    | '{' :: rest => if depth + 1 < maxDepth then do
        let (settings, rest) ←
          match rest.dropWhile isSpace with
          | '}' :: rest => some ([], rest)
          | rest => readSettings bound (depth + 1) rest
        let value ← inlineTable? settings
        some (value, rest)
      else none
    | '"' :: _ => (string? cs).map fun (text, rest) => (.string (String.ofList text), rest)
    | '\'' :: _ => (string? cs).map fun (text, rest) => (.string (String.ofList text), rest)
    | cs => scalar? cs

/-- The items of an array up to its closing bracket. A comma may follow the last one. -/
def readItems : Nat → Nat → List Char → Option (List Toml × List Char)
  | 0, _, _ => none
  | bound + 1, depth, cs => do
    let (item, rest) ← readValue bound depth cs
    match ← skip rest with
    | ']' :: rest => some ([item], rest)
    | ',' :: rest =>
      match ← skip rest with
      | ']' :: rest => some ([item], rest)
      | rest => (readItems bound depth rest).map fun (items, rest) => (item :: items, rest)
    | _ => none

def readSettings : Nat → Nat → List Char → Option (List (List String × Toml) × List Char)
  | 0, _, _ => none
  | bound + 1, depth, cs => do
    let (key, rest) ← key? cs
    match rest with
    | '=' :: rest =>
      let (value, rest) ← readValue bound depth (rest.dropWhile isSpace)
      match rest.dropWhile isSpace with
      | '}' :: rest => some ([(key, value)], rest)
      | ',' :: rest =>
        (readSettings bound depth rest).map fun (settings, rest) => ((key, value) :: settings, rest)
      | _ => none
    | _ => none

end

/-- A header or a setting with its line end. -/
def line? (cs : List Char) : Option (Line × List Char) :=
  match cs with
  | '[' :: '[' :: rest => do
    let (path, rest) ← key? rest
    match rest with
    | ']' :: ']' :: rest => (finishLine? rest).map fun rest => (.arrayHeader path, rest)
    | _ => none
  | '[' :: rest => do
    let (path, rest) ← key? rest
    match rest with
    | ']' :: rest => (finishLine? rest).map fun rest => (.header path, rest)
    | _ => none
  | cs => do
    let (path, rest) ← key? cs
    match rest with
    | '=' :: rest =>
      let (value, rest) ← readValue (2 * rest.length + 2) 0 (rest.dropWhile isSpace)
      (finishLine? rest).map fun rest => (.setting path value, rest)
    | _ => none

/-- The lines of a text, of which each has at least one character. -/
def linesWithin? : (bound : Nat) → List Char → Option (List Line)
  | 0, _ => none
  | bound + 1, cs => do
    match ← skip cs with
    | [] => some []
    | cs =>
      let (line, rest) ← line? cs
      let lines ← linesWithin? bound rest
      some (line :: lines)

def dropMark : List Char → List Char
  | '\uFEFF' :: cs => cs
  | cs => cs

def parse? (s : String) : Option Entries := do
  build (← linesWithin? (s.length + 1) (dropMark s.toList))

end ClassCollapse.Toml
