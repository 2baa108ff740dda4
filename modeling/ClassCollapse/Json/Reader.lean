import ClassCollapse.Json.Value

/-!
# Reading JSON

The grammar is strict: blanks are the space, the tab, the line feed and the carriage return, numbers
have no superfluous zeros, and nothing follows the value. Values may be nested to any depth.
-/

namespace ClassCollapse.Json

def isSpace (c : Char) : Bool :=
  c == ' ' || c == '\t' || c == '\n' || c == '\r'

def skipSpace (cs : List Char) : List Char :=
  cs.dropWhile isSpace

/-- Takes an initial text away. -/
def after? (start cs : List Char) : Option (List Char) :=
  if start.isPrefixOf cs then some (cs.drop start.length) else none

/-- Takes one digit or more. -/
def digits? (cs : List Char) : Option (List Char × List Char) :=
  match cs.takeWhile Char.isDigit with
  | [] => none
  | ds => some (ds, cs.dropWhile Char.isDigit)

/-- The digits before the point: a zero alone, or digits of which the first is not zero. -/
def integer? : List Char → Option (List Char × List Char)
  | '0' :: rest => some (['0'], rest)
  | cs => digits? cs

def fraction? : List Char → Option (List Char × List Char)
  | '.' :: rest => (digits? rest).map fun (ds, rest) => ('.' :: ds, rest)
  | cs => some ([], cs)

def sign : List Char → List Char × List Char
  | '+' :: rest => (['+'], rest)
  | '-' :: rest => (['-'], rest)
  | cs => ([], cs)

def exponent? : List Char → Option (List Char × List Char)
  | [] => some ([], [])
  | c :: rest =>
    if c = 'e' ∨ c = 'E' then
      let (mark, rest) := sign rest
      (digits? rest).map fun (ds, rest) => (c :: (mark ++ ds), rest)
    else some ([], c :: rest)

def minus : List Char → List Char × List Char
  | '-' :: rest => (['-'], rest)
  | cs => ([], cs)

def number? (cs : List Char) : Option (Json × List Char) := do
  let (mark, cs) := minus cs
  let (whole, cs) ← integer? cs
  let (part, cs) ← fraction? cs
  let (scale, cs) ← exponent? cs
  some (.number (mark ++ whole ++ part ++ scale), cs)

/-- A literal name or a number, with the rest. -/
def scalar? (cs : List Char) : Option (Json × List Char) :=
  match after? ['n', 'u', 'l', 'l'] cs with
  | some rest => some (.null, rest)
  | none =>
    match after? ['t', 'r', 'u', 'e'] cs with
    | some rest => some (.bool true, rest)
    | none =>
      match after? ['f', 'a', 'l', 's', 'e'] cs with
      | some rest => some (.bool false, rest)
      | none => number? cs

/-- The key of a member and the text after its colon. -/
def key? : List Char → Option (List Char × List Char)
  | '"' :: rest => do
    let (key, rest) ← body? rest
    match skipSpace rest with
    | ':' :: rest => some (key, rest)
    | _ => none
  | _ => none

mutual

/-- A value at the front, after blanks. The first argument bounds the nesting. -/
def readValue : Nat → List Char → Option (Json × List Char)
  | 0, _ => none
  | bound + 1, cs =>
    match skipSpace cs with
    | '"' :: rest => (body? rest).map fun (body, rest) => (.string body, rest)
    | '[' :: rest =>
      match skipSpace rest with
      | ']' :: rest => some (.list [], rest)
      | rest => (readItems bound rest).map fun (items, rest) => (.list items, rest)
    | '{' :: rest =>
      match skipSpace rest with
      | '}' :: rest => some (.object [], rest)
      | rest => (readMembers bound rest).map fun (members, rest) => (.object members, rest)
    | rest => scalar? rest

/-- The items of a list up to its closing bracket. -/
def readItems : Nat → List Char → Option (List Json × List Char)
  | 0, _ => none
  | bound + 1, cs => do
    let (item, rest) ← readValue bound cs
    match skipSpace rest with
    | ',' :: rest => (readItems bound rest).map fun (items, rest) => (item :: items, rest)
    | ']' :: rest => some ([item], rest)
    | _ => none

def readMembers : Nat → List Char → Option (List (List Char × Json) × List Char)
  | 0, _ => none
  | bound + 1, cs => do
    let (key, rest) ← key? (skipSpace cs)
    let (value, rest) ← readValue bound rest
    match skipSpace rest with
    | ',' :: rest =>
      (readMembers bound rest).map fun (members, rest) => ((key, value) :: members, rest)
    | '}' :: rest => some ([(key, value)], rest)
    | _ => none

end

/-- Reads a text as one value. No value in it is nested deeper than the text is long. -/
def parse? (s : String) : Option Json :=
  match readValue (2 * s.length + 2) s.toList with
  | some (value, rest) => if (skipSpace rest).isEmpty then some value else none
  | none => none

end ClassCollapse.Json
