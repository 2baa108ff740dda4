import ClassCollapse.Text.Hex

/-!
# The text between the quotes of a JSON string

The body of a string is what stands between its quotes. Writing escapes the quote, the backslash and
the control characters and leaves every other character as it is. Reading takes every escape of the
format; two `\u` escapes that name the halves of one character stand for it, and half a character
alone stands for none.
-/

namespace ClassCollapse.Json

def codeUnit? (a b c d : Char) : Option Nat := do
  let a ← Text.hexValue? a
  let b ← Text.hexValue? b
  let c ← Text.hexValue? c
  let d ← Text.hexValue? d
  some (((a * 16 + b) * 16 + c) * 16 + d)

/-- The character that a backslash and one more character stand for. -/
def shortEscape? : Char → Option Char
  | '"' => some '"'
  | '\\' => some '\\'
  | '/' => some '/'
  | 'b' => some '\x08'
  | 'f' => some '\x0c'
  | 'n' => some '\n'
  | 'r' => some '\r'
  | 't' => some '\t'
  | _ => none

/-- Takes the body of a string up to its closing quote, with the rest. -/
def body? : List Char → Option (List Char × List Char)
  | [] => none
  | '"' :: rest => some ([], rest)
  | '\\' :: 'u' :: a :: b :: c :: d :: rest =>
    match codeUnit? a b c d with
    | none => none
    | some _ => (body? rest).map fun (body, rest) => ('\\' :: 'u' :: a :: b :: c :: d :: body, rest)
  | '\\' :: e :: rest =>
    match shortEscape? e with
    | none => none
    | some _ => (body? rest).map fun (body, rest) => ('\\' :: e :: body, rest)
  | c :: rest =>
    if c = '\\' ∨ c.toNat < 0x20 then none
    else (body? rest).map fun (body, rest) => (c :: body, rest)

/-- The first half of a character beyond the first 65536. -/
def isLeadUnit (n : Nat) : Bool := 0xD800 ≤ n && n < 0xDC00

/-- The second half of such a character. -/
def isTrailUnit (n : Nat) : Bool := 0xDC00 ≤ n && n < 0xE000

/-- The text that a body stands for. The code unit `lead` is the half of a character read just
before. -/
def unescapeFrom : Option Nat → List Char → Option (List Char)
  | some _, [] => none
  | none, [] => some []
  | lead, '\\' :: 'u' :: a :: b :: c :: d :: rest =>
    match codeUnit? a b c d with
    | none => none
    | some n =>
      match lead with
      | some l =>
        if isTrailUnit n then
          (unescapeFrom none rest).map
            (Char.ofNat (0x10000 + (l - 0xD800) * 0x400 + (n - 0xDC00)) :: ·)
        else none
      | none =>
        if isLeadUnit n then unescapeFrom (some n) rest
        else if isTrailUnit n then none
        else (unescapeFrom none rest).map (Char.ofNat n :: ·)
  | some _, _ :: _ => none
  | none, '\\' :: e :: rest =>
    match shortEscape? e with
    | none => none
    | some c => (unescapeFrom none rest).map (c :: ·)
  | none, c :: rest =>
    if c = '\\' ∨ c = '"' ∨ c.toNat < 0x20 then none else (unescapeFrom none rest).map (c :: ·)

def unescape (body : List Char) : Option (List Char) :=
  unescapeFrom none body

def escapeChar (c : Char) : List Char :=
  if c = '"' then ['\\', '"']
  else if c = '\\' then ['\\', '\\']
  else if c = '\x08' then ['\\', 'b']
  else if c = '\x0c' then ['\\', 'f']
  else if c = '\n' then ['\\', 'n']
  else if c = '\r' then ['\\', 'r']
  else if c = '\t' then ['\\', 't']
  else if c.toNat < 0x20 then
    ['\\', 'u', '0', '0', Text.hexDigit (c.toNat / 16), Text.hexDigit (c.toNat % 16)]
  else [c]

/-- The body that stands for a text. -/
def escape (text : List Char) : List Char :=
  text.flatMap escapeChar

end ClassCollapse.Json
