import ClassCollapse.Text.Hex
import ClassCollapse.Toml.Value

/-!
# TOML numbers, truth values and moments

A word is a run of the characters that numbers, names and moments are made of. What it stands for is
decided for the word as a whole.
-/

namespace ClassCollapse.Toml

def isWordPart (c : Char) : Bool :=
  c.isAlphanum || c == '_' || c == '+' || c == '-' || c == '.' || c == ':'

/-- Digits after the first one, where an underscore may stand before each. -/
def groupedTail (isDigit : Char → Bool) : List Char → Bool
  | [] => true
  | '_' :: c :: cs => isDigit c && groupedTail isDigit cs
  | c :: cs => isDigit c && groupedTail isDigit cs

/-- One digit or more, with single underscores between digits. -/
def isGrouped (isDigit : Char → Bool) : List Char → Bool
  | [] => false
  | c :: cs => isDigit c && groupedTail isDigit cs

/-- A decimal number without superfluous zeros. -/
def isWhole : List Char → Bool
  | ['0'] => true
  | '0' :: _ => false
  | cs => isGrouped Char.isDigit cs

def valueOf (base : Nat) (cs : List Char) : Nat :=
  (cs.filterMap Text.hexValue?).foldl (fun n d => n * base + d) 0

/-- An integer of 64 bits. -/
def bounded? (n : Int) : Option Int :=
  if -9223372036854775808 ≤ n ∧ n ≤ 9223372036854775807 then some n else none

def isBaseDigit (base : Nat) (c : Char) : Bool :=
  match Text.hexValue? c with
  | some d => d < base
  | none => false

/-- The integer of a word in hexadecimal, octal or binary digits. -/
def based? (base : Nat) (cs : List Char) : Option Int :=
  if isGrouped (isBaseDigit base) cs then bounded? (valueOf base cs) else none

def integer? : List Char → Option Int
  | '0' :: 'x' :: cs => based? 16 cs
  | '0' :: 'o' :: cs => based? 8 cs
  | '0' :: 'b' :: cs => based? 2 cs
  | '-' :: cs => if isWhole cs then bounded? (-(valueOf 10 cs : Int)) else none
  | '+' :: cs => if isWhole cs then bounded? (valueOf 10 cs) else none
  | cs => if isWhole cs then bounded? (valueOf 10 cs) else none

def dropSign : List Char → List Char
  | '+' :: cs => cs
  | '-' :: cs => cs
  | cs => cs

def isNumberPart (c : Char) : Bool :=
  c.isDigit || c == '_'

/-- The parts of a float: the digits before the point, those after it and the exponent with its
sign. -/
structure FloatParts where
  whole : List Char
  fraction : Option (List Char)
  exponent : Option (List Char)

/-- Takes a word without sign apart. -/
def floatParts (cs : List Char) : FloatParts :=
  let whole := cs.takeWhile isNumberPart
  let rest := cs.dropWhile isNumberPart
  let (fraction, rest) := match rest with
    | '.' :: rest => (some (rest.takeWhile isNumberPart), rest.dropWhile isNumberPart)
    | rest => (none, rest)
  match rest with
  | [] => ⟨whole, fraction, none⟩
  | c :: rest => if c = 'e' ∨ c = 'E' then ⟨whole, fraction, some rest⟩ else ⟨[], none, none⟩

/-- The smallest number that is beyond the floats of 64 bits when rounded. -/
def overflowLimit : Nat := (Nat.pow 2 54 - 1) * Nat.pow 2 970

/-- Whether `digits` times ten to the power of `exponent` is beyond the floats of 64 bits. -/
def overflows (digits : Nat) (exponent : Int) : Bool :=
  let magnitude := ((Nat.toDigits 10 digits).length : Int) + exponent
  if digits = 0 ∨ magnitude < 300 then false
  else if 320 < magnitude then true
  else if 0 ≤ exponent then overflowLimit ≤ digits * Nat.pow 10 exponent.toNat
  else overflowLimit * Nat.pow 10 (-exponent).toNat ≤ digits

def exponentOf : List Char → Int
  | '-' :: cs => -(valueOf 10 cs : Int)
  | '+' :: cs => valueOf 10 cs
  | cs => valueOf 10 cs

/-- Whether a word writes a float with digits. One that is too large is refused, unless negative. -/
def isFloat (word : List Char) : Bool :=
  let parts := floatParts (dropSign word)
  let fraction := parts.fraction.getD []
  let exponent := parts.exponent.getD []
  isWhole parts.whole && (parts.fraction.isSome || parts.exponent.isSome) &&
    parts.fraction.all (isGrouped Char.isDigit) &&
    parts.exponent.all (fun cs => isGrouped Char.isDigit (dropSign cs)) &&
    (word.head? == some '-' ||
      !overflows (valueOf 10 (parts.whole ++ fraction))
        (exponentOf exponent - (fraction.filter Char.isDigit).length))

def isSpecialFloat (word : List Char) : Bool :=
  dropSign word == ['i', 'n', 'f'] || dropSign word == ['n', 'a', 'n']

def pair? (a b : Char) : Option Nat :=
  if a.isDigit && b.isDigit then some (valueOf 10 [a, b]) else none

def isLeapYear (year : Nat) : Bool :=
  year % 4 == 0 && (year % 100 != 0 || year % 400 == 0)

def daysIn (year month : Nat) : Nat :=
  if month = 2 then if isLeapYear year then 29 else 28
  else if month ∈ [4, 6, 9, 11] then 30 else 31

/-- The rest after a date. -/
def date? : List Char → Option (List Char)
  | a :: b :: c :: d :: '-' :: e :: f :: '-' :: g :: h :: rest => do
    let century ← pair? a b
    let year ← pair? c d
    let month ← pair? e f
    let day ← pair? g h
    if 1 ≤ month ∧ month ≤ 12 ∧ 1 ≤ day ∧ day ≤ daysIn (100 * century + year) month then some rest
    else none
  | _ => none

/-- The rest after the fraction of a second, if there is one. -/
def secondFraction? : List Char → Option (List Char)
  | '.' :: rest =>
    if (rest.takeWhile Char.isDigit).isEmpty then none else some (rest.dropWhile Char.isDigit)
  | rest => some rest

def time? : List Char → Option (List Char)
  | a :: b :: ':' :: c :: d :: ':' :: e :: f :: rest => do
    let hour ← pair? a b
    let minute ← pair? c d
    let second ← pair? e f
    if hour ≤ 23 ∧ minute ≤ 59 ∧ second ≤ 60 then secondFraction? rest else none
  | _ => none

/-- Whether a word ends here or with the offset of a time zone. -/
def isOffset : List Char → Bool
  | [] => true
  | [c] => c == 'Z' || c == 'z'
  | [s, a, b, ':', c, d] =>
    (s == '+' || s == '-') && (pair? a b).any (· ≤ 23) && (pair? c d).any (· ≤ 59)
  | _ => false

/-- Whether a word is a time of day with or without an offset. -/
def isZonedTime (word : List Char) : Bool :=
  match time? word with
  | some rest => isOffset rest
  | none => false

/-- Whether a word writes a moment: a date, a time of day, or both with or without an offset. -/
def isMoment (word : List Char) : Bool :=
  match date? word with
  | some [] => true
  | some (c :: rest) => (c == 'T' || c == 't') && isZonedTime rest
  | none => time? word == some []

def ofWord? (word : List Char) : Option Toml :=
  if word = ['t', 'r', 'u', 'e'] then some (.boolean true)
  else if word = ['f', 'a', 'l', 's', 'e'] then some (.boolean false)
  else if isMoment word then some (.moment word)
  else if isSpecialFloat word || isFloat word then some (.float word)
  else (integer? word).map .integer

/-- A word at the front and the rest. A date and a time of day may have a blank between them. -/
def scalar? (cs : List Char) : Option (Toml × List Char) :=
  let word := cs.takeWhile isWordPart
  let rest := cs.dropWhile isWordPart
  match date? word, rest with
  | some [], ' ' :: c :: more =>
    if c.isDigit then
      let time := (c :: more).takeWhile isWordPart
      if isZonedTime time then
        some (.moment (word ++ ' ' :: time), (c :: more).dropWhile isWordPart)
      else none
    else some (.moment word, rest)
  | _, _ => (ofWord? word).map fun value => (value, rest)

end ClassCollapse.Toml
