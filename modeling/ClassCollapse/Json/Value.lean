import ClassCollapse.Json.Escape

/-!
# JSON values

A value keeps its strings and numbers as they are written, so what a string stands for is decided
where it is used. A record is an object with known keys, or a list of the values of these keys in
order.
-/

namespace ClassCollapse

/-- A value as it is written. Strings and keys are the bodies between the quotes. -/
inductive Json
  | null
  | bool (b : Bool)
  | number (literal : List Char)
  | string (body : List Char)
  | list (items : List Json)
  | object (members : List (List Char × Json))

namespace Json

def ofText (s : String) : Json :=
  .string (escape s.toList)

def ofNat (n : Nat) : Json :=
  .number (Nat.toDigits 10 n)

def record (fields : List (String × Json)) : Json :=
  .object (fields.map fun (key, value) => (escape key.toList, value))

/-- The text of a string, unless half a character stands alone in it. -/
def text? : Json → Option String
  | .string body => (unescape body).map String.ofList
  | _ => none

def digitsValue (ds : List Char) : Nat :=
  ds.foldl (fun n d => n * 10 + (d.toNat - 48)) 0

def maxWord : Nat := UInt64.size - 1

/-- The natural number of 64 bits that is written without sign, fraction and exponent. -/
def word? : Json → Option Nat
  | .number literal =>
    if literal.all Char.isDigit && digitsValue literal ≤ maxWord then some (digitsValue literal)
    else none
  | _ => none

/-- The members of an object with the texts of their keys. -/
def members? : Json → Option (List (String × Json))
  | .object members => members.mapM fun (key, value) =>
      (unescape key).map fun key => (String.ofList key, value)
  | _ => none

def valuesOf (key : String) (members : List (String × Json)) : List Json :=
  (members.filter (·.1 = key)).map (·.2)

/-- The only member with this key. -/
def onlyValue? (key : String) (members : List (String × Json)) : Option Json :=
  match valuesOf key members with
  | [value] => some value
  | _ => none

/-- The values of the keys of a record, in the order of the keys. Other members of an object do not
matter; a key that is missing or repeated does. -/
def fields? (keys : List String) : Json → Option (List Json)
  | .list items => if items.length = keys.length then some items else none
  | value => do
    let members ← value.members?
    keys.mapM fun key => onlyValue? key members

end Json

end ClassCollapse
