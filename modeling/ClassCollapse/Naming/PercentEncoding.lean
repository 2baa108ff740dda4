import ClassCollapse.Text.Hex

/-!
# Percent-encoding

A text is written with letters, digits, `-`, `.`, `_` and `~` as they are and every other byte of
its UTF-8 form as a percent sign and two uppercase hexadecimal digits.
-/

namespace ClassCollapse.Naming

/-- The characters that stand for themselves. -/
def isUnreserved (b : UInt8) : Bool :=
  let n := b.toNat
  (48 ≤ n && n ≤ 57) || (65 ≤ n && n ≤ 90) || (97 ≤ n && n ≤ 122) ||
    n == 45 || n == 46 || n == 95 || n == 126

def upperHexDigit (n : Nat) : Char :=
  if n < 10 then Char.ofNat (48 + n) else Char.ofNat (55 + n)

def percentByte (b : UInt8) : List Char :=
  ['%', upperHexDigit (b.toNat / 16), upperHexDigit (b.toNat % 16)]

def encodeByte (b : UInt8) : List Char :=
  if isUnreserved b then [Char.ofNat b.toNat] else percentByte b

def percentEncode (s : String) : String :=
  String.ofList (s.toUTF8.data.toList.flatMap encodeByte)

def decodeBytes? : List Char → Option (List UInt8)
  | [] => some []
  | '%' :: a :: b :: rest => do
    let high ← Text.hexValue? a
    let low ← Text.hexValue? b
    let bytes ← decodeBytes? rest
    some (UInt8.ofNat (16 * high + low) :: bytes)
  | c :: rest =>
    if c = '%' ∨ 128 ≤ c.toNat then none
    else (decodeBytes? rest).map (UInt8.ofNat c.toNat :: ·)

def percentDecode? (s : String) : Option String := do
  let bytes ← decodeBytes? s.toList
  String.fromUTF8? ⟨bytes.toArray⟩

end ClassCollapse.Naming
