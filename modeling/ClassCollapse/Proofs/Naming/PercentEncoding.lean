import ClassCollapse.Naming.PercentEncoding
import ClassCollapse.Proofs.Text.Hex

/-!
# Encoded texts read back

The encoded form of a text is made of unreserved characters and of percent signs with two
hexadecimal digits, and it is read back as the text. Both facts are proved for one byte and then
along the bytes.
-/

namespace ClassCollapse.Naming

open Text (IsHexDigit)

/-- A letter, a digit, `-`, `.`, `_` or `~`. -/
def IsUnreserved (c : Char) : Prop :=
  c.isAlphanum = true ∨ c ∈ ['-', '.', '_', '~']

instance (c : Char) : Decidable (IsUnreserved c) := by
  unfold IsUnreserved
  infer_instance

/-- The encoded texts. -/
inductive IsEncoded : List Char → Prop
  | nil : IsEncoded []
  | unreserved {c : Char} {rest : List Char} (hChar : IsUnreserved c) (hRest : IsEncoded rest) :
      IsEncoded (c :: rest)
  | escape {a b : Char} {rest : List Char} (hHigh : IsHexDigit a) (hLow : IsHexDigit b)
      (hRest : IsEncoded rest) : IsEncoded ('%' :: a :: b :: rest)

/-- How a byte is written: as the character with its number, or with two digits. -/
inductive EncodesByte (b : UInt8) : List Char → Prop
  | plain (c : Char) (hChar : IsUnreserved c) (hSmall : b.toNat < 128)
      (hByte : c.toNat = b.toNat) : EncodesByte b [c]
  | escape (x y : Char) (high low : Nat) (hHigh : Text.hexValue? x = some high)
      (hLow : Text.hexValue? y = some low) (hByte : 16 * high + low = b.toNat) :
      EncodesByte b ['%', x, y]

theorem IsUnreserved.ne_percent {c : Char} (h : IsUnreserved c) : c ≠ '%' := by
  rintro rfl
  exact absurd h (by decide)

theorem hexValue?_upperHexDigit {n : Nat} (h : n < 16) :
    Text.hexValue? (upperHexDigit n) = some n := by
  have hAll : ∀ k : Fin 16, Text.hexValue? (upperHexDigit k) = some k.val := by decide
  exact hAll ⟨n, h⟩

theorem lt_of_isUnreserved {b : UInt8} (h : isUnreserved b = true) : b.toNat < 128 := by
  simp only [isUnreserved, Bool.or_eq_true, Bool.and_eq_true, decide_eq_true_eq, beq_iff_eq] at h
  omega

theorem isUnreserved_ofNat {b : UInt8} (h : isUnreserved b = true) :
    IsUnreserved (Char.ofNat b.toNat) ∧ (Char.ofNat b.toNat).toNat = b.toNat := by
  have hAll : ∀ n : Fin 128, isUnreserved (UInt8.ofNat n) = true →
      IsUnreserved (Char.ofNat n) ∧ (Char.ofNat n).toNat = n.val := by decide
  have hByte := hAll ⟨b.toNat, lt_of_isUnreserved h⟩
  rw [UInt8.ofNat_toNat] at hByte
  exact hByte h

theorem encodesByte_encodeByte (b : UInt8) : EncodesByte b (encodeByte b) := by
  rw [encodeByte]
  split
  next h =>
    obtain ⟨hChar, hByte⟩ := isUnreserved_ofNat h
    exact .plain _ hChar (lt_of_isUnreserved h) hByte
  next =>
    have hBound := b.toNat_lt
    have hHigh : b.toNat / 16 < 16 := by omega
    have hLow : b.toNat % 16 < 16 := by omega
    exact .escape _ _ _ _ (hexValue?_upperHexDigit hHigh) (hexValue?_upperHexDigit hLow)
      (Nat.div_add_mod _ _)

theorem EncodesByte.isEncoded_append {b : UInt8} {written rest : List Char}
    (h : EncodesByte b written) (hRest : IsEncoded rest) : IsEncoded (written ++ rest) := by
  cases h with
  | plain c hChar => exact .unreserved hChar hRest
  | escape x y high low hHigh hLow =>
    exact .escape (Text.isHexDigit_of_hexValue? hHigh) (Text.isHexDigit_of_hexValue? hLow) hRest

theorem EncodesByte.decodeBytes?_append {b : UInt8} {written : List Char}
    (h : EncodesByte b written) (rest : List Char) :
    decodeBytes? (written ++ rest) = (decodeBytes? rest).map (b :: ·) := by
  cases h with
  | plain c hChar hSmall hByte =>
    have hPercent := hChar.ne_percent
    have hChoice : ¬(c = '%' ∨ 128 ≤ c.toNat) := by
      rw [hByte]
      exact not_or.mpr ⟨hPercent, Nat.not_le.mpr hSmall⟩
    rw [List.singleton_append, decodeBytes?.eq_3 c rest fun _ _ _ h _ => hPercent h,
      if_neg hChoice, hByte, UInt8.ofNat_toNat]
  | escape x y high low hHigh hLow hByte =>
    change decodeBytes? ('%' :: x :: y :: rest) = _
    rw [decodeBytes?.eq_2, hHigh, hLow]
    dsimp only [Option.bind_eq_bind, Option.bind_some]
    rw [hByte, UInt8.ofNat_toNat]
    cases decodeBytes? rest with
    | none => rfl
    | some bytes => rfl

theorem isEncoded_flatMap (bytes : List UInt8) : IsEncoded (bytes.flatMap encodeByte) := by
  induction bytes with
  | nil => exact .nil
  | cons b bytes ih =>
    rw [List.flatMap_cons]
    exact (encodesByte_encodeByte b).isEncoded_append ih

theorem decodeBytes?_flatMap (bytes : List UInt8) :
    decodeBytes? (bytes.flatMap encodeByte) = some bytes := by
  induction bytes with
  | nil => rfl
  | cons b bytes ih =>
    rw [List.flatMap_cons, (encodesByte_encodeByte b).decodeBytes?_append, ih, Option.map_some]

theorem isEncoded_percentEncode (s : String) : IsEncoded (percentEncode s).toList := by
  rw [percentEncode, String.toList_ofList]
  exact isEncoded_flatMap _

theorem percentDecode?_percentEncode (s : String) : percentDecode? (percentEncode s) = some s := by
  rw [percentDecode?, percentEncode, String.toList_ofList, decodeBytes?_flatMap]
  exact fromUTF8?_toUTF8 s

end ClassCollapse.Naming
