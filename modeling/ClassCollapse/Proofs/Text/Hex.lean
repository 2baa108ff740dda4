import ClassCollapse.Text.Hex
import ClassCollapse.Proofs.Text.Characters

/-!
# Values of hexadecimal digits

A character has a value exactly if it is a hexadecimal digit, and the digit of this value is the
character in lower case.
-/

namespace ClassCollapse.Text

/-- A hexadecimal digit of either case. -/
def IsHexDigit (c : Char) : Prop :=
  ('0' ≤ c ∧ c ≤ '9') ∨ ('a' ≤ c ∧ c ≤ 'f') ∨ ('A' ≤ c ∧ c ≤ 'F')

instance (c : Char) : Decidable (IsHexDigit c) := by
  unfold IsHexDigit
  infer_instance

theorem hexValue?_hexDigit {n : Nat} (h : n < 16) : hexValue? (hexDigit n) = some n := by
  have hAll : ∀ k : Fin 16, hexValue? (hexDigit k) = some k.val := by decide
  exact hAll ⟨n, h⟩

theorem IsHexDigit.toNat_lt {c : Char} (h : IsHexDigit c) : c.toNat < 128 := by
  have hBound : ∀ d : Char, d.toNat < 128 → c ≤ d → c.toNat < 128 :=
    fun d hd hc => Nat.lt_of_le_of_lt (UInt32.le_iff_toNat_le.mp hc) hd
  rcases h with ⟨_, hc⟩ | ⟨_, hc⟩ | ⟨_, hc⟩
  · exact hBound '9' (by decide) hc
  · exact hBound 'f' (by decide) hc
  · exact hBound 'F' (by decide) hc

/-- The value of a digit, with the digit that is written for it. -/
theorem IsHexDigit.exists_hexValue? {c : Char} (h : IsHexDigit c) :
    ∃ n < 16, hexValue? c = some n ∧ hexDigit n = c.toLower :=
  forall_ascii (P := fun c => IsHexDigit c →
    ∃ n < 16, hexValue? c = some n ∧ hexDigit n = c.toLower) (by decide) h.toNat_lt h

theorem isHexDigit_of_hexValue? {c : Char} {n : Nat} (h : hexValue? c = some n) : IsHexDigit c := by
  have hSmall : c.toNat < 128 := by
    simp only [hexValue?] at h
    split at h
    next hDigit => omega
    next =>
      split at h
      next hLower => omega
      next =>
        split at h
        next hUpper => omega
        next => cases h
  exact forall_ascii (P := fun c => (hexValue? c).isSome = true → IsHexDigit c) (by decide) hSmall
    (by rw [h]; rfl)

theorem isHexDigit_hexDigit {n : Nat} (h : n < 16) : IsHexDigit (hexDigit n) :=
  isHexDigit_of_hexValue? (hexValue?_hexDigit h)

end ClassCollapse.Text
