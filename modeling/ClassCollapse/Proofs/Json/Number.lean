import ClassCollapse.Json.Reader
import ClassCollapse.Proofs.Text.Characters

/-!
# Natural numbers read back

The decimal digits of a natural number are read as one number where no character follows that a
number could go on with, and they write that number.
-/

namespace ClassCollapse.Json

/-- A number ends before these characters. -/
def EndsNumber (rest : List Char) : Prop :=
  ∀ c ∈ rest.head?, c.isDigit = false ∧ c ≠ '.' ∧ c ≠ 'e' ∧ c ≠ 'E'

theorem digit_of_toDigits {n : Nat} {c : Char} (h : c ∈ Nat.toDigits 10 n) : c.isDigit = true :=
  Nat.isDigit_of_mem_toDigits (by decide) (by decide) h

theorem eq_zero_of_toDigits {n : Nat} {ds : List Char} (h : Nat.toDigits 10 n = '0' :: ds) :
    n = 0 := by
  induction n using Nat.strongRecOn generalizing ds with
  | ind n ih =>
    by_cases hSmall : n < 10
    · rw [Nat.toDigits_of_lt_base hSmall] at h
      have hAll : ∀ k : Fin 10, Nat.digitChar k = '0' → k.val = 0 := by decide
      exact hAll ⟨n, hSmall⟩ (List.cons.inj h).1
    · rw [Nat.toDigits_of_base_le (by decide) (Nat.le_of_not_lt hSmall)] at h
      cases hFront : Nat.toDigits 10 (n / 10) with
      | nil => exact absurd hFront Nat.toDigits_ne_nil
      | cons c cs =>
        rw [hFront] at h
        obtain ⟨rfl, _⟩ := List.cons.inj h
        have hZero := ih (n / 10) (by omega) hFront
        omega

theorem takeWhile_digits {ds rest : List Char} (hDigits : ∀ c ∈ ds, c.isDigit = true)
    (hRest : EndsNumber rest) : (ds ++ rest).takeWhile Char.isDigit = ds ∧
      (ds ++ rest).dropWhile Char.isDigit = rest :=
  Text.span_run hDigits fun c hc => (hRest c hc).1

theorem integer?_toDigits (n : Nat) {rest : List Char} (hRest : EndsNumber rest) :
    integer? (Nat.toDigits 10 n ++ rest) = some (Nat.toDigits 10 n, rest) := by
  obtain ⟨hTaken, hDropped⟩ := takeWhile_digits (fun c => digit_of_toDigits (n := n)) hRest
  cases hDigits : Nat.toDigits 10 n with
  | nil => exact absurd hDigits Nat.toDigits_ne_nil
  | cons c cs =>
    rw [hDigits] at hTaken hDropped
    by_cases hZero : c = '0'
    · subst hZero
      rw [eq_zero_of_toDigits hDigits, Nat.toDigits_zero] at hDigits
      cases hDigits
      rfl
    · rw [List.cons_append, integer?.eq_2 _ fun _ hHead => hZero (List.cons.inj hHead).1, digits?,
        ← List.cons_append, hTaken, hDropped]

theorem fraction?_end {rest : List Char} (hRest : EndsNumber rest) :
    fraction? rest = some ([], rest) := by
  refine fraction?.eq_2 rest fun tail hHead => ?_
  subst hHead
  exact (hRest '.' rfl).2.1 rfl

theorem exponent?_end {rest : List Char} (hRest : EndsNumber rest) :
    exponent? rest = some ([], rest) := by
  cases rest with
  | nil => rfl
  | cons c rest =>
    obtain ⟨_, _, hSmall, hCapital⟩ := hRest c rfl
    rw [exponent?, if_neg (not_or.mpr ⟨hSmall, hCapital⟩)]

theorem minus_toDigits (n : Nat) (rest : List Char) :
    minus (Nat.toDigits 10 n ++ rest) = ([], Nat.toDigits 10 n ++ rest) := by
  refine minus.eq_2 _ fun tail hHead => ?_
  cases hDigits : Nat.toDigits 10 n with
  | nil => exact absurd hDigits Nat.toDigits_ne_nil
  | cons c cs =>
    rw [hDigits] at hHead
    obtain ⟨rfl, _⟩ := List.cons.inj hHead
    have hDigit : ('-' : Char).isDigit = true :=
      digit_of_toDigits (n := n) (hDigits ▸ List.mem_cons_self)
    cases hDigit

theorem number?_toDigits (n : Nat) {rest : List Char} (hRest : EndsNumber rest) :
    number? (Nat.toDigits 10 n ++ rest) = some (.number (Nat.toDigits 10 n), rest) := by
  rw [number?, minus_toDigits]
  dsimp only [Option.bind_eq_bind]
  rw [integer?_toDigits n hRest]
  dsimp only [Option.bind_some]
  rw [fraction?_end hRest]
  dsimp only [Option.bind_some]
  rw [exponent?_end hRest]
  simp only [Option.bind_some, List.nil_append, List.append_nil]

theorem digitsValue_toDigits (n : Nat) : digitsValue (Nat.toDigits 10 n) = n := by
  have hFold : digitsValue (Nat.toDigits 10 n) = Nat.ofDigitChars 10 (Nat.toDigits 10 n) 0 := by
    rw [Nat.ofDigitChars_eq_foldl, digitsValue]
    congr 1
    funext value c
    rw [Nat.mul_comm]
    rfl
  rw [hFold]
  simp

theorem word?_ofNat {n : Nat} (h : n < UInt64.size) : (ofNat n).word? = some n := by
  have hDigits : (Nat.toDigits 10 n).all Char.isDigit = true :=
    List.all_eq_true.mpr fun c => digit_of_toDigits
  have hBound : n ≤ maxWord := by
    rw [maxWord]
    omega
  rw [ofNat, word?, hDigits, digitsValue_toDigits, Bool.true_and, if_pos (decide_eq_true hBound)]

end ClassCollapse.Json
