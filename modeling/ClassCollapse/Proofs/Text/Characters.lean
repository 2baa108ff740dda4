import Mathlib.Data.List.TakeWhile

/-!
# Characters and runs of them

What holds of each ASCII character can be checked character by character. Reading the longest run of
characters of one kind gives back a run that another character follows. The bytes of a text are read
as this text.
-/

namespace ClassCollapse

theorem fromUTF8?_toUTF8 (s : String) : String.fromUTF8? s.toUTF8 = some s :=
  dif_pos s.isValidUTF8

namespace Text

theorem forall_ascii {P : Char → Prop} (h : ∀ n : Fin 128, P (Char.ofNat n)) {c : Char}
    (hc : c.toNat < 128) : P c := by
  have hChar := h ⟨c.toNat, hc⟩
  rwa [Char.ofNat_toNat] at hChar

/-- A run of characters of one kind goes up to the first other character. -/
theorem span_run {p : Char → Bool} {run rest : List Char} (hRun : ∀ c ∈ run, p c = true)
    (hRest : ∀ c ∈ rest.head?, p c = false) :
    (run ++ rest).takeWhile p = run ∧ (run ++ rest).dropWhile p = rest := by
  have hStop : rest.takeWhile p = [] ∧ rest.dropWhile p = rest := by
    cases rest with
    | nil => exact ⟨rfl, rfl⟩
    | cons c rest =>
      have hc := hRest c rfl
      constructor
      · rw [List.takeWhile_cons, hc, if_neg Bool.false_ne_true]
      · rw [List.dropWhile_cons, hc, if_neg Bool.false_ne_true]
  constructor
  · rw [List.takeWhile_append_of_pos hRun, hStop.1, List.append_nil]
  · rw [List.dropWhile_append_of_pos hRun, hStop.2]

end Text

end ClassCollapse
