import Mathlib.Data.List.Forall2

/-!
# Lists that are related member by member

Every member of one list has its partner in the other one, and what partners have in common is the
same for both lists.
-/

namespace ClassCollapse

variable {α β γ : Type} {R : α → β → Prop} {l : List α} {l' : List β}

theorem exists_of_forall₂ (h : List.Forall₂ R l l') :
    (∀ a ∈ l, ∃ b ∈ l', R a b) ∧ ∀ b ∈ l', ∃ a ∈ l, R a b := by
  induction h with
  | nil => simp
  | cons hFirst _ ih =>
    simp only [List.mem_cons, exists_eq_or_imp, forall_eq_or_imp]
    exact ⟨⟨.inl hFirst, fun a ha => .inr (ih.1 a ha)⟩, .inl hFirst, fun b hb => .inr (ih.2 b hb)⟩

theorem map_eq_of_forall₂ {f : α → γ} {g : β → γ} (h : List.Forall₂ R l l')
    (hSame : ∀ a b, R a b → f a = g b) : l.map f = l'.map g := by
  induction h with
  | nil => rfl
  | cons hFirst _ ih => rw [List.map_cons, List.map_cons, hSame _ _ hFirst, ih]

end ClassCollapse
