/-!
# Lists of pairs as finite maps

A list of pairs whose first parts differ is a finite map: looking a key up finds exactly the pairs
of the list.
-/

namespace ClassCollapse

theorem lookup_cons_if {α β : Type} [BEq α] (l : List (α × β)) (a a' : α) (b : β) :
    ((a, b) :: l).lookup a' = if a' == a then some b else l.lookup a' := by
  rw [List.lookup_cons]
  cases a' == a <;> rfl

theorem lookup_append_singleton {α β : Type} [BEq α] (l : List (α × β)) (a a' : α) (b : β) :
    (l ++ [(a, b)]).lookup a' = (l.lookup a').or (if a' == a then some b else none) := by
  rw [List.lookup_append, lookup_cons_if, List.lookup_nil]

variable {α β : Type} [BEq α] [LawfulBEq α]

theorem lookup_eq_none_iff_notMem {l : List (α × β)} {a : α} :
    l.lookup a = none ↔ a ∉ l.map Prod.fst := by
  rw [List.lookup_eq_none_iff, List.mem_map]
  constructor
  · rintro h ⟨p, hp, rfl⟩
    simpa using h p hp
  · intro h p hp
    rw [bne_iff_ne]
    rintro rfl
    exact h ⟨p, hp, rfl⟩

theorem mem_of_lookup_eq_some {l : List (α × β)} {a : α} {b : β} (h : l.lookup a = some b) :
    (a, b) ∈ l := by
  obtain ⟨front, back, rfl, _⟩ := List.lookup_eq_some_iff.mp h
  exact List.mem_append_right _ List.mem_cons_self

theorem lookup_eq_some_iff_mem {l : List (α × β)} (hl : (l.map Prod.fst).Nodup) {a : α} {b : β} :
    l.lookup a = some b ↔ (a, b) ∈ l := by
  refine ⟨mem_of_lookup_eq_some, fun h => ?_⟩
  obtain ⟨front, back, rfl⟩ := List.append_of_mem h
  refine List.lookup_eq_some_iff.mpr ⟨front, back, rfl, fun p hp => ?_⟩
  rw [List.map_append, List.map_cons, List.nodup_append] at hl
  rw [bne_iff_ne]
  rintro rfl
  exact hl.2.2 _ (List.mem_map_of_mem hp) _ List.mem_cons_self rfl

end ClassCollapse
