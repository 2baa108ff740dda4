import ClassCollapse.Table

/-!
# Tables made from entries

A table is made again from its entries, and its keys are those that have a value. A table of entries
with different keys holds these entries.
-/

namespace ClassCollapse

namespace Table

variable {α : Type}

theorem place_last {key : String} {x : α} {l : List (String × α)} (h : ∀ e ∈ l, e.1 < key) :
    place key x l = l ++ [(key, x)] := by
  induction l with
  | nil => rfl
  | cons e rest ih =>
    obtain ⟨k, y⟩ := e
    have hFirst : k < key := h (k, y) List.mem_cons_self
    rw [place, if_neg (String.lt_asymm hFirst), if_neg (String.ne_of_lt hFirst),
      ih fun e he => h e (List.mem_cons_of_mem _ he), List.cons_append]

theorem entries_insertAll (t : Table α) {l : List (String × α)}
    (h : (t.entries ++ l).Pairwise fun a b => a.1 < b.1) :
    (t.insertAll l).entries = t.entries ++ l := by
  induction l generalizing t with
  | nil => exact (List.append_nil _).symm
  | cons e l ih =>
    obtain ⟨_, _, hBefore⟩ := List.pairwise_append.mp h
    have hPlaced : (t.insert e.1 e.2).entries = t.entries ++ [e] :=
      place_last fun e' he' => hBefore e' he' e List.mem_cons_self
    have hNext := ih (t.insert e.1 e.2)
    rw [hPlaced, List.append_assoc] at hNext
    exact hNext h

theorem ofList_entries (t : Table α) : ofList t.entries = t := by
  have hEntries : (ofList t.entries).entries = t.entries := entries_insertAll empty t.ascending
  cases hTable : ofList t.entries with
  | mk entries ascending =>
  rw [hTable] at hEntries
  cases t
  cases hEntries
  rfl

theorem mem_keys_iff (t : Table α) (key : String) : key ∈ t.keys ↔ t.find? key ≠ none := by
  rw [keys, find?]
  induction t.entries with
  | nil => simp [findIn]
  | cons entry rest ih =>
    obtain ⟨first, x⟩ := entry
    rw [List.map_cons, List.mem_cons, findIn, ih]
    by_cases hFirst : first = key
    · simp [hFirst]
    · simp [hFirst, Ne.symm hFirst]

theorem findIn_eq_none_iff (key : String) (l : List (String × α)) :
    findIn key l = none ↔ key ∉ l.map Prod.fst := by
  induction l with
  | nil => simp [findIn]
  | cons entry rest ih =>
    rw [findIn, List.map_cons, List.mem_cons, not_or]
    split
    next hFirst => simp [hFirst]
    next hFirst => rw [ih, and_iff_right (Ne.symm hFirst)]

theorem findIn_eq_some_iff {l : List (String × α)} (h : (l.map Prod.fst).Nodup) (key : String)
    (x : α) : findIn key l = some x ↔ (key, x) ∈ l := by
  induction l with
  | nil => simp [findIn]
  | cons entry rest ih =>
    obtain ⟨first, y⟩ := entry
    obtain ⟨hFirst, hRest⟩ := List.nodup_cons.mp h
    rw [findIn, List.mem_cons, Prod.mk.injEq]
    split
    next hSame =>
      subst hSame
      have hNot : (first, x) ∉ rest := fun hMem =>
        hFirst (List.mem_map.mpr ⟨_, hMem, rfl⟩)
      simp [hNot, eq_comm]
    next hOther => rw [ih hRest, or_iff_right fun hBoth => hOther hBoth.1.symm]

theorem ascending_keys (t : Table α) : t.keys.Pairwise (· < ·) :=
  List.pairwise_map.mpr t.ascending

theorem nodup_keys (t : Table α) : t.keys.Nodup :=
  t.ascending_keys.imp fun hLess => String.ne_of_lt hLess

theorem mem_entries_iff (t : Table α) (key : String) (x : α) :
    (key, x) ∈ t.entries ↔ t.find? key = some x :=
  (findIn_eq_some_iff t.nodup_keys key x).symm

theorem find?_insertAll (t : Table α) {l : List (String × α)} (h : (l.map Prod.fst).Nodup)
    (key : String) : (t.insertAll l).find? key = (findIn key l).or (t.find? key) := by
  induction l generalizing t with
  | nil => rfl
  | cons entry rest ih =>
    obtain ⟨hFirst, hRest⟩ := List.nodup_cons.mp h
    have hStep : t.insertAll (entry :: rest) = (t.insert entry.1 entry.2).insertAll rest := rfl
    rw [hStep, ih _ hRest, find?_insert, findIn]
    split
    next hSame =>
      rw [(findIn_eq_none_iff key rest).mpr (hSame ▸ hFirst)]
      rfl
    next => rfl

theorem find?_ofList_eq_some_iff {l : List (String × α)} (h : (l.map Prod.fst).Nodup)
    (key : String) (x : α) : (ofList l).find? key = some x ↔ (key, x) ∈ l := by
  have hNone : (empty : Table α).find? key = none := rfl
  rw [ofList, find?_insertAll _ h, hNone, Option.or_none, findIn_eq_some_iff h]

end Table

end ClassCollapse
