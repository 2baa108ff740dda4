import ClassCollapse.Naming.Resolver
import ClassCollapse.Proofs.Association
import ClassCollapse.Proofs.Distinct
import Mathlib.Data.List.Nodup

/-!
# The search for a free name

The numbered forms of a name are tried one after the other, from two on and without a bound. Here a
search is followed pass by pass. On every table it comes to an end, after at most one more pass than
there are names, and what it ends with is the name that is given. So the numbers that are tried
exceed the number of names by two at most.
-/

namespace ClassCollapse.NameResolver

variable {owners : List (String × CanonicalKey)} {key : CanonicalKey} {name : String}

/-! ## Free names -/

theorem numbered_injective (name : String) : Function.Injective (numbered name) := by
  intro i j h
  have hLists : (name ++ "-").toList ++ (toString (i + 2)).toList =
      (name ++ "-").toList ++ (toString (j + 2)).toList := by
    rw [← String.toList_append, ← String.toList_append]
    exact congrArg String.toList h
  have hDigits : Nat.toDigits 10 (i + 2) = Nat.toDigits 10 (j + 2) := by
    simpa only [Nat.toString_eq_repr, Nat.toList_repr] using List.append_cancel_left hLists
  have hValues := congrArg (fun digits => Nat.ofDigitChars 10 digits 0) hDigits
  have hNumbers : i + 2 = j + 2 := by simpa using hValues
  omega

theorem isFree_eq_true_iff : isFree owners key name = true ↔
    ∀ owner, owners.lookup name = some owner → owner = key := by
  rw [isFree]
  cases owners.lookup name with
  | none => simp
  | some owner => simp

theorem isFree_eq_false_iff : isFree owners key name = false ↔
    ∃ owner, owners.lookup name = some owner ∧ owner ≠ key := by
  rw [← Bool.not_eq_true, isFree_eq_true_iff]
  simp

theorem isFree_of_notMem (h : name ∉ owners.map Prod.fst) : isFree owners key name = true := by
  rw [isFree, lookup_eq_none_iff_notMem.mpr h]

/-- The names in a table, each once. -/
def heldNames (owners : List (String × CanonicalKey)) : List String :=
  (owners.map Prod.fst).eraseDups

theorem length_heldNames_le (owners : List (String × CanonicalKey)) :
    (heldNames owners).length ≤ owners.length := by
  have hSubset : heldNames owners ⊆ owners.map Prod.fst := fun _ h => List.mem_eraseDups.mp h
  calc
    (heldNames owners).length ≤ (owners.map Prod.fst).length :=
      (nodup_eraseDups _).length_le_of_subset hSubset
    _ = owners.length := List.length_map _

/-- One of the first numbered forms is free, because there are more of them than names. -/
theorem exists_free_numbered (owners : List (String × CanonicalKey)) (key : CanonicalKey)
    (name : String) :
    ∃ i ≤ (heldNames owners).length, isFree owners key (numbered name i) = true := by
  apply Decidable.byContradiction
  intro hNone
  have hTaken : (List.range ((heldNames owners).length + 1)).map (numbered name) ⊆
      heldNames owners := by
    intro taken hMem
    obtain ⟨i, hi, rfl⟩ := List.mem_map.mp hMem
    apply Decidable.byContradiction
    intro hFree
    refine hNone ⟨i, Nat.le_of_lt_succ (List.mem_range.mp hi), isFree_of_notMem ?_⟩
    exact mt List.mem_eraseDups.mpr hFree
  have hNodup : ((List.range ((heldNames owners).length + 1)).map (numbered name)).Nodup :=
    List.Pairwise.map _ (fun i j hij heq => hij (numbered_injective name heq)) List.nodup_range
  have hLength := hNodup.length_le_of_subset hTaken
  rw [List.length_map, List.length_range] at hLength
  omega

/-- Everything about the name that is given: the number of the first free numbered form is at most
the number of names, and this form is given where the candidate and its form with a digest are not
free. -/
theorem exists_disambiguate_eq (owners : List (String × CanonicalKey)) (candidate : String)
    (key : CanonicalKey) (classList : String) :
    let hashed := candidate ++ "-" ++ shortDigest classList
    ∃ last ≤ (heldNames owners).length, isFree owners key (numbered hashed last) = true ∧
      (∀ i < last, isFree owners key (numbered hashed i) = false) ∧
      disambiguate owners candidate key classList =
        if isFree owners key candidate then candidate
        else if isFree owners key hashed then hashed
        else numbered hashed last := by
  intro hashed
  obtain ⟨i, hi, hFree⟩ := exists_free_numbered owners key hashed
  have hRange := length_heldNames_le owners
  cases hFind : (List.range (owners.length + 1)).find? fun i =>
      isFree owners key (numbered hashed i) with
  | none =>
    have hNotFree := List.find?_eq_none.mp hFind i (List.mem_range.mpr (by omega))
    exact absurd hFree hNotFree
  | some last =>
    obtain ⟨hLast, _, hBefore⟩ := List.find?_range_eq_some.mp hFind
    have hHeld : ∀ i < last, isFree owners key (numbered hashed i) = false := by
      intro i hi
      simpa using hBefore i hi
    refine ⟨last, ?_, hLast, hHeld, ?_⟩
    · apply Decidable.byContradiction
      intro hMore
      rw [hHeld i (by omega)] at hFree
      cases hFree
    · rw [disambiguate, hFind]
      rfl

theorem isFree_disambiguate (owners : List (String × CanonicalKey)) (candidate : String)
    (key : CanonicalKey) (classList : String) :
    isFree owners key (disambiguate owners candidate key classList) = true := by
  obtain ⟨last, _, hLast, _, hName⟩ := exists_disambiguate_eq owners candidate key classList
  rw [hName]
  split
  next h => exact h
  next =>
    split
    next h => exact h
    next => exact hLast

/-! ## The passes of a search -/

/-- A search that starts with a number makes some passes and ends with a name. A pass tries the form
with the number; where another key holds it, the next pass has the next number. -/
inductive Search (owners : List (String × CanonicalKey)) (key : CanonicalKey) (name : String) :
    (number passes : Nat) → (found : String) → Prop
  | free {number : Nat} (hFree : isFree owners key (name ++ "-" ++ toString number) = true) :
      Search owners key name number 1 (name ++ "-" ++ toString number)
  | held {number passes : Nat} {found : String}
      (hHeld : isFree owners key (name ++ "-" ++ toString number) = false)
      (hRest : Search owners key name (number + 1) passes found) :
      Search owners key name number (passes + 1) found

theorem search_of_first {number last : Nat}
    (hFree : isFree owners key (name ++ "-" ++ toString (number + last)) = true)
    (hHeld : ∀ i < last, isFree owners key (name ++ "-" ++ toString (number + i)) = false) :
    Search owners key name number (last + 1) (name ++ "-" ++ toString (number + last)) := by
  induction last generalizing number with
  | zero => exact .free hFree
  | succ last ih =>
    have hNumber : ∀ i, number + (i + 1) = number + 1 + i := by omega
    rw [hNumber] at hFree ⊢
    apply Search.held (hHeld 0 (Nat.succ_pos last))
    apply ih hFree
    intro i hi
    rw [← hNumber]
    exact hHeld (i + 1) (by omega)

/-- Two searches that start with the same number go through the same passes. -/
theorem Search.unique {number passes passes' : Nat} {found found' : String}
    (h : Search owners key name number passes found)
    (h' : Search owners key name number passes' found') : passes' = passes ∧ found' = found := by
  induction h generalizing passes' with
  | free hFree =>
    cases h' with
    | free => exact ⟨rfl, rfl⟩
    | held hHeld =>
      rw [hFree] at hHeld
      cases hHeld
  | held hHeld hRest ih =>
    cases h' with
    | free hFree =>
      rw [hFree] at hHeld
      cases hHeld
    | held _ hRest' =>
      obtain ⟨rfl, rfl⟩ := ih hRest'
      exact ⟨rfl, rfl⟩

/-- On every table, and whatever the candidate, the search among the numbered forms of the candidate
with its digest ends: all searches that start with two make the same passes, at most one more than
there are names, and end with the form whose number is one more than the passes. Another key holds
each form with a smaller number. The name that is given is the candidate if it is free, else its
form with the digest if that is free, and else the name that the search ends with; no other key
holds it. -/
theorem search_disambiguate (owners : List (String × CanonicalKey)) (candidate : String)
    (key : CanonicalKey) (classList : String) :
    let hashed := candidate ++ "-" ++ shortDigest classList
    let given := disambiguate owners candidate key classList
    ∃ passes ≤ (heldNames owners).length + 1, ∃ found,
      (∀ n name, Search owners key hashed 2 n name ↔ n = passes ∧ name = found) ∧
      found = hashed ++ "-" ++ toString (passes + 1) ∧
      (∀ number, 2 ≤ number → number < passes + 1 →
        ∃ owner, owners.lookup (hashed ++ "-" ++ toString number) = some owner ∧ owner ≠ key) ∧
      given = (if isFree owners key candidate then candidate
        else if isFree owners key hashed then hashed
        else found) ∧
      ∀ owner, owners.lookup given = some owner → owner = key := by
  intro hashed given
  obtain ⟨last, hLast, hFree, hHeld, hGiven⟩ :=
    exists_disambiguate_eq owners candidate key classList
  have hForm : ∀ i, numbered hashed i = hashed ++ "-" ++ toString (2 + i) := by
    intro i
    rw [numbered, Nat.add_comm]
  have hFound : Search owners key hashed 2 (last + 1) (numbered hashed last) := by
    rw [hForm]
    apply search_of_first
    · rw [← hForm]
      exact hFree
    · intro i hi
      rw [← hForm]
      exact hHeld i hi
  refine ⟨last + 1, Nat.succ_le_succ hLast, numbered hashed last, ?_, rfl, ?_, hGiven, ?_⟩
  · intro n name
    constructor
    · exact hFound.unique
    · rintro ⟨rfl, rfl⟩
      exact hFound
  · intro number hStart hBefore
    obtain ⟨i, rfl⟩ := Nat.exists_eq_add_of_le hStart
    rw [← hForm, ← isFree_eq_false_iff]
    exact hHeld i (by omega)
  · exact isFree_eq_true_iff.mp (isFree_disambiguate owners candidate key classList)

end ClassCollapse.NameResolver
