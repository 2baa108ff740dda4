import ClassCollapse.Occurrence
import ClassCollapse.Proofs.Association
import ClassCollapse.Proofs.Distinct
import Mathlib.Data.List.Basic
import Mathlib.Data.List.Induction

/-!
# The index as a list of occurrences

Each part of an index that was filled from a list is what it would be if it were computed from the
list. So its positions stay in range, the known keys are those of the key order, the occurrences in
a file are those of the list in the same order, and what it returns for a file is computed from them.
-/

namespace ClassCollapse.OccurrenceIndex

def ofList (os : List Occurrence) : OccurrenceIndex :=
  os.foldl accumulate empty

theorem ofList_concat (os : List Occurrence) (o : Occurrence) :
    ofList (os ++ [o]) = (ofList os).accumulate o := by
  rw [ofList, List.foldl_append]
  rfl

/-! ## All parts of an index -/

/-- What the parts of an index are when it was filled from a list. The set of known keys has the keys
in order, each once. Every position is stored once, with the file of its occurrence, and there is one
entry for each file. -/
structure Indexes (index : OccurrenceIndex) (os : List Occurrence) : Prop where
  occurrences_eq : index.occurrences = os
  known_perm : index.known.Perm index.keys
  keys_eq : index.keys = (os.map (·.key)).eraseDups
  files_eq : index.positions.map Prod.fst = (os.map (·.file)).eraseDups
  file_eq : ∀ entry ∈ index.positions, ∀ i ∈ entry.2, ∃ o, os[i]? = some o ∧ o.file = entry.1
  positions_perm : (index.positions.flatMap Prod.snd).Perm (List.range os.length)

theorem map_fst_addPosition (file : String) (position : Nat) (l : List (String × List Nat)) :
    (addPosition file position l).map Prod.fst =
      if file ∈ l.map Prod.fst then l.map Prod.fst else l.map Prod.fst ++ [file] := by
  induction l with
  | nil => rfl
  | cons entry rest ih =>
    obtain ⟨first, list⟩ := entry
    rw [addPosition]
    by_cases hFirst : first = file
    · subst hFirst
      simp
    · rw [if_neg hFirst, List.map_cons, ih, List.map_cons]
      by_cases hRest : file ∈ rest.map Prod.fst
      · rw [if_pos hRest, if_pos (List.mem_cons_of_mem first hRest)]
      · rw [if_neg hRest, if_neg]
        · rfl
        · exact fun hMem => (List.mem_cons.mp hMem).elim (Ne.symm hFirst) hRest

theorem mem_addPosition {file : String} {position : Nat} {l : List (String × List Nat)}
    {entry : String × List Nat} (h : entry ∈ addPosition file position l) {i : Nat}
    (hi : i ∈ entry.2) :
    (∃ old ∈ l, old.1 = entry.1 ∧ i ∈ old.2) ∨ (entry.1 = file ∧ i = position) := by
  induction l with
  | nil =>
    rw [List.mem_singleton.mp h] at hi ⊢
    exact .inr ⟨rfl, List.mem_singleton.mp hi⟩
  | cons first rest ih =>
    rw [addPosition] at h
    split at h
    next hFirst =>
      rcases List.mem_cons.mp h with rfl | hRest
      · rcases List.mem_append.mp hi with hOld | hNew
        · exact .inl ⟨first, List.mem_cons_self, rfl, hOld⟩
        · exact .inr ⟨hFirst, List.mem_singleton.mp hNew⟩
      · exact .inl ⟨entry, List.mem_cons_of_mem first hRest, rfl, hi⟩
    next =>
      rcases List.mem_cons.mp h with rfl | hRest
      · exact .inl ⟨_, List.mem_cons_self, rfl, hi⟩
      · refine (ih hRest).imp_left ?_
        rintro ⟨old, hOld, hSame⟩
        exact ⟨old, List.mem_cons_of_mem first hOld, hSame⟩

/-- Adding a position stores it once and keeps the ones that are stored. -/
theorem flatMap_addPosition_perm (file : String) (position : Nat) (l : List (String × List Nat)) :
    ((addPosition file position l).flatMap Prod.snd).Perm (l.flatMap Prod.snd ++ [position]) := by
  induction l with
  | nil => exact .refl _
  | cons entry rest ih =>
    rw [addPosition]
    split
    · rw [List.flatMap_cons, List.flatMap_cons, List.append_assoc, List.append_assoc]
      exact List.perm_append_comm.append_left _
    · rw [List.flatMap_cons, List.flatMap_cons, List.append_assoc]
      exact ih.append_left _

theorem insertKey_of_mem {key : CanonicalKey} {known : List CanonicalKey} (h : key ∈ known) :
    insertKey key known = (false, known) :=
  if_pos h

theorem insertKey_of_notMem {key : CanonicalKey} {known : List CanonicalKey} (h : key ∉ known) :
    insertKey key known = (true, key :: known) :=
  if_neg h

/-- Where the known keys are those in order, a key goes into both or into none. -/
theorem keys_accumulate {index : OccurrenceIndex} (h : index.known.Perm index.keys)
    (o : Occurrence) : (index.accumulate o).known.Perm (index.accumulate o).keys ∧
      (index.accumulate o).keys =
        if o.key ∈ index.keys then index.keys else index.keys ++ [o.key] := by
  rw [OccurrenceIndex.accumulate]
  by_cases hOld : o.key ∈ index.known
  · rw [insertKey_of_mem hOld, if_pos (h.mem_iff.mp hOld)]
    exact ⟨h, rfl⟩
  · rw [insertKey_of_notMem hOld, if_neg (mt h.mem_iff.mpr hOld)]
    exact ⟨(h.cons o.key).trans (List.perm_append_singleton o.key index.keys).symm, rfl⟩

theorem Indexes.accumulate {index : OccurrenceIndex} {os : List Occurrence} (h : index.Indexes os)
    (o : Occurrence) : (index.accumulate o).Indexes (os ++ [o]) := by
  have hSize : index.size = os.length := congrArg List.length h.occurrences_eq
  obtain ⟨hKnown, hKeys⟩ := keys_accumulate h.known_perm o
  refine ⟨?_, hKnown, ?_, ?_, ?_, ?_⟩
  · rw [OccurrenceIndex.accumulate, h.occurrences_eq]
  · rw [hKeys, h.keys_eq, List.map_append, List.map_singleton, eraseDups_concat]
    simp only [List.mem_eraseDups]
  · rw [OccurrenceIndex.accumulate, map_fst_addPosition, h.files_eq, List.map_append,
      List.map_singleton, eraseDups_concat]
    simp only [List.mem_eraseDups]
  · intro entry hEntry i hi
    rcases mem_addPosition hEntry hi with ⟨old, hOld, hFile, hMem⟩ | ⟨hFile, rfl⟩
    · obtain ⟨other, hOther, hOwn⟩ := h.file_eq old hOld i hMem
      have hBound : i < os.length := (List.getElem?_eq_some_iff.mp hOther).1
      exact ⟨other, (List.getElem?_append_left hBound).trans hOther, hOwn.trans hFile⟩
    · refine ⟨o, ?_, hFile.symm⟩
      rw [hSize, List.getElem?_concat_length]
  · rw [List.length_append, List.length_singleton, List.range_succ]
    refine (flatMap_addPosition_perm o.file index.size index.positions).trans ?_
    rw [hSize]
    exact h.positions_perm.append_right _

theorem indexes_ofList (os : List Occurrence) : (ofList os).Indexes os := by
  induction os using List.reverseRecOn with
  | nil =>
    refine ⟨rfl, .refl _, rfl, rfl, ?_, .refl _⟩
    intro entry hEntry
    cases hEntry
  | append_singleton os o ih =>
    rw [ofList_concat]
    exact ih.accumulate o

/-! ## The occurrences in a file -/

/-- Every stored position is that of an occurrence. -/
def Sound (index : OccurrenceIndex) : Prop :=
  ∀ file, ∀ position ∈ index.positionsIn file, position < index.size

theorem Indexes.sound {index : OccurrenceIndex} {os : List Occurrence} (h : index.Indexes os) :
    index.Sound := by
  intro file i hi
  rw [positionsIn] at hi
  cases hLookup : index.positions.lookup file with
  | none =>
    rw [hLookup] at hi
    cases hi
  | some list =>
    rw [hLookup] at hi
    obtain ⟨o, hOwn, _⟩ := h.file_eq (file, list) (mem_of_lookup_eq_some hLookup) i hi
    rw [size, h.occurrences_eq]
    exact (List.getElem?_eq_some_iff.mp hOwn).1

theorem lookup_addPosition (file other : String) (position : Nat) (l : List (String × List Nat)) :
    (addPosition file position l).lookup other =
      if other = file then some ((l.lookup file).getD [] ++ [position]) else l.lookup other := by
  induction l with
  | nil =>
    rw [addPosition, lookup_cons_if, List.lookup_nil]
    by_cases h : other = file <;> simp [h]
  | cons entry rest ih =>
    obtain ⟨first, list⟩ := entry
    rw [addPosition]
    by_cases hFirst : first = file
    · subst hFirst
      rw [if_pos rfl, lookup_cons_if, lookup_cons_if, lookup_cons_if]
      by_cases h : other = first <;> simp [h]
    · have hFile : (file == first) = false := by simpa using Ne.symm hFirst
      rw [if_neg hFirst, lookup_cons_if, ih, lookup_cons_if, lookup_cons_if, hFile]
      by_cases h : other = first
      · simp [h, hFirst]
      · simp [h]

theorem positionsIn_accumulate (index : OccurrenceIndex) (o : Occurrence) (file : String) :
    (index.accumulate o).positionsIn file =
      index.positionsIn file ++ if file = o.file then [index.size] else [] := by
  rw [positionsIn, accumulate, lookup_addPosition]
  split
  next h => rw [h]; rfl
  next => rw [List.append_nil]; rfl

theorem inFile_accumulate {index : OccurrenceIndex} (h : index.Sound) (o : Occurrence)
    (file : String) :
    (index.accumulate o).inFile file =
      index.inFile file ++ if file = o.file then [o] else [] := by
  have hOld : (index.positionsIn file).filterMap (fun i => (index.accumulate o).occurrences[i]?) =
      index.inFile file := by
    refine List.filterMap_congr fun i hi => ?_
    exact List.getElem?_append_left (h file i hi)
  rw [inFile, positionsIn_accumulate, List.filterMap_append, hOld]
  split
  · have hLast : (index.accumulate o).occurrences[index.size]? = some o :=
      List.getElem?_concat_length
    rw [List.filterMap_cons_some hLast, List.filterMap_nil]
  · rfl

theorem inFile_ofList (os : List Occurrence) (file : String) :
    (ofList os).inFile file = os.filter fun o => o.file = file := by
  induction os using List.reverseRecOn with
  | nil => rfl
  | append_singleton os o ih =>
    rw [ofList_concat, inFile_accumulate (indexes_ofList os).sound, ih, List.filter_append]
    by_cases h : file = o.file
    · simp [h]
    · simp [h, Ne.symm h]

/-! ## Sorting by offset -/

/-- A list in ascending order of its offsets. Occurrences at the same offset keep their order. -/
structure StablySorted (os sorted : List Occurrence) : Prop where
  ascending : sorted.Pairwise fun a b => a.offset ≤ b.offset
  atOffset : ∀ n, (sorted.filter fun o => o.offset = n) = os.filter fun o => o.offset = n

theorem stablySorted_mergeSort (os : List Occurrence) :
    StablySorted os (os.mergeSort fun a b => decide (a.offset ≤ b.offset)) := by
  have hTrans : ∀ a b c : Occurrence, decide (a.offset ≤ b.offset) = true →
      decide (b.offset ≤ c.offset) = true → decide (a.offset ≤ c.offset) = true := by
    intro a b c hab hbc
    rw [decide_eq_true_eq] at hab hbc ⊢
    exact Nat.le_trans hab hbc
  have hTotal : ∀ a b : Occurrence,
      (decide (a.offset ≤ b.offset) || decide (b.offset ≤ a.offset)) = true := by
    intro a b
    rw [Bool.or_eq_true, decide_eq_true_eq, decide_eq_true_eq]
    exact Nat.le_total a.offset b.offset
  constructor
  · exact (List.pairwise_mergeSort hTrans hTotal os).imp of_decide_eq_true
  · intro n
    -- What stands at one offset is in order already, so it is a part of the sorted list.
    have hLevel : (os.filter fun o => o.offset = n).Pairwise fun a b =>
        decide (a.offset ≤ b.offset) = true := by
      refine List.pairwise_of_forall_mem_list fun a ha b hb => ?_
      rw [List.mem_filter, decide_eq_true_eq] at ha hb
      rw [ha.2, hb.2]
      exact decide_eq_true (Nat.le_refl n)
    have hPart := (List.sublist_mergeSort hTrans hTotal hLevel List.filter_sublist).filter
      fun o => decide (o.offset = n)
    rw [List.filter_filter] at hPart
    simp only [Bool.and_self] at hPart
    refine (hPart.eq_of_length ?_).symm
    exact ((List.mergeSort_perm os _).filter _).length_eq.symm

theorem mem_of_atOffset {l l' : List Occurrence}
    (h : ∀ n, (l.filter fun o => o.offset = n) = l'.filter fun o => o.offset = n) {o : Occurrence}
    (ho : o ∈ l) : o ∈ l' := by
  have hLevel : o ∈ l.filter fun other => other.offset = o.offset :=
    List.mem_filter.mpr ⟨ho, decide_eq_true rfl⟩
  rw [h] at hLevel
  exact List.mem_of_mem_filter hLevel

/-- Ascending lists with the same occurrences at each offset are equal. -/
theorem eq_of_atOffset {l l' : List Occurrence} (hl : l.Pairwise fun a b => a.offset ≤ b.offset)
    (hl' : l'.Pairwise fun a b => a.offset ≤ b.offset)
    (h : ∀ n, (l.filter fun o => o.offset = n) = l'.filter fun o => o.offset = n) : l = l' := by
  induction l generalizing l' with
  | nil =>
    refine (List.eq_nil_iff_forall_not_mem.mpr fun o ho => ?_).symm
    exact absurd (mem_of_atOffset (fun n => (h n).symm) ho) List.not_mem_nil
  | cons a l ih =>
    cases l' with
    | nil => exact absurd (mem_of_atOffset h List.mem_cons_self) List.not_mem_nil
    | cons b l' =>
      obtain ⟨hFirst, hRest⟩ := List.pairwise_cons.mp hl
      obtain ⟨hFirst', hRest'⟩ := List.pairwise_cons.mp hl'
      have hOffset : a.offset = b.offset := by
        apply Nat.le_antisymm
        · rcases List.mem_cons.mp (mem_of_atOffset (fun n => (h n).symm) List.mem_cons_self) with
            hSame | hLater
          · exact Nat.le_of_eq (hSame ▸ rfl)
          · exact hFirst b hLater
        · rcases List.mem_cons.mp (mem_of_atOffset h List.mem_cons_self) with hSame | hLater
          · exact Nat.le_of_eq (hSame ▸ rfl)
          · exact hFirst' a hLater
      have hHeads : a = b := by
        have hLevel := h a.offset
        rw [List.filter_cons_of_pos (by simp),
          List.filter_cons_of_pos (by simp [hOffset])] at hLevel
        exact List.head_eq_of_cons_eq hLevel
      subst hHeads
      refine congrArg (a :: ·) (ih hRest hRest' fun n => ?_)
      have hLevel := h n
      rw [List.filter_cons, List.filter_cons] at hLevel
      split at hLevel
      · exact List.tail_eq_of_cons_eq hLevel
      · exact hLevel

/-- There is one stable order by offset. -/
theorem eq_mergeSort_iff {os sorted : List Occurrence} :
    sorted = os.mergeSort (fun a b => decide (a.offset ≤ b.offset)) ↔ StablySorted os sorted := by
  have hSort := stablySorted_mergeSort os
  constructor
  · rintro rfl
    exact hSort
  · intro h
    exact eq_of_atOffset h.ascending hSort.ascending fun n =>
      (h.atOffset n).trans (hSort.atOffset n).symm

/-- An index that was filled by accumulating a list is this list in another form. For each file it
returns the stable sort by offset of its occurrences in the list, and their distinct keys in the
order of the list; the keys and the number of all occurrences are those of the list. No occurrence
is lost, stored twice or under the file of another one, no stored position is out of range, and the
known keys are those in order. -/
theorem refines_ofList (os : List Occurrence) :
    (∀ file sorted, sorted = (ofList os).forFile file ↔
      StablySorted (os.filter fun o => o.file = file) sorted) ∧
    (∀ file, (ofList os).keysInFile file =
      ((os.filter fun o => o.file = file).map (·.key)).eraseDups) ∧
    (ofList os).keys = (os.map (·.key)).eraseDups ∧
    (ofList os).size = os.length ∧
    (ofList os).Indexes os := by
  have hIndexes := indexes_ofList os
  refine ⟨?_, ?_, hIndexes.keys_eq, congrArg List.length hIndexes.occurrences_eq, hIndexes⟩
  · intro file sorted
    rw [forFile, inFile_ofList, eq_mergeSort_iff]
  · intro file
    rw [keysInFile, inFile_ofList]

end ClassCollapse.OccurrenceIndex
