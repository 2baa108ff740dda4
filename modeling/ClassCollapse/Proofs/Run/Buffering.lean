import ClassCollapse.Proofs.Run.Flushing

/-!
# What a buffer holds for a path

A buffer holds one content for each path, in any spelling: what was added to it, one text after the
other. So a companion sheet gets what its components merged, in the order of the run.
-/

namespace ClassCollapse

namespace WriteBuffer

/-- The content that is buffered for a path. -/
def contentAt? (b : WriteBuffer) (path : Path) : Option String :=
  (b.get? path).map WriteTask.content

/-- The content of the first task for a path. -/
def contentIn? (tasks : List WriteTask) (path : Path) : Option String :=
  (tasks.find? fun t => t.path.same path).map WriteTask.content

theorem contentAt?_eq (b : WriteBuffer) (path : Path) :
    b.contentAt? path = contentIn? b.tasks path := by
  rw [contentAt?, get?_eq_find?, contentIn?]

theorem contentIn?_cons (t : WriteTask) (tasks : List WriteTask) (path : Path) :
    contentIn? (t :: tasks) path =
      if t.path.same path then some t.content else contentIn? tasks path := by
  rw [contentIn?, List.find?_cons]
  cases t.path.same path <;> rfl

theorem content_append (t : WriteTask) (blob : String) :
    (t.append blob).content = t.content ++ blob := by
  simp [WriteTask.content, WriteTask.append, String.join_append]

theorem contentIn?_addTo (path : Path) (blob : String) (tasks : List WriteTask) (other : Path) :
    contentIn? (addTo path blob tasks) other =
      if path.same other then some ((contentIn? tasks other).getD "" ++ blob)
      else contentIn? tasks other := by
  induction tasks with
  | nil =>
    have hNew : (⟨path, [blob]⟩ : WriteTask) = WriteTask.append ⟨path, []⟩ blob := rfl
    rw [addTo, contentIn?_cons, hNew, content_append]
    rfl
  | cons t tasks ih =>
    rw [addTo]
    by_cases hHere : t.path.same path = true
    · have hOther := Path.same_congr hHere other
      rw [if_pos hHere, contentIn?_cons, contentIn?_cons, ← hOther]
      have hPath : (t.append blob).path = t.path := rfl
      by_cases hSame : t.path.same other = true
      · rw [hPath, if_pos hSame, if_pos hSame, if_pos hSame, content_append]
        rfl
      · rw [hPath, if_neg hSame, if_neg hSame, if_neg hSame]
    · rw [if_neg hHere, contentIn?_cons, contentIn?_cons]
      by_cases hSame : t.path.same other = true
      · have hOther : ¬path.same other = true := by
          intro hPath
          rw [Path.same_comm] at hPath
          rw [Path.same_congr hSame, hPath] at hHere
          exact hHere rfl
        rw [if_pos hSame, if_pos hSame, if_neg hOther]
      · rw [if_neg hSame, if_neg hSame]
        exact ih

theorem contentAt?_add (b : WriteBuffer) (path : Path) (blob : String) (other : Path) :
    (b.add path blob).contentAt? other =
      if path.same other then some ((b.contentAt? other).getD "" ++ blob)
      else b.contentAt? other := by
  rw [contentAt?_eq, contentAt?_eq, tasks_add, contentIn?_addTo]

/-- A task holds what is buffered for its path. -/
theorem Apart.contentAt?_of_mem {b : WriteBuffer} (h : b.Apart) {t : WriteTask} (ht : t ∈ b.tasks) :
    b.contentAt? t.path = some t.content := by
  rw [contentAt?_eq]
  rw [Apart] at h
  generalize b.tasks = tasks at h ht ⊢
  induction tasks with
  | nil => cases ht
  | cons first tasks ih =>
    obtain ⟨hFirst, hRest⟩ := List.pairwise_cons.mp h
    rw [contentIn?_cons]
    rcases List.mem_cons.mp ht with rfl | hMem
    · exact if_pos (beq_self_eq_true _)
    · rw [hFirst t hMem, if_neg Bool.false_ne_true]
      exact ih hRest hMem

theorem exists_of_contentAt? {b : WriteBuffer} {path : Path} {content : String}
    (h : b.contentAt? path = some content) :
    ∃ t ∈ b.tasks, t.path.same path = true ∧ t.content = content := by
  obtain ⟨t, hFound, hContent⟩ := Option.map_eq_some_iff.mp h
  rw [get?_eq_find?] at hFound
  have hSame := List.find?_some hFound
  exact ⟨t, List.mem_of_find?_eq_some hFound, hSame, hContent⟩

end WriteBuffer

namespace Engine

open WriteBuffer

/-- What a rewritten file adds to a sheet, if anything. -/
def sheetText? (sheet : Path) (done : PendingFile × Injection) : Option String :=
  done.2.companion.bind fun companion =>
    if companion.1.same sheet then some companion.2 else none

theorem contentAt?_addSheet (writes : WriteBuffer) (done : PendingFile × Injection)
    (sheet : Path) : (addSheet writes done).contentAt? sheet =
      match sheetText? sheet done with
      | none => writes.contentAt? sheet
      | some text => some ((writes.contentAt? sheet).getD "" ++ text) := by
  rw [addSheet, sheetText?]
  split
  next hNone => rw [hNone]; rfl
  next path css hSome =>
    rw [hSome, contentAt?_add, Option.bind_some]
    dsimp only
    split
    · rfl
    · rfl

/-- Rewritten files are no sheets, so a sheet gets what the files beside it add. -/
theorem contentAt?_settle {now : UInt64} {state : WriteBuffer × ChangeCache}
    {done : PendingFile × Injection} (hDone : Placement.forPath? done.1.path ≠ none) {sheet : Path}
    (hSheet : Placement.forPath? sheet = none) :
    (settle now state done).1.contentAt? sheet = (addSheet state.1 done).contentAt? sheet := by
  obtain ⟨placement, hPlacement⟩ := Option.ne_none_iff_exists'.mp hDone
  have hOther := (same_eq_false_of_placement hSheet hPlacement).2
  rw [settle_eq]
  dsimp only
  rw [contentAt?_add, hOther, if_neg Bool.false_ne_true]

theorem contentAt?_settleAll (now : UInt64) (cache : ChangeCache)
    {done : List (PendingFile × Injection)}
    (hDone : ∀ x ∈ done, Placement.forPath? x.1.path ≠ none) {sheet : Path}
    (hSheet : Placement.forPath? sheet = none) :
    (done.foldl (settle now) (.empty, cache)).1.contentAt? sheet =
      if done.filterMap (sheetText? sheet) = [] then none
      else some (String.join (done.filterMap (sheetText? sheet))) := by
  induction done using List.reverseRecOn with
  | nil => rfl
  | append_singleton done last ih =>
    rw [List.foldl_append, List.foldl_cons, List.foldl_nil,
      contentAt?_settle (hDone last (by simp)) hSheet, contentAt?_addSheet,
      ih fun x hx => hDone x (List.mem_append_left _ hx), List.filterMap_append]
    generalize done.filterMap (sheetText? sheet) = texts
    cases hText : sheetText? sheet last with
    | none =>
      dsimp only
      rw [List.filterMap_cons_none hText, List.filterMap_nil, List.append_nil]
    | some text =>
      have hSome : texts ++ [text] ≠ [] := by simp
      dsimp only
      rw [List.filterMap_cons_some hText, List.filterMap_nil, if_neg hSome, String.join_append]
      by_cases hNone : texts = []
      · simp [hNone, String.join]
      · simp [hNone, String.join]

theorem apart_settleAll (now : UInt64) (cache : ChangeCache)
    (done : List (PendingFile × Injection)) :
    (done.foldl (settle now) (.empty, cache)).1.Apart := by
  induction done using List.reverseRecOn with
  | nil => exact List.Pairwise.nil
  | append_singleton done last ih =>
    rw [List.foldl_append, List.foldl_cons, List.foldl_nil, settle_eq]
    have hSheet : (addSheet (done.foldl (settle now) (.empty, cache)).1 last).Apart := by
      rw [addSheet]
      split
      · exact ih
      · exact ih.add _ _
    exact hSheet.add _ _

end Engine

end ClassCollapse
