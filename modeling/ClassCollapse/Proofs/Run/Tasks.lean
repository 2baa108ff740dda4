import ClassCollapse.Run.WriteBuffer
import Mathlib.Data.List.Basic

/-!
# The task of a path

A buffer finds the task of a path by the position that it keeps for the path. This is the task that
a search of the list finds, so an addition extends the first task for its path, in any spelling, or
puts a new one at the end.
-/

namespace ClassCollapse

theorem Path.same_comm (p q : Path) : p.same q = q.same p :=
  BEq.comm

theorem Path.same_congr {p q : Path} (h : p.same q = true) (other : Path) :
    p.same other = q.same other := by
  rw [same, same, beq_iff_eq.mp h]

namespace WriteBuffer

/-! ## Searching the list -/

/-- Adds to the first task of a path, or a task at the end. -/
def addTo (path : Path) (blob : String) : List WriteTask → List WriteTask
  | [] => [⟨path, [blob]⟩]
  | t :: tasks =>
    if t.path.same path then t.append blob :: tasks else t :: addTo path blob tasks

theorem addTo_fresh {path : Path} {tasks : List WriteTask} (blob : String)
    (h : ∀ t ∈ tasks, t.path.same path = false) :
    addTo path blob tasks = tasks ++ [⟨path, [blob]⟩] := by
  induction tasks with
  | nil => rfl
  | cons first tasks ih =>
    rw [addTo, h first List.mem_cons_self, if_neg Bool.false_ne_true,
      ih fun t ht => h t (List.mem_cons_of_mem first ht)]
    rfl

theorem mem_addTo {path : Path} {blob : String} {tasks : List WriteTask} {t : WriteTask}
    (h : t ∈ addTo path blob tasks) : t ∈ tasks ∨ t.path.same path = true := by
  induction tasks with
  | nil =>
    rw [List.mem_singleton.mp h]
    exact .inr (beq_self_eq_true _)
  | cons first tasks ih =>
    rw [addTo] at h
    split at h
    next hSame =>
      rcases List.mem_cons.mp h with rfl | hRest
      · exact .inr hSame
      · exact .inl (List.mem_cons_of_mem first hRest)
    next =>
      rcases List.mem_cons.mp h with rfl | hRest
      · exact .inl List.mem_cons_self
      · exact (ih hRest).imp_left (List.mem_cons_of_mem first)

theorem mem_addTo_of_mem {path : Path} {blob : String} {tasks : List WriteTask} {t : WriteTask}
    (h : t ∈ tasks) (hOther : t.path.same path = false) : t ∈ addTo path blob tasks := by
  induction tasks with
  | nil => cases h
  | cons first tasks ih =>
    rw [addTo]
    split
    next hSame =>
      rcases List.mem_cons.mp h with rfl | hRest
      · rw [hOther] at hSame
        cases hSame
      · exact List.mem_cons_of_mem _ hRest
    next =>
      rcases List.mem_cons.mp h with rfl | hRest
      · exact List.mem_cons_self
      · exact List.mem_cons_of_mem _ (ih hRest)

theorem path_of_mem_addTo {path : Path} {blob : String} {tasks : List WriteTask} {t : WriteTask}
    (h : t ∈ addTo path blob tasks) : t.path = path ∨ ∃ t' ∈ tasks, t'.path = t.path := by
  induction tasks with
  | nil =>
    rw [List.mem_singleton.mp h]
    exact .inl rfl
  | cons first tasks ih =>
    rw [addTo] at h
    split at h
    · rcases List.mem_cons.mp h with rfl | hRest
      · exact .inr ⟨first, List.mem_cons_self, rfl⟩
      · exact .inr ⟨t, List.mem_cons_of_mem first hRest, rfl⟩
    · rcases List.mem_cons.mp h with rfl | hRest
      · exact .inr ⟨t, List.mem_cons_self, rfl⟩
      · refine (ih hRest).imp_right ?_
        rintro ⟨t', ht', hSame⟩
        exact ⟨t', List.mem_cons_of_mem first ht', hSame⟩

/-! ## By position -/

theorem get?_eq_find? (b : WriteBuffer) (path : Path) :
    b.get? path = b.tasks.find? fun t => t.path.same path := by
  rw [get?, position?, b.position_eq, List.findIdx?_map, List.find?_eq_bind_findIdx?_getElem?]
  rfl

theorem addTo_eq_of_findIdx? {path : Path} (blob : String) {tasks : List WriteTask} {i : Nat}
    (h : (tasks.map WriteTask.path).findIdx? (·.same path) = some i) :
    addTo path blob tasks = tasks.modify i (·.append blob) := by
  induction tasks generalizing i with
  | nil => cases h
  | cons t tasks ih =>
    rw [List.map_cons, List.findIdx?_cons] at h
    rw [addTo]
    split at h
    next hSame =>
      cases h
      rw [if_pos hSame, List.modify_zero_cons]
    next hOther =>
      obtain ⟨j, hRest, rfl⟩ := Option.map_eq_some_iff.mp h
      rw [if_neg hOther, ih hRest, List.modify_succ_cons]

theorem tasks_add (b : WriteBuffer) (path : Path) (blob : String) :
    (b.add path blob).tasks = addTo path blob b.tasks := by
  have hPosition : b.position? path = (b.tasks.map WriteTask.path).findIdx? (·.same path) :=
    b.position_eq path
  rw [add]
  split
  next i hFound => exact (addTo_eq_of_findIdx? blob (hPosition.symm.trans hFound)).symm
  next hNone =>
    rw [hPosition, List.findIdx?_eq_none_iff] at hNone
    exact (addTo_fresh blob fun t ht => hNone t.path (List.mem_map_of_mem ht)).symm

/-! ## Tasks apart -/

/-- Tasks of one buffer are for different paths. -/
def Apart (b : WriteBuffer) : Prop :=
  b.tasks.Pairwise fun t t' => t.path.same t'.path = false

theorem pairwise_addTo {path : Path} {blob : String} {tasks : List WriteTask}
    (h : tasks.Pairwise fun t t' => t.path.same t'.path = false) :
    (addTo path blob tasks).Pairwise fun t t' => t.path.same t'.path = false := by
  induction tasks with
  | nil => exact List.pairwise_singleton _ _
  | cons t tasks ih =>
    obtain ⟨hFirst, hRest⟩ := List.pairwise_cons.mp h
    rw [addTo]
    split
    · exact List.pairwise_cons.mpr ⟨hFirst, hRest⟩
    next hOther =>
      refine List.pairwise_cons.mpr ⟨?_, ih hRest⟩
      intro t' ht'
      rcases mem_addTo ht' with hOld | hNew
      · exact hFirst t' hOld
      · rw [Path.same_comm, Path.same_congr hNew, Path.same_comm]
        simpa using hOther

theorem Apart.add {b : WriteBuffer} (h : b.Apart) (path : Path) (blob : String) :
    (b.add path blob).Apart := by
  rw [Apart, tasks_add]
  exact pairwise_addTo h

end WriteBuffer

end ClassCollapse
