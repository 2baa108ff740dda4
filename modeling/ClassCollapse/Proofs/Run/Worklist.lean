import ClassCollapse.Run.Engine
import Mathlib.Data.List.Basic

/-!
# Slots and the files that wait

The slots of a work list refer to the files that wait by index. Each index stands in one slot, so
with the files in the place of their indices the slots are the processed files in their order. No
slot finds its action taken by another one, so the log has the actions in the order of the files.
-/

namespace ClassCollapse

/-- A processed file: done with, or waiting for the second phase. -/
inductive Processed
  | done (key : String) (action : Action)
  | pending (file : PendingFile)

namespace Processed

def key : Processed → String
  | .done key _ => key
  | .pending file => file.key

def pending? : Processed → Option PendingFile
  | .done _ _ => none
  | .pending file => some file

end Processed

namespace Slot

/-- The processed file of a slot. -/
def processed? (pending : List PendingFile) : Slot → Option Processed
  | .done key action => some (.done key action)
  | .pending index => pending[index]?.map .pending

/-- What the log has for a slot that finds its action. -/
def entry? (pending : List PendingFile) (actions : List (Option Action)) :
    Slot → Option (String × Action)
  | .done key action => some (key, action)
  | .pending index =>
    match pending[index]?, actions[index]? with
    | some file, some (some action) => some (file.key, action)
    | _, _ => none

end Slot

namespace Worklist

/-! ## Indices -/

theorem index_lt {w : Worklist} {index : Nat} (h : .pending index ∈ w.slots) :
    index < w.pending.length := by
  rw [← List.mem_range, ← w.index_eq]
  exact List.mem_filterMap.mpr ⟨_, h, rfl⟩

theorem nodup_indices (w : Worklist) : (w.slots.filterMap Slot.index?).Nodup :=
  w.index_eq ▸ List.nodup_range

theorem filterMap_getElem?_range {α : Type} (l : List α) :
    (List.range l.length).filterMap (fun i => l[i]?) = l := by
  induction l with
  | nil => rfl
  | cons a l ih =>
    rw [List.length_cons, List.range_succ_eq_map, List.filterMap_cons_some List.getElem?_cons_zero,
      List.filterMap_map]
    exact congrArg (a :: ·) ih

/-! ## The processed files -/

/-- The processed files in the order of processing. -/
def processed (w : Worklist) : List Processed :=
  w.slots.filterMap (Slot.processed? w.pending)

theorem processed_conclude (w : Worklist) (key : String) (action : Action) :
    (w.conclude key action).processed = w.processed ++ [.done key action] := by
  rw [processed, conclude, List.filterMap_append]
  rfl

/-- A further file that waits leaves the ones before it at their indices. -/
theorem processed_enqueue (w : Worklist) (file : PendingFile) :
    (w.enqueue file).processed = w.processed ++ [.pending file] := by
  have hOld : w.slots.filterMap (Slot.processed? (w.pending ++ [file])) = w.processed := by
    refine List.filterMap_congr fun slot hSlot => ?_
    cases slot with
    | done key action => rfl
    | pending index =>
      rw [Slot.processed?, List.getElem?_append_left (index_lt hSlot)]
      rfl
  have hNew : Slot.processed? (w.pending ++ [file]) (.pending w.pending.length) =
      some (.pending file) := by
    rw [Slot.processed?, List.getElem?_concat_length]
    rfl
  rw [processed, enqueue, List.filterMap_append, hOld, List.filterMap_cons_some hNew,
    List.filterMap_nil]

def push (w : Worklist) : Processed → Worklist
  | .done key action => w.conclude key action
  | .pending file => w.enqueue file

theorem processed_push (w : Worklist) (x : Processed) :
    (w.push x).processed = w.processed ++ [x] := by
  cases x with
  | done key action => exact w.processed_conclude key action
  | pending file => exact w.processed_enqueue file

theorem pending_push (w : Worklist) (x : Processed) :
    (w.push x).pending = w.pending ++ x.pending?.toList := by
  cases x with
  | done key action => exact (List.append_nil _).symm
  | pending file => rfl

theorem done_mem_slots_iff {w : Worklist} {key : String} {action : Action} :
    .done key action ∈ w.slots ↔ .done key action ∈ w.processed := by
  rw [processed, List.mem_filterMap]
  constructor
  · intro hMem
    exact ⟨_, hMem, rfl⟩
  · rintro ⟨slot, hSlot, hSame⟩
    cases slot with
    | done key action =>
      cases hSame
      exact hSlot
    | pending index =>
      obtain ⟨file, _, hFile⟩ := Option.map_eq_some_iff.mp hSame
      cases hFile

theorem slots_push_eq_iff {w : Worklist} {x : Processed} {key : String} {action : Action} :
    (w.push x).slots = w.slots ++ [.done key action] ↔ x = .done key action := by
  cases x with
  | done key' action' => simp [push, conclude]
  | pending file => simp [push, enqueue]

/-- The files that wait are processed in the order of their indices. -/
theorem filterMap_processed (w : Worklist) :
    w.processed.filterMap Processed.pending? = w.pending := by
  have hSlot : ∀ slot : Slot, (slot.processed? w.pending).bind Processed.pending? =
      slot.index?.bind fun i => w.pending[i]? := by
    rintro (⟨key, action⟩ | index)
    · rfl
    · rw [Slot.processed?, Slot.index?, Option.bind_some]
      cases w.pending[index]? <;> rfl
  calc
    w.processed.filterMap Processed.pending? =
        w.slots.filterMap fun slot => (slot.processed? w.pending).bind Processed.pending? :=
      List.filterMap_filterMap
    _ = w.slots.filterMap fun slot => slot.index?.bind fun i => w.pending[i]? :=
      List.filterMap_congr fun slot _ => hSlot slot
    _ = (w.slots.filterMap Slot.index?).filterMap fun i => w.pending[i]? :=
      List.filterMap_filterMap.symm
    _ = w.pending := by rw [w.index_eq, filterMap_getElem?_range]

/-! ## The log -/

/-- Where no index stands twice, each slot finds its action as it was at the start. -/
theorem logOf_eq_filterMap (pending : List PendingFile) {slots : List Slot}
    (hNodup : (slots.filterMap Slot.index?).Nodup) (actions : List (Option Action)) :
    logOf pending slots actions = slots.filterMap (Slot.entry? pending actions) := by
  induction slots generalizing actions with
  | nil => rfl
  | cons slot slots ih =>
    cases slot with
    | done key action =>
      exact congrArg ((key, action) :: ·) (ih hNodup actions)
    | pending index =>
      obtain ⟨hOnce, hRest⟩ := List.nodup_cons.mp hNodup
      rw [logOf]
      split
      next file action hFile hAction =>
        have hEntry : Slot.entry? pending actions (.pending index) = some (file.key, action) := by
          rw [Slot.entry?, hFile, hAction]
        rw [ih hRest, List.filterMap_cons_some hEntry]
        refine congrArg ((file.key, action) :: ·) (List.filterMap_congr fun other hOther => ?_)
        cases other with
        | done key action => rfl
        | pending other =>
          have hApart : index ≠ other := by
            rintro rfl
            exact hOnce (List.mem_filterMap.mpr ⟨_, hOther, rfl⟩)
          rw [Slot.entry?, Slot.entry?, List.getElem?_set_ne hApart]
      next hNone =>
        have hEntry : Slot.entry? pending actions (.pending index) = none := by
          rw [Slot.entry?]
          split
          next file action hFile hAction => exact (hNone file action hFile hAction).elim
          next => rfl
        rw [ih hRest, List.filterMap_cons_none hEntry]

theorem log_eq_filterMap (w : Worklist) (actions : List (Option Action)) :
    w.log actions = w.slots.filterMap (Slot.entry? w.pending actions) :=
  logOf_eq_filterMap w.pending w.nodup_indices actions

end Worklist

namespace Engine

/-- The processed files of an engine. -/
def processed (e : Engine) : List Processed :=
  e.worklist.processed

def push (e : Engine) (x : Processed) : Engine :=
  { e with worklist := e.worklist.push x }

theorem processed_push (e : Engine) (x : Processed) :
    (e.push x).processed = e.processed ++ [x] :=
  e.worklist.processed_push x

theorem processed_of_worklist_eq {e e' : Engine} {x : Processed}
    (h : e'.worklist = e.worklist.push x) : e'.processed = e.processed ++ [x] := by
  rw [processed, h]
  exact e.processed_push x

theorem pending_push (e : Engine) (x : Processed) :
    (e.push x).pending = e.pending ++ x.pending?.toList :=
  e.worklist.pending_push x

theorem filterMap_processed (e : Engine) :
    e.processed.filterMap Processed.pending? = e.pending :=
  e.worklist.filterMap_processed

/-- The log of processed files, where the rewritten files are those that wait, in the same order. -/
def log (e : Engine) : List Processed → List (PendingFile × Injection) → List (String × Action)
  | [], _ => []
  | .done key action :: processed, done => (key, action) :: e.log processed done
  | .pending file :: processed, d :: done => (file.key, e.rewrittenAction d) :: e.log processed done
  | .pending _ :: processed, [] => e.log processed []

/-- From any index on, the slots find the actions of the rewritten files in their order. -/
theorem filterMap_entry?_eq_log (e : Engine) {pending : List PendingFile}
    (done : List (PendingFile × Injection)) {slots : List Slot} {k n : Nat}
    (hIndices : slots.filterMap Slot.index? = List.range' k n) (hBound : k + n = pending.length) :
    slots.filterMap (Slot.entry? pending (e.actions done)) =
      e.log (slots.filterMap (Slot.processed? pending)) (done.drop k) := by
  induction slots generalizing k n with
  | nil => rfl
  | cons slot slots ih =>
    cases slot with
    | done key action =>
      exact congrArg ((key, action) :: ·) (ih hIndices hBound)
    | pending index =>
      cases n with
      | zero => cases hIndices
      | succ n =>
        obtain ⟨rfl, hRest⟩ := List.cons.inj hIndices
        have hFile : pending[index]? = some pending[index] := List.getElem?_eq_getElem (by omega)
        have hProcessed : Slot.processed? pending (.pending index) =
            some (.pending pending[index]) := by
          rw [Slot.processed?, hFile]
          rfl
        have hStep := ih hRest (by omega)
        rw [List.filterMap_cons_some hProcessed]
        by_cases hDone : index < done.length
        · have hEntry : Slot.entry? pending (e.actions done) (.pending index) =
              some (pending[index].key, e.rewrittenAction done[index]) := by
            rw [Slot.entry?, hFile, actions, List.getElem?_map, List.getElem?_eq_getElem hDone]
            rfl
          rw [List.filterMap_cons_some hEntry, List.drop_eq_getElem_cons hDone, log, hStep]
        · have hEntry : Slot.entry? pending (e.actions done) (.pending index) = none := by
            rw [Slot.entry?, hFile, actions, List.getElem?_map, List.getElem?_eq_none (by omega)]
            rfl
          rw [List.filterMap_cons_none hEntry, hStep, List.drop_eq_nil_of_le (by omega),
            List.drop_eq_nil_of_le (by omega), log]

theorem log_actions (e : Engine) (done : List (PendingFile × Injection)) :
    e.worklist.log (e.actions done) = e.log e.processed done := by
  have hEntries := e.filterMap_entry?_eq_log done
    (e.worklist.index_eq.trans List.range_eq_range') (Nat.zero_add _)
  rw [List.drop_zero] at hEntries
  exact (e.worklist.log_eq_filterMap _).trans hEntries

/-- The report has the processed files in their order. -/
theorem report_eq (e : Engine) (done : List (PendingFile × Injection)) :
    e.report done = ⟨e.log e.processed done, e.resolver.names.length, e.resolver.invocations,
      e.options.dryRun⟩ := by
  rw [report, log_actions]

end Engine

end ClassCollapse
