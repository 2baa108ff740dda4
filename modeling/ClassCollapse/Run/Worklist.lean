import ClassCollapse.Run.Report
import ClassCollapse.Style.Placement

/-!
# The work list of a run

The files that wait for the second phase of a run stand in a list of their own. The record of the
files that were processed has a slot for each of them: what was done, or the index of a file that
waits. When the waiting files are done, the action of each stands at its index, and the slot with
this index takes it.
-/

namespace ClassCollapse

structure PendingFile where
  key : String
  path : Path
  content : String
  placement : Placement
  occurrences : Nat
  /-- The companion sheet that an earlier run left. -/
  existingSheet : Option String

/-- A processed file: done with, or waiting for the second phase at an index. -/
inductive Slot
  | done (key : String) (action : Action)
  | pending (index : Nat)
deriving DecidableEq

def Slot.index? : Slot → Option Nat
  | .done _ _ => none
  | .pending index => some index

/-- The files that wait, and the slots of the processed files in the order of processing. Each index
of a file that waits stands in one slot, and they stand there in their order. -/
structure Worklist where
  pending : List PendingFile
  slots : List Slot
  index_eq : slots.filterMap Slot.index? = List.range pending.length

namespace Worklist

def empty : Worklist :=
  ⟨[], [], rfl⟩

def conclude (w : Worklist) (key : String) (action : Action) : Worklist where
  pending := w.pending
  slots := w.slots ++ [.done key action]
  index_eq := by
    rw [List.filterMap_append, w.index_eq]
    exact List.append_nil _

def enqueue (w : Worklist) (file : PendingFile) : Worklist where
  pending := w.pending ++ [file]
  slots := w.slots ++ [.pending w.pending.length]
  index_eq := by
    rw [List.filterMap_append, w.index_eq, List.length_append, List.length_singleton,
      List.range_succ]
    rfl

/-- The log of slots. A slot with an index takes the action there, and leaves none. -/
def logOf (pending : List PendingFile) : List Slot → List (Option Action) → List (String × Action)
  | [], _ => []
  | .done key action :: slots, actions => (key, action) :: logOf pending slots actions
  | .pending index :: slots, actions =>
    match pending[index]?, actions[index]? with
    | some file, some (some action) =>
      (file.key, action) :: logOf pending slots (actions.set index none)
    | _, _ => logOf pending slots actions

def log (w : Worklist) (actions : List (Option Action)) : List (String × Action) :=
  logOf w.pending w.slots actions

end Worklist

end ClassCollapse
