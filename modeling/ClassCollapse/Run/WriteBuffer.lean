import ClassCollapse.Disk.Basic

/-!
# Buffered writes

A run keeps its writes in a buffer until it is known to succeed. What is added to one path, in any
spelling, is written to it as one content, in the order of the additions. The tasks stand in a list,
and the task of a path is found by its position, which is kept beside the list.
-/

namespace ClassCollapse

structure WriteTask where
  path : Path
  blobs : List String
deriving DecidableEq

def WriteTask.content (t : WriteTask) : String :=
  String.join t.blobs

def WriteTask.append (t : WriteTask) (blob : String) : WriteTask :=
  { t with blobs := t.blobs ++ [blob] }

namespace WriteBuffer

/-- The position that is kept for a path, in any spelling. -/
def positionIn (positions : List (Path × Nat)) (path : Path) : Option Nat :=
  (positions.find? fun entry => entry.1.same path).map Prod.snd

theorem positionIn_concat (positions : List (Path × Nat)) (path : Path) (n : Nat) (other : Path) :
    positionIn (positions ++ [(path, n)]) other =
      (positionIn positions other).or (if path.same other then some n else none) := by
  rw [positionIn, positionIn, List.find?_append, Option.map_or, List.find?_singleton]
  split <;> rfl

end WriteBuffer

/-- The tasks in the order in which their paths were first added, with their positions. The position
that is kept for a path is that of its task, and none is kept for a path without a task. -/
structure WriteBuffer where
  tasks : List WriteTask
  positions : List (Path × Nat)
  position_eq : ∀ path, WriteBuffer.positionIn positions path =
    (tasks.map WriteTask.path).findIdx? (·.same path)

namespace WriteBuffer

def empty : WriteBuffer :=
  ⟨[], [], fun _ => rfl⟩

def position? (b : WriteBuffer) (path : Path) : Option Nat :=
  positionIn b.positions path

theorem map_path_modify (tasks : List WriteTask) (i : Nat) (blob : String) :
    (tasks.modify i (·.append blob)).map WriteTask.path = tasks.map WriteTask.path := by
  apply List.ext_getElem?
  intro j
  rw [List.getElem?_map, List.getElem?_map, List.getElem?_modify]
  split
  · cases tasks[j]? <;> rfl
  · cases tasks[j]? <;> rfl

/-- Adds to the task at a position. -/
def extendAt (b : WriteBuffer) (i : Nat) (blob : String) : WriteBuffer where
  tasks := b.tasks.modify i (·.append blob)
  positions := b.positions
  position_eq path := by rw [map_path_modify, b.position_eq]

/-- Puts a task at the end and keeps its position. -/
def addTask (b : WriteBuffer) (path : Path) (blob : String) : WriteBuffer where
  tasks := b.tasks ++ [⟨path, [blob]⟩]
  positions := b.positions ++ [(path, b.tasks.length)]
  position_eq other := by
    rw [positionIn_concat, b.position_eq, List.map_append, List.map_singleton, List.findIdx?_append,
      List.findIdx?_singleton, List.length_map]
    split
    · rw [Option.map_some, Nat.zero_add]
    · rfl

/-- Adds to the task of a path, or a task at the end. -/
def add (b : WriteBuffer) (path : Path) (blob : String) : WriteBuffer :=
  match b.position? path with
  | some i => b.extendAt i blob
  | none => b.addTask path blob

def get? (b : WriteBuffer) (path : Path) : Option WriteTask :=
  (b.position? path).bind fun i => b.tasks[i]?

/-- Writes tasks one after the other. An error leaves the disk as it was when it arose. -/
def flushTasks : List WriteTask → Disk → Except IoError Unit × Disk
  | [], d => (.ok (), d)
  | t :: tasks, d =>
    match d.save t.path t.content.toUTF8 with
    | (.error e, d) => (.error e, d)
    | (.ok _, d) => flushTasks tasks d

def flush (b : WriteBuffer) (d : Disk) : Except IoError Nat × Disk :=
  let (result, d) := flushTasks b.tasks d
  (result.map fun _ => b.tasks.length, d)

end WriteBuffer

end ClassCollapse
