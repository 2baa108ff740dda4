import ClassCollapse.Disk.Basic

/-!
# Laying disks out

A disk is laid out by putting nodes at places. The directories above a new node are made with it.
-/

namespace ClassCollapse.Disk

/-- The place to which a path leads from `start` if there is no link on the way. -/
def placeFrom (start : Place) (p : Path) : Place :=
  p.components.foldl (fun place step => match step with
    | .root => []
    | .here => place
    | .up => place.dropLast
    | .name s => place ++ [s]) start

/-- The disk with a directory at a place and at each place above it, where there was nothing. -/
def withDirectory (d : Disk) (place : Place) : Disk :=
  (List.range (place.length + 1)).foldl (fun d n =>
    if (d.node? (place.take n)).isSome then d else d.put (place.take n) .directory) d

def withNode (d : Disk) (place : Place) (node : Node) : Disk :=
  (d.withDirectory place.dropLast).put place node

/-- A disk on which there is nothing but the working directory. -/
def blank (workingDirectory : Place) : Disk :=
  withDirectory ⟨[], workingDirectory⟩ workingDirectory

def holdsAt (d : Disk) (place : Place) (node : Node) : Bool :=
  match d.node? place, node with
  | some (.file a), .file b => a.data = b.data
  | some .directory, .directory => true
  | some (.link p), .link q => p = q
  | _, _ => false

/-- The nodes of a disk that another disk does not have, with their places. -/
def additions (d before : Disk) : List (Place × Node) :=
  d.nodes.filter fun (place, node) => !before.holdsAt place node

end ClassCollapse.Disk
