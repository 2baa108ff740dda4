import ClassCollapse.Cache.Manifest

/-!
# Change sets

A change set sorts files into new, modified, unchanged and deleted ones by comparing their digests
with a manifest. All four lists are in the order of the keys.
-/

namespace ClassCollapse

/-- The keys of files by what happened to them since the last run. -/
structure ChangeSet where
  newFiles : List String
  modifiedFiles : List String
  deletedFiles : List String
  unchangedFiles : List String
deriving DecidableEq

namespace ChangeSet

def isEmpty (c : ChangeSet) : Bool :=
  c.newFiles.isEmpty && c.modifiedFiles.isEmpty && c.deletedFiles.isEmpty

/-- The number of files to process again. -/
def dirtyCount (c : ChangeSet) : Nat :=
  c.newFiles.length + c.modifiedFiles.length

inductive Status
  | new
  | modified
  | unchanged
deriving DecidableEq

def statusOf (m : Manifest) (key : String) (d : Digest) : Status :=
  match m.find? key with
  | none => .new
  | some entry => if entry.accepts d then .unchanged else .modified

def withStatus (m : Manifest) (current : Table Digest) (status : Status) : List String :=
  (current.entries.filter fun (key, d) => statusOf m key d = status).map (·.1)

def detect (current : Table Digest) (m : Manifest) : ChangeSet where
  newFiles := withStatus m current .new
  modifiedFiles := withStatus m current .modified
  deletedFiles := m.keys.filter fun key => !current.has key
  unchangedFiles := withStatus m current .unchanged

end ChangeSet

end ClassCollapse
