import ClassCollapse.Config.Basic
import ClassCollapse.Disk.Basic

/-!
# Discovering files

The files to process are those below the scan root whose name is scanned and which are in no
excluded directory. Links count by their own name and are not followed.
-/

namespace ClassCollapse.Disk

def isSource (scan : ScanConfig) : Place × Node → Bool
  | (_, .directory) => false
  | (place, _) =>
    !place.dropLast.any scan.isExcluded && (place.getLast?.any scan.isScanned)

def pathBelow (root : Path) (place : Place) : Path :=
  root.join ⟨Text.join "/" place⟩

/-- The files to process below a root, sorted by their paths. -/
def discover (d : Disk) (root : Path) (scan : ScanConfig) : Except IoError (List Path) :=
  match d.locate root with
  | .error cause => .error ⟨root, cause⟩
  | .ok place =>
    match d.node? place with
    | some .directory =>
      .ok ((((d.below place).filter (isSource scan)).map fun e => pathBelow root e.1).mergeSort
        Path.before)
    | some _ => .error ⟨root, .notADirectory⟩
    | none => .error ⟨root, .notFound⟩

end ClassCollapse.Disk
