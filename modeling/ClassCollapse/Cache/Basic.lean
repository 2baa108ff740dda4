import ClassCollapse.Cache.ChangeSet
import ClassCollapse.Disk.Basic

/-!
# The change cache

The cache is a manifest with the file that it is kept in. A cache file that is missing or cannot be
read counts as empty, so every file is processed again.
-/

namespace ClassCollapse

structure ChangeCache where
  path : Path
  manifest : Manifest

namespace ChangeCache

def manifestAt? (d : Disk) (path : Path) : Option Manifest :=
  match d.readText path with
  | .ok text => Manifest.parse? text
  | .error _ => none

def load (d : Disk) (path : Path) : ChangeCache :=
  ⟨path, (manifestAt? d path).getD Table.empty⟩

/-- Whether a file with this content has to be processed. -/
def isModified (c : ChangeCache) (key content : String) : Bool :=
  match c.manifest.find? key with
  | none => true
  | some entry => !entry.accepts (Digest.ofText content)

/-- The entry for a file that was read as one text and written back as another. -/
def newEntry (now : UInt64) (content written : String) : CacheEntry :=
  ⟨Digest.ofText content, Digest.ofText written, now, algorithmTag⟩

/-- Remembers that a file was read as one text and written back as another. -/
def record (c : ChangeCache) (now : UInt64) (key content written : String) : ChangeCache :=
  { c with manifest := c.manifest.insert key (newEntry now content written) }

def forget (c : ChangeCache) (key : String) : ChangeCache :=
  { c with manifest := c.manifest.erase key }

def hashFile (d : Disk) (path : Path) : Except IoError Digest :=
  match d.read path with
  | .ok content => .ok (Digest.ofBytes content)
  | .error cause => .error ⟨path, cause⟩

/-- The digests of the files that can be read, by their keys. -/
def hashFiles (d : Disk) (files : List (String × Path)) : Table Digest :=
  Table.ofList (files.filterMap fun (key, path) =>
    (hashFile d path).toOption.map fun digest => (key, digest))

def detectChanges (c : ChangeCache) (d : Disk) (files : List (String × Path)) : ChangeSet :=
  ChangeSet.detect (hashFiles d files) c.manifest

def save (c : ChangeCache) (d : Disk) : Except IoError Unit × Disk :=
  d.save c.path c.manifest.toText.toUTF8

end ChangeCache

end ClassCollapse
