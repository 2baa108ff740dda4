import ClassCollapse.Disk.Path

/-!
# Disks

A disk holds files, directories and links at places below its root. A place is the list of names
that leads to it. Operations on paths follow links, at most forty for one path, and either give a
result or say why they were refused; an operation that changes the disk yields the changed disk.
-/

namespace ClassCollapse

inductive IoCause
  | notFound
  | invalidData
  | isADirectory
  | notADirectory
  | alreadyExists
  | linkLoop
deriving DecidableEq

def IoCause.message : IoCause → String
  | .notFound => "no such file or directory"
  | .invalidData => "the content is not UTF-8 text"
  | .isADirectory => "is a directory"
  | .notADirectory => "not a directory"
  | .alreadyExists => "already exists"
  | .linkLoop => "too many links"

structure IoError where
  path : Path
  cause : IoCause
deriving DecidableEq

def IoError.message (e : IoError) : String :=
  e.path.text ++ ": " ++ e.cause.message

/-- The names that lead from the root to a place. -/
abbrev Place := List String

inductive Node
  | file (content : ByteArray)
  | directory
  | link (target : Path)

/-- What stands where, and the place that relative paths start from. -/
structure Disk where
  nodes : List (Place × Node)
  workingDirectory : Place

namespace Disk

def here (d : Disk) : Path :=
  Path.ofParts true d.workingDirectory

/-- What stands at a place. The root is a directory. -/
def node? (d : Disk) (place : Place) : Option Node :=
  if place = [] then some .directory else d.nodes.lookup place

def put (d : Disk) (place : Place) (node : Node) : Disk :=
  { d with nodes := (place, node) :: d.nodes.filter (·.1 ≠ place) }

/-- The disk without a place and all that is below it. -/
def remove (d : Disk) (place : Place) : Disk :=
  { d with nodes := d.nodes.filter fun e => (Path.below? place e.1).isNone }

def maxLinks : Nat := 40

/-- Takes the steps of a way from a place on, where `onLink` goes on after a link. There may be
nothing at the last step. Where a file is to be created, its name must not have a slash after it. -/
def advance (d : Disk) (creates : Bool) (onLink : Place → List Path.Step → Except IoCause Place)
    (place : Place) : List Path.Step → Except IoCause Place
  | [] => .ok place
  | .root :: steps => advance d creates onLink [] steps
  | .here :: steps => advance d creates onLink place steps
  | .slash :: steps => advance d creates onLink place steps
  | .up :: steps => advance d creates onLink place.dropLast steps
  | .name s :: steps =>
    if creates && steps = [.slash] then .error .isADirectory
    else match d.node? (place ++ [s]) with
      | some .directory => advance d creates onLink (place ++ [s]) steps
      | some (.file _) => if steps.isEmpty then .ok (place ++ [s]) else .error .notADirectory
      | some (.link target) => onLink place (target.way ++ steps)
      | none => if steps.isEmpty then .ok (place ++ [s]) else .error .notFound

/-- Takes the steps of a way through at most `links` links. -/
def follow (d : Disk) (creates : Bool) :
    (links : Nat) → Place → List Path.Step → Except IoCause Place
  | 0 => d.advance creates fun _ _ => .error .linkLoop
  | links + 1 => d.advance creates (follow d creates links)

def locate (d : Disk) (p : Path) : Except IoCause Place :=
  if p.text.isEmpty then .error .notFound
  else d.follow false maxLinks d.workingDirectory p.way

/-- The place of a file that is to be written, which may be missing. -/
def locateTarget (d : Disk) (p : Path) : Except IoCause Place :=
  if p.text.isEmpty then .error .notFound
  else d.follow true maxLinks d.workingDirectory p.way

def find? (d : Disk) (p : Path) : Option Node :=
  match d.locate p with
  | .ok place => d.node? place
  | .error _ => none

def isDirectory (d : Disk) (p : Path) : Bool :=
  match d.find? p with
  | some .directory => true
  | _ => false

def isFile (d : Disk) (p : Path) : Bool :=
  match d.find? p with
  | some (.file _) => true
  | _ => false

def has (d : Disk) (p : Path) : Bool :=
  d.isFile p || d.isDirectory p

def read (d : Disk) (p : Path) : Except IoCause ByteArray :=
  match d.locate p with
  | .error cause => .error cause
  | .ok place =>
    match d.node? place with
    | some (.file content) => .ok content
    | some .directory => .error .isADirectory
    | _ => .error .notFound

def readText (d : Disk) (p : Path) : Except IoCause String :=
  match d.read p with
  | .error cause => .error cause
  | .ok content =>
    match String.fromUTF8? content with
    | some text => .ok text
    | none => .error .invalidData

/-- The disk with this content in a file, which is created if its directory exists. -/
def write (d : Disk) (p : Path) (content : ByteArray) : Except IoCause Disk :=
  match d.locateTarget p with
  | .error cause => .error cause
  | .ok place =>
    match d.node? place with
    | some .directory => .error .isADirectory
    | _ => .ok (d.put place (.file content))

/-- The disk with a new directory, whose name is the last step of the way and is not followed. -/
def makeDirectory (d : Disk) (p : Path) : Except IoCause Disk :=
  let steps := p.way.filter (· ≠ .slash)
  match steps.getLast? with
  | none => .error .notFound
  | some last =>
    match d.follow false maxLinks d.workingDirectory (steps.dropLast ++ [.here]) with
    | .error cause => .error cause
    | .ok place =>
      match last with
      | .name s =>
        if (d.node? (place ++ [s])).isSome then .error .alreadyExists
        else .ok (d.put (place ++ [s]) .directory)
      | _ => .error .alreadyExists

def ensureDirectory (d : Disk) (p : Path) : Except IoCause Unit × Disk :=
  match d.makeDirectory p with
  | .ok made => (.ok (), made)
  | .error cause => (if d.isDirectory p then .ok () else .error cause, d)

/-- Makes a directory after the missing ones above it, where `depth` bounds their number. -/
def makeWithin (p : Path) : (depth : Nat) → Disk → Except IoCause Unit × Disk
  | 0, d => d.ensureDirectory p
  | depth + 1, d =>
    if p.text.isEmpty then (.ok (), d)
    else match d.ensureDirectory p with
      | (.error .notFound, d) =>
        match p.parent? with
        | none => (.error .notFound, d)
        | some parent =>
          match makeWithin parent depth d with
          | (.error cause, d) => (.error cause, d)
          | (.ok _, d) => d.ensureDirectory p
      | result => result

/-- Makes a directory and the ones above it, of which any may exist. Directories that were made
before an error arose stay. -/
def makeDirectories (d : Disk) (p : Path) : Except IoCause Unit × Disk :=
  makeWithin p (p.components.length + 1) d

/-- All that stands below a place, by the names that lead there from it. -/
def below (d : Disk) (place : Place) : List (Place × Node) :=
  d.nodes.filterMap fun (other, node) =>
    match Path.below? place other with
    | some (name :: names) => some (name :: names, node)
    | _ => none

def makeParent (d : Disk) (p : Path) : Except IoError Unit × Disk :=
  match p.parent? with
  | none => (.ok (), d)
  | some parent =>
    let (result, d) := d.makeDirectories parent
    (result.mapError fun cause => ⟨parent, cause⟩, d)

/-- Puts a content into a file, in a directory that is made if it is missing. The error names the
path at fault; directories that were made before it arose stay. -/
def save (d : Disk) (p : Path) (content : ByteArray) : Except IoError Unit × Disk :=
  match d.makeParent p with
  | (.error e, d) => (.error e, d)
  | (.ok _, d) =>
    match d.write p content with
    | .error cause => (.error ⟨p, cause⟩, d)
    | .ok written => (.ok (), written)

end Disk

end ClassCollapse
