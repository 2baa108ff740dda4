import ClassCollapse.Text.Blank

/-!
# Paths

A path keeps the text it was written with. What it names is decided by its components: empty parts
and `.` parts between slashes name nothing, except a `.` that starts a relative path. Paths are
compared and sorted by their components.
-/

namespace ClassCollapse

/-- A path as it is written, with slashes between its parts. -/
structure Path where
  text : String
deriving DecidableEq

namespace Path

/-- A step of a path. The order of the constructors is the order of sorting. -/
inductive Component
  | root
  | here
  | up
  | name (s : String)
deriving DecidableEq, Ord

def Component.text : Component → String
  | .root => "/"
  | .here => "."
  | .up => ".."
  | .name s => s

def split : List Char → List (List Char)
  | [] => [[]]
  | '/' :: cs => [] :: split cs
  | c :: cs => Text.extendFirst c (split cs)

def isAbsolute (p : Path) : Bool :=
  p.text.toList.head? == some '/'

/-- The parts between slashes, without the empty one in front of the root slash. -/
def parts (p : Path) : List String :=
  let all := (split p.text.toList).map String.ofList
  if p.isAbsolute then all.tail else all

def ofParts (absolute : Bool) (parts : List String) : Path :=
  ⟨(if absolute then "/" else "") ++ Text.join "/" parts⟩

/-- Whether a part that is not the first one of a relative path names a step. -/
def isStep (part : String) : Bool :=
  part != "" && part != "."

def step (part : String) : Component :=
  if part = "." then .here else if part = ".." then .up else .name part

def components (p : Path) : List Component :=
  match p.isAbsolute, p.parts with
  | true, parts => .root :: (parts.filter isStep).map step
  | false, [] => []
  | false, first :: parts =>
    (if first = "" then [] else [step first]) ++ (parts.filter isStep).map step

/-- Drops the parts at the end that name no step. -/
def dropSilent (parts : List String) : List String :=
  (parts.reverse.dropWhile fun part => !isStep part).reverse

/-- The parts up to the last one that names a step, where `.` is one at the start of a relative
path. -/
def trimParts : (absolute : Bool) → List String → List String
  | false, "." :: parts => "." :: dropSilent parts
  | _, parts => dropSilent parts

def trimmedParts (p : Path) : List String :=
  trimParts p.isAbsolute p.parts

/-- The path without its last step. The root and the empty path have none. -/
def parent? (p : Path) : Option Path :=
  if p.trimmedParts.isEmpty then none
  else some (ofParts p.isAbsolute (trimParts p.isAbsolute p.trimmedParts.dropLast))

/-- At most `depth` paths: the path itself, the path without its last step and so on. -/
def ancestorsWithin (p : Path) : (depth : Nat) → List Path
  | 0 => []
  | depth + 1 =>
    match p.parent? with
    | none => [p]
    | some parent => p :: ancestorsWithin parent depth

def ancestors (p : Path) : List Path :=
  p.ancestorsWithin (p.components.length + 1)

/-- The last step, if it is a name. -/
def fileName? (p : Path) : Option String :=
  match p.trimmedParts.getLast? with
  | some part => if part = "." ∨ part = ".." then none else some part
  | none => none

/-- A name cut at its last dot, unless that is its first character or there is none. -/
def splitExtension (name : String) : String × Option String :=
  let reversed := name.toList.reverse
  match reversed.dropWhile (· ≠ '.') with
  | [] => (name, none)
  | _ :: before =>
    if before.isEmpty then (name, none)
    else (String.ofList before.reverse,
      some (String.ofList (reversed.takeWhile (· ≠ '.')).reverse))

def extension? (p : Path) : Option String :=
  p.fileName?.bind fun name => (splitExtension name).2

/-- The path with another extension. A path without a name stays as it is. Where only a dot would be
left in front of the old extension, that extension is dropped instead. -/
def withExtension (p : Path) (extension : String) : Path :=
  match p.fileName? with
  | none => p
  | some name =>
    let folder := p.trimmedParts.dropLast
    match splitExtension name with
    | (stem, none) => ofParts p.isAbsolute (folder ++ [stem ++ "." ++ extension])
    | (stem, some _) =>
      if stem = "." ∧ p.parts = p.trimmedParts then ofParts p.isAbsolute (folder ++ [".."])
      else ofParts p.isAbsolute (folder ++ [stem ++ "." ++ extension])

/-- A path that is taken relative to another one. An absolute path stays as it is. -/
def join (p q : Path) : Path :=
  if q.isAbsolute then q
  else if p.text.isEmpty || p.text.toList.getLast? == some '/' then ⟨p.text ++ q.text⟩
  else ⟨p.text ++ "/" ++ q.text⟩

/-- What follows `base` in a list that starts with it. -/
def below? {α : Type} [DecidableEq α] : (base steps : List α) → Option (List α)
  | [], steps => some steps
  | b :: base, s :: steps => if b = s then below? base steps else none
  | _ :: _, [] => none

/-- The key of a file: its steps below the root, or all its steps if it is not below the root,
with slashes between them. -/
def fileKey (root p : Path) : String :=
  Text.join "/" (((below? root.components p.components).getD p.components).map Component.text)

def before (p q : Path) : Bool :=
  (compare p.components q.components).isLE

/-- Whether two paths have the same steps. -/
def same (p q : Path) : Bool :=
  p.components == q.components

def endsWithSlash (p : Path) : Bool :=
  p.text.toList.getLast? == some '/'

/-- A step of the way to what a path names. All parts between slashes that are not empty are steps
here, and so is a slash at the end. -/
inductive Step
  | root
  | here
  | up
  | name (s : String)
  | slash
deriving DecidableEq

def Step.ofPart (part : String) : Step :=
  if part = "." then .here else if part = ".." then .up else .name part

/-- The way to what a path names. -/
def way (p : Path) : List Step :=
  (if p.isAbsolute then [.root] else []) ++
    (p.parts.filter fun part => part ≠ "").map Step.ofPart ++
    (if p.endsWithSlash then [.slash] else [])

end Path

end ClassCollapse
