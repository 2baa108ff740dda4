import ClassCollapse.Config.Reader
import ClassCollapse.Run.Engine

/-!
# Sessions

A command works on a session: the disk and what has been printed so far. It ends with success or
with an error, and in both cases the session shows what was done before.
-/

namespace ClassCollapse.Command

structure Session where
  disk : Disk
  printed : String := ""
  reported : String := ""

/-- What a command takes from outside besides the disk. -/
structure Environment where
  now : UInt64
  nameSource : RandomSource
  importSource : RandomSource
  /-- The naming service at an endpoint, asked with a limit in milliseconds. -/
  service : (endpoint : String) → (timeoutMs : Nat) → NamingStrategy

/-- Why a command ends without success. -/
inductive Failure
  | config (e : ConfigError)
  | run (e : RunError)
  | utilities (path : Path)
  | setup (cause : IoCause)
  | alreadyInitialized (directory : Path)
  | noProject (start : Path)
  | noScanRoot (path : Path)
deriving DecidableEq

def Failure.message : Failure → String
  | .config e => e.message
  | .run e => e.message
  | .utilities path => "failed to load utility table " ++ path.text
  | .setup cause => cause.message
  | .alreadyInitialized directory =>
    configFileName ++ " already exists in '" ++ directory.text ++ "'"
  | .noProject start =>
    "could not find " ++ configFileName ++ " in " ++ start.text ++
      " or any parent directory (run `classfold init`)"
  | .noScanRoot path =>
    "scan root " ++ path.text ++ " does not exist or is not a directory"

/-- A step of a command. -/
abbrev CommandM := ExceptT Failure (StateM Session)

def disk : CommandM Disk := do
  return (← get).disk

def setDisk (d : Disk) : CommandM Unit :=
  modify fun s => { s with disk := d }

/-- Prints a line of the answer. -/
def answer (line : String) : CommandM Unit :=
  modify fun s => { s with printed := s.printed ++ line ++ "\n" }

/-- Prints a line about the progress. -/
def tell (line : String) : CommandM Unit :=
  modify fun s => { s with reported := s.reported ++ line ++ "\n" }

def tellAll (lines : List String) : CommandM Unit :=
  lines.forM tell

/-- The value of a result, whose error ends the command. -/
def orFail {ε α : Type} (failure : ε → Failure) : Except ε α → CommandM α
  | .ok x => pure x
  | .error e => throw (failure e)

end ClassCollapse.Command
