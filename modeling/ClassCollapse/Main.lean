import ClassCollapse.Command.Execute
import ClassCollapse.Disk.Layout
import ClassCollapse.Naming.Service
import Std.Time.DateTime.Timestamp

/-!
# The program

Loads the files that a command may look at, carries the command out, prints what it says and stores
what it changed. The files and directories of the project are listed on standard input, one to a
line, as in `find . | classfold run`. There is no connection to a naming service, so every request
to one is refused.
-/

namespace ClassCollapse.Program

/-- The code of the system for a path that leads through a file. -/
def throughFileCode : UInt32 := 20

/-- What a path of the system leads to. -/
def systemNode? (path : Path) : IO (Option Node) := do
  try
    return some (.file (← IO.FS.readBinFile path.text))
  catch
    | .noFileOrDirectory .. => return none
    | .inappropriateType _ code _ =>
      return if code = throughFileCode then none else some .directory
    | e => throw e

/-- The paths at which a command looks for a configuration, with those that it creates. -/
def ownPaths (here : Path) (args : Command.Arguments) : List Path :=
  let inside := fun (directory : Path) =>
    [configFileName, "utilities.json"].map fun name => directory.join ⟨name⟩
  let named := match args.task with
    | .init directory => directory.toList
    | _ => args.config.toList
  here.ancestors.flatMap inside ++ named.flatMap fun path => ⟨path⟩ :: inside ⟨path⟩

/-- The paths that are listed on standard input. -/
partial def listedPaths (input : IO.FS.Stream) (found : List Path) : IO (List Path) := do
  let line ← input.getLine
  if line.isEmpty then return found.reverse
  listedPaths input (⟨line.trimAsciiEnd.toString⟩ :: found)

def loadPaths (d : Disk) : List Path → IO Disk
  | [] => return d
  | path :: paths => do
    match ← systemNode? path with
    | some node => loadPaths (d.withNode (Disk.placeFrom d.workingDirectory path) node) paths
    | none => loadPaths d paths

def storeNodes : List (Place × Node) → IO Unit
  | [] => return
  | (place, node) :: nodes => do
    match node with
    | .file content =>
      IO.FS.createDirAll (Path.ofParts true place.dropLast).text
      IO.FS.writeBinFile (Path.ofParts true place).text content
    | .directory => IO.FS.createDirAll (Path.ofParts true place).text
    | .link _ => return
    storeNodes nodes

/-- A source of random numbers that nobody can predict. -/
def freshSource : IO RandomSource := do
  let bytes ← IO.getRandomBytes 8
  return .ofSeed (bytes.data.toList.foldl (fun seed b => seed * 256 + b.toUInt64) 0)

def systemEnvironment : IO Command.Environment := do
  let now ← Std.Time.Timestamp.now
  return {
    now := UInt64.ofNat now.toMillisecondsSinceUnixEpoch.val.toNat
    nameSource := ← freshSource
    importSource := ← freshSource
    service := fun endpoint _ => Naming.serviceStrategy (fun _ => .refused) endpoint }

/-- Whether a command works on a project that exists. -/
def needsProject : Command.Task → Bool
  | .init _ => false
  | _ => true

def carryOut (args : Command.Arguments) : IO UInt32 := do
  let here : Path := ⟨toString (← IO.currentDir)⟩
  let listed ← if needsProject args.task then listedPaths (← IO.getStdin) [] else pure []
  let before ← loadPaths (.blank (Disk.placeFrom [] here)) (ownPaths here args ++ listed)
  let (result, session) := Command.execute (← systemEnvironment) args before
  IO.print session.printed
  IO.eprint session.reported
  storeNodes (session.disk.additions before)
  match result with
  | .ok _ => return 0
  | .error failure =>
    IO.eprintln ("error: " ++ failure.message)
    return 1

/-- Carries out the command of a command line, or says why it is none. -/
def runArguments (arguments : List String) : IO UInt32 := do
  match Command.parse arguments with
  | .ok args => carryOut args
  | .error refusal =>
    if refusal.code = 0 then IO.println refusal.message else IO.eprintln refusal.message
    return UInt32.ofNat refusal.code

end ClassCollapse.Program

def main (arguments : List String) : IO UInt32 :=
  ClassCollapse.Program.runArguments arguments
