import ClassCollapse.Command.Project
import ClassCollapse.Json.Writer

/-!
# Running over a project

The files below the scan root are rewritten, and a report is printed.
-/

namespace ClassCollapse.Command

def loadUtilities (path : Path) : CommandM UtilityTable := do
  match (← disk).readText path with
  | .error _ => throw (.utilities path)
  | .ok text =>
    match UtilityTable.parse? text with
    | some table => return table
    | none => throw (.utilities path)

def engineFor (env : Environment) (project : Project) (dryRun : Bool) : CommandM Engine := do
  let naming := project.config.naming
  let table ← loadUtilities project.paths.utilitiesFile
  let strategy :=
    if naming.useStrategy then some (env.service naming.endpoint naming.timeoutMs) else none
  let cache := ChangeCache.load (← disk) project.paths.cacheFile
  return .new project.paths.scanRoot cache table.compile
    (.new naming.namePrefix naming.maxInvocations strategy env.nameSource)
    ⟨project.config.scan.orderMatters, dryRun⟩ env.importSource env.now

def fileLines (dryRun verbose : Bool) : String × Action → List String
  | (key, .rewritten occurrences sheet) =>
    ("   " ++ (if dryRun then "Would rewrite " else "Rewrote ") ++ key ++ " (" ++
      toString occurrences ++ " class attribute(s))") ::
      (sheet.map fun s => "     Created " ++ s).toList
  | (key, .unsupported) => ["   Skipped " ++ key ++ " (no style strategy)"]
  | (key, .unchanged) => if verbose then ["   Skipped " ++ key ++ " (unchanged)"] else []
  | (key, .noClasses) => if verbose then ["   Skipped " ++ key ++ " (no classes)"] else []

def reportLines (report : RunReport) (verbose : Bool) : List String :=
  report.files.flatMap (fileLines report.dryRun verbose) ++ ["   " ++ report.summary]

def printReport (quiet verbose : Bool) (format : Format) (report : RunReport) : CommandM Unit :=
  match format with
  | .json => answer report.toJson.pretty
  | .text => if quiet then pure () else tellAll (reportLines report verbose)

def run (env : Environment) (args : Arguments) (overrides : ConfigOverrides) (dryRun : Bool)
    (format : Format) : CommandM Unit := do
  let project ← loadProject args.config
  let project := { project with config := project.config.override overrides }
  orFail .config project.config.validate
  let files ← sourceFiles project
  if !args.quiet && format = .text then
    tell ("   Scanning " ++ project.paths.scanRoot.text ++ " (" ++ toString files.length ++
      " file(s))")
  let engine ← engineFor env project dryRun
  let (result, d) := engine.runFiles files (← disk)
  setDisk d
  printReport args.quiet args.verbose format (← orFail .run result)

end ClassCollapse.Command
