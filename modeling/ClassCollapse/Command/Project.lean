import ClassCollapse.Command.Arguments
import ClassCollapse.Command.Session
import ClassCollapse.Disk.Walk

/-!
# Projects

A project is a directory with a configuration. It is the one that the command line names, or the
nearest one from the working directory upwards.
-/

namespace ClassCollapse.Command

structure Project where
  config : ProjectConfig
  paths : ProjectPaths

/-- The nearest directory upwards that has a configuration file. -/
def nearestProject? (d : Disk) (start : Path) : Option Path :=
  start.ancestors.find? fun directory => d.has (directory.join ⟨configFileName⟩)

/-- The directory and the configuration file of the project that the command line names: a file with
its directory, or a directory with its file. -/
def namedProject (d : Disk) (path : Path) : Path × Path :=
  if d.isFile path then (path.parent?.getD ⟨"."⟩, path) else (path, path.join ⟨configFileName⟩)

def loadProject (config : Option String) : CommandM Project := do
  let d ← disk
  let (directory, file) ←
    match config with
    | some path => pure (namedProject d ⟨path⟩)
    | none =>
      match nearestProject? d d.here with
      | some directory => pure (directory, directory.join ⟨configFileName⟩)
      | none => throw (.noProject d.here)
  let config ← orFail .config (Config.loadFile d file)
  return ⟨config, config.paths directory⟩

def sourceFiles (project : Project) : CommandM (List Path) := do
  let d ← disk
  if !d.isDirectory project.paths.scanRoot then throw (.noScanRoot project.paths.scanRoot)
  orFail (.run ∘ .io) (d.discover project.paths.scanRoot project.config.scan)

end ClassCollapse.Command
