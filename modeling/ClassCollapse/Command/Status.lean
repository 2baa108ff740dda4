import ClassCollapse.Command.Project
import ClassCollapse.Json.Writer

/-!
# The status of a project

The files below the scan root are compared with the change cache, and neither is changed.
-/

namespace ClassCollapse.Command

def changeSetJson (c : ChangeSet) : Json :=
  let texts := fun (l : List String) => Json.list (l.map Json.ofText)
  .record [("new_files", texts c.newFiles), ("modified_files", texts c.modifiedFiles),
    ("deleted_files", texts c.deletedFiles), ("unchanged_files", texts c.unchangedFiles)]

def changeSummary (c : ChangeSet) : String :=
  if c.isEmpty then "   Up to date (" ++ toString c.unchangedFiles.length ++ " file(s))"
  else "   Result: " ++ toString c.dirtyCount ++ " to rewrite, " ++
    toString c.deletedFiles.length ++ " deleted, " ++ toString c.unchangedFiles.length ++
    " unchanged"

def changeLines (c : ChangeSet) (verbose : Bool) : List String :=
  c.newFiles.map ("        New " ++ ·) ++ c.modifiedFiles.map ("   Modified " ++ ·) ++
    c.deletedFiles.map ("    Deleted " ++ ·) ++
    (if verbose then c.unchangedFiles.map ("  Unchanged " ++ ·) else []) ++ [changeSummary c]

def status (args : Arguments) (format : Format) : CommandM Unit := do
  let project ← loadProject args.config
  let files ← sourceFiles project
  let keyed := files.map fun path => (Path.fileKey project.paths.scanRoot path, path)
  let d ← disk
  let changes := (ChangeCache.load d project.paths.cacheFile).detectChanges d keyed
  match format with
  | .json => answer (changeSetJson changes).pretty
  | .text => if args.quiet then pure () else tellAll (changeLines changes args.verbose)

end ClassCollapse.Command
