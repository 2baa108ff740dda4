import ClassCollapse.Command.Session

/-!
# Setting a project up

A new project has a configuration file with all defaults, a small utility table and an empty scan
root.
-/

namespace ClassCollapse.Command

/-- A text of lines, each with its line feed. -/
def lines (l : List String) : String :=
  String.join (l.map (· ++ "\n"))

def defaultConfig : String :=
  lines [
    "[scan]",
    "# Directory walked for source files, relative to this file.",
    "root = \"src\"",
    "file_types = [\".astro\", \".tsx\", \".jsx\", \".vue\", \".html\"]",
    "excluded_directories = [\"node_modules\", \".git\", \"dist\"]",
    "# When true, \"p-4 flex\" and \"flex p-4\" get different names.",
    "order_matters = false",
    "",
    "[naming]",
    "prefix = \"twk-\"",
    "# Ask a text-completion endpoint for readable names instead of hashes.",
    "use_strategy = false",
    "endpoint = \"http://localhost:8787\"",
    "max_invocations = 999",
    "timeout_ms = 10000",
    "",
    "[css]",
    "# Utility class -> CSS declarations.",
    "utilities = \"utilities.json\"",
    "",
    "[cache]",
    "path = \"classfold.lock\""]

def exampleUtilities : String :=
  lines [
    "\x7b",
    "  \"flex\": \"display: flex;\",",
    "  \"items-center\": \"align-items: center;\",",
    "  \"p-4\": \"padding: 1rem;\",",
    "  \"mt-2\": \"margin-top: 0.5rem;\",",
    "  \"rounded\": \"border-radius: 0.25rem;\",",
    "  \"font-semibold\": \"font-weight: 600;\",",
    "  \"text-sm\": \"font-size: 0.875rem; line-height: 1.25rem;\",",
    "  \"text-gray-600\": \"color: #4b5563;\",",
    "  \"bg-red-500\": \"background-color: #ef4444;\"",
    "\x7d"]

def writeNew (path : Path) (content : String) : CommandM Unit := do
  setDisk (← orFail .setup ((← disk).write path content.toUTF8))

/-- Sets a project up in a directory, which is the working directory if none is named. An existing
configuration is refused, and an existing utility table is kept. -/
def init (quiet : Bool) (directory : Option String) : CommandM Unit := do
  let d ← disk
  let project := (directory.map Path.mk).getD d.here
  let config := project.join ⟨configFileName⟩
  let utilities := project.join ⟨"utilities.json"⟩
  if d.has config then throw (.alreadyInitialized project)
  let (made, d) := d.makeDirectories (project.join ⟨"src"⟩)
  setDisk d
  orFail .setup made
  if !quiet then tell ("  Initializing classfold in " ++ project.text)
  writeNew config defaultConfig
  let keep := (← disk).has utilities
  if !keep then writeNew utilities exampleUtilities
  if !quiet then
    tell ("     Created " ++ config.text)
    if !keep then tell ("     Created " ++ utilities.text)

end ClassCollapse.Command
