import ClassCollapse.Config.Error
import ClassCollapse.Toml.Reader

/-!
# Reading a configuration

Every section and every field may be left out. A section is a table whose unknown keys do not
matter, or an array of its fields in order. A moment stands for a section without fields.
-/

namespace ClassCollapse.Config

/-- The values of the fields of a section, as far as they are given. -/
def fields? (names : List String) : Toml → Option (List (Option Toml))
  | .table _ entries => some (names.map fun name => entries.lookup name)
  | .array items => some (ofItems items)
  | .tables items => some (ofItems items)
  | .moment _ => some (names.map fun _ => none)
  | _ => none
where
  ofItems (items : List Toml) : List (Option Toml) :=
    (items.map some ++ names.map fun _ => none).take names.length

def text? : Toml → Option String
  | .string s => some s
  | _ => none

def truth? : Toml → Option Bool
  | .boolean b => some b
  | _ => none

def natural? : Toml → Option Nat
  | .integer n => if 0 ≤ n then some n.toNat else none
  | _ => none

def texts? : Toml → Option (List String)
  | .array items => items.mapM text?
  | .tables items => items.mapM text?
  | _ => none

def textOrTexts? : Toml → Option (List String)
  | .string s => some [s]
  | value => texts? value

/-- The value of a field, or its default if it is left out. -/
def orDefault {α : Type} (read : Toml → Option α) (default : α) : Option Toml → Option α
  | none => some default
  | some value => read value

def scanNames : List String := ["root", "file_types", "excluded_directories", "order_matters"]

def scan? (value : Toml) : Option ScanConfig :=
  let defaults : ScanConfig := {}
  match fields? scanNames value with
  | some [root, fileTypes, excludedDirectories, orderMatters] => do
    let root ← orDefault text? defaults.root root
    let fileTypes ← orDefault textOrTexts? defaults.fileTypes fileTypes
    let excludedDirectories ← orDefault texts? defaults.excludedDirectories excludedDirectories
    let orderMatters ← orDefault truth? defaults.orderMatters orderMatters
    some ⟨root, fileTypes, excludedDirectories, orderMatters⟩
  | _ => none

def namingNames : List String :=
  ["prefix", "use_strategy", "endpoint", "max_invocations", "timeout_ms"]

def naming? (value : Toml) : Option NamingConfig :=
  let defaults : NamingConfig := {}
  match fields? namingNames value with
  | some [namePrefix, useStrategy, endpoint, maxInvocations, timeoutMs] => do
    let namePrefix ← orDefault text? defaults.namePrefix namePrefix
    let useStrategy ← orDefault truth? defaults.useStrategy useStrategy
    let endpoint ← orDefault text? defaults.endpoint endpoint
    let maxInvocations ← orDefault natural? defaults.maxInvocations maxInvocations
    let timeoutMs ← orDefault natural? defaults.timeoutMs timeoutMs
    some ⟨namePrefix, useStrategy, endpoint, maxInvocations, timeoutMs⟩
  | _ => none

def css? (value : Toml) : Option CssConfig :=
  let defaults : CssConfig := {}
  match fields? ["utilities"] value with
  | some [utilities] => (orDefault text? defaults.utilities utilities).map fun u => ⟨u⟩
  | _ => none

def cache? (value : Toml) : Option CacheConfig :=
  let defaults : CacheConfig := {}
  match fields? ["path"] value with
  | some [path] => (orDefault text? defaults.path path).map fun p => ⟨p⟩
  | _ => none

def ofDocument? (document : Toml.Entries) : Option ProjectConfig := do
  let scan ← orDefault scan? {} (document.lookup "scan")
  let naming ← orDefault naming? {} (document.lookup "naming")
  let css ← orDefault css? {} (document.lookup "css")
  let cache ← orDefault cache? {} (document.lookup "cache")
  some ⟨scan, naming, css, cache⟩

def load (s : String) : Except ConfigError ProjectConfig :=
  match (Toml.parse? s).bind ofDocument? with
  | none => .error .parse
  | some config => config.validate.map fun _ => config

def loadFile (d : Disk) (path : Path) : Except ConfigError ProjectConfig :=
  match d.readText path with
  | .ok text => load text
  | .error cause => .error (.io ⟨path, cause⟩)

end ClassCollapse.Config
