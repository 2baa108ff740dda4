import ClassCollapse.Config.Basic
import ClassCollapse.Disk.Basic

/-!
# Checking a configuration

A configuration is refused with the first of its faults, in a fixed order.
-/

namespace ClassCollapse

/-- Why a configuration is refused. -/
inductive ConfigError
  | io (e : IoError)
  | parse
  | emptyFileTypes
  | emptyFileType
  | badPrefix (c : Char)
  | noTimeout
  | noEndpoint
  | noCachePath
deriving DecidableEq

namespace ConfigError

/-- The name of a field that has to be given and is not. -/
def missingField? : ConfigError → Option String
  | .emptyFileTypes => some "scan.file_types"
  | .noEndpoint => some "naming.endpoint"
  | .noCachePath => some "cache.path"
  | _ => none

def invalidValue? : ConfigError → Option String
  | .emptyFileType => some "scan.file_types entries must not be empty"
  | .badPrefix c =>
    some ("naming.prefix contains '" ++ String.singleton c ++
      "'; only letters, digits, '-' and '_' are allowed")
  | .noTimeout => some "naming.timeout_ms must be greater than zero"
  | _ => none

def message (e : ConfigError) : String :=
  match e.missingField?, e.invalidValue? with
  | some field, _ => "missing required field: " ++ field
  | none, some fault => "validation error: " ++ fault
  | none, none =>
    match e with
    | .io e => "failed to read " ++ e.message
    | _ => "failed to parse configuration"

end ConfigError

/-- The characters of names. -/
def isPrefixCharacter (c : Char) : Bool :=
  c.isAlphanum || c == '-' || c == '_'

/-- The first fault of a configuration. -/
def ProjectConfig.fault? (c : ProjectConfig) : Option ConfigError :=
  if c.scan.fileTypes.isEmpty then some .emptyFileTypes
  else if c.scan.fileTypes.any String.isEmpty then some .emptyFileType
  else match c.naming.namePrefix.toList.find? fun x => !isPrefixCharacter x with
    | some x => some (.badPrefix x)
    | none =>
      if c.naming.timeoutMs = 0 then some .noTimeout
      else if c.naming.useStrategy && Text.isBlankText c.naming.endpoint then some .noEndpoint
      else if Text.isBlankText c.cache.path then some .noCachePath
      else none

def ProjectConfig.validate (c : ProjectConfig) : Except ConfigError Unit :=
  match c.fault? with
  | some e => .error e
  | none => .ok ()

end ClassCollapse
