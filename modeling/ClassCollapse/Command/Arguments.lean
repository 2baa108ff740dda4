import ClassCollapse.Config.Paths

/-!
# Command line arguments

A command line is a command with its own options and with the global ones, which may also stand
before the command. It is read from left to right, and the first fault that is met decides how it is
refused. The value of an option is checked when the next option or the end is reached.
-/

namespace ClassCollapse.Command

inductive Format
  | text
  | json
deriving DecidableEq

inductive Task
  | init (directory : Option String)
  | run (overrides : ConfigOverrides) (dryRun : Bool) (format : Format)
  | status (format : Format)
deriving DecidableEq

structure Arguments where
  quiet : Bool
  verbose : Bool
  config : Option String
  task : Task
deriving DecidableEq

/-- Why a command line is not carried out. -/
inductive Refusal
  | unknownArgument
  | invalidValue
  | valueValidation
  | invalidSubcommand
  | argumentConflict
  | tooManyValues
  | missingSubcommand
  | helpForMissingSubcommand
  | help
  | version
deriving DecidableEq

/-- The exit code of a refusal. Asking for help or the version is no error. -/
def Refusal.code : Refusal → Nat
  | .help => 0
  | .version => 0
  | _ => 2

def usage : String :=
  "Usage: classfold [OPTIONS] <init [DIR] | run | status>"

def Refusal.message : Refusal → String
  | .help => usage
  | .version => "classfold 0.1.0"
  | _ => "error: the command line is not understood\n\n" ++ usage

/-- An option without a value. -/
inductive Switch
  | quiet
  | verbose
  | help
  | version
  | dryRun
  | orderMatters
  | noNaming
deriving DecidableEq

/-- An option with a value. -/
inductive Setting
  | config
  | maxInvocations
  | format
deriving DecidableEq

/-- Where arguments stand: before the command, or after the command of this name. -/
inductive Scope
  | top
  | init
  | run
  | status
deriving DecidableEq

def Scope.switches : Scope → List (String × Switch)
  | .top => [("quiet", .quiet), ("verbose", .verbose), ("help", .help), ("version", .version)]
  | .run => [("quiet", .quiet), ("verbose", .verbose), ("help", .help), ("dry-run", .dryRun),
      ("order-matters", .orderMatters), ("no-naming", .noNaming)]
  | _ => [("quiet", .quiet), ("verbose", .verbose), ("help", .help)]

def Scope.switchLetters : Scope → List (Char × Switch)
  | .top => [('q', .quiet), ('v', .verbose), ('h', .help), ('V', .version)]
  | _ => [('q', .quiet), ('v', .verbose), ('h', .help)]

def Scope.settings : Scope → List (String × Setting)
  | .run => [("config", .config), ("max-invocations", .maxInvocations), ("format", .format)]
  | .status => [("config", .config), ("format", .format)]
  | _ => [("config", .config)]

def Scope.settingLetters : Scope → List (Char × Setting)
  | .run => [('f', .format)]
  | .status => [('f', .format)]
  | _ => []

def Scope.ofName? : String → Option Scope
  | "init" => some .init
  | "run" => some .run
  | "status" => some .status
  | _ => none

/-- An option that was given: all values are checked. -/
structure Given where
  switches : List Switch := []
  config : Option String := none
  maxInvocations : Option Nat := none
  format : Option Format := none
  directory : Option String := none
deriving DecidableEq

/-- The state of reading a scope. An option with a value is pending until its value is checked, and
it awaits its value as long as it has none and the next argument may be one. -/
structure Reading where
  given : Given := {}
  pending : Option (Setting × Option String) := none
  awaiting : Bool := false
  /-- Whether `--` has been read, after which there are no options. -/
  plain : Bool := false

/-- The natural number of 64 bits that is written in digits, with or without a plus sign. -/
def natural? (s : String) : Option Nat :=
  let digits := match s.toList with
    | '+' :: rest => rest
    | cs => cs
  let value := digits.foldl (fun n d => n * 10 + (d.toNat - 48)) 0
  if !digits.isEmpty && digits.all Char.isDigit && value < UInt64.size then some value else none

/-- Accepts a value for an option that has none yet. -/
def Given.set (g : Given) (setting : Setting) (value : String) : Except Refusal Given :=
  match setting with
  | .config =>
    if g.config.isSome then .error .argumentConflict
    else .ok { g with config := some value }
  | .maxInvocations =>
    if g.maxInvocations.isSome then .error .argumentConflict
    else match natural? value with
      | some n => .ok { g with maxInvocations := some n }
      | none => .error .valueValidation
  | .format =>
    if g.format.isSome then .error .argumentConflict
    else match value with
      | "text" => .ok { g with format := some .text }
      | "json" => .ok { g with format := some .json }
      | _ => .error .invalidValue

/-- Checks the option that is pending. -/
def Reading.settle (r : Reading) : Except Refusal Reading :=
  match r.pending with
  | none => .ok r
  | some (_, none) => .error .invalidValue
  | some (setting, some value) =>
    (r.given.set setting value).map fun given =>
      { r with given, pending := none, awaiting := false }

def Reading.switch (r : Reading) (s : Switch) : Except Refusal Reading :=
  match r.settle with
  | .error refusal => .error refusal
  | .ok r =>
    match s with
    | .help => .error .help
    | .version => .error .version
    | s =>
      if s ∈ r.given.switches then .error .argumentConflict
      else .ok { r with given := { r.given with switches := s :: r.given.switches } }

/-- Reads an option with the value that is attached to it, or to wait for. -/
def Reading.setting (r : Reading) (s : Setting) (attached : Option String) :
    Except Refusal Reading :=
  match r.settle with
  | .error refusal => .error refusal
  | .ok r =>
    match attached with
    | some value => (r.given.set s value).map fun given => { r with given }
    | none => .ok { r with pending := some (s, none), awaiting := true }

/-- The name and the attached value of a long option. -/
def splitLong (cs : List Char) : String × Option String :=
  match cs.dropWhile (· ≠ '=') with
  | [] => (String.ofList cs, none)
  | _ :: value => (String.ofList (cs.takeWhile (· ≠ '=')), some (String.ofList value))

def Reading.long (scope : Scope) (r : Reading) (cs : List Char) : Except Refusal Reading :=
  let (name, attached) := splitLong cs
  match scope.settings.lookup name with
  | some s => r.setting s attached
  | none =>
    match scope.switches.lookup name with
    | none => .error .unknownArgument
    | some s => if attached.isSome then .error .tooManyValues else r.switch s

/-- Reads options that are written as letters. What follows the letter of an option with a value is
its value, with or without an equals sign. -/
def Reading.letters (scope : Scope) (r : Reading) : List Char → Except Refusal Reading
  | [] => .ok r
  | c :: cs =>
    match scope.settingLetters.lookup c with
    | some s =>
      match cs with
      | [] => r.setting s none
      | '=' :: value => r.setting s (some (String.ofList value))
      | value => r.setting s (some (String.ofList value))
    | none =>
      match scope.switchLetters.lookup c with
      | none => .error .unknownArgument
      | some s =>
        match r.switch s with
        | .error refusal => .error refusal
        | .ok r => letters scope r cs

/-- Reads an argument that is no option. -/
def Reading.word (scope : Scope) (r : Reading) (s : String) : Except Refusal Reading :=
  match scope with
  | .init =>
    if r.given.directory.isSome then .error .unknownArgument
    else r.settle.map fun r => { r with given := { r.given with directory := some s } }
  | .top =>
    if r.plain && (s = "help" || (Scope.ofName? s).isSome) then .error .unknownArgument
    else .error .invalidSubcommand
  | _ => .error .unknownArgument

def Reading.argument (scope : Scope) (r : Reading) (s : String) : Except Refusal Reading :=
  if r.plain then r.word scope s
  else if s = "--" then .ok { r with plain := true }
  else match s.toList, r.pending, r.awaiting with
    | '-' :: '-' :: cs, _, _ => r.long scope cs
    | '-' :: c :: cs, _, _ => r.letters scope (c :: cs)
    | _, some (setting, none), true =>
      .ok { r with pending := some (setting, some s), awaiting := false }
    | _, _, _ => r.word scope s

def readAll (scope : Scope) (r : Reading) : List String → Except Refusal Given
  | [] => r.settle.map (·.given)
  | s :: rest =>
    match r.argument scope s with
    | .error refusal => .error refusal
    | .ok r => readAll scope r rest

/-- Asking for help about a command, or a command that does not exist. -/
def helpAbout : List String → Refusal
  | [] => .help
  | [name] => if name = "help" || (Scope.ofName? name).isSome then .help else .invalidSubcommand
  | _ => .invalidSubcommand

/-- A switch that is given before or after the command. -/
def eitherHas (s : Switch) (before after : Given) : Bool :=
  s ∈ before.switches || s ∈ after.switches

def taskOf (g : Given) : Scope → Task
  | .run =>
    .run ⟨decide (Switch.orderMatters ∈ g.switches), decide (Switch.noNaming ∈ g.switches),
      g.maxInvocations⟩ (decide (Switch.dryRun ∈ g.switches)) (g.format.getD .text)
  | .status => .status (g.format.getD .text)
  | _ => .init g.directory

/-- Reads the arguments up to the command and then those of the command. -/
def readTop (r : Reading) : List String → Except Refusal Arguments
  | [] =>
    match r.settle with
    | .error refusal => .error refusal
    | .ok r =>
      if r.given = {} then .error .helpForMissingSubcommand else .error .missingSubcommand
  | s :: rest =>
    match if r.plain || r.awaiting then none else Scope.ofName? s with
    | some scope => do
      let given ← readAll scope {} rest
      let top ← r.settle
      return ⟨eitherHas .quiet top.given given, eitherHas .verbose top.given given,
        given.config <|> top.given.config, taskOf given scope⟩
    | none =>
      if s = "help" && !r.plain && !r.awaiting then .error (helpAbout rest)
      else
        match r.argument .top s with
        | .error refusal => .error refusal
        | .ok r => readTop r rest

def parse (arguments : List String) : Except Refusal Arguments :=
  readTop {} arguments

end ClassCollapse.Command
