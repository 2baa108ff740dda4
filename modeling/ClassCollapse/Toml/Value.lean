/-!
# TOML tables

A document is built from its lines: headers open tables, and settings add values under dotted keys.
A table remembers how it came about, which decides what may still be added to it: a table can be
opened by one header only, and dotted keys extend only tables that dotted keys made.
-/

namespace ClassCollapse

/-- How a table came about: it is written between braces, opened by a header, implied by the header
of a table in it, or made by a dotted key. -/
inductive TableForm
  | inline
  | header
  | implied
  | dotted
deriving DecidableEq

/-- A value. Floats and moments are kept as they are written. `tables` is a list of tables that
headers add to. -/
inductive Toml
  | string (s : String)
  | integer (n : Int)
  | float (literal : List Char)
  | boolean (b : Bool)
  | moment (literal : List Char)
  | array (items : List Toml)
  | tables (elements : List Toml)
  | table (form : TableForm) (entries : List (String × Toml))

namespace Toml

abbrev Entries := List (String × Toml)

/-- A line of a document that is neither blank nor a comment. -/
inductive Line
  | header (path : List String)
  | arrayHeader (path : List String)
  | setting (path : List String) (value : Toml)

def replace (key : String) (value : Toml) (entries : Entries) : Entries :=
  entries.map fun e => if e.1 = key then (key, value) else e

/-- Adds a value under a dotted key. `isOpen` says whether the table takes new keys directly. -/
def addSetting (isOpen : Bool) (value : Toml) : List String → Entries → Option Entries
  | [], _ => none
  | [key], entries =>
    if isOpen && (entries.lookup key).isNone then some (entries ++ [(key, value)]) else none
  | key :: path, entries =>
    match entries.lookup key with
    | none => (addSetting true value path []).map fun sub => entries ++ [(key, .table .dotted sub)]
    | some (.table .dotted sub) =>
      (addSetting true value path sub).map fun sub => replace key (.table .dotted sub) entries
    | some (.table .implied sub) =>
      (addSetting false value path sub).map fun sub => replace key (.table .implied sub) entries
    | some (.tables elements) =>
      match elements.getLast? with
      | some (.table form sub) =>
        (addSetting false value path sub).map fun sub =>
          replace key (.tables (elements.dropLast ++ [.table form sub])) entries
      | _ => none
    | some _ => none

/-- Changes the entries of the table at a path. Tables that are missing on the way are implied, and
the way through a list of tables leads through its last one. -/
def atPath (change : Entries → Option Entries) : List String → Entries → Option Entries
  | [], entries => change entries
  | key :: path, entries =>
    match entries.lookup key with
    | none => (atPath change path []).map fun sub => entries ++ [(key, .table .implied sub)]
    | some (.table .inline _) => none
    | some (.table form sub) =>
      (atPath change path sub).map fun sub => replace key (.table form sub) entries
    | some (.tables elements) =>
      match elements.getLast? with
      | some (.table form sub) =>
        (atPath change path sub).map fun sub =>
          replace key (.tables (elements.dropLast ++ [.table form sub])) entries
      | _ => none
    | some _ => none

/-- Opens a table that is missing or implied. -/
def openTable (key : String) (entries : Entries) : Option Entries :=
  match entries.lookup key with
  | none => some (entries ++ [(key, .table .header [])])
  | some (.table .implied sub) => some (replace key (.table .header sub) entries)
  | some _ => none

/-- Opens one more table of a list. -/
def openElement (key : String) (entries : Entries) : Option Entries :=
  match entries.lookup key with
  | none => some (entries ++ [(key, .tables [.table .header []])])
  | some (.tables elements) =>
    some (replace key (.tables (elements ++ [.table .header []])) entries)
  | some _ => none

/-- Builds a document from lines, where `current` is the path of the open table. -/
def buildFrom (current : List String) (entries : Entries) : List Line → Option Entries
  | [] => some entries
  | .setting path value :: lines => do
    buildFrom current (← atPath (addSetting true value path) current entries) lines
  | .header path :: lines => do
    let key ← path.getLast?
    buildFrom path (← atPath (openTable key) path.dropLast entries) lines
  | .arrayHeader path :: lines => do
    let key ← path.getLast?
    buildFrom path (← atPath (openElement key) path.dropLast entries) lines

def build (lines : List Line) : Option Entries :=
  buildFrom [] [] lines

/-- The table of settings between braces. -/
def inlineTable? (settings : List (List String × Toml)) : Option Toml :=
  (settings.foldlM (fun entries (path, value) => addSetting true value path entries) []).map
    (.table .inline)

end Toml

end ClassCollapse
