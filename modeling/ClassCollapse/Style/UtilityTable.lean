import ClassCollapse.Json.Reader
import ClassCollapse.Table
import ClassCollapse.Text.Search

/-!
# Utility tables

A utility table gives utility classes their declarations. A class list compiles to the declarations
of its words, each word once and in the order of first appearance. Words without declarations add
nothing.
-/

namespace ClassCollapse

/-- A compiler of class lists. A blank result means that no word of the list is a utility. -/
abbrev Compiler := String → String

structure UtilityTable where
  declarations : Table String

namespace UtilityTable

/-- The table of a value that is an object of strings. -/
def ofJson? (value : Json) : Option UtilityTable := do
  let members ← value.members?
  let entries ← members.mapM fun (key, value) => value.text?.map fun text => (key, text)
  some ⟨Table.ofList entries⟩

def parse? (s : String) : Option UtilityTable :=
  (Json.parse? s).bind ofJson?

def get? (t : UtilityTable) (utility : String) : Option String :=
  t.declarations.find? utility

/-- Ends declarations with a semicolon. -/
def terminated (css : String) : String :=
  if Text.endsWith css ";" then css else css ++ ";"

/-- The declarations that a word adds to a compiled list, if there are any. -/
def declaration? (t : UtilityTable) (word : String) : Option String :=
  match t.get? word with
  | none => none
  | some css => if (Text.trim css).isEmpty then none else some (terminated (Text.trim css))

def compile (t : UtilityTable) : Compiler := fun classList =>
  Text.join "\n  " ((Text.words classList).eraseDups.filterMap t.declaration?)

end UtilityTable

end ClassCollapse
