import ClassCollapse.Naming.Resolver
import ClassCollapse.Occurrence
import ClassCollapse.Style.UtilityTable

/-!
# Rules for class combinations

The rule of a key is generated once, from the first occurrence that asks. A key whose class list has
no utility gets neither a rule nor a name.
-/

namespace ClassCollapse

inductive KeyCss
  | block (css : String)
  | noCss
deriving DecidableEq

def KeyCss.block? : KeyCss → Option String
  | .block css => some css
  | .noCss => none

/-- What was generated for each key, in the order of generation. -/
structure RuleBook where
  rules : List (CanonicalKey × KeyCss)

namespace RuleBook

def empty : RuleBook := ⟨[]⟩

/-- The rule of a name, with the class list that it stands for in a comment. -/
def formatBlock (name classList css : String) : String :=
  "." ++ name ++ " \x7b\n  /* generated from: " ++ classList ++ " */\n  " ++ css ++ "\n\x7d"

/-- What a key without an entry gets. -/
def generateNew (compile : Compiler) (o : Occurrence) (resolver : NameResolver) :
    KeyCss × NameResolver :=
  let css := Text.trim (compile o.classList)
  if css.isEmpty then (.noCss, resolver)
  else
    let (name, resolver) := resolver.assign o.key o.tag o.classList
    (.block (formatBlock name o.classList css), resolver)

def generate (compile : Compiler) (o : Occurrence) (book : RuleBook) (resolver : NameResolver) :
    KeyCss × RuleBook × NameResolver :=
  match book.rules.lookup o.key with
  | some css => (css, book, resolver)
  | none =>
    let (css, resolver) := generateNew compile o resolver
    (css, ⟨book.rules ++ [(o.key, css)]⟩, resolver)

def block? (book : RuleBook) (key : CanonicalKey) : Option String :=
  (book.rules.lookup key).bind KeyCss.block?

/-- The rules of the keys in a file, in the order of their first occurrence there. -/
def fileCss? (book : RuleBook) (index : OccurrenceIndex) (file : String) : Option String :=
  match (index.keysInFile file).filterMap book.block? with
  | [] => none
  | blocks => some (Text.join "\n" blocks)

end RuleBook

end ClassCollapse
