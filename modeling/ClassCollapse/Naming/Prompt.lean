import ClassCollapse.Json.Writer

/-!
# Questions for a name

A question shows four elements with good names and asks for the name of one more. The element stands
on the last line as a compact JSON object.
-/

namespace ClassCollapse.Naming

/-- Elements with their names: tag, class list and name. -/
def examples : List (String × String × String) := [
  ("div", "bg-red-500", "red-background-container"),
  ("ul", "mt-8 space-y-3 text-sm leading-6 text-gray-600", "spaced-list-container"),
  ("h3", "text-lg font-semibold leading-8 text-gray-900", "medium-heading"),
  ("Link", "text-blue-500", "blue-link")]

def exampleLine : String × String × String → String
  | (tag, classList, name) =>
    "  " ++ (Json.record [("tag", .ofText tag), ("class", .ofText classList)]).compact ++
      " -> <result>" ++ name ++ "</result>\n"

/-- The element in question. An element without a known tag has the empty one. -/
def element (tag : Option String) (classList : String) : Json :=
  .record [("class", .ofText classList), ("tag", .ofText (tag.getD ""))]

def preamble : String :=
  "Examples:\n" ++ String.join (examples.map exampleLine) ++
    "\nGiven the element below, write one CSS class name describing the styles " ++
    "its utility classes apply.\n" ++
    "Answer with the class name only, wrapped like <result>class-name</result>.\n"

def prompt (tag : Option String) (classList : String) : String :=
  preamble ++ (element tag classList).compact ++ " -> "

end ClassCollapse.Naming
