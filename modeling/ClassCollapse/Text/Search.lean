import ClassCollapse.Text.Blank

/-!
# Finding one text in another
-/

namespace ClassCollapse.Text

/-- Splits around the first place where `pattern` stands: the part before it and the part after it.
-/
def splitFirst? (pattern : List Char) : List Char → Option (List Char × List Char)
  | [] => if pattern.isEmpty then some ([], []) else none
  | c :: cs =>
    if pattern.isPrefixOf (c :: cs) then some ([], (c :: cs).drop pattern.length)
    else (splitFirst? pattern cs).map fun (before, after) => (c :: before, after)

def holds (pattern : String) (s : String) : Bool :=
  (splitFirst? pattern.toList s.toList).isSome

/-- Removes a pattern everywhere, from left to right; `skip` counts the characters
that a match still has to take. -/
def removeFrom (pattern : List Char) : Nat → List Char → List Char
  | _, [] => []
  | skip + 1, _ :: cs => removeFrom pattern skip cs
  | 0, c :: cs =>
    if !pattern.isEmpty && pattern.isPrefixOf (c :: cs) then
      removeFrom pattern (pattern.length - 1) cs
    else c :: removeFrom pattern 0 cs

/-- Removes every place where `pattern` stands, from left to right and without overlaps. -/
def removeAll (pattern : String) (s : String) : String :=
  String.ofList (removeFrom pattern.toList 0 s.toList)

def startsWith (s start : String) : Bool :=
  start.toList.isPrefixOf s.toList

def endsWith (s stop : String) : Bool :=
  stop.toList.isSuffixOf s.toList

/-- The lines of a text. A line ends at a line feed, which does not belong to it, nor does a
carriage return right before it; a text that ends with a line feed has no empty last line. -/
def linesOf : List Char → List (List Char)
  | [] => []
  | '\n' :: cs => [] :: linesOf cs
  | '\r' :: '\n' :: cs => [] :: linesOf cs
  | c :: cs => extendFirst c (linesOf cs)

end ClassCollapse.Text
