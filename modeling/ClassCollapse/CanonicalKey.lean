import ClassCollapse.Text.Blank

/-!
# Canonical keys of class lists

A class list is a text of words. Two lists that count as the same combination have the same
canonical key: the list itself where the order of its words matters, and its words in ascending
order otherwise.
-/

namespace ClassCollapse

/-- The identity of a combination of classes. -/
structure CanonicalKey where
  text : String
deriving DecidableEq

namespace CanonicalKey

/-- The words in ascending order, repeated words included. -/
def sortedWords (s : String) : List String :=
  (Text.words s).mergeSort fun a b => decide (a ≤ b)

def ofClassList (orderMatters : Bool) (s : String) : CanonicalKey :=
  if orderMatters then ⟨s⟩ else ⟨Text.join " " (sortedWords s)⟩

end CanonicalKey

end ClassCollapse
