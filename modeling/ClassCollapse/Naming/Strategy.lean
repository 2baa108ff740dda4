import ClassCollapse.Text.Search

/-!
# Naming strategies

A naming strategy is asked for the name of an element and answers with any text or fails. The name
that counts is what is left of the answer when its wrapping and every character that a class name
cannot hold are dropped.
-/

namespace ClassCollapse

inductive NamingError
  | timeout
  | transport
  | malformed
  | emptyName (attempts : Nat)
deriving DecidableEq

def NamingError.message : NamingError → String
  | .timeout => "naming request timed out"
  | .transport => "naming request failed"
  | .malformed => "malformed naming response"
  | .emptyName attempts => "no usable name after " ++ toString attempts ++ " attempts"

/-- The element that a strategy is asked about. -/
structure NamingCall where
  tag : Option String
  classList : String
deriving DecidableEq

/-- A strategy answers a call; it may take the earlier calls into account. -/
abbrev NamingStrategy := List NamingCall → NamingCall → Except NamingError String

namespace Naming

def isNameCharacter (c : Char) : Bool :=
  ('a' ≤ c && c ≤ 'z') || ('A' ≤ c && c ≤ 'Z') || ('0' ≤ c && c ≤ '9') || c == '-' || c == '_'

/-- The name in an answer, without the wrapping and without other characters. -/
def sanitize (raw : String) : String :=
  String.ofList
    ((Text.removeAll "</result>" (Text.removeAll "<result>" raw)).toList.filter isNameCharacter)

end Naming

end ClassCollapse
