import ClassCollapse.Json.Reader
import ClassCollapse.Naming.Request
import ClassCollapse.Naming.Strategy

/-!
# Naming services

A naming service is asked over HTTP. Its reply counts if its status is no error and its body is a
JSON record whose field `response` is a record whose field `response` is a text.
-/

namespace ClassCollapse.Naming

inductive ServiceOutcome
  | refused
  | stalled
  | reply (status : Nat) (body : ByteArray)

/-- Whether a status is no final one, so that the reply never becomes complete. -/
def isUnfinished (status : Nat) : Bool :=
  status < 200 && status != 101

/-- Whether a status reports an error, or is none at all. -/
def isErrorStatus (status : Nat) : Bool :=
  (400 ≤ status && status < 600) || 1000 ≤ status

/-- Whether a reply with this status has no body, whatever follows its head. -/
def isBodiless (status : Nat) : Bool :=
  status == 101 || status == 204 || status == 304

def suggestionOf? (body : ByteArray) : Option String := do
  let text ← String.fromUTF8? body
  match ← (← Json.parse? text).fields? ["response"] with
  | [inner] =>
    match ← inner.fields? ["response"] with
    | [suggestion] => suggestion.text?
    | _ => none
  | _ => none

def ServiceOutcome.answer : ServiceOutcome → Except NamingError String
  | .refused => .error .transport
  | .stalled => .error .timeout
  | .reply status body =>
    if isUnfinished status || isErrorStatus status then .error .transport
    else if isBodiless status then .error .malformed
    else match suggestionOf? body with
      | some suggestion => .ok suggestion
      | none => .error .malformed

def serviceStrategy (send : (url : String) → ServiceOutcome) (endpoint : String) : NamingStrategy :=
  fun _ call => (send (requestUrl endpoint (prompt call.tag call.classList))).answer

end ClassCollapse.Naming
