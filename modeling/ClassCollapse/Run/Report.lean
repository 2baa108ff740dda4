import ClassCollapse.Json.Value

/-!
# Run reports

A report says for each file of a run what was done with it, and sums the run up.
-/

namespace ClassCollapse

inductive Action
  | unchanged
  | unsupported
  | noClasses
  | rewritten (occurrences : Nat) (companion : Option String)
deriving DecidableEq

/-- The files of a run in the order of processing, with what was done. -/
structure RunReport where
  files : List (String × Action)
  namesAssigned : Nat
  strategyInvocations : Nat
  dryRun : Bool
deriving DecidableEq

namespace Action

def isRewritten : Action → Bool
  | .rewritten _ _ => true
  | _ => false

def label : Action → String
  | .unchanged => "unchanged"
  | .unsupported => "unsupported"
  | .noClasses => "no_classes"
  | .rewritten _ _ => "rewritten"

/-- The fields of a written action after its name. -/
def details : Action → List (String × Json)
  | .rewritten occurrences none => [("occurrences", .ofNat occurrences)]
  | .rewritten occurrences (some sheet) =>
    [("occurrences", .ofNat occurrences), ("companion", .ofText sheet)]
  | _ => []

end Action

namespace RunReport

def count (r : RunReport) (p : Action → Bool) : Nat :=
  (r.files.filter fun f => p f.2).length

def rewritten (r : RunReport) : Nat := r.count Action.isRewritten
def unchanged (r : RunReport) : Nat := r.count (· = .unchanged)
def unsupported (r : RunReport) : Nat := r.count (· = .unsupported)
def noClasses (r : RunReport) : Nat := r.count (· = .noClasses)

def fileJson : String × Action → Json
  | (key, action) =>
    .record (("path", .ofText key) :: ("action", .ofText action.label) :: action.details)

def toJson (r : RunReport) : Json :=
  .record [("files", .list (r.files.map fileJson)), ("names_assigned", .ofNat r.namesAssigned),
    ("strategy_invocations", .ofNat r.strategyInvocations), ("dry_run", .bool r.dryRun)]

def summary (r : RunReport) : String :=
  "Result: " ++ toString r.rewritten ++ " rewritten, " ++ toString r.unchanged ++ " unchanged, " ++
    toString r.noClasses ++ " without classes, " ++ toString r.namesAssigned ++
    " name(s) assigned" ++
    (if 0 < r.strategyInvocations then
      ", " ++ toString r.strategyInvocations ++ " naming call(s)" else "") ++
    (if r.dryRun then " (dry run, nothing written)" else "")

end RunReport

end ClassCollapse
