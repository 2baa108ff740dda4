import ClassCollapse.Proofs.Run.Sharing
import ClassCollapse.Proofs.Run.Styling

/-!
# What stands in a sheet

A sheet is made of rules that runs have added and of other texts. A run adds the rules of the files
beside the sheet, but for those of a file that are there already. It gives each name to one
combination of classes, so the rules that it adds never disagree about a name.
-/

namespace ClassCollapse

open Placement

/-! ## Sheets of rules -/

/-- A part of a sheet: a rule that was added by a run, or another text. -/
inductive Piece
  | rule (r : StyleRule)
  | other (text : String)

def Piece.text : Piece → String
  | .rule r => r.text
  | .other text => text

/-- A text of pieces, where the next ones follow at once or on a new line. -/
inductive SheetOf : List Piece → String → Prop
  | piece (p : Piece) (hEnded : IsEnded p.text) : SheetOf [p] p.text
  | glued {pieces more : List Piece} {s t : String} (h : SheetOf pieces s) (h' : SheetOf more t) :
    SheetOf (pieces ++ more) (s ++ t)
  | spaced {pieces more : List Piece} {s t : String} (h : SheetOf pieces s) (h' : SheetOf more t) :
    SheetOf (pieces ++ more) (s ++ "\n" ++ t)

theorem SheetOf.isEnded {pieces : List Piece} {s : String} (h : SheetOf pieces s) : IsEnded s := by
  induction h with
  | piece p hEnded => exact hEnded
  | glued h h' ih ih' => exact ih'.append
  | spaced h h' ih ih' => exact ih'.append

theorem sheetOf_join {rules : List StyleRule} (hne : rules ≠ []) :
    SheetOf (rules.map .rule) (Text.join "\n" (rules.map StyleRule.text)) := by
  induction rules with
  | nil => exact absurd rfl hne
  | cons r rules ih =>
    have hFirst : SheetOf [.rule r] r.text :=
      .piece (.rule r) (RuleBook.isRules_formatBlock _ _ _).isEnded
    cases rules with
    | nil => exact hFirst
    | cons next rules => exact .spaced hFirst (ih (List.cons_ne_nil _ _))

/-- What stands in a sheet, which may be missing. Blanks at its end do not count. -/
inductive Stands : List Piece → Option String → Prop
  | empty {existing : Option String} (hEmpty : kept existing = "") : Stands [] existing
  | sheet {pieces : List Piece} {existing : Option String} (h : SheetOf pieces (kept existing)) :
    Stands pieces existing

theorem SheetOf.stands {pieces : List Piece} {s : String} (h : SheetOf pieces s) :
    Stands pieces (some s) := by
  apply Stands.sheet
  rw [kept_some h.isEnded]
  exact h

/-- Whatever stands in a sheet, it can be taken for a text that no run has added. -/
theorem exists_stands (existing : Option String) :
    ∃ pieces, Stands pieces existing ∧ ∀ r, .rule r ∉ pieces := by
  by_cases hEmpty : kept existing = ""
  · exact ⟨[], .empty hEmpty, fun r hr => nomatch hr⟩
  · exact ⟨[.other (kept existing)], .sheet (.piece (.other _) (isEnded_kept hEmpty)), by simp⟩

/-- The rules that a merge adds, which are none if they are there. -/
def newRules (existing : Option String) (css : String) (rules : List StyleRule) : List StyleRule :=
  if Text.holds css (kept existing) then [] else rules

theorem Stands.mergeSheet {pieces : List Piece} {rules : List StyleRule} {existing : Option String}
    {css : String} (h : Stands pieces existing) (hCss : SheetOf (rules.map .rule) css) :
    SheetOf (pieces ++ (newRules existing css rules).map .rule) (mergeSheet existing css) := by
  rw [mergeSheet_eq, newRules]
  cases h with
  | empty hEmpty =>
    have hNew : Text.holds css (kept existing) = false := by
      rw [hEmpty, Bool.eq_false_iff, Ne, Text.holds_iff]
      intro hInfix
      exact hCss.isEnded.ne_empty (String.toList_eq_nil_iff.mp (List.infix_nil.mp hInfix))
    rw [if_pos hEmpty, hNew, if_neg Bool.false_ne_true]
    exact hCss
  | sheet h =>
    rw [if_neg h.isEnded.ne_empty]
    cases hHeld : Text.holds css (kept existing) with
    | true =>
      rw [if_pos rfl, if_pos rfl, List.map_nil, List.append_nil]
      exact h
    | false =>
      rw [if_neg Bool.false_ne_true, if_neg Bool.false_ne_true]
      exact .spaced h hCss

/-! ## Rules that disagree -/

def Disagree (r s : StyleRule) : Prop :=
  r.name = s.name ∧ r.declarations ≠ s.declarations

theorem Disagree.symm {r s : StyleRule} (h : Disagree r s) : Disagree s r :=
  ⟨h.1.symm, h.2.symm⟩

namespace Engine

open WriteBuffer

/-! ## The rules of one run -/

def addedRules (e : Engine) (t : UtilityTable) (existing : Option String) (sheet : Path) :
    List StyleRule :=
  (e.sharing sheet).flatMap fun file => newRules existing (e.css file) (e.rules t file.key)

/-- The rules that a run adds to a sheet. These are none if it fails in its first phase or is a dry
run. -/
def rulesOfRun (e : Engine) (t : UtilityTable) (files : List Path) (d : Disk) (sheet : Path) :
    List StyleRule :=
  match processAll d files e with
  | .error _ => []
  | .ok last =>
    if last.options.dryRun then [] else last.addedRules t (d.readText sheet).toOption sheet

end Engine

end ClassCollapse
