import ClassCollapse.Proofs.Disk.Parents
import ClassCollapse.Proofs.Style.Placement

/-!
# Paths with the same steps

Paths with the same components go the same way up to steps that stay where they are. Where the last
step is none of these, such a step makes no difference to what is read, with links or without. So two
spellings of a companion sheet name the same sheet on every disk.
-/

namespace ClassCollapse

namespace Path

/-- The step that a component stands for. A path that starts here starts where it is walked from. -/
def Component.step? : Component → Option Step
  | .root => some .root
  | .here => none
  | .up => some .up
  | .name s => some (.name s)

theorem step?_step {part : String} (h : isStep part = true) :
    (step part).step? = some (Step.ofPart part) := by
  have hHere : part ≠ "." := by
    rintro rfl
    cases h
  by_cases hUp : part = ".."
  · rw [step, Step.ofPart, if_neg hHere, if_neg hHere, if_pos hUp, if_pos hUp, Component.step?]
  · rw [step, Step.ofPart, if_neg hHere, if_neg hHere, if_neg hUp, if_neg hUp, Component.step?]

theorem firmWay_eq_filterMap (p : Path) : p.firmWay = p.components.filterMap Component.step? := by
  have hSteps : ∀ parts : List String, ((parts.filter isStep).map step).filterMap Component.step? =
      (parts.filter isStep).map Step.ofPart := by
    intro parts
    rw [List.filterMap_map, ← List.filterMap_eq_map]
    exact List.filterMap_congr fun part hPart => step?_step (List.of_mem_filter hPart)
  rw [firmWay_eq, components]
  cases p.isAbsolute with
  | true =>
    have hRoot : Component.root.step? = some .root := rfl
    rw [List.filterMap_cons_some hRoot, hSteps]
    rfl
  | false =>
    cases p.parts with
    | nil => rfl
    | cons first parts =>
      dsimp only
      rw [List.filterMap_append, hSteps, if_neg Bool.false_ne_true, List.nil_append]
      by_cases hStep : isStep first = true
      · have hSome : first ≠ "" := by
          rintro rfl
          cases hStep
        rw [if_neg hSome, List.filter_cons_of_pos hStep,
          List.filterMap_cons_some (step?_step hStep)]
        rfl
      · rw [List.filter_cons_of_neg hStep]
        by_cases hEmpty : first = ""
        · rw [if_pos hEmpty]
          rfl
        · have hHere : first = "." := by simpa [isStep, hEmpty] using hStep
          rw [if_neg hEmpty, hHere]
          rfl

theorem firmWay_of_same {p q : Path} (h : p.same q = true) : p.firmWay = q.firmWay := by
  rw [firmWay_eq_filterMap, firmWay_eq_filterMap, beq_iff_eq.mp h]

/-- A path that is made from the folder of another one has the parts that it is made from. -/
theorem parts_ofParts_folder (p : Path) {last : String} (hLast : last ≠ "")
    (hSlash : '/' ∉ last.toList) :
    (ofParts p.isAbsolute (p.trimmedParts.dropLast ++ [last])).isAbsolute = p.isAbsolute ∧
      (ofParts p.isAbsolute (p.trimmedParts.dropLast ++ [last])).parts =
        p.trimmedParts.dropLast ++ [last] := by
  have hFolder : p.trimmedParts.dropLast <+: p.parts :=
    (List.dropLast_prefix _).trans (trimParts_prefix_self _ _)
  have hParts : ∀ part ∈ p.trimmedParts.dropLast ++ [last], '/' ∉ part.toList := by
    intro part hPart
    rcases List.mem_append.mp hPart with hOld | hNew
    · exact no_slash_of_mem_parts (hFolder.subset hOld)
    · rwa [List.mem_singleton.mp hNew]
  refine parts_ofParts (by simp) hParts ?_
  intro hRelative hEmpty
  by_cases hNil : p.trimmedParts.dropLast = []
  · rw [hNil] at hEmpty
    exact hLast (Option.some.inj hEmpty)
  · rw [List.head?_append_of_ne_nil _ hNil] at hEmpty
    have hOnly := parts_of_head hRelative (head?_of_prefix_eq hFolder hEmpty)
    rw [trimmedParts, hRelative, hOnly] at hNil
    exact hNil (by decide)

theorem way_of_parts {p : Path} {front : List String} {last : String} (h : p.parts = front ++ [last])
    (hLast : last ≠ "") : ∃ init, p.way = init ++ [Step.ofPart last] := by
  have hOpen : p.endsWithSlash = false := by
    rw [Bool.eq_false_iff]
    intro hEnds
    have hEnd := congrArg List.getLast? (parts_of_endsWithSlash hEnds)
    rw [h, List.getLast?_concat, List.getLast?_concat] at hEnd
    exact hLast (Option.some.inj hEnd)
  rw [way, hOpen, h, List.filter_append, List.filter_cons_of_pos (by simpa using hLast),
    List.filter_nil, List.map_append, List.map_singleton, if_neg Bool.false_ne_true,
    List.append_nil, ← List.append_assoc]
  exact ⟨_, rfl⟩

/-- A path that is made from the folder of another one ends with the step of its last part. -/
theorem exists_way_ofParts (p : Path) {last : String} (hLast : last ≠ "")
    (hSlash : '/' ∉ last.toList) :
    ∃ init, (ofParts p.isAbsolute (p.trimmedParts.dropLast ++ [last])).way =
      init ++ [Step.ofPart last] :=
  way_of_parts (parts_ofParts_folder p hLast hSlash).2 hLast

/-- The last step, if there is one, can lead to another place. -/
def EndsFirm (steps : List Step) : Prop :=
  ∀ step, steps.getLast? = some step → step.isFirm = true

theorem EndsFirm.tail {step : Step} {steps : List Step} (h : EndsFirm (step :: steps)) :
    EndsFirm steps := by
  intro last hLast
  apply h
  rw [List.getLast?_cons, hLast]
  rfl

theorem EndsFirm.filter_isEmpty {steps : List Step} (h : EndsFirm steps) :
    (steps.filter Step.isFirm).isEmpty = steps.isEmpty := by
  rcases List.eq_nil_or_concat' steps with rfl | ⟨front, last, rfl⟩
  · rfl
  · have hFirm := h last (by simp)
    rw [List.filter_append, List.filter_cons_of_pos hFirm, List.isEmpty_eq_false_iff.mpr (by simp),
      List.isEmpty_eq_false_iff.mpr (by simp)]

theorem EndsFirm.append (front : List Step) {steps : List Step} (hne : steps ≠ [])
    (h : EndsFirm steps) : EndsFirm (front ++ steps) := by
  intro last hLast
  rw [List.getLast?_append_of_ne_nil _ hne] at hLast
  exact h last hLast

theorem endsFirm_filter (steps : List Step) : EndsFirm (steps.filter Step.isFirm) :=
  fun _ hLast => List.of_mem_filter (List.mem_of_getLast? hLast)

end Path

namespace Disk

open ClassCollapse.Path (Step EndsFirm)

/-- Steps that stay where they are can be left out in front of a firm one. -/
theorem advance_filter_firm (d : Disk) {onLink : Place → List Step → Except IoCause Place}
    (hLink : ∀ place target steps, EndsFirm steps →
      onLink place (target ++ steps.filter Step.isFirm) = onLink place (target ++ steps))
    (place : Place) {steps : List Step} (h : EndsFirm steps) :
    d.advance false onLink place (steps.filter Step.isFirm) = d.advance false onLink place steps := by
  induction steps generalizing place with
  | nil => rfl
  | cons step steps ih =>
    have hRest := fun next => ih next h.tail
    cases step with
    | name s =>
      have hKeep : (Step.name s :: steps).filter Step.isFirm =
          .name s :: steps.filter Step.isFirm := rfl
      rw [hKeep, advance, advance, Bool.false_and, Bool.false_and, h.tail.filter_isEmpty]
      simp only [hRest, hLink _ _ _ h.tail]
    | _ => exact hRest _

theorem follow_filter_firm (d : Disk) (links : Nat) (place : Place) {steps : List Step}
    (h : EndsFirm steps) :
    d.follow false links place (steps.filter Step.isFirm) = d.follow false links place steps := by
  induction links generalizing place steps with
  | zero => exact d.advance_filter_firm (fun _ _ _ _ => rfl) place h
  | succ links ih =>
    refine d.advance_filter_firm ?_ place h
    intro next target rest hRest
    by_cases hne : rest = []
    · rw [hne, List.filter_nil]
    · have hFilter : rest.filter Step.isFirm ≠ [] := by
        intro hNil
        have hEmpty := hRest.filter_isEmpty
        rw [hNil] at hEmpty
        exact hne (List.isEmpty_iff.mp hEmpty.symm)
      have hLeft := ih next ((Path.endsFirm_filter rest).append target hFilter)
      have hRight := ih next (hRest.append target hne)
      rw [List.filter_append, List.filter_filter] at hLeft
      rw [List.filter_append] at hRight
      rw [← hLeft, ← hRight]
      simp only [Bool.and_self]

theorem locate_eq_of_firmWay (d : Disk) {p q : Path} (h : p.firmWay = q.firmWay)
    (hp : EndsFirm p.way) (hq : EndsFirm q.way) (hpText : p.text ≠ "") (hqText : q.text ≠ "") :
    d.locate p = d.locate q := by
  have hWay : d.follow false maxLinks d.workingDirectory p.way =
      d.follow false maxLinks d.workingDirectory q.way := by
    rw [← d.follow_filter_firm _ _ hp, ← d.follow_filter_firm _ _ hq]
    exact congrArg _ h
  rw [locate, locate, hWay, if_neg (mt String.isEmpty_iff.mp hpText),
    if_neg (mt String.isEmpty_iff.mp hqText)]

/-- A path with the same firm steps names the same place if it ends with one of them. -/
theorem Names.of_firmWay {d : Disk} {p q : Path} {place : Place} (h : d.Names p place)
    (hSame : q.firmWay = p.firmWay) (hEnds : Path.EndsFirm q.way) : d.Names q place := by
  obtain ⟨init, parent, s, hWay, hWalk, rfl⟩ := h
  have hFirm : q.way.filter Step.isFirm = init.filter Step.isFirm ++ [.name s] := by
    rw [← Path.firmWay, hSame, Path.firmWay, hWay, List.filter_append]
    rfl
  rcases List.eq_nil_or_concat' q.way with hNil | ⟨init', last, hWay'⟩
  · rw [hNil] at hFirm
    simp at hFirm
  · have hLast : last.isFirm = true := hEnds last (by rw [hWay', List.getLast?_concat])
    rw [hWay', List.filter_append, List.filter_cons_of_pos hLast] at hFirm
    obtain ⟨hInit, hStep⟩ := List.append_inj' hFirm rfl
    cases hStep
    refine ⟨init', parent, s, hWay', ?_, rfl⟩
    rw [← walk?_filter_firm, hInit, walk?_filter_firm, hWalk]

end Disk

namespace Placement

theorem endsFirm_companionPath {p : Path} {placement : Placement}
    (h : forPath? p = some placement) :
    Path.EndsFirm (companionPath p).way ∧ (companionPath p).text ≠ "" := by
  have hEnd : ∃ init last, (companionPath p).way = init ++ [last] ∧ last.isFirm = true := by
    obtain ⟨last, hPath, rfl | ⟨hName, _⟩⟩ := exists_companionPath_eq h
    · have hSome : ".." ≠ "" := by decide
      obtain ⟨init, hWay⟩ := p.exists_way_ofParts hSome (by decide)
      exact ⟨init, _, hPath ▸ hWay, by decide⟩
    · obtain ⟨init, hWay⟩ := p.exists_way_ofParts hName.nonempty hName.no_slash
      rw [hName.ofPart_eq] at hWay
      exact ⟨init, _, hPath ▸ hWay, rfl⟩
  obtain ⟨init, last, hWay, hFirm⟩ := hEnd
  refine ⟨?_, Disk.text_ne_of_way (by simp [hWay])⟩
  intro step hStep
  rw [hWay, List.getLast?_concat] at hStep
  exact Option.some.inj hStep ▸ hFirm

/-- Two spellings of a companion sheet read the same on every disk. -/
theorem locate_companionPath_of_same {p q : Path} {placement other : Placement}
    (hp : forPath? p = some placement) (hq : forPath? q = some other)
    (h : (companionPath p).same (companionPath q) = true) (d : Disk) :
    d.locate (companionPath p) = d.locate (companionPath q) := by
  obtain ⟨hpEnds, hpText⟩ := endsFirm_companionPath hp
  obtain ⟨hqEnds, hqText⟩ := endsFirm_companionPath hq
  exact d.locate_eq_of_firmWay (Path.firmWay_of_same h) hpEnds hqEnds hpText hqText

theorem read_companionPath_of_same {p q : Path} {placement other : Placement}
    (hp : forPath? p = some placement) (hq : forPath? q = some other)
    (h : (companionPath p).same (companionPath q) = true) (d : Disk) :
    d.read (companionPath p) = d.read (companionPath q) := by
  rw [Disk.read, locate_companionPath_of_same hp hq h d, Disk.read]

theorem readText_companionPath_of_same {p q : Path} {placement other : Placement}
    (hp : forPath? p = some placement) (hq : forPath? q = some other)
    (h : (companionPath p).same (companionPath q) = true) (d : Disk) :
    d.readText (companionPath p) = d.readText (companionPath q) := by
  rw [Disk.readText, read_companionPath_of_same hp hq h d, Disk.readText]

end Placement

end ClassCollapse
