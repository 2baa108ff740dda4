import ClassCollapse.Proofs.Disk.Locate

/-!
# The path above a path

Steps that stay where they are do not count when a path is walked. Up to them, the path above a path
goes its way without the last step. So where a path leads, the path above it leads to a directory.
-/

namespace ClassCollapse

namespace Path

/-! ## Paths made from parts -/

theorem parts_ofParts {absolute : Bool} {parts : List String} (hne : parts ≠ [])
    (hSlash : ∀ part ∈ parts, '/' ∉ part.toList)
    (hHead : absolute = false → parts.head? ≠ some "") :
    (ofParts absolute parts).isAbsolute = absolute ∧
      (ofParts absolute parts).parts = parts := by
  have hSplit := split_join_parts hne hSlash
  cases absolute with
  | true =>
    have hText : (ofParts true parts).text.toList = '/' :: (Text.join "/" parts).toList :=
      String.toList_append
    have hAbsolute : (ofParts true parts).isAbsolute = true := by
      rw [isAbsolute, hText]
      rfl
    refine ⟨hAbsolute, ?_⟩
    rw [Path.parts, hAbsolute, hText, split, List.map_cons, hSplit]
    rfl
  | false =>
    have hText : (ofParts false parts).text.toList = (Text.join "/" parts).toList := by
      rw [ofParts, String.toList_append]
      rfl
    have hRelative : (ofParts false parts).isAbsolute = false := by
      rw [isAbsolute, hText, beq_eq_false_iff_ne]
      cases parts with
      | nil => exact absurd rfl hne
      | cons first rest =>
        refine head_join_parts ?_ (hSlash first List.mem_cons_self) rest
        rintro rfl
        exact hHead rfl rfl
    refine ⟨hRelative, ?_⟩
    rw [Path.parts, hRelative, hText, hSplit]
    rfl

/-- The first part of a relative path is empty only if the path is. -/
theorem parts_of_head {p : Path} (hRelative : p.isAbsolute = false)
    (hHead : p.parts.head? = some "") : p.parts = [""] := by
  rw [parts, hRelative] at hHead ⊢
  rw [isAbsolute] at hRelative
  cases hText : p.text.toList with
  | nil => rfl
  | cons c cs =>
    rw [hText] at hHead hRelative
    have hSlash : c ≠ '/' := by
      rintro rfl
      cases hRelative
    cases hSplit : split cs with
    | nil => exact absurd hSplit (split_ne_nil cs)
    | cons part parts =>
      rw [split.eq_3 _ _ hSlash, hSplit, Text.extendFirst] at hHead
      have hEmpty := congrArg String.toList (Option.some.inj hHead)
      rw [String.toList_ofList] at hEmpty
      cases hEmpty

/-- A path with another last part goes the same way up to its last step. -/
theorem way_ofParts_concat {p : Path} {init : List Step} {s : String}
    (h : p.way = init ++ [.name s]) {last : String} (hLast : last ≠ "") (hSlash : '/' ∉ last.toList) :
    (ofParts p.isAbsolute (p.trimmedParts.dropLast ++ [last])).way =
      init ++ [Step.ofPart last] := by
  have hName : IsName s := isName_of_mem_way (p := p) (h ▸ List.mem_append_right _ (by simp))
  obtain ⟨front, hFront, rfl⟩ := parts_of_way h
  have hFolder : p.trimmedParts.dropLast = front := by
    rw [trimmedParts, hFront, trimParts_concat _ _ hName.isStep, List.dropLast_concat]
  have hParts : ∀ part ∈ front ++ [last], '/' ∉ part.toList := by
    intro part hPart
    rcases List.mem_append.mp hPart with hOld | hNew
    · exact no_slash_of_mem_parts (p := p) (hFront ▸ List.mem_append_left _ hOld)
    · rwa [List.mem_singleton.mp hNew]
  have hHead : p.isAbsolute = false → (front ++ [last]).head? ≠ some "" := by
    intro hRelative hEmpty
    cases front with
    | nil => exact hLast (Option.some.inj hEmpty)
    | cons first rest =>
      have hOnly := parts_of_head hRelative (by rw [hFront]; exact hEmpty)
      rw [hFront] at hOnly
      simp at hOnly
  obtain ⟨hAbsolute, hAll⟩ := parts_ofParts (by simp) hParts hHead
  have hOpen : (ofParts p.isAbsolute (front ++ [last])).endsWithSlash = false := by
    rw [Bool.eq_false_iff]
    intro hEnds
    have hEnd := congrArg List.getLast? (parts_of_endsWithSlash hEnds)
    rw [hAll, List.getLast?_concat, List.getLast?_concat] at hEnd
    exact hLast (Option.some.inj hEnd)
  rw [hFolder, way, hOpen, hAbsolute, hAll, List.filter_append,
    List.filter_cons_of_pos (by simpa using hLast)]
  simp

/-! ## Trimmed parts -/

theorem dropSilent_prefix_self (parts : List String) : dropSilent parts <+: parts := by
  rw [dropSilent, ← List.reverse_suffix, List.reverse_reverse]
  exact List.dropWhile_suffix _

theorem filter_dropSilent (parts : List String) :
    (dropSilent parts).filter isStep = parts.filter isStep := by
  induction parts using List.reverseRecOn with
  | nil => rfl
  | append_singleton front last ih =>
    rw [dropSilent, List.reverse_concat]
    cases hStep : isStep last with
    | true =>
      rw [List.dropWhile_cons_of_neg (by simp [hStep]), List.reverse_cons, List.reverse_reverse]
    | false =>
      rw [List.dropWhile_cons_of_pos (by simp [hStep]), List.filter_append,
        List.filter_cons_of_neg (by simp [hStep]), List.filter_nil, List.append_nil]
      exact ih

theorem dropSilent_concat {parts front : List String} {last : String}
    (h : dropSilent parts = front ++ [last]) : isStep last = true := by
  have hHead : (parts.reverse.dropWhile fun part => !isStep part).head? = some last := by
    rw [dropSilent] at h
    rw [← List.reverse_reverse (parts.reverse.dropWhile _), h, List.reverse_concat,
      List.head?_cons]
  have hNot := List.head?_dropWhile_not (fun part => !isStep part) parts.reverse
  rw [hHead] at hNot
  simpa using hNot

theorem trimParts_prefix_self (absolute : Bool) (parts : List String) :
    trimParts absolute parts <+: parts := by
  unfold trimParts
  split
  · exact List.prefix_cons_inj _ |>.mpr (dropSilent_prefix_self _)
  · exact dropSilent_prefix_self _

theorem filter_trimParts (absolute : Bool) (parts : List String) :
    (trimParts absolute parts).filter isStep = parts.filter isStep := by
  unfold trimParts
  split
  · rw [List.filter_cons_of_neg (by decide), List.filter_cons_of_neg (by decide),
      filter_dropSilent]
  · exact filter_dropSilent _

/-- The last of the trimmed parts names a step, unless the path stays where it starts. -/
theorem trimParts_concat_eq {absolute : Bool} {parts front : List String} {last : String}
    (h : trimParts absolute parts = front ++ [last]) :
    isStep last = true ∨ (absolute = false ∧ front = [] ∧ last = ".") := by
  unfold trimParts at h
  split at h
  next rest =>
    cases front with
    | nil =>
      rw [List.nil_append, List.cons.injEq] at h
      exact .inr ⟨rfl, rfl, h.1.symm⟩
    | cons first front =>
      rw [List.cons_append, List.cons.injEq] at h
      exact .inl (dropSilent_concat h.2)
  next => exact .inl (dropSilent_concat h)

/-! ## Firm steps -/

/-- Whether a step can lead to another place. -/
def Step.isFirm : Step → Bool
  | .here => false
  | .slash => false
  | _ => true

def firmWay (p : Path) : List Step :=
  p.way.filter Step.isFirm

theorem firmWay_eq (p : Path) :
    p.firmWay = (if p.isAbsolute then [.root] else []) ++
      (p.parts.filter isStep).map Step.ofPart := by
  have hRoot : (if p.isAbsolute then [Step.root] else []).filter Step.isFirm =
      if p.isAbsolute then [.root] else [] := by
    cases p.isAbsolute <;> rfl
  have hSlash : (if p.endsWithSlash then [Step.slash] else []).filter Step.isFirm = [] := by
    cases p.endsWithSlash <;> rfl
  have hFirm : ∀ part, (Step.ofPart part).isFirm = (part != ".") := by
    intro part
    rw [Step.ofPart]
    by_cases hHere : part = "."
    · simp [hHere, Step.isFirm]
    · by_cases hUp : part = ".." <;> simp [hHere, hUp, Step.isFirm]
  have hParts : ∀ part, (part != "." && decide (part ≠ "")) = isStep part := by
    intro part
    by_cases hEmpty : part = "" <;> simp [isStep, hEmpty]
  rw [firmWay, way, List.filter_append, List.filter_append, hRoot, hSlash, List.append_nil,
    List.filter_map, List.filter_filter]
  simp only [Function.comp_def, hFirm, hParts]

theorem isAbsolute_ofParts {absolute : Bool} {parts : List String}
    (hSlash : ∀ part ∈ parts, '/' ∉ part.toList)
    (hHead : absolute = false → parts.head? ≠ some "") :
    (ofParts absolute parts).isAbsolute = absolute ∧
      (ofParts absolute parts).parts.filter isStep = parts.filter isStep ∧
      ((ofParts absolute parts).parts.head? = some "." → parts.head? = some ".") := by
  by_cases hne : parts = []
  · subst hne
    cases absolute <;> decide
  · obtain ⟨hAbsolute, hParts⟩ := parts_ofParts hne hSlash hHead
    rw [hParts]
    exact ⟨hAbsolute, rfl, id⟩

/-! ## The path above -/

theorem head?_of_prefix_eq {front parts : List String} {part : String} (h : front <+: parts)
    (hPart : front.head? = some part) : parts.head? = some part := by
  obtain ⟨rest, rfl⟩ := List.head?_eq_some_iff.mp hPart
  obtain ⟨back, rfl⟩ := h
  rfl

/-- The path above has the parts before the last one that is not trimmed. -/
structure Above (p parent : Path) (front : List String) (last : String) : Prop where
  trimmedParts_eq : p.trimmedParts = front ++ [last]
  isAbsolute_eq : parent.isAbsolute = p.isAbsolute
  filter_eq : parent.parts.filter isStep = front.filter isStep
  head_eq : parent.parts.head? = some "." → front.head? = some "."

theorem above_of_parent? {p parent : Path} (h : p.parent? = some parent) :
    ∃ front last, Above p parent front last := by
  rw [parent?] at h
  split at h
  · cases h
  next hTrimmed =>
    cases h
    obtain ⟨front, last, hFront⟩ :=
      (List.eq_nil_or_concat' p.trimmedParts).resolve_left (by simpa using hTrimmed)
    have hFolder : p.trimmedParts.dropLast = front := by rw [hFront, List.dropLast_concat]
    have hAbove := trimParts_prefix_self p.isAbsolute front
    have hPrefix : trimParts p.isAbsolute front <+: p.parts :=
      hAbove.trans ((List.prefix_append front [last]).trans
        (hFront ▸ trimParts_prefix_self p.isAbsolute p.parts))
    have hHead : p.isAbsolute = false → (trimParts p.isAbsolute front).head? ≠ some "" := by
      intro hRelative hEmpty
      rw [trimmedParts, parts_of_head hRelative (head?_of_prefix_eq hPrefix hEmpty),
        hRelative] at hFront
      have hNil : trimParts false [""] = [] := by decide
      rw [hNil] at hFront
      simp at hFront
    obtain ⟨hAbsolute, hSteps, hHere⟩ :=
      isAbsolute_ofParts (fun part hPart => no_slash_of_mem_parts (hPrefix.subset hPart)) hHead
    rw [hFolder]
    refine ⟨front, last, hFront, hAbsolute, ?_, ?_⟩
    · rw [hSteps, filter_trimParts]
    · exact fun hFirst => head?_of_prefix_eq hAbove (hHere hFirst)

theorem Above.head?_parts {p parent : Path} {front : List String} {last part : String}
    (h : Above p parent front last) (hPart : (front ++ [last]).head? = some part) :
    p.parts.head? = some part :=
  head?_of_prefix_eq (h.trimmedParts_eq ▸ trimParts_prefix_self p.isAbsolute p.parts) hPart

theorem Above.filter_parts {p parent : Path} {front : List String} {last : String}
    (h : Above p parent front last) : p.parts.filter isStep = (front ++ [last]).filter isStep := by
  rw [← h.trimmedParts_eq, trimmedParts, filter_trimParts]

theorem firmWay_parent {p parent : Path} (h : p.parent? = some parent) :
    parent.firmWay = p.firmWay.dropLast := by
  obtain ⟨front, last, hAbove⟩ := above_of_parent? h
  rw [firmWay_eq, firmWay_eq, hAbove.isAbsolute_eq, hAbove.filter_eq, hAbove.filter_parts,
    List.filter_append, List.map_append, ← List.append_assoc]
  rcases trimParts_concat_eq hAbove.trimmedParts_eq with hStep | ⟨hRelative, rfl, rfl⟩
  · rw [List.filter_cons_of_pos hStep, List.filter_nil, List.map_singleton,
      List.dropLast_concat]
  · rw [hRelative]
    rfl

theorem length_components (p : Path) :
    p.components.length = (if p.isAbsolute ∨ p.parts.head? = some "." then 1 else 0) +
      (p.parts.filter isStep).length := by
  rw [components]
  cases p.isAbsolute with
  | true =>
    dsimp only
    rw [List.length_cons, List.length_map, if_pos (.inl rfl), Nat.add_comm]
  | false =>
    cases p.parts with
    | nil => rfl
    | cons first rest =>
      dsimp only
      rw [List.length_append, List.length_map]
      by_cases hEmpty : first = ""
      · subst hEmpty
        simp [isStep]
      · by_cases hHere : first = "."
        · subst hHere
          simp [isStep]
        · have hStep : isStep first = true := by simp [isStep, hEmpty, hHere]
          simp [hEmpty, hHere, hStep, Nat.add_comm]

theorem length_components_parent {p parent : Path} (h : p.parent? = some parent) :
    parent.components.length < p.components.length := by
  obtain ⟨front, last, hAbove⟩ := above_of_parent? h
  rw [length_components, length_components, hAbove.isAbsolute_eq, hAbove.filter_eq,
    hAbove.filter_parts, List.filter_append, List.length_append]
  rcases trimParts_concat_eq hAbove.trimmedParts_eq with hStep | ⟨hRelative, rfl, rfl⟩
  · have hHead : parent.parts.head? = some "." → p.parts.head? = some "." := by
      intro hHere
      apply hAbove.head?_parts
      rw [List.head?_append, hAbove.head_eq hHere]
      rfl
    rw [List.filter_cons_of_pos hStep, List.filter_nil, List.length_singleton]
    split
    next hParent =>
      rw [if_pos (hParent.imp_right hHead)]
      omega
    next => omega
  · rw [if_neg, if_pos (.inr (hAbove.head?_parts rfl))]
    · decide
    · rw [hRelative]
      simpa using fun hHere => nomatch hAbove.head_eq hHere

end Path

/-! ## Directories above -/

namespace Disk

variable {d : Disk} {p parent : Path} {place : Place}

theorem walk?_filter_firm (d : Disk) (place : Place) (steps : List Path.Step) :
    d.walk? place (steps.filter Path.Step.isFirm) = d.walk? place steps := by
  induction steps generalizing place with
  | nil => rfl
  | cons step steps ih =>
    cases step with
    | name s =>
      have hKeep : (Path.Step.name s :: steps).filter Path.Step.isFirm =
          .name s :: steps.filter Path.Step.isFirm := rfl
      rw [hKeep, walk?, walk?]
      split
      next => exact ih _
      next => rfl
    | _ => exact ih _

theorem LeadsTo.of_walk? {steps : List Path.Step}
    (h : d.walk? d.workingDirectory steps = some place)
    (hSteps : p.firmWay = steps.filter Path.Step.isFirm) (hText : p.text ≠ "") :
    d.LeadsTo p place := by
  refine ⟨hText, ?_⟩
  rw [← walk?_filter_firm, ← h, ← walk?_filter_firm d _ steps]
  exact congrArg _ hSteps

/-- The path above one that leads to a directory leads to a directory, unless it is empty. -/
theorem LeadsTo.above (h : d.LeadsTo p place) (hParent : p.parent? = some parent) :
    parent.text = "" ∨ ∃ above, d.LeadsTo parent above := by
  by_cases hText : parent.text = ""
  · exact .inl hText
  right
  have hWalk : d.walk? d.workingDirectory p.firmWay = some place := by
    rw [Path.firmWay, walk?_filter_firm, h.walk?_eq]
  rcases List.eq_nil_or_concat' p.firmWay with hNil | ⟨front, last, hFront⟩
  · have hNone : parent.firmWay = [].filter Path.Step.isFirm := by
      rw [Path.firmWay_parent hParent, hNil]
      rfl
    exact ⟨d.workingDirectory, LeadsTo.of_walk? rfl hNone hText⟩
  · rw [hFront, walk?_append] at hWalk
    obtain ⟨above, hAbove, _⟩ := Option.bind_eq_some_iff.mp hWalk
    refine ⟨above, LeadsTo.of_walk? hAbove ?_ hText⟩
    rw [Path.firmWay_parent hParent, hFront, List.dropLast_concat, eq_comm, List.filter_eq_self]
    intro step hStep
    have hMem : step ∈ p.firmWay := hFront ▸ List.mem_append_left _ hStep
    exact List.of_mem_filter hMem

/-- The path above one whose last step names a place leads to a directory, unless it is empty. -/
theorem Names.above (h : d.Names p place) (hParent : p.parent? = some parent) :
    parent.text = "" ∨ ∃ above, d.LeadsTo parent above := by
  by_cases hText : parent.text = ""
  · exact .inl hText
  right
  obtain ⟨init, above, s, hWay, hWalk, _⟩ := h
  refine ⟨above, LeadsTo.of_walk? hWalk ?_ hText⟩
  rw [Path.firmWay_parent hParent, Path.firmWay, hWay, List.filter_append]
  exact List.dropLast_concat

end Disk

end ClassCollapse
