import ClassCollapse.Proofs.Disk.Sameness

/-!
# What keys name

The key of a file below a root has the steps that follow those of the root. Taken from the root it
is the way to the file, up to steps that stay where they are. Below the empty path a key has all the
steps of the file. The companion sheet of a file below a root is below it too.
-/

namespace ClassCollapse

namespace Path

/-- A path goes on below a root. -/
def IsUnder (root p : Path) : Prop :=
  ∃ rest, rest ≠ [] ∧ p.components = root.components ++ rest

/-- The last component of a path is neither the root nor a `.` at the start. -/
def EndsWithStep (p : Path) : Prop :=
  ∃ front last, isStep last = true ∧ '/' ∉ last.toList ∧ p.components = front ++ [step last]

theorem components_ne_nil {p : Path} (h : p.text ≠ "") : p.components ≠ [] := by
  rw [components]
  cases hAbsolute : p.isAbsolute with
  | true => exact List.cons_ne_nil _ _
  | false =>
    cases hParts : p.parts with
    | nil => exact absurd hParts p.parts_ne_nil
    | cons first rest =>
      dsimp only
      rw [if_neg]
      · exact List.cons_ne_nil _ _
      · rintro rfl
        have hOnly : p.parts = [] ++ [""] := parts_of_head hAbsolute (by rw [hParts]; rfl)
        obtain ⟨front, hFront⟩ :=
          List.getLast?_eq_some_iff.mp (beq_iff_eq.mp (endsWithSlash_of_parts hOnly h))
        rw [parts_of_slash hFront, hAbsolute, if_neg Bool.false_ne_true] at hOnly
        have hNone := (List.append_inj' hOnly rfl).1
        exact split_ne_nil front (List.map_eq_nil_iff.mp hNone)

theorem text_step (part : String) : (step part).text = part := by
  rw [step]
  by_cases hHere : part = "."
  · rw [if_pos hHere, hHere]
    rfl
  by_cases hUp : part = ".."
  · rw [if_neg hHere, if_pos hUp, hUp]
    rfl
  · rw [if_neg hHere, if_neg hUp]
    rfl

theorem ne_empty_of_isStep {part : String} (h : isStep part = true) : part ≠ "" := by
  rintro rfl
  cases h

/-- A path whose last part names a step ends with one that can lead to another place. -/
theorem endsFirm_of_getLast? {p : Path} {last : String} (h : p.parts.getLast? = some last)
    (hLast : isStep last = true) : EndsFirm p.way := by
  obtain ⟨front, hParts⟩ := List.getLast?_eq_some_iff.mp h
  obtain ⟨init, hWay⟩ := way_of_parts hParts (ne_empty_of_isStep hLast)
  intro step hStep
  rw [hWay, List.getLast?_concat] at hStep
  cases hStep
  have hHere : last ≠ "." := by
    rintro rfl
    cases hLast
  by_cases hUp : last = ".."
  · rw [hUp]
    rfl
  · rw [Step.ofPart, if_neg hHere, if_neg hUp]
    rfl

/-- After the first component of a path there are those of its parts that name steps. -/
theorem mem_tail_components {p : Path} {c : Component} (h : c ∈ p.components.tail) :
    isStep c.text = true ∧ '/' ∉ c.text.toList ∧ step c.text = c := by
  obtain ⟨part, hPart, hStep, rfl⟩ : ∃ part ∈ p.parts, isStep part = true ∧ step part = c := by
    rw [components] at h
    split at h
    next parts hAbsolute hParts =>
      obtain ⟨part, hMem, hSame⟩ := List.mem_map.mp h
      obtain ⟨hIn, hStep⟩ := List.mem_filter.mp hMem
      exact ⟨part, hIn, hStep, hSame⟩
    next => cases h
    next first rest _ hParts =>
      have hRest : c ∈ (rest.filter isStep).map step := by
        split at h
        · exact List.mem_of_mem_tail h
        · exact h
      obtain ⟨part, hMem, hSame⟩ := List.mem_map.mp hRest
      obtain ⟨hIn, hStep⟩ := List.mem_filter.mp hMem
      exact ⟨part, hParts ▸ List.mem_cons_of_mem first hIn, hStep, hSame⟩
  rw [text_step]
  exact ⟨hStep, no_slash_of_mem_parts hPart, rfl⟩

theorem map_text_step (parts : List String) : (parts.map step).map Component.text = parts := by
  rw [List.map_map]
  exact (List.map_congr_left fun part _ => text_step part).trans (List.map_id parts)

theorem components_of_absolute {p : Path} (h : p.isAbsolute = true) :
    p.components = .root :: (p.parts.filter isStep).map step := by
  rw [components, h]

theorem components_of_relative {p : Path} (h : p.isAbsolute = false) {first : String}
    {rest : List String} (hParts : p.parts = first :: rest) (hFirst : first ≠ "") :
    p.components = step first :: (rest.filter isStep).map step := by
  rw [components, h, hParts]
  dsimp only
  rw [if_neg hFirst, List.singleton_append]

/-- Steps that follow the root make a path, also where their first separator doubles its slash. -/
theorem components_join_root {parts front : List String} {last : String}
    (hSlash : ∀ part ∈ parts, '/' ∉ part.toList) (hParts : parts = front ++ [last])
    (hLast : isStep last = true) :
    components ⟨Text.join "/" ("/" :: parts)⟩ = .root :: (parts.filter isStep).map step ∧
      EndsFirm (way ⟨Text.join "/" ("/" :: parts)⟩) := by
  -- The slash of the root is followed by a separator, so the first part is empty.
  have hText : (⟨Text.join "/" ("/" :: parts)⟩ : Path) = ofParts true ("" :: parts) := by
    obtain ⟨first, rest, hCons⟩ := List.exists_cons_of_ne_nil (hParts ▸ List.concat_ne_nil last front)
    rw [hCons, ofParts, Text.join, Text.join, if_pos rfl, String.empty_append, String.append_assoc]
  obtain ⟨hSame, hAll⟩ : (ofParts true ("" :: parts)).isAbsolute = true ∧
      (ofParts true ("" :: parts)).parts = "" :: parts :=
    parts_ofParts (List.cons_ne_nil _ _) (by simpa using hSlash) fun h => absurd h (by decide)
  rw [hText]
  constructor
  · rw [components_of_absolute hSame, hAll, List.filter_cons_of_neg (by decide)]
  · refine endsFirm_of_getLast? ?_ hLast
    rw [hAll, hParts, ← List.cons_append, List.getLast?_concat]

/-- Parts make a relative path if the first one is not empty. -/
theorem components_join_relative {first last : String} {rest front : List String}
    (hSlash : ∀ part ∈ first :: rest, '/' ∉ part.toList) (hFirst : first ≠ "")
    (hParts : first :: rest = front ++ [last]) (hLast : isStep last = true) :
    components ⟨Text.join "/" (first :: rest)⟩ = step first :: (rest.filter isStep).map step ∧
      EndsFirm (way ⟨Text.join "/" (first :: rest)⟩) := by
  have hText : (⟨Text.join "/" (first :: rest)⟩ : Path) = ofParts false (first :: rest) := by
    rw [ofParts, if_neg Bool.false_ne_true, String.empty_append]
  obtain ⟨hSame, hAll⟩ : (ofParts false (first :: rest)).isAbsolute = false ∧
      (ofParts false (first :: rest)).parts = first :: rest :=
    parts_ofParts (List.cons_ne_nil _ _) hSlash fun _ hEmpty => hFirst (Option.some.inj hEmpty)
  rw [hText]
  constructor
  · exact components_of_relative hSame hAll hFirst
  · refine endsFirm_of_getLast? ?_ hLast
    rw [hAll, hParts, List.getLast?_concat]

/-- The texts of all components with slashes between them make a path with these components. -/
theorem components_join_texts {p : Path} (hEnd : p.EndsWithStep) :
    components ⟨Text.join "/" (p.components.map Component.text)⟩ = p.components ∧
      EndsFirm (way ⟨Text.join "/" (p.components.map Component.text)⟩) := by
  obtain ⟨front, last, hStep, hSlash, hLast⟩ := hEnd
  have hTexts := congrArg (List.map Component.text) hLast
  rw [List.map_append, List.map_singleton, text_step] at hTexts
  have hFilter : ∀ parts : List String, (parts.filter isStep).filter isStep = parts.filter isStep := by
    simp
  cases hAbsolute : p.isAbsolute with
  | true =>
    rw [components_of_absolute hAbsolute] at hTexts hLast ⊢
    rw [List.map_cons, map_text_step] at hTexts ⊢
    cases front with
    | nil =>
      obtain ⟨hRoot, _⟩ := List.cons.inj hLast
      rw [← text_step last, ← hRoot] at hSlash
      exact absurd hSlash (by decide)
    | cons first front =>
      have hPath := components_join_root
        (fun part hPart => no_slash_of_mem_parts (List.mem_filter.mp hPart).1)
        (List.cons.inj hTexts).2 hStep
      rwa [hFilter] at hPath
  | false =>
    obtain ⟨first, rest, hFirst⟩ := List.exists_cons_of_ne_nil p.parts_ne_nil
    have hSome : first ≠ "" := by
      rintro rfl
      have hOnly := parts_of_head hAbsolute (by rw [hFirst]; rfl)
      rw [components, hAbsolute, hOnly] at hLast
      exact absurd hLast.symm (List.concat_ne_nil _ _)
    rw [components_of_relative hAbsolute hFirst hSome, List.map_cons, text_step, map_text_step]
      at hTexts ⊢
    have hPath := components_join_relative (fun part hPart => no_slash_of_mem_parts
      (hFirst ▸ (List.filter_sublist.cons_cons first).subset hPart)) hSome hTexts hStep
    rwa [hFilter] at hPath

theorem join_empty (p : Path) : join ⟨""⟩ p = p := by
  rw [join]
  split
  · rfl
  · exact congrArg Path.mk String.empty_append

namespace IsUnder

variable {root p : Path}

/-- The key of a path below a root is made of parts that name the further steps. -/
theorem exists_parts (hRoot : root.text ≠ "") (h : root.IsUnder p) :
    ∃ names, names ≠ [] ∧ (∀ s ∈ names, isStep s = true ∧ '/' ∉ s.toList) ∧
      p.components = root.components ++ names.map step ∧
      fileKey root p = Text.join "/" names := by
  obtain ⟨rest, hne, hRest⟩ := h
  have hSteps : ∀ c ∈ rest, isStep c.text = true ∧ '/' ∉ c.text.toList ∧ step c.text = c := by
    intro c hc
    apply mem_tail_components (p := p)
    rw [hRest, List.tail_append_of_ne_nil (components_ne_nil hRoot)]
    exact List.mem_append_right _ hc
  refine ⟨rest.map Component.text, by simpa using hne, ?_, ?_, ?_⟩
  · intro s hs
    obtain ⟨c, hc, rfl⟩ := List.mem_map.mp hs
    exact ⟨(hSteps c hc).1, (hSteps c hc).2.1⟩
  · have hSame : (rest.map Component.text).map step = rest := by
      rw [List.map_map]
      exact (List.map_congr_left fun c hc => (hSteps c hc).2.2).trans (List.map_id rest)
    rw [hSame, hRest]
  · rw [fileKey, (below?_eq_some_iff _ _ _).mpr hRest, Option.getD_some]

/-- The key of a path below a root that is not empty, taken from the root, has the steps of the
path. -/
theorem join_fileKey_of_text (hRoot : root.text ≠ "") (h : root.IsUnder p) :
    (root.join ⟨fileKey root p⟩).same p = true ∧
      EndsFirm (root.join ⟨fileKey root p⟩).way := by
  obtain ⟨names, hne, hNames, hComponents, hKey⟩ := h.exists_parts hRoot
  have hSteps : names.filter isStep = names := by
    rw [List.filter_eq_self]
    exact fun s hs => (hNames s hs).1
  have hParts : ∀ s ∈ names, s ≠ "" ∧ '/' ∉ s.toList :=
    fun s hs => ⟨ne_empty_of_isStep (hNames s hs).1, (hNames s hs).2⟩
  rw [hKey]
  constructor
  · rw [same, beq_iff_eq, components_join_parts hRoot hne hParts, hSteps, hComponents]
  · obtain ⟨front, last, rfl⟩ := (List.eq_nil_or_concat' names).resolve_left hne
    refine endsFirm_of_getLast? ?_ (hNames last (by simp)).1
    rw [(parts_join_parts hRoot hne hParts).2.1, ← List.append_assoc, List.getLast?_concat]

/-- The key of a path below a root, taken from the root, has the steps of the path. -/
theorem join_fileKey (h : root.IsUnder p) (hEnd : p.EndsWithStep) :
    (root.join ⟨fileKey root p⟩).same p = true ∧
      EndsFirm (root.join ⟨fileKey root p⟩).way := by
  by_cases hRoot : root.text = ""
  · cases root with
    | mk text =>
    cases hRoot
    have hKey : fileKey ⟨""⟩ p = Text.join "/" (p.components.map Component.text) := rfl
    rw [hKey, join_empty, same, beq_iff_eq]
    exact components_join_texts hEnd
  · exact h.join_fileKey_of_text hRoot

end IsUnder

/-! ## Companion sheets -/

/-- Up to the last part that names a step, the parts of a path decide its components. -/
theorem components_of_last {p : Path} {front silent : List String} {last : String}
    (h : p.parts = front ++ last :: silent) (hLast : isStep last = true)
    (hSilent : silent.filter isStep = []) :
    p.components = leadingComponents p.isAbsolute front ++ [step last] := by
  cases front with
  | nil =>
    rw [components, h, List.nil_append]
    cases p.isAbsolute with
    | true =>
      dsimp only
      rw [List.filter_cons_of_pos hLast, hSilent]
      rfl
    | false =>
      have hSome : last ≠ "" := by
        rintro rfl
        cases hLast
      dsimp only
      rw [hSilent, if_neg hSome]
      rfl
  | cons first front =>
    rw [components_of_parts h fun _ => List.cons_ne_nil _ _, List.filter_cons_of_pos hLast, hSilent,
      List.map_singleton]

/-- The trimmed parts of a path with a name end with a part that names its last step, and what is
trimmed names none. -/
theorem exists_parts_of_fileName? {p : Path} {name : String} (h : p.fileName? = some name) :
    ∃ last silent, p.parts = p.trimmedParts.dropLast ++ last :: silent ∧ isStep last = true ∧
      silent.filter isStep = [] := by
  have hSome : p.trimmedParts ≠ [] := by
    intro hNil
    rw [fileName?, hNil] at h
    cases h
  obtain ⟨front, last, hTrimmed⟩ := (List.eq_nil_or_concat' _).resolve_left hSome
  have hLast : isStep last = true := by
    rcases trimParts_concat_eq hTrimmed with hStep | ⟨_, _, hHere⟩
    · exact hStep
    · rw [fileName?, hTrimmed, List.getLast?_concat, hHere] at h
      cases h
  obtain ⟨silent, hParts⟩ : p.trimmedParts <+: p.parts := trimParts_prefix_self _ _
  refine ⟨last, silent, ?_, hLast, ?_⟩
  · rw [← hParts, hTrimmed, List.dropLast_concat, List.append_assoc]
    rfl
  · have hSteps : p.trimmedParts.filter isStep = (p.trimmedParts ++ silent).filter isStep := by
      rw [hParts]
      exact filter_trimParts _ _
    rw [List.filter_append] at hSteps
    exact List.self_eq_append_right.mp hSteps

end Path

namespace Placement

theorem fileName?_of_forPath? {p : Path} {placement : Placement} (h : forPath? p = some placement) :
    ∃ name, p.fileName? = some name := by
  cases hName : p.fileName? with
  | some name => exact ⟨name, rfl⟩
  | none =>
    rw [forPath?, Path.extension?, hName] at h
    cases h

theorem endsWithStep_of_forPath? {p : Path} {placement : Placement}
    (h : forPath? p = some placement) : p.EndsWithStep := by
  obtain ⟨name, hName⟩ := fileName?_of_forPath? h
  obtain ⟨last, silent, hParts, hLast, hSilent⟩ := Path.exists_parts_of_fileName? hName
  have hSlash := Path.no_slash_of_mem_parts (hParts ▸ List.mem_append_right _ List.mem_cons_self)
  exact ⟨_, last, hLast, hSlash, Path.components_of_last hParts hLast hSilent⟩

/-- The companion of a file stands beside it. -/
theorem components_companionPath {p : Path} {placement : Placement}
    (h : forPath? p = some placement) :
    ∃ last, Path.isStep last = true ∧ '/' ∉ last.toList ∧
      (companionPath p).components = p.components.dropLast ++ [Path.step last] := by
  obtain ⟨name, hName⟩ := fileName?_of_forPath? h
  obtain ⟨old, silent, hParts, hOld, hSilent⟩ := Path.exists_parts_of_fileName? hName
  obtain ⟨last, hPath, hLast⟩ := exists_companionPath_eq h
  have hNew : Path.isStep last = true ∧ '/' ∉ last.toList := by
    rcases hLast with rfl | ⟨hIsName, _⟩
    · decide
    · exact ⟨hIsName.isStep, hIsName.no_slash⟩
  obtain ⟨hAbsolute, hFolder⟩ := p.parts_ofParts_folder (Path.ne_empty_of_isStep hNew.1) hNew.2
  refine ⟨last, hNew.1, hNew.2, ?_⟩
  rw [hPath, Path.components_of_last hFolder hNew.1 rfl, hAbsolute,
    Path.components_of_last hParts hOld hSilent, List.dropLast_concat]

theorem endsWithStep_companionPath {p : Path} {placement : Placement}
    (h : forPath? p = some placement) : (companionPath p).EndsWithStep := by
  obtain ⟨last, hStep, hSlash, hLast⟩ := components_companionPath h
  exact ⟨_, last, hStep, hSlash, hLast⟩

theorem isUnder_companionPath {root p : Path} {placement : Placement} (hp : root.IsUnder p)
    (h : forPath? p = some placement) : root.IsUnder (companionPath p) := by
  obtain ⟨last, _, _, hLast⟩ := components_companionPath h
  obtain ⟨rest, hne, hRest⟩ := hp
  refine ⟨rest.dropLast ++ [Path.step last], by simp, ?_⟩
  rw [hLast, hRest, List.dropLast_append_of_ne_nil hne, List.append_assoc]

end Placement

/-- The key of a file below a root names the place of the file. -/
theorem Disk.Names.join_fileKey {d : Disk} {root p : Path} {place : Place} (h : d.Names p place)
    (hUnder : root.IsUnder p) (hEnd : p.EndsWithStep) :
    d.Names (root.join ⟨Path.fileKey root p⟩) place := by
  obtain ⟨hSame, hFirm⟩ := hUnder.join_fileKey hEnd
  exact h.of_firmWay (Path.firmWay_of_same hSame) hFirm

end ClassCollapse
