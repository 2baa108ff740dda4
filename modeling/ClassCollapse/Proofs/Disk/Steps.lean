import ClassCollapse.Proofs.Disk.Path
import Mathlib.Data.List.TakeWhile

/-!
# The steps of a path

The parts of a path decide its components, its way and its name. The last component alone decides
the name, so paths with the same components have the same name. A path below a root goes the way of
the root first and then takes its names.
-/

namespace ClassCollapse

theorem IsName.isStep {s : String} (h : IsName s) : Path.isStep s = true := by
  rw [Path.isStep, Bool.and_eq_true, bne_iff_ne, bne_iff_ne]
  exact ⟨h.nonempty, h.ne_here⟩

theorem IsName.step_eq {s : String} (h : IsName s) : Path.step s = .name s := by
  rw [Path.step, if_neg h.ne_here, if_neg h.ne_up]

theorem IsName.ofPart_eq {s : String} (h : IsName s) : Path.Step.ofPart s = .name s := by
  rw [Path.Step.ofPart, if_neg h.ne_here, if_neg h.ne_up]

namespace Path

/-! ## Parts -/

theorem no_slash_of_mem_split {cs part : List Char} (h : part ∈ split cs) : '/' ∉ part := by
  induction cs generalizing part with
  | nil =>
    rw [List.mem_singleton.mp h]
    exact List.not_mem_nil
  | cons c cs ih =>
    by_cases hSlash : c = '/'
    · subst hSlash
      rw [split] at h
      rcases List.mem_cons.mp h with rfl | hRest
      · exact List.not_mem_nil
      · exact ih hRest
    · rw [split.eq_3 _ _ hSlash] at h
      cases hSplit : split cs with
      | nil => exact absurd hSplit (split_ne_nil cs)
      | cons first parts =>
        rw [hSplit] at h ih
        rcases List.mem_cons.mp h with rfl | hRest
        · intro hMem
          rcases List.mem_cons.mp hMem with hFirst | hFirst
          · exact hSlash hFirst.symm
          · exact ih List.mem_cons_self hFirst
        · exact ih (List.mem_cons_of_mem first hRest)

theorem no_slash_of_mem_parts {p : Path} {part : String} (h : part ∈ p.parts) :
    '/' ∉ part.toList := by
  have hMem : part ∈ (split p.text.toList).map String.ofList := by
    rw [parts] at h
    split at h
    · exact List.mem_of_mem_tail h
    · exact h
  obtain ⟨cs, hcs, rfl⟩ := List.mem_map.mp hMem
  rw [String.toList_ofList]
  exact no_slash_of_mem_split hcs

/-- The part after the last slash is empty only at the end of a text. -/
theorem getLast?_split {cs : List Char} (h : (split cs).getLast? = some []) :
    cs = [] ∨ cs.getLast? = some '/' := by
  induction cs with
  | nil => exact .inl rfl
  | cons c cs ih =>
    right
    cases hSplit : split cs with
    | nil => exact absurd hSplit (split_ne_nil cs)
    | cons first parts =>
    by_cases hSlash : c = '/'
    · subst hSlash
      rw [split, List.getLast?_cons_of_ne_nil (split_ne_nil cs)] at h
      rcases ih h with rfl | hLast
      · rfl
      · rw [List.getLast?_cons, hLast]
        rfl
    · rw [split.eq_3 _ _ hSlash, hSplit, Text.extendFirst] at h
      cases parts with
      | nil => cases h
      | cons next parts =>
        rw [List.getLast?_cons_of_ne_nil (List.cons_ne_nil _ _)] at h
        rw [hSplit, List.getLast?_cons_of_ne_nil (List.cons_ne_nil _ _)] at ih
        rcases ih h with rfl | hLast
        · cases hSplit
        · rw [List.getLast?_cons, hLast]
          rfl

theorem parts_of_endsWithSlash {p : Path} (h : p.endsWithSlash = true) :
    p.parts = p.leadingParts ++ [""] := by
  obtain ⟨front, hFront⟩ := List.getLast?_eq_some_iff.mp (beq_iff_eq.mp h)
  have hParts := parts_of_slash (p := p) hFront
  rw [leadingParts, if_pos h, hParts, split, List.map_singleton, List.dropLast_concat]

theorem parts_ne_nil (p : Path) : p.parts ≠ [] := by
  rw [parts]
  split
  next hAbsolute =>
    cases hText : p.text.toList with
    | nil =>
      rw [isAbsolute, hText] at hAbsolute
      cases hAbsolute
    | cons c cs =>
      rw [isAbsolute, hText] at hAbsolute
      have hc : c = '/' := Option.some.inj (beq_iff_eq.mp hAbsolute)
      subst hc
      rw [split, List.map_cons, List.tail_cons]
      exact fun hNil => split_ne_nil cs (List.map_eq_nil_iff.mp hNil)
  next => exact fun hNil => split_ne_nil _ (List.map_eq_nil_iff.mp hNil)

/-- The last part is empty only at the end of a text. -/
theorem endsWithSlash_of_parts {p : Path} {front : List String} (h : p.parts = front ++ [""])
    (hText : p.text ≠ "") : p.endsWithSlash = true := by
  have hLast : ((split p.text.toList).map String.ofList).getLast? = some "" := by
    rw [parts] at h
    split at h
    · obtain ⟨first, hFirst⟩ : ∃ first, (split p.text.toList).map String.ofList =
          first :: (front ++ [""]) := by
        cases hAll : (split p.text.toList).map String.ofList with
        | nil => exact absurd (List.map_eq_nil_iff.mp hAll) (split_ne_nil _)
        | cons first rest =>
          rw [hAll, List.tail_cons] at h
          exact ⟨first, by rw [h]⟩
      rw [hFirst, ← List.cons_append, List.getLast?_concat]
    · rw [h, List.getLast?_concat]
  rw [List.getLast?_map, Option.map_eq_some_iff] at hLast
  obtain ⟨part, hPart, hEmpty⟩ := hLast
  have hNil : part = [] := by
    rw [← String.toList_ofList (l := part), hEmpty]
    rfl
  rw [endsWithSlash, beq_iff_eq]
  rcases getLast?_split (hNil ▸ hPart) with hChars | hSlash
  · exact absurd (String.toList_eq_nil_iff.mp hChars) hText
  · exact hSlash

/-! ## The last step -/

def Component.name? : Component → Option String
  | .name s => some s
  | _ => none

theorem getLast?_dropSilent (parts : List String) :
    (dropSilent parts).getLast? = (parts.filter isStep).getLast? := by
  rw [dropSilent, List.getLast?_reverse, ← List.find?_eq_head?_dropWhile_not, ← List.head?_filter,
    List.filter_reverse, List.head?_reverse]

theorem trimParts_concat (absolute : Bool) (front : List String) {y : String}
    (h : isStep y = true) : trimParts absolute (front ++ [y]) = front ++ [y] := by
  have hDrop : ∀ front : List String, dropSilent (front ++ [y]) = front ++ [y] := by
    intro front
    rw [dropSilent, List.reverse_concat, List.dropWhile_cons_of_neg (by simp [h]),
      List.reverse_cons, List.reverse_reverse]
  cases absolute with
  | true => exact hDrop front
  | false =>
    cases front with
    | nil =>
      by_cases hHere : y = "."
      · subst hHere
        cases h
      · rw [List.nil_append, trimParts.eq_2 _ _ (by simp [hHere])]
        exact hDrop []
    | cons first front =>
      by_cases hHere : first = "."
      · subst hHere
        exact congrArg ("." :: ·) (hDrop front)
      · rw [trimParts.eq_2 _ _ (by simp [hHere])]
        exact hDrop (first :: front)

theorem name?_step {part : String} (h : isStep part = true) :
    (step part).name? = if part = "." ∨ part = ".." then none else some part := by
  have hHere : part ≠ "." := by
    rintro rfl
    cases h
  by_cases hUp : part = ".."
  · rw [step, if_neg hHere, if_pos hUp, if_pos (.inr hUp)]
    rfl
  · rw [step, if_neg hHere, if_neg hUp, if_neg (not_or.mpr ⟨hHere, hUp⟩)]
    rfl

/-- The name that a last part gives a path. -/
def lastName? (part : Option String) : Option String :=
  match part with
  | some part => if part = "." ∨ part = ".." then none else some part
  | none => none

theorem lastName?_dropSilent (parts : List String) :
    lastName? (dropSilent parts).getLast? =
      ((parts.filter isStep).map step).getLast?.bind Component.name? := by
  rw [getLast?_dropSilent, List.getLast?_map]
  cases hLast : (parts.filter isStep).getLast? with
  | none => rfl
  | some part => exact (name?_step (List.of_mem_filter (List.mem_of_getLast? hLast))).symm

theorem getLast?_cons_bind (first : Component) (h : first.name? = none) (rest : List Component) :
    (first :: rest).getLast?.bind Component.name? = rest.getLast?.bind Component.name? := by
  rw [List.getLast?_cons]
  cases rest.getLast? with
  | none => exact h
  | some last => rfl

/-- The name of a path is that of its last component. -/
theorem fileName?_eq (p : Path) : p.fileName? = p.components.getLast?.bind Component.name? := by
  have hName : p.fileName? = lastName? (trimParts p.isAbsolute p.parts).getLast? := rfl
  rw [hName, components]
  cases p.isAbsolute with
  | true =>
    dsimp only
    rw [getLast?_cons_bind _ rfl, ← lastName?_dropSilent]
    rfl
  | false =>
    cases p.parts with
    | nil => rfl
    | cons first rest =>
      dsimp only
      by_cases hHere : first = "."
      · subst hHere
        have hStep : (if "." = "" then [] else [step "."]) = [Component.here] := rfl
        rw [hStep, List.singleton_append, getLast?_cons_bind _ rfl, ← lastName?_dropSilent,
          trimParts, List.getLast?_cons]
        cases (dropSilent rest).getLast? with
        | none => rfl
        | some part => rfl
      · have hTrim : trimParts false (first :: rest) = dropSilent (first :: rest) :=
          trimParts.eq_2 _ _ (by simp [hHere])
        rw [hTrim, lastName?_dropSilent]
        by_cases hEmpty : first = ""
        · subst hEmpty
          rfl
        · have hStep : isStep first = true := by simp [isStep, hHere, hEmpty]
          rw [List.filter_cons_of_pos hStep, if_neg hEmpty]
          rfl

theorem no_slash_of_fileName? {p : Path} {s : String} (h : p.fileName? = some s) :
    '/' ∉ s.toList := by
  have hComponent : Component.name s ∈ p.components := by
    rw [fileName?_eq] at h
    obtain ⟨last, hLast, hName⟩ := Option.bind_eq_some_iff.mp h
    cases last with
    | name s' =>
      cases hName
      exact List.mem_of_getLast? hLast
    | _ => cases hName
  have hStep : ∀ part, step part = .name s → part = s := by
    intro part hPart
    rw [step] at hPart
    split at hPart
    · cases hPart
    · split at hPart
      · cases hPart
      · exact Component.name.inj hPart
  have hPart : s ∈ p.parts := by
    rw [components] at hComponent
    split at hComponent
    next parts _ hParts =>
      obtain ⟨part, hMem, hSame⟩ := List.mem_map.mp ((List.mem_cons.mp hComponent).resolve_left
        (by simp))
      rw [hStep part hSame] at hMem
      exact List.mem_of_mem_filter hMem
    next => cases hComponent
    next first rest _ hParts =>
      rw [hParts]
      rcases List.mem_append.mp hComponent with hFirst | hRest
      · split at hFirst
        · cases hFirst
        · rw [hStep first (List.mem_singleton.mp hFirst).symm]
          exact List.mem_cons_self
      · obtain ⟨part, hMem, hSame⟩ := List.mem_map.mp hRest
        rw [hStep part hSame] at hMem
        exact List.mem_cons_of_mem first (List.mem_of_mem_filter hMem)
  exact no_slash_of_mem_parts hPart

theorem fileName?_of_same {p q : Path} (h : p.same q = true) : p.fileName? = q.fileName? := by
  rw [fileName?_eq, fileName?_eq, beq_iff_eq.mp h]

theorem fileName?_of_parts {p : Path} {front : List String} {y : String}
    (h : p.parts = front ++ [y]) (hStep : isStep y = true) :
    p.fileName? = if y = "." ∨ y = ".." then none else some y := by
  have hName : p.fileName? = lastName? (trimParts p.isAbsolute p.parts).getLast? := rfl
  rw [hName, h, trimParts_concat _ _ hStep, List.getLast?_concat]
  rfl

theorem exists_intercalate_concat (first : List Char) (rest : List (List Char)) (last : List Char) :
    ∃ front, ['/'].intercalate (first :: rest ++ [last]) = front ++ '/' :: last := by
  induction rest generalizing first with
  | nil =>
    refine ⟨first, ?_⟩
    rw [List.singleton_append, List.intercalate_cons_cons, List.intercalate_singleton,
      List.append_assoc]
    rfl
  | cons next rest ih =>
    obtain ⟨front, hFront⟩ := ih next
    refine ⟨first ++ '/' :: front, ?_⟩
    rw [List.cons_append, List.cons_append, List.intercalate_cons_cons, ← List.cons_append, hFront]
    simp

theorem fileName?_ofParts (absolute : Bool) (folder : List String) {y : String}
    (hSlash : '/' ∉ y.toList) (hStep : isStep y = true) :
    (ofParts absolute (folder ++ [y])).fileName? =
      if y = "." ∨ y = ".." then none else some y := by
  have hPart : (split y.toList).map String.ofList = [y] := by
    rw [split_part hSlash, List.map_singleton, String.ofList_toList]
  have hText : (ofParts absolute (folder ++ [y])).text.toList =
      (if absolute then ['/'] else []) ++
        ['/'].intercalate (folder.map String.toList ++ [y.toList]) := by
    rw [ofParts, String.toList_append, Text.toList_join, List.map_append, List.map_singleton]
    cases absolute <;> rfl
  -- The last part follows a slash, or it is the whole text.
  have hLast : (∃ front, (ofParts absolute (folder ++ [y])).text.toList =
      front ++ '/' :: y.toList) ∨ (ofParts absolute (folder ++ [y])).text.toList = y.toList := by
    rw [hText]
    cases folder with
    | nil =>
      rw [List.map_nil, List.nil_append, List.intercalate_singleton]
      cases absolute with
      | true => exact .inl ⟨[], rfl⟩
      | false => exact .inr rfl
    | cons first rest =>
      obtain ⟨front, hFront⟩ :=
        exists_intercalate_concat first.toList (rest.map String.toList) y.toList
      left
      refine ⟨(if absolute then ['/'] else []) ++ front, ?_⟩
      rw [List.map_cons, hFront, List.append_assoc]
  rcases hLast with ⟨front, hFront⟩ | hWhole
  · have hParts := parts_of_slash hFront
    rw [hPart] at hParts
    exact fileName?_of_parts hParts hStep
  · have hParts : (ofParts absolute (folder ++ [y])).parts = [] ++ [y] := by
      have hRelative : (ofParts absolute (folder ++ [y])).isAbsolute = false := by
        rw [isAbsolute, hWhole, beq_eq_false_iff_ne]
        intro hHead
        exact hSlash (List.mem_of_head? hHead)
      rw [parts, hRelative, hWhole, hPart]
      rfl
    exact fileName?_of_parts hParts hStep

/-! ## Ways -/

theorem isName_of_mem_way {p : Path} {s : String} (h : Step.name s ∈ p.way) : IsName s := by
  rw [way, List.mem_append, List.mem_append] at h
  rcases h with (hRoot | hPart) | hSlash
  · split at hRoot <;> simp at hRoot
  · obtain ⟨part, hMem, hStep⟩ := List.mem_map.mp hPart
    obtain ⟨hIn, hNonempty⟩ := List.mem_filter.mp hMem
    rw [Step.ofPart] at hStep
    split at hStep
    · cases hStep
    next hHere =>
      split at hStep
      · cases hStep
      next hUp =>
        cases hStep
        exact ⟨of_decide_eq_true hNonempty, no_slash_of_mem_parts hIn, hHere, hUp⟩
  · split at hSlash <;> simp at hSlash

/-- Where the way of a path ends in a name, that is its last part, and the other parts make the rest
of the way. -/
theorem parts_of_way {p : Path} {init : List Step} {s : String} (h : p.way = init ++ [.name s]) :
    ∃ front, p.parts = front ++ [s] ∧ init = (if p.isAbsolute then [.root] else []) ++
      (front.filter fun part => part ≠ "").map Step.ofPart := by
  have hLast : p.way.getLast? = some (.name s) := by rw [h, List.getLast?_concat]
  have hOpen : p.endsWithSlash = false := by
    cases hSlash : p.endsWithSlash with
    | false => rfl
    | true =>
      rw [way, hSlash, if_pos rfl, List.getLast?_concat] at hLast
      cases hLast
  have hParts := List.dropLast_append_getLast p.parts_ne_nil
  generalize p.parts.getLast p.parts_ne_nil = part at hParts
  rw [way, hOpen, if_neg Bool.false_ne_true, List.append_nil, ← hParts] at hLast h
  by_cases hEmpty : part = ""
  · subst hEmpty
    by_cases hText : p.text = ""
    · have hWay : p.way = [] := by
        cases p
        cases hText
        decide
      rw [way, hOpen, if_neg Bool.false_ne_true, List.append_nil, ← hParts, h] at hWay
      simp at hWay
    · rw [endsWithSlash_of_parts hParts.symm hText] at hOpen
      cases hOpen
  · rw [List.filter_append, List.filter_cons_of_pos (by simpa using hEmpty), List.filter_nil,
      List.map_append, List.map_singleton, ← List.append_assoc] at h
    obtain ⟨rfl, hSame⟩ := List.append_inj' h rfl
    have hStep : Step.ofPart part = .name s := List.head_eq_of_cons_eq hSame
    refine ⟨p.parts.dropLast, ?_, rfl⟩
    rw [Step.ofPart] at hStep
    split at hStep
    · cases hStep
    · split at hStep
      · cases hStep
      · rw [← Step.name.inj hStep, hParts]

theorem fileName?_of_way {p : Path} {init : List Step} {s : String}
    (h : p.way = init ++ [.name s]) : p.fileName? = some s := by
  have hName : IsName s := isName_of_mem_way (p := p) (h ▸ List.mem_append_right _ (by simp))
  obtain ⟨front, hParts, _⟩ := parts_of_way h
  rw [fileName?_of_parts hParts hName.isStep, if_neg (not_or.mpr ⟨hName.ne_here, hName.ne_up⟩)]

/-! ## Below a root -/

/-- The steps of a way that a name can follow. -/
def leadingWay (p : Path) : List Step :=
  (if p.isAbsolute then [.root] else []) ++
    (p.leadingParts.filter fun part => part ≠ "").map Step.ofPart

theorem way_eq (p : Path) :
    p.way = p.leadingWay ++ if p.endsWithSlash then [.slash] else [] := by
  have hParts : (p.parts.filter fun part => part ≠ "") =
      p.leadingParts.filter fun part => part ≠ "" := by
    cases hSlash : p.endsWithSlash with
    | true =>
      rw [parts_of_endsWithSlash hSlash, List.filter_append]
      exact List.append_nil _
    | false => rw [leadingParts, hSlash, if_neg Bool.false_ne_true]
  rw [way, hParts, leadingWay]

theorem endsWithSlash_join {root : Path} (hRoot : root.text ≠ "") {names : List String}
    (hne : names ≠ []) (h : ∀ s ∈ names, IsName s) :
    (root.join ⟨Text.join "/" names⟩).endsWithSlash = false := by
  obtain ⟨_, hParts, _⟩ := parts_join hRoot hne h
  rw [Bool.eq_false_iff]
  intro hSlash
  have hLast := congrArg List.getLast? (hParts.symm.trans (parts_of_endsWithSlash hSlash))
  rw [List.getLast?_concat, List.getLast?_append_of_ne_nil _ hne] at hLast
  exact (h "" (List.mem_of_getLast? hLast)).nonempty rfl

theorem join_of_relative {p q : Path} (hp : p.text ≠ "") (hq : q.isAbsolute = false) :
    p.join q = ⟨p.text ++ (if p.endsWithSlash then "" else "/") ++ q.text⟩ := by
  have hEmpty : p.text.isEmpty = false := by simpa using hp
  rw [join, hq, if_neg Bool.false_ne_true, hEmpty, Bool.false_or, ← endsWithSlash]
  split
  · rw [String.append_empty]
  · rfl

/-- Names can be put after a root one by one. -/
theorem join_join {root : Path} (hRoot : root.text ≠ "") {names : List String} (hne : names ≠ [])
    (h : ∀ s ∈ names, IsName s) {s : String} (hs : IsName s) :
    (root.join ⟨Text.join "/" names⟩).join ⟨s⟩ = root.join ⟨Text.join "/" (names ++ [s])⟩ := by
  have hRelative : ∀ parts, parts ≠ [] → (∀ part ∈ parts, IsName part) →
      isAbsolute ⟨Text.join "/" parts⟩ = false := by
    intro parts hParts hIs
    exact isAbsolute_join_parts hParts fun part hPart =>
      ⟨(hIs part hPart).nonempty, (hIs part hPart).no_slash⟩
  have hLast : isAbsolute ⟨s⟩ = false := hRelative [s] (List.cons_ne_nil s []) (by simpa using hs)
  have hAll := hRelative (names ++ [s]) (List.append_ne_nil_of_left_ne_nil hne [s])
    (List.forall_mem_append.mpr ⟨h, by simpa using hs⟩)
  have hOpen := endsWithSlash_join hRoot hne h
  have hJoined := join_of_relative hRoot (hRelative names hne h)
  have hSome : (root.join ⟨Text.join "/" names⟩).text ≠ "" := by
    rw [hJoined]
    intro hEmpty
    exact hRoot (String.append_eq_empty_iff.mp (String.append_eq_empty_iff.mp hEmpty).1).1
  rw [join_of_relative hSome hLast, hOpen, hJoined, join_of_relative hRoot hAll,
    Text.join_append "/" hne (List.cons_ne_nil s [])]
  simp only [Bool.false_eq_true, if_false, String.append_assoc]
  rfl

theorem way_join {root : Path} (hRoot : root.text ≠ "") {names : List String}
    (hne : names ≠ []) (h : ∀ s ∈ names, IsName s) :
    (root.join ⟨Text.join "/" names⟩).way = root.leadingWay ++ names.map .name := by
  obtain ⟨hAbsolute, hParts, _⟩ := parts_join hRoot hne h
  have hFilter : (names.filter fun part => part ≠ "") = names := by
    rw [List.filter_eq_self]
    intro s hs
    exact decide_eq_true (h s hs).nonempty
  have hSteps : names.map Step.ofPart = names.map .name :=
    List.map_congr_left fun s hs => (h s hs).ofPart_eq
  rw [way, endsWithSlash_join hRoot hne h, hAbsolute, hParts, List.filter_append, hFilter,
    List.map_append, hSteps, leadingWay]
  simp

/-- The components that the first parts of a path make. -/
def leadingComponents : (absolute : Bool) → List String → List Component
  | true, parts => .root :: (parts.filter isStep).map step
  | false, [] => []
  | false, first :: parts =>
    (if first = "" then [] else [step first]) ++ (parts.filter isStep).map step

theorem components_of_parts {p : Path} {front back : List String} (h : p.parts = front ++ back)
    (hFront : p.isAbsolute = false → front ≠ []) :
    p.components = leadingComponents p.isAbsolute front ++ (back.filter isStep).map step := by
  rw [components, h]
  cases hAbsolute : p.isAbsolute with
  | true => simp [leadingComponents]
  | false =>
    cases front with
    | nil => exact absurd rfl (hFront hAbsolute)
    | cons first front => simp [leadingComponents]

theorem components_join_parts {root : Path} (hRoot : root.text ≠ "") {names : List String}
    (hne : names ≠ []) (h : ∀ s ∈ names, s ≠ "" ∧ '/' ∉ s.toList) :
    (root.join ⟨Text.join "/" names⟩).components =
      root.components ++ (names.filter isStep).map step := by
  obtain ⟨hAbsolute, hParts, hLeading⟩ := parts_join_parts hRoot hne h
  have hRootParts : root.components = leadingComponents root.isAbsolute root.leadingParts := by
    cases hSlash : root.endsWithSlash with
    | true =>
      rw [components_of_parts (parts_of_endsWithSlash hSlash) hLeading]
      exact List.append_nil _
    | false =>
      have hAll : root.parts = root.leadingParts ++ [] := by
        rw [leadingParts, hSlash, if_neg Bool.false_ne_true, List.append_nil]
      rw [components_of_parts hAll hLeading]
      exact List.append_nil _
  rw [components_of_parts hParts (hAbsolute ▸ hLeading), hAbsolute, hRootParts]

theorem components_join {root : Path} (hRoot : root.text ≠ "") {names : List String}
    (hne : names ≠ []) (h : ∀ s ∈ names, IsName s) :
    (root.join ⟨Text.join "/" names⟩).components = root.components ++ names.map .name := by
  have hFilter : names.filter isStep = names := by
    rw [List.filter_eq_self]
    intro s hs
    exact (h s hs).isStep
  have hSteps : names.map step = names.map .name :=
    List.map_congr_left fun s hs => (h s hs).step_eq
  rw [components_join_parts hRoot hne fun s hs => ⟨(h s hs).nonempty, (h s hs).no_slash⟩, hFilter,
    hSteps]

theorem below?_eq_some_iff {α : Type} [DecidableEq α] (base steps rest : List α) :
    below? base steps = some rest ↔ steps = base ++ rest := by
  induction base generalizing steps with
  | nil =>
    rw [below?, List.nil_append, Option.some.injEq]
  | cons b base ih =>
    cases steps with
    | nil => simp [below?]
    | cons s steps =>
      rw [below?]
      split
      next hSame =>
        rw [ih, hSame, List.cons_append, List.cons.injEq]
        simp
      next hOther =>
        rw [List.cons_append, List.cons.injEq]
        simp [Ne.symm hOther]

theorem fileKey_join {root : Path} (hRoot : root.text ≠ "") {names : List String}
    (hne : names ≠ []) (h : ∀ s ∈ names, IsName s) :
    fileKey root (root.join ⟨Text.join "/" names⟩) = Text.join "/" names := by
  have hBelow := (below?_eq_some_iff root.components _ _).mpr (components_join hRoot hne h)
  have hTexts : (names.map Component.name).map Component.text = names := by
    rw [List.map_map]
    exact List.map_id names
  rw [fileKey, hBelow, Option.getD_some, hTexts]

end Path

end ClassCollapse
