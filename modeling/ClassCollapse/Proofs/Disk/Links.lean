import ClassCollapse.Proofs.Disk.Discovery

/-!
# Paths through links

A path that leads to a directory, through whatever links, can be gone on from there: names after it
are looked up below the directory. So what can be read as a file below a root is a file or a link
that stands there in directories, unless one of them is reached through a link. A file that stands
there can always be read.
-/

namespace ClassCollapse.Disk

variable {d : Disk} {base place : Place}

section Advance

variable {onLink : Place → List Path.Step → Except IoCause Place} {s : String}

/-! ## One name -/

theorem advance_name_directory (h : d.node? (place ++ [s]) = some .directory)
    (steps : List Path.Step) : d.advance false onLink place (.name s :: steps) =
      d.advance false onLink (place ++ [s]) steps := by
  rw [advance, if_neg (by simp), h]

theorem advance_name_link {target : Path} (h : d.node? (place ++ [s]) = some (.link target))
    (steps : List Path.Step) : d.advance false onLink place (.name s :: steps) =
      onLink place (target.way ++ steps) := by
  rw [advance, if_neg (by simp), h]

/-- Nothing is found beyond a file, or where there is nothing. -/
theorem advance_name_end (hDirectory : d.node? (place ++ [s]) ≠ some .directory)
    (hLink : ∀ target, d.node? (place ++ [s]) ≠ some (.link target)) {steps : List Path.Step}
    {target : Place} (h : d.advance false onLink place (.name s :: steps) = .ok target) :
    steps = [] ∧ target = place ++ [s] := by
  have hEnd : ∀ cause : IoCause, (if steps.isEmpty then .ok (place ++ [s]) else .error cause) =
      (Except.ok target : Except IoCause Place) → steps = [] ∧ target = place ++ [s] := by
    intro cause hLast
    split at hLast
    next hEmpty =>
      cases hLast
      exact ⟨List.isEmpty_iff.mp hEmpty, rfl⟩
    next => cases hLast
  rw [advance, if_neg (by simp)] at h
  cases hNode : d.node? (place ++ [s]) with
  | none =>
    rw [hNode] at h
    exact hEnd _ h
  | some node =>
    cases node with
    | file content =>
      rw [hNode] at h
      exact hEnd _ h
    | directory => exact absurd hNode hDirectory
    | link target => exact absurd hNode (hLink target)

/-! ## Going on from a directory -/

theorem advance_slashes {tail : List Path.Step} (hTail : ∀ step ∈ tail, step = .slash)
    (place : Place) : d.advance false onLink place tail = .ok place := by
  induction tail with
  | nil => rfl
  | cons step tail ih =>
    obtain ⟨rfl, hMore⟩ := List.forall_mem_cons.mp hTail
    exact ih hMore

/-- If steps after a link can be gone on from a directory, so can all steps. Slashes at the end make
no difference. -/
theorem advance_append (links : Nat) {tail : List Path.Step}
    (hFollow : d.follow false links = d.advance false onLink)
    (hOnLink : ∀ place steps, onLink place (steps ++ tail) = .ok base →
      ∃ left, ∀ more, onLink place (steps ++ more) = d.follow false left base more)
    (hTail : ∀ step ∈ tail, step = .slash) (hBase : d.node? base = some .directory)
    {steps : List Path.Step} (h : d.advance false onLink place (steps ++ tail) = .ok base) :
    ∃ left, ∀ more, d.advance false onLink place (steps ++ more) =
      d.follow false left base more := by
  induction steps generalizing place with
  | nil =>
    rw [List.nil_append, advance_slashes hTail] at h
    cases h
    exact ⟨links, fun more => by rw [hFollow, List.nil_append]⟩
  | cons step steps ih =>
    cases step with
    | name s =>
      rw [List.cons_append] at h
      by_cases hDirectory : d.node? (place ++ [s]) = some .directory
      · rw [advance_name_directory hDirectory] at h
        obtain ⟨left, hLeft⟩ := ih h
        refine ⟨left, fun more => ?_⟩
        rw [List.cons_append, advance_name_directory hDirectory, hLeft]
      · by_cases hLink : ∃ target, d.node? (place ++ [s]) = some (.link target)
        · obtain ⟨target, hTarget⟩ := hLink
          rw [advance_name_link hTarget, ← List.append_assoc] at h
          obtain ⟨left, hLeft⟩ := hOnLink place (target.way ++ steps) h
          refine ⟨left, fun more => ?_⟩
          rw [List.cons_append, advance_name_link hTarget, ← List.append_assoc, hLeft]
        · obtain ⟨_, rfl⟩ := advance_name_end hDirectory (not_exists.mp hLink) h
          exact absurd hBase hDirectory
    | _ => exact ih h

end Advance

theorem follow_append {tail : List Path.Step} (hTail : ∀ step ∈ tail, step = .slash)
    (hBase : d.node? base = some .directory) {links : Nat} {steps : List Path.Step}
    (h : d.follow false links place (steps ++ tail) = .ok base) :
    ∃ left, ∀ more, d.follow false links place (steps ++ more) = d.follow false left base more := by
  induction links generalizing place steps with
  | zero => exact advance_append 0 rfl (fun _ _ hError => by cases hError) hTail hBase h
  | succ links ih => exact advance_append (links + 1) rfl (fun _ _ hNext => ih hNext) hTail hBase h

/-- Where a root leads to a directory, names below it are looked up from there. -/
theorem exists_locate_pathBelow {root : Path} (hRoot : d.locate root = .ok base)
    (hBase : d.node? base = some .directory) :
    ∃ left, ∀ names, names ≠ [] → (∀ s ∈ names, IsName s) →
      d.locate (pathBelow root names) = d.follow false left base (names.map .name) := by
  have hText := text_ne_of_locate hRoot
  rw [locate, if_neg (by simpa using hText), Path.way_eq] at hRoot
  have hTail : ∀ step ∈ (if root.endsWithSlash then [Path.Step.slash] else []), step = .slash := by
    split <;> simp
  obtain ⟨left, hLeft⟩ := follow_append hTail hBase hRoot
  refine ⟨left, fun names hne hNames => ?_⟩
  have hWay : (pathBelow root names).way = root.leadingWay ++ names.map .name :=
    Path.way_join hText hne hNames
  have hJoined : (pathBelow root names).text ≠ "" :=
    text_ne_of_way (by simp [hWay, hne])
  rw [locate, if_neg (by simpa using hJoined), hWay, hLeft]

/-! ## What can be read -/

theorem isFile_iff {p : Path} : d.isFile p = true ↔
    ∃ target content, d.locate p = .ok target ∧ d.node? target = some (.file content) := by
  rw [isFile, find?]
  cases d.locate p with
  | error cause => simp
  | ok target =>
    cases hNode : d.node? target with
    | none => simp [hNode]
    | some node => cases node <;> simp [hNode]

/-- No part of some names is a link at a place. -/
def Unlinked (d : Disk) (base names : Place) : Prop :=
  ∀ front, front <+: names → front ≠ [] → ∀ target, d.node? (base ++ front) ≠ some (.link target)

theorem Unlinked.tail {s : String} {names : Place} (h : d.Unlinked base (s :: names)) :
    d.Unlinked (base ++ [s]) names := by
  intro front hFront _ target
  rw [List.append_assoc, List.singleton_append]
  exact h _ (List.cons_prefix_cons.mpr ⟨rfl, hFront⟩) (List.cons_ne_nil _ _) target

/-- A file that is found without going through a link stands in directories, or a link to it
does. -/
theorem stands_of_follow {links : Nat} {front : Place} {s : String} (hFree : d.Unlinked base front)
    (hBase : d.node? base = some .directory) {target : Place} {content : ByteArray}
    (hTarget : d.node? target = some (.file content))
    (h : d.follow false links base ((front ++ [s]).map .name) = .ok target) :
    d.node? (base ++ front) = some .directory ∧
      ∃ node, d.node? (base ++ front ++ [s]) = some node ∧ node ≠ .directory := by
  obtain ⟨onLink, hFollow⟩ := d.follow_eq_advance false links
  rw [hFollow] at h
  induction front generalizing base with
  | nil =>
    rw [List.append_nil]
    refine ⟨hBase, ?_⟩
    rw [List.nil_append, List.map_singleton] at h
    by_cases hDirectory : d.node? (base ++ [s]) = some .directory
    · rw [advance_name_directory hDirectory] at h
      cases h
      rw [hDirectory] at hTarget
      cases hTarget
    · by_cases hLink : ∃ link, d.node? (base ++ [s]) = some (.link link)
      · obtain ⟨link, hLink⟩ := hLink
        exact ⟨_, hLink, by simp⟩
      · obtain ⟨_, rfl⟩ := advance_name_end hDirectory (not_exists.mp hLink) h
        exact ⟨_, hTarget, by simp⟩
  | cons name front ih =>
    rw [List.cons_append, List.map_cons] at h
    have hLink : ∀ link, d.node? (base ++ [name]) ≠ some (.link link) :=
      hFree [name] (List.cons_prefix_cons.mpr ⟨rfl, List.nil_prefix⟩) (List.cons_ne_nil _ _)
    by_cases hDirectory : d.node? (base ++ [name]) = some .directory
    · rw [advance_name_directory hDirectory] at h
      rw [List.append_cons base name front]
      exact ih hFree.tail hDirectory h
    · obtain ⟨hNil, _⟩ := advance_name_end hDirectory hLink h
      exact absurd hNil (by simp)

/-- Where links are only entries and nothing is reached through one, what can be read below a root
stands there. -/
theorem stands_of_isFile {root : Path} (hRoot : d.locate root = .ok base)
    (hBase : d.node? base = some .directory) {front : Place} {s : String}
    (hNames : ∀ name ∈ front ++ [s], IsName name) (hFree : d.Unlinked base front)
    (h : d.isFile (pathBelow root (front ++ [s])) = true) :
    d.node? (base ++ front) = some .directory ∧
      ∃ node, d.node? (base ++ front ++ [s]) = some node ∧ node ≠ .directory := by
  obtain ⟨left, hLeft⟩ := exists_locate_pathBelow hRoot hBase
  obtain ⟨target, content, hLocate, hTarget⟩ := isFile_iff.mp h
  rw [hLeft _ (by simp) hNames] at hLocate
  exact stands_of_follow hFree hBase hTarget hLocate

/-- A file that stands below a root can be read. -/
theorem isFile_of_file (hTree : d.IsLinkedTree) {root : Path} (hRoot : d.locate root = .ok base)
    (hBase : d.node? base = some .directory) {front : Place} {s : String} {content : ByteArray}
    (h : d.node? (base ++ front ++ [s]) = some (.file content)) :
    d.isFile (pathBelow root (front ++ [s])) = true := by
  obtain ⟨left, hLeft⟩ := exists_locate_pathBelow hRoot hBase
  obtain ⟨onLink, hFollow⟩ := d.follow_eq_advance false left
  have hThere : d.node? (base ++ (front ++ [s])) = some (.file content) := by
    rwa [← List.append_assoc]
  have hFront := (hTree.parent h).2
  refine isFile_iff.mpr ⟨base ++ front ++ [s], content, ?_, h⟩
  rw [hLeft _ (by simp) (hTree.above hThere).2, hFollow, List.map_append,
    advance_of_walk? (.inl rfl) (hTree.walk?_names hFront), List.map_singleton, advance,
    if_neg (by simp), h]
  rfl

end ClassCollapse.Disk
