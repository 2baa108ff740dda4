import ClassCollapse.Proofs.Disk.Tree

/-!
# Where paths lead in a tree

Where there are no links, a path that leads somewhere walks all of its steps through directories, or
all but the last one, which then names what is not a directory. Conversely a last step that names
something else than a directory is found, for reading as well as for writing.
-/

namespace ClassCollapse.Disk

variable {d d' : Disk} {p : Path}

/-- The last step of a path names a place in the directory that the other steps lead to. -/
def Names (d : Disk) (p : Path) (place : Place) : Prop :=
  ∃ init parent s, p.way = init ++ [.name s] ∧ d.walk? d.workingDirectory init = some parent ∧
    place = parent ++ [s]

/-- All steps of a path lead through directories to a place. -/
structure LeadsTo (d : Disk) (p : Path) (place : Place) : Prop where
  text_ne : p.text ≠ ""
  walk?_eq : d.walk? d.workingDirectory p.way = some place

theorem text_ne_of_way (h : p.way ≠ []) : p.text ≠ "" := by
  intro hText
  cases p
  cases hText
  exact h (by decide)

namespace Names

variable {place place' : Place}

theorem unique (h : d.Names p place) (h' : d.Names p place') : place = place' := by
  obtain ⟨init, parent, s, hWay, hWalk, rfl⟩ := h
  obtain ⟨init', parent', s', hWay', hWalk', rfl⟩ := h'
  obtain ⟨rfl, hLast⟩ := List.append_inj' (hWay.symm.trans hWay') rfl
  cases hLast
  rw [hWalk] at hWalk'
  rw [Option.some.inj hWalk']

theorem text_ne (h : d.Names p place) : p.text ≠ "" := by
  obtain ⟨init, parent, s, hWay, _⟩ := h
  exact text_ne_of_way (by simp [hWay])

theorem place_ne_nil (h : d.Names p place) : place ≠ [] := by
  obtain ⟨init, parent, s, _, _, rfl⟩ := h
  simp

theorem fileName?_eq (h : d.Names p place) : p.fileName? = place.getLast? := by
  obtain ⟨init, parent, s, hWay, _, rfl⟩ := h
  rw [Path.fileName?_of_way hWay, List.getLast?_concat]

theorem exists_parent (h : d.Names p place) (hTree : d.IsTree) :
    ∃ parent s, place = parent ++ [s] ∧ IsName s ∧ d.node? parent = some .directory := by
  obtain ⟨init, parent, s, hWay, hWalk, rfl⟩ := h
  have hName : IsName s := Path.isName_of_mem_way (p := p) (by simp [hWay])
  exact ⟨parent, s, rfl, hName, hTree.directory_of_walk? hTree.working hWalk⟩

end Names

/-! ## Advancing -/

section Advance

variable {creates : Bool} {onLink : Place → List Path.Step → Except IoCause Place}

theorem follow_eq_advance (d : Disk) (creates : Bool) (links : Nat) :
    ∃ onLink, d.follow creates links = d.advance creates onLink := by
  cases links with
  | zero => exact ⟨_, rfl⟩
  | succ links => exact ⟨_, rfl⟩

theorem advance_eq_ok (hTree : d.IsTree) {place target : Place} {steps : List Path.Step}
    (h : d.advance creates onLink place steps = .ok target) :
    d.walk? place steps = some target ∨
      ∃ init s parent, steps = init ++ [.name s] ∧ d.walk? place init = some parent ∧
        target = parent ++ [s] ∧ d.node? target ≠ some .directory := by
  induction steps generalizing place with
  | nil =>
    cases h
    exact .inl rfl
  | cons step steps ih =>
    -- A step that is no name is taken by walking too.
    have hTaken : ∀ next, d.walk? place (step :: steps) = d.walk? next steps →
        (∀ init, d.walk? place (step :: init) = d.walk? next init) →
        d.advance creates onLink next steps = .ok target →
        d.walk? place (step :: steps) = some target ∨
          ∃ init s parent, step :: steps = init ++ [.name s] ∧ d.walk? place init = some parent ∧
            target = parent ++ [s] ∧ d.node? target ≠ some .directory := by
      intro next hAll hInit hNext
      rcases ih hNext with hWalk | ⟨init, s, parent, rfl, hParent, hTarget⟩
      · exact .inl (hAll.trans hWalk)
      · exact .inr ⟨step :: init, s, parent, rfl, (hInit init).trans hParent, hTarget⟩
    cases step with
    | root => exact hTaken [] rfl (fun _ => rfl) h
    | here => exact hTaken place rfl (fun _ => rfl) h
    | slash => exact hTaken place rfl (fun _ => rfl) h
    | up => exact hTaken place.dropLast rfl (fun _ => rfl) h
    | name s =>
      have hEnd : ∀ (hNode : d.node? (place ++ [s]) ≠ some .directory) (cause : IoCause),
          (if steps.isEmpty then .ok (place ++ [s]) else .error cause) =
            (Except.ok target : Except IoCause Place) →
          d.walk? place (.name s :: steps) = some target ∨
            ∃ init s' parent, .name s :: steps = init ++ [Path.Step.name s'] ∧
              d.walk? place init = some parent ∧ target = parent ++ [s'] ∧
              d.node? target ≠ some .directory := by
        intro hNode cause hLast
        split at hLast
        next hEmpty =>
          cases hLast
          rw [List.isEmpty_iff.mp hEmpty]
          exact .inr ⟨[], s, place, rfl, rfl, rfl, hNode⟩
        next => cases hLast
      rw [advance] at h
      split at h
      · cases h
      · cases hNode : d.node? (place ++ [s]) with
        | none =>
          simp only [hNode] at h
          exact hEnd (by simp [hNode]) _ h
        | some node =>
          cases node with
          | file content =>
            simp only [hNode] at h
            exact hEnd (by simp [hNode]) _ h
          | directory =>
            simp only [hNode] at h
            have hStep : ∀ init, d.walk? place (.name s :: init) = d.walk? (place ++ [s]) init := by
              intro init
              rw [walk?, hNode]
            exact hTaken (place ++ [s]) (hStep steps) hStep h
          | link link => exact absurd hNode (hTree.ne_link _ _)

theorem advance_of_walk? {place target : Place} {front back : List Path.Step}
    (hBack : creates = false ∨ ∃ s, back = [.name s]) (h : d.walk? place front = some target) :
    d.advance creates onLink place (front ++ back) = d.advance creates onLink target back := by
  induction front generalizing place with
  | nil =>
    cases h
    rfl
  | cons step front ih =>
    cases step with
    | name s =>
      have hSlash : ¬(creates && decide (front ++ back = [.slash])) = true := by
        rcases hBack with hReads | ⟨s, rfl⟩
        · simp [hReads]
        · rw [Bool.and_eq_true, decide_eq_true_eq]
          rintro ⟨_, hSame⟩
          have hLast := congrArg List.getLast? hSame
          simp at hLast
      rw [walk?] at h
      rw [List.cons_append, advance, if_neg hSlash]
      cases hNode : d.node? (place ++ [s]) with
      | none =>
        rw [hNode] at h
        cases h
      | some node =>
        cases node with
        | directory =>
          rw [hNode] at h
          exact ih h
        | _ =>
          rw [hNode] at h
          cases h
    | _ => exact ih h

end Advance

/-! ## Locating -/

theorem advance_name (hTree : d.IsTree) {creates : Bool}
    {onLink : Place → List Path.Step → Except IoCause Place} {parent : Place} {s : String}
    (hNode : d.node? (parent ++ [s]) ≠ some .directory) :
    d.advance creates onLink parent [.name s] = .ok (parent ++ [s]) := by
  rw [advance, if_neg (by simp)]
  cases hCase : d.node? (parent ++ [s]) with
  | none => rfl
  | some node =>
    cases node with
    | file content => rfl
    | directory => exact absurd hCase hNode
    | link link => exact absurd hCase (hTree.ne_link _ _)

namespace Names

variable {place : Place}

theorem follow_eq (h : d.Names p place) (hTree : d.IsTree)
    (hNode : d.node? place ≠ some .directory) (creates : Bool) :
    d.follow creates maxLinks d.workingDirectory p.way = .ok place := by
  obtain ⟨init, parent, s, hWay, hWalk, rfl⟩ := h
  obtain ⟨onLink, hFollow⟩ := d.follow_eq_advance creates maxLinks
  rw [hFollow, hWay, advance_of_walk? (.inr ⟨s, rfl⟩) hWalk]
  exact advance_name hTree hNode

theorem locate_eq (h : d.Names p place) (hTree : d.IsTree)
    (hNode : d.node? place ≠ some .directory) : d.locate p = .ok place := by
  rw [locate, if_neg (by simpa using h.text_ne)]
  exact h.follow_eq hTree hNode false

theorem locateTarget_eq (h : d.Names p place) (hTree : d.IsTree)
    (hNode : d.node? place ≠ some .directory) :
    d.locateTarget p = .ok place := by
  rw [locateTarget, if_neg (by simpa using h.text_ne)]
  exact h.follow_eq hTree hNode true

theorem read_eq (h : d.Names p place) (hTree : d.IsTree) {content : ByteArray}
    (hFile : d.node? place = some (.file content)) : d.read p = .ok content := by
  rw [read, h.locate_eq hTree (by simp [hFile])]
  dsimp only
  rw [hFile]

end Names

theorem follow_eq_ok (hTree : d.IsTree) {creates : Bool} {place : Place}
    (h : d.follow creates maxLinks d.workingDirectory p.way = .ok place) :
    d.walk? d.workingDirectory p.way = some place ∨
      (d.Names p place ∧ d.node? place ≠ some .directory) := by
  obtain ⟨onLink, hFollow⟩ := d.follow_eq_advance creates maxLinks
  rw [hFollow] at h
  rcases advance_eq_ok hTree h with hWalk | ⟨init, s, parent, hWay, hParent, hPlace, hNode⟩
  · exact .inl hWalk
  · exact .inr ⟨⟨init, parent, s, hWay, hParent, hPlace⟩, hNode⟩

/-- What is not a directory is named by the last step of the path that leads to it. -/
theorem names_of_follow (hTree : d.IsTree) {creates : Bool} {place : Place}
    (h : d.follow creates maxLinks d.workingDirectory p.way = .ok place)
    (hNode : d.node? place ≠ some .directory) : d.Names p place := by
  rcases follow_eq_ok hTree h with hWalk | ⟨hNames, _⟩
  · exact absurd (hTree.directory_of_walk? hTree.working hWalk) hNode
  · exact hNames

theorem leadsTo_iff (hTree : d.IsTree) {place : Place} :
    d.LeadsTo p place ↔ d.locate p = .ok place ∧ d.node? place = some .directory := by
  constructor
  · intro h
    refine ⟨?_, hTree.directory_of_walk? hTree.working h.walk?_eq⟩
    obtain ⟨onLink, hFollow⟩ := d.follow_eq_advance false maxLinks
    have hAdvance : d.advance false onLink d.workingDirectory (p.way ++ []) = .ok place :=
      advance_of_walk? (.inl rfl) h.walk?_eq
    rw [List.append_nil] at hAdvance
    rw [locate, if_neg (by simpa using h.text_ne), hFollow, hAdvance]
  · rintro ⟨hLocate, hNode⟩
    rw [locate] at hLocate
    split at hLocate
    · cases hLocate
    next hText =>
      rcases follow_eq_ok hTree hLocate with hWalk | ⟨_, hOther⟩
      · exact ⟨by simpa using hText, hWalk⟩
      · exact absurd hNode hOther

theorem isDirectory_iff (hTree : d.IsTree) :
    d.isDirectory p = true ↔ ∃ place, d.LeadsTo p place := by
  simp only [leadsTo_iff hTree]
  rw [isDirectory, find?]
  cases d.locate p with
  | error cause => simp
  | ok place =>
    dsimp only
    constructor
    · intro hDirectory
      split at hDirectory
      next hNode => exact ⟨place, rfl, hNode⟩
      next => cases hDirectory
    · rintro ⟨other, hSame, hNode⟩
      cases hSame
      rw [hNode]

end ClassCollapse.Disk
