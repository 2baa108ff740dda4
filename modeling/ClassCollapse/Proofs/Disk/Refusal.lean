import ClassCollapse.Proofs.Disk.Parents
import ClassCollapse.Proofs.Disk.Saving
import ClassCollapse.Proofs.Style.Placement

/-!
# When saving is refused

In a tree a content can be saved wherever the last step of a path names what is no directory. So a
path that refuses a content cannot be read either, and it could not be read before.
-/

namespace ClassCollapse.Disk

variable {d d' : Disk} {p : Path} {place : Place}

/-! ## Reading -/

theorem read_eq_ok_iff (hTree : d.IsTree) {content : ByteArray} :
    d.read p = .ok content ↔ ∃ place, d.Names p place ∧ d.node? place = some (.file content) := by
  constructor
  · intro hRead
    rw [read] at hRead
    split at hRead
    · cases hRead
    next place hLocate =>
      split at hRead
      next other hNode =>
        cases hRead
        rw [locate] at hLocate
        split at hLocate
        · cases hLocate
        next => exact ⟨place, names_of_follow hTree hLocate (by simp [hNode]), hNode⟩
      · cases hRead
      · cases hRead
  · rintro ⟨place, hNames, hNode⟩
    exact hNames.read_eq hTree hNode

theorem Keeps.exists_read (h : Keeps d d') (hTree : d.IsTree) (hTree' : d'.IsTree)
    {content : ByteArray} (hRead : d.read p = .ok content) : ∃ content', d'.read p = .ok content' := by
  obtain ⟨place, hNames, hNode⟩ := (read_eq_ok_iff hTree).mp hRead
  have hFile : d.fileAt? place = some content := by rw [fileAt?, hNode]
  obtain ⟨content', hFile'⟩ := Option.ne_none_iff_exists'.mp (h.file place (by simp [hFile]))
  refine ⟨content', (read_eq_ok_iff hTree').mpr ⟨place, h.names hNames, ?_⟩⟩
  rw [fileAt?] at hFile'
  split at hFile'
  next other hOther =>
    cases hFile'
    exact hOther
  next => cases hFile'

theorem Names.leadsTo (h : d.Names p place) (hNode : d.node? place = some .directory) :
    d.LeadsTo p place := by
  refine ⟨h.text_ne, ?_⟩
  obtain ⟨init, parent, s, hWay, hWalk, rfl⟩ := h
  rw [hWay, walk?_append, hWalk, Option.bind_some, walk?, hNode]
  rfl

theorem LeadsTo.read_eq (h : d.LeadsTo p place) (hTree : d.IsTree) :
    d.read p = .error .isADirectory := by
  obtain ⟨hLocate, hNode⟩ := (leadsTo_iff hTree).mp h
  rw [read, hLocate]
  dsimp only
  rw [hNode]

/-! ## Making directories -/

theorem makeParent_of_names (hTree : d.IsTree) (h : d.Names p place) :
    d.makeParent p = (.ok (), d) := by
  rw [makeParent]
  cases hParent : p.parent? with
  | none => rfl
  | some parent =>
    have hMade : d.makeDirectories parent = (.ok (), d) := by
      rw [makeDirectories, makeWithin]
      rcases h.above hParent with hText | ⟨above, hLeads⟩
      · rw [if_pos (by simpa using hText)]
      · have hDirectory := (isDirectory_iff hTree).mpr ⟨above, hLeads⟩
        rw [ensureDirectory_of_isDirectory hTree hDirectory]
        simp
    dsimp only
    rw [hMade]
    rfl

theorem not_isDirectory_of_ensureDirectory {cause : IoCause}
    (h : d.ensureDirectory p = (.error cause, d')) : d'.isDirectory p = false := by
  rw [ensureDirectory] at h
  split at h
  · cases h
  · obtain ⟨hCause, rfl⟩ := Prod.mk.inj h
    split at hCause
    · cases hCause
    next hDirectory => exact Bool.eq_false_iff.mpr hDirectory

/-- Where a directory cannot be made there is none, on the disk that is left. -/
theorem not_isDirectory_of_makeWithin {depth : Nat} (hDepth : p.components.length < depth)
    (hTree : d.IsTree) {cause : IoCause} (h : makeWithin p depth d = (.error cause, d')) :
    d'.isDirectory p = false := by
  induction depth generalizing p d cause with
  | zero => omega
  | succ depth ih =>
    have hTree₁ := isTree_ensureDirectory hTree p
    rw [makeWithin] at h
    split at h
    · cases h
    split at h
    next d₁ hMissing =>
      rw [hMissing] at hTree₁
      split at h
      · cases h
        exact not_isDirectory_of_ensureDirectory hMissing
      next parent hParent =>
        have hShorter := Path.length_components_parent hParent
        split at h
        next cause' d₂ hFailed =>
          cases h
          have hTree₂ := isTree_makeWithin hTree₁ parent depth
          rw [hFailed] at hTree₂
          have hNone := ih (by omega) hTree₁ hFailed
          rw [Bool.eq_false_iff]
          intro hDirectory
          obtain ⟨place, hLeads⟩ := (isDirectory_iff hTree₂).mp hDirectory
          rcases hLeads.above hParent with hText | hAbove
          · obtain ⟨rest, hRest⟩ : ∃ rest, depth = rest + 1 := ⟨depth - 1, by omega⟩
            rw [hRest, makeWithin, if_pos (by simpa using hText)] at hFailed
            cases hFailed
          · rw [(isDirectory_iff hTree₂).mpr hAbove] at hNone
            cases hNone
        next d₂ hMade => exact not_isDirectory_of_ensureDirectory h
    next hOther => exact not_isDirectory_of_ensureDirectory h

/-! ## Saving -/

/-- Where the last step of a path names what is no directory, saving puts a content there. -/
theorem save_of_names (hTree : d.IsTree) (h : d.Names p place)
    (hNode : d.node? place ≠ some .directory) (content : ByteArray) :
    d.save p content = (.ok (), d.put place (.file content)) := by
  have hWrite : d.write p content = .ok (d.put place (.file content)) := by
    rw [write, h.locateTarget_eq hTree hNode]
    dsimp only
    cases hCase : d.node? place with
    | none => rfl
    | some node =>
      cases node with
      | directory => exact absurd hCase hNode
      | _ => rfl
  rw [save, makeParent_of_names hTree h]
  dsimp only
  rw [hWrite]

theorem not_names_of_makeParent {e : IoError} (hTree : d.IsTree)
    (h : d.makeParent p = (.error e, d')) (place : Place) : ¬d'.Names p place := by
  have hTree' := isTree_makeParent hTree p
  rw [h] at hTree'
  intro hNames
  rw [makeParent] at h
  split at h
  · cases h
  next parent hParent =>
    cases hMake : d.makeDirectories parent with
    | mk result made =>
    rw [hMake] at h
    cases result with
    | ok _ => cases h
    | error cause =>
      cases h
      rw [makeDirectories] at hMake
      have hNone := not_isDirectory_of_makeWithin (Nat.lt_succ_self _) hTree hMake
      rcases hNames.above hParent with hText | hAbove
      · rw [makeWithin, if_pos (by simpa using hText)] at hMake
        cases hMake
      · rw [(isDirectory_iff hTree').mpr hAbove] at hNone
        cases hNone

/-- A path that refused a content cannot be read. -/
theorem read_ne_ok_of_save_error {e : IoError} {content : ByteArray} (hTree : d.IsTree)
    (h : d.save p content = (.error e, d')) (other : ByteArray) : d'.read p ≠ .ok other := by
  have hTree₁ := isTree_makeParent hTree p
  rw [save] at h
  cases hMake : d.makeParent p with
  | mk result d₁ =>
  rw [hMake] at h hTree₁
  intro hRead
  cases result with
  | error cause =>
    cases h
    obtain ⟨place, hNames, _⟩ := (read_eq_ok_iff hTree₁).mp hRead
    exact not_names_of_makeParent hTree hMake place hNames
  | ok _ =>
    dsimp only at h hTree₁
    cases hWrite : d₁.write p content with
    | ok written =>
      rw [hWrite] at h
      cases h
    | error cause =>
      rw [hWrite] at h
      cases h
      obtain ⟨place, hNames, hNode⟩ := (read_eq_ok_iff hTree₁).mp hRead
      rw [write, hNames.locateTarget_eq hTree₁ (by simp [hNode])] at hWrite
      dsimp only at hWrite
      rw [hNode] at hWrite
      cases hWrite

theorem isTree_of_save_error {e : IoError} {content : ByteArray} (hTree : d.IsTree)
    (h : d.save p content = (.error e, d')) : d'.IsTree := by
  have hTree₁ := isTree_makeParent hTree p
  rw [save] at h
  split at h
  next cause d₁ hFailed =>
    cases h
    rwa [hFailed] at hTree₁
  next d₁ hMade =>
    rw [hMade] at hTree₁
    split at h
    · cases h
      exact hTree₁
    · cases h

/-! ## Companion sheets -/

/-- The companion of a file is named by its path beside the file, or it is a directory. -/
theorem names_companionPath (h : d.Names p place) {placement : Placement}
    (hPlacement : Placement.forPath? p = some placement) :
    (∃ sheet, d.Names (Placement.companionPath p) sheet) ∨
      ∃ above, d.LeadsTo (Placement.companionPath p) above := by
  obtain ⟨init, parent, s, hWay, hWalk, _⟩ := h
  obtain ⟨last, hPath, rfl | ⟨hName, _⟩⟩ := Placement.exists_companionPath_eq hPlacement
  · have hText : ".." ≠ "" := by decide
    have hUp := Path.way_ofParts_concat hWay hText (by decide)
    rw [← hPath] at hUp
    refine .inr ⟨parent.dropLast, text_ne_of_way (by simp [hUp]), ?_⟩
    rw [hUp, walk?_append, hWalk]
    rfl
  · have hBeside := Path.way_ofParts_concat hWay hName.nonempty hName.no_slash
    rw [← hPath, hName.ofPart_eq] at hBeside
    exact .inl ⟨parent ++ [last], init, parent, last, hBeside, hWalk, rfl⟩

end ClassCollapse.Disk
