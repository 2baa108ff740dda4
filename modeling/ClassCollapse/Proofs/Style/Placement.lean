import ClassCollapse.Proofs.Disk.Steps
import ClassCollapse.Style.Placement

/-!
# Files and their companion sheets

The name of a path decides whether its rules have a placement. A companion sheet has none, so no
sheet is a file that is rewritten.
-/

namespace ClassCollapse.Placement

theorem forPath?_of_fileName?_eq {p q : Path} (h : p.fileName? = q.fileName?) :
    forPath? p = forPath? q := by
  rw [forPath?, forPath?, Path.extension?, Path.extension?, h]

theorem splitExtension_sheet (stem : String) :
    (Path.splitExtension (stem ++ "." ++ "module.css")).2 = some "css" := by
  have hReverse : (stem ++ "." ++ "module.css").toList.reverse =
      ['s', 's', 'c', '.', 'e', 'l', 'u', 'd', 'o', 'm', '.'] ++ stem.toList.reverse := by
    simp
  rw [Path.splitExtension]
  rw [hReverse]
  rfl

theorem forPath?_of_css {p : Path} (h : p.extension? = some "css") : forPath? p = none := by
  rw [forPath?, h]
  decide

theorem subset_splitExtension (name : String) :
    (Path.splitExtension name).1.toList ⊆ name.toList := by
  rw [Path.splitExtension]
  split
  · exact List.Subset.refl _
  next before hBefore =>
    split
    · exact List.Subset.refl _
    · intro c hc
      rw [String.toList_ofList, List.mem_reverse] at hc
      rw [← List.mem_reverse]
      apply (List.dropWhile_suffix _).subset
      rw [hBefore]
      exact List.mem_cons_of_mem _ hc

theorem isName_sheet {stem : String} (h : '/' ∉ stem.toList) :
    IsName (stem ++ "." ++ "module.css") := by
  have hSheet := splitExtension_sheet stem
  have hSlash : '/' ∉ (stem ++ "." ++ "module.css").toList := by simp [h]
  generalize stem ++ "." ++ "module.css" = sheet at hSheet hSlash
  constructor
  · rintro rfl
    exact absurd hSheet (by decide)
  · exact hSlash
  · rintro rfl
    exact absurd hSheet (by decide)
  · rintro rfl
    exact absurd hSheet (by decide)

/-- The companion of a path with a name has the name of a sheet in the place of its last part, or
leads up. -/
theorem companionPath_of_fileName? {p : Path} {name : String} (h : p.fileName? = some name) :
    ∃ last, companionPath p = .ofParts p.isAbsolute (p.trimmedParts.dropLast ++ [last]) ∧
      (last = ".." ∨
        (last = (Path.splitExtension name).1 ++ "." ++ "module.css" ∧ IsName last)) := by
  have hSlash : '/' ∉ (Path.splitExtension name).1.toList :=
    fun hMem => Path.no_slash_of_fileName? h (subset_splitExtension name hMem)
  have hSheet := isName_sheet hSlash
  rw [companionPath, Path.withExtension, h]
  dsimp only
  cases hSplit : Path.splitExtension name with
  | mk stem extension =>
  rw [hSplit] at hSheet
  cases extension with
  | none => exact ⟨_, rfl, .inr ⟨rfl, hSheet⟩⟩
  | some extension =>
  dsimp only
  split
  · exact ⟨"..", rfl, .inl rfl⟩
  · exact ⟨_, rfl, .inr ⟨rfl, hSheet⟩⟩

theorem exists_companionPath_eq {p : Path} {placement : Placement}
    (h : forPath? p = some placement) :
    ∃ last, companionPath p = .ofParts p.isAbsolute (p.trimmedParts.dropLast ++ [last]) ∧
      (last = ".." ∨ (IsName last ∧ (Path.splitExtension last).2 = some "css")) := by
  cases hName : p.fileName? with
  | none =>
    rw [forPath?, Path.extension?, hName] at h
    cases h
  | some name =>
    obtain ⟨last, hPath, rfl | ⟨rfl, hSheet⟩⟩ := companionPath_of_fileName? hName
    · exact ⟨"..", hPath, .inl rfl⟩
    · exact ⟨_, hPath, .inr ⟨hSheet, splitExtension_sheet _⟩⟩

theorem forPath?_companionPath {p : Path} {placement : Placement}
    (h : forPath? p = some placement) : forPath? (companionPath p) = none := by
  obtain ⟨last, hPath, rfl | ⟨hName, hSheet⟩⟩ := exists_companionPath_eq h
  · have hUp : (companionPath p).fileName? = none := by
      rw [hPath]
      exact Path.fileName?_ofParts _ _ (by decide) (by decide)
    rw [forPath?, Path.extension?, hUp]
    rfl
  · apply forPath?_of_css
    rw [Path.extension?, hPath, Path.fileName?_ofParts _ _ hName.no_slash hName.isStep,
      if_neg (by simp [hName.ne_here, hName.ne_up]), Option.bind_some, hSheet]

end ClassCollapse.Placement
