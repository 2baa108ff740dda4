import ClassCollapse.Disk.Layout
import ClassCollapse.Proofs.Disk.Keys

/-!
# Places that are read off a path

Where a path leads through directories only, the place that it names follows from its components and
the working directory alone. So paths off which different places are read never name the same one.
These are different paths of names only, if all of them start at the root or none does.
-/

namespace ClassCollapse.Disk

open ClassCollapse.Path (Step)

variable {d : Disk} {p : Path}

/-- The place after a step, whatever stands there. -/
def placeAfter (place : Place) : Step → Place
  | .root => []
  | .here => place
  | .slash => place
  | .up => place.dropLast
  | .name s => place ++ [s]

theorem foldl_placeAfter_filter (place : Place) (steps : List Step) :
    (steps.filter Step.isFirm).foldl placeAfter place = steps.foldl placeAfter place := by
  induction steps generalizing place with
  | nil => rfl
  | cons step steps ih =>
    cases step with
    | _ => exact ih _

theorem placeFrom_eq_foldl_firmWay (start : Place) (p : Path) :
    placeFrom start p = p.firmWay.foldl placeAfter start := by
  rw [Path.firmWay_eq_filterMap, List.foldl_filterMap, placeFrom]
  congr 1
  funext place step
  cases step with
  | _ => rfl

/-- The components of a path and the steps of its way lead to the same place. -/
theorem placeFrom_eq_foldl (start : Place) (p : Path) :
    placeFrom start p = p.way.foldl placeAfter start := by
  rw [placeFrom_eq_foldl_firmWay, Path.firmWay, foldl_placeAfter_filter]

theorem foldl_placeAfter_of_walk? {place target : Place} {steps : List Step}
    (h : d.walk? place steps = some target) : steps.foldl placeAfter place = target := by
  induction steps generalizing place with
  | nil => exact Option.some.inj h
  | cons step steps ih =>
    cases step with
    | name s =>
      rw [walk?] at h
      split at h
      next => exact ih h
      next => cases h
    | _ => exact ih h

theorem Names.eq_placeFrom {place : Place} (h : d.Names p place) :
    place = placeFrom d.workingDirectory p := by
  obtain ⟨init, parent, s, hWay, hWalk, rfl⟩ := h
  rw [placeFrom_eq_foldl, hWay, List.foldl_append, foldl_placeAfter_of_walk? hWalk]
  rfl

/-! ## Paths of names -/

theorem foldl_placeAfter_names (place : Place) (names : List String) :
    (names.map Step.name).foldl placeAfter place = place ++ names := by
  induction names generalizing place with
  | nil => exact (List.append_nil place).symm
  | cons s names ih =>
    rw [List.map_cons, List.foldl_cons, ih, placeAfter, List.append_assoc]
    rfl

theorem exists_components_eq (p : Path) : ∃ parts : List String,
    p.components = (if p.isAbsolute then [.root] else []) ++ parts.map Path.step := by
  cases hAbsolute : p.isAbsolute with
  | true => exact ⟨p.parts.filter Path.isStep, Path.components_of_absolute hAbsolute⟩
  | false =>
    obtain ⟨first, rest, hParts⟩ := List.exists_cons_of_ne_nil p.parts_ne_nil
    refine ⟨(if first = "" then [] else [first]) ++ rest.filter Path.isStep, ?_⟩
    rw [Path.components, hAbsolute, hParts, List.map_append]
    dsimp only
    rw [if_neg Bool.false_ne_true, List.nil_append]
    by_cases hFirst : first = ""
    · rw [if_pos hFirst, if_pos hFirst]
      rfl
    · rw [if_neg hFirst, if_neg hFirst]
      rfl

/-- A path whose components are names leads below the root, or below the place it is taken from. -/
theorem exists_names_of_components {p : Path} (h : ∀ c ∈ p.components, c ≠ .here ∧ c ≠ .up) :
    ∃ names : List String,
      p.components = (if p.isAbsolute then [.root] else []) ++ names.map .name ∧
      ∀ start, placeFrom start p = (if p.isAbsolute then [] else start) ++ names := by
  obtain ⟨names, hComponents⟩ := exists_components_eq p
  have hNames : names.map Path.step = names.map .name := by
    refine List.map_congr_left fun part hPart => ?_
    obtain ⟨hHere, hUp⟩ := h (Path.step part) (by
      rw [hComponents]
      exact List.mem_append_right _ (List.mem_map_of_mem hPart))
    rw [Path.step] at hHere hUp ⊢
    split at hHere
    next => exact absurd rfl hHere
    next hNotHere =>
      rw [if_neg hNotHere] at hUp ⊢
      split at hUp
      next => exact absurd rfl hUp
      next hNotUp => rw [if_neg hNotUp]
  rw [hNames] at hComponents
  refine ⟨names, hComponents, ?_⟩
  intro start
  have hFirm : (names.map Path.Component.name).filterMap Path.Component.step? =
      names.map Step.name := by
    rw [List.filterMap_map, ← List.filterMap_eq_map]
    rfl
  rw [placeFrom_eq_foldl_firmWay, Path.firmWay_eq_filterMap, hComponents, List.filterMap_append,
    hFirm, List.foldl_append, foldl_placeAfter_names]
  cases p.isAbsolute <;> rfl

/-- Different paths of names that all start at the root, or none, lead to different places. -/
theorem same_of_placeFrom_eq {p q : Path} (hp : ∀ c ∈ p.components, c ≠ .here ∧ c ≠ .up)
    (hq : ∀ c ∈ q.components, c ≠ .here ∧ c ≠ .up) (hRoot : p.isAbsolute = q.isAbsolute)
    {start : Place} (h : placeFrom start p = placeFrom start q) : p.same q = true := by
  obtain ⟨names, hComponents, hPlace⟩ := exists_names_of_components hp
  obtain ⟨names', hComponents', hPlace'⟩ := exists_names_of_components hq
  rw [hPlace, hPlace', hRoot] at h
  rw [Path.same, beq_iff_eq, hComponents, hComponents', hRoot, List.append_cancel_left h]

end ClassCollapse.Disk
