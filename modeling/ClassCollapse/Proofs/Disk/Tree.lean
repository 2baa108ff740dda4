import ClassCollapse.Proofs.Disk.Frame
import ClassCollapse.Proofs.Disk.Steps
import Mathlib.Data.List.Induction

/-!
# Directory trees

The directories of a disk form a tree, in which there may be links. Without links, a path leads
through directories to a place, and its last step may name what is not a directory. Operations on
paths keep such a disk a tree, and what was a directory or a file stays one. A content that was
saved can be saved again, which changes nothing.
-/

namespace ClassCollapse

instance : (node : Option Node) → Decidable (node = some .directory)
  | some .directory => isTrue rfl
  | some (.file _) => isFalse (by simp)
  | some (.link _) => isFalse (by simp)
  | none => isFalse (by simp)

def Node.isLink : Node → Bool
  | .link _ => true
  | .file _ => false
  | .directory => false

namespace Disk

/-- What stands on a disk has a place of its own and stands in a directory under a name. It may be a
link, to anything or to nothing. -/
structure IsLinkedTree (d : Disk) : Prop where
  nodup : (d.nodes.map Prod.fst).Nodup
  stands : ∀ entry ∈ d.nodes, ∃ front s,
    entry.1 = front ++ [s] ∧ IsName s ∧ d.node? front = some .directory

theorem isLinkedTree_iff {d : Disk} : d.IsLinkedTree ↔ (d.nodes.map Prod.fst).Nodup ∧
    ∀ entry ∈ d.nodes, (∃ s ∈ entry.1.getLast?, IsName s) ∧
      d.node? entry.1.dropLast = some .directory := by
  constructor
  · intro h
    refine ⟨h.nodup, ?_⟩
    intro entry hEntry
    obtain ⟨front, s, hPlace, hName, hFront⟩ := h.stands entry hEntry
    exact ⟨⟨s, by simp [hPlace], hName⟩, by simpa [hPlace] using hFront⟩
  · rintro ⟨hNodup, hEntries⟩
    refine ⟨hNodup, ?_⟩
    intro entry hEntry
    obtain ⟨⟨s, hLast, hName⟩, hFront⟩ := hEntries entry hEntry
    exact ⟨_, s, (List.dropLast_append_getLast? s hLast).symm, hName, hFront⟩

instance (d : Disk) : Decidable d.IsLinkedTree :=
  decidable_of_iff _ isLinkedTree_iff.symm

/-- What stands on a disk has a place of its own, stands in a directory under a name, and is no
link. -/
structure IsTree (d : Disk) : Prop where
  nodup : (d.nodes.map Prod.fst).Nodup
  stands : ∀ entry ∈ d.nodes, ∃ front s,
    entry.1 = front ++ [s] ∧ IsName s ∧ d.node? front = some .directory
  noLinks : ∀ place target, (place, .link target) ∉ d.nodes
  working : d.node? d.workingDirectory = some .directory

theorem IsTree.isLinkedTree {d : Disk} (h : d.IsTree) : d.IsLinkedTree :=
  ⟨h.nodup, h.stands⟩

/-- Whether a disk is a tree can be read off what stands on it. -/
theorem isTree_iff {d : Disk} : d.IsTree ↔
    (d.nodes.map Prod.fst).Nodup ∧
      (∀ entry ∈ d.nodes, (∃ s ∈ entry.1.getLast?, IsName s) ∧
        d.node? entry.1.dropLast = some .directory ∧ entry.2.isLink = false) ∧
      d.node? d.workingDirectory = some .directory := by
  constructor
  · intro h
    obtain ⟨hNodup, hEntries⟩ := isLinkedTree_iff.mp h.isLinkedTree
    refine ⟨hNodup, ?_, h.working⟩
    intro entry hEntry
    obtain ⟨hName, hFront⟩ := hEntries entry hEntry
    refine ⟨hName, hFront, ?_⟩
    cases hNode : entry.2 with
    | file content => rfl
    | directory => rfl
    | link target => exact absurd (hNode ▸ hEntry) (h.noLinks entry.1 target)
  · rintro ⟨hNodup, hEntries, hWorking⟩
    have hLinked : d.IsLinkedTree := isLinkedTree_iff.mpr
      ⟨hNodup, fun entry hEntry => ⟨(hEntries entry hEntry).1, (hEntries entry hEntry).2.1⟩⟩
    refine ⟨hNodup, hLinked.stands, ?_, hWorking⟩
    intro place target hEntry
    cases (hEntries _ hEntry).2.2

instance (d : Disk) : Decidable d.IsTree :=
  decidable_of_iff _ isTree_iff.symm

/-- The place that steps lead to through directories. -/
def walk? (d : Disk) : Place → List Path.Step → Option Place
  | place, [] => some place
  | _, .root :: steps => walk? d [] steps
  | place, .here :: steps => walk? d place steps
  | place, .slash :: steps => walk? d place steps
  | place, .up :: steps => walk? d place.dropLast steps
  | place, .name s :: steps =>
    match d.node? (place ++ [s]) with
    | some .directory => walk? d (place ++ [s]) steps
    | _ => none

namespace IsLinkedTree

variable {d : Disk} (h : IsLinkedTree d)
include h

theorem node?_eq_some_iff {place : Place} (hPlace : place ≠ []) (node : Node) :
    d.node? place = some node ↔ (place, node) ∈ d.nodes := by
  rw [node?, if_neg hPlace]
  exact lookup_eq_some_iff_mem h.nodup

theorem parent {place : Place} {s : String} {node : Node}
    (hNode : d.node? (place ++ [s]) = some node) :
    IsName s ∧ d.node? place = some .directory := by
  obtain ⟨front, last, hSame, hName, hFront⟩ :=
    h.stands _ ((h.node?_eq_some_iff (by simp) node).mp hNode)
  obtain ⟨rfl, hLast⟩ := List.append_inj' hSame rfl
  cases hLast
  exact ⟨hName, hFront⟩

/-- Above what stands at a place there are directories only, and all names are names. -/
theorem above {front back : Place} {node : Node} (hNode : d.node? (front ++ back) = some node) :
    (back ≠ [] → d.node? front = some .directory) ∧ ∀ s ∈ back, IsName s := by
  induction back using List.reverseRecOn generalizing node with
  | nil => simp
  | append_singleton back s ih =>
    rw [← List.append_assoc] at hNode
    obtain ⟨hName, hParent⟩ := h.parent hNode
    obtain ⟨hFront, hNames⟩ := ih hParent
    constructor
    · intro _
      by_cases hBack : back = []
      · subst hBack
        rwa [List.append_nil] at hParent
      · exact hFront hBack
    · intro other hOther
      rcases List.mem_append.mp hOther with hOld | hLast
      · exact hNames other hOld
      · rwa [List.mem_singleton.mp hLast]

theorem walk?_names {place names : Place} (hNode : d.node? (place ++ names) = some .directory) :
    d.walk? place (names.map .name) = some (place ++ names) := by
  induction names generalizing place with
  | nil => simp [walk?]
  | cons s names ih =>
    rw [List.append_cons] at hNode ⊢
    have hFirst : d.node? (place ++ [s]) = some .directory := by
      by_cases hNames : names = []
      · subst hNames
        rwa [List.append_nil] at hNode
      · exact (h.above hNode).1 hNames
    rw [List.map_cons, walk?, hFirst]
    exact ih hNode

end IsLinkedTree

namespace IsTree

variable {d : Disk} (h : IsTree d)
include h

theorem node?_eq_some_iff {place : Place} (hPlace : place ≠ []) (node : Node) :
    d.node? place = some node ↔ (place, node) ∈ d.nodes :=
  h.isLinkedTree.node?_eq_some_iff hPlace node

theorem ne_link (place : Place) (target : Path) : d.node? place ≠ some (.link target) := by
  intro hLink
  by_cases hPlace : place = []
  · subst hPlace
    cases hLink
  · exact h.noLinks place target ((h.node?_eq_some_iff hPlace _).mp hLink)

theorem parent {place : Place} {s : String} {node : Node}
    (hNode : d.node? (place ++ [s]) = some node) :
    IsName s ∧ d.node? place = some .directory :=
  h.isLinkedTree.parent hNode

theorem directory_dropLast {place : Place} (hNode : d.node? place = some .directory) :
    d.node? place.dropLast = some .directory := by
  rcases List.eq_nil_or_concat' place with rfl | ⟨front, s, rfl⟩
  · exact hNode
  · rw [List.dropLast_concat]
    exact (h.parent hNode).2

/-- Above what stands at a place there are directories only, and all names are names. -/
theorem above {front back : Place} {node : Node} (hNode : d.node? (front ++ back) = some node) :
    (back ≠ [] → d.node? front = some .directory) ∧ ∀ s ∈ back, IsName s :=
  h.isLinkedTree.above hNode

/-! ## Walking -/

theorem directory_of_walk? {place target : Place} {steps : List Path.Step}
    (hPlace : d.node? place = some .directory) (hWalk : d.walk? place steps = some target) :
    d.node? target = some .directory := by
  induction steps generalizing place with
  | nil =>
    cases hWalk
    exact hPlace
  | cons step steps ih =>
    cases step with
    | root => exact ih rfl hWalk
    | here => exact ih hPlace hWalk
    | slash => exact ih hPlace hWalk
    | up => exact ih (h.directory_dropLast hPlace) hWalk
    | name s =>
      rw [walk?] at hWalk
      split at hWalk
      next hNode => exact ih hNode hWalk
      next => cases hWalk

theorem walk?_names {place names : Place} (hNode : d.node? (place ++ names) = some .directory) :
    d.walk? place (names.map .name) = some (place ++ names) :=
  h.isLinkedTree.walk?_names hNode

end IsTree

theorem walk?_append (d : Disk) (place : Place) (front back : List Path.Step) :
    d.walk? place (front ++ back) = (d.walk? place front).bind fun next => d.walk? next back := by
  induction front generalizing place with
  | nil => rfl
  | cons step front ih =>
    cases step with
    | name s =>
      rw [List.cons_append, walk?, walk?]
      split
      next => exact ih _
      next => rfl
    | _ => exact ih _

theorem walk?_filter_slash (d : Disk) (place : Place) (steps : List Path.Step) :
    d.walk? place (steps.filter (· ≠ .slash)) = d.walk? place steps := by
  induction steps generalizing place with
  | nil => rfl
  | cons step steps ih =>
    cases step with
    | slash => exact ih place
    | name s =>
      have hKeep : (Path.Step.name s :: steps).filter (· ≠ .slash) =
          .name s :: steps.filter (· ≠ .slash) := rfl
      rw [hKeep, walk?, walk?]
      split
      next => exact ih _
      next => rfl
    | _ => exact ih _

end Disk

end ClassCollapse
