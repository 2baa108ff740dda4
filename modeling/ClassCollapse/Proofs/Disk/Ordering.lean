import ClassCollapse.Disk.Path
import Mathlib.Data.List.Basic

/-!
# The order of paths

Steps are ordered by their kind, and names by their text. Paths are sorted by their steps, so paths
with different steps are sorted strictly, and the sorted list of such paths does not depend on the
order in which they were found.
-/

namespace ClassCollapse.Path

/-- The kinds of steps in the order of sorting. -/
def Component.rank : Component → Nat
  | .root => 0
  | .here => 1
  | .up => 2
  | .name _ => 3

theorem compare_eq_compareLex : (compare : Component → Component → Ordering) =
    compareLex (compareOn Component.rank) (compareOn Component.text) := by
  funext c c'
  cases c with
  | name s =>
    cases c' with
    | name t => exact Ordering.then_eq
    | _ => rfl
  | _ => cases c' <;> rfl

instance : Std.TransOrd Component := by
  rw [Std.TransOrd, compare_eq_compareLex]
  infer_instance

instance : Std.LawfulEqOrd Component where
  compare_self {c} := by
    rw [compare_eq_compareLex]
    exact Std.ReflCmp.compare_self
  eq_of_compare {c c'} h := by
    cases c with
    | name s =>
      cases c' with
      | name t =>
        have hText : compare s t = .eq := by rwa [← Ordering.then_eq (o := compare s t)]
        rw [Std.LawfulEqOrd.eq_of_compare hText]
      | _ => cases h
    | _ =>
      cases c' with
      | _ => first | rfl | cases h

/-! ## Sorting -/

/-- The steps of one path come before those of another one. -/
def Precedes (p q : Path) : Prop :=
  compare p.components q.components = .lt

theorem before_trans (p q r : Path) (h : p.before q = true) (h' : q.before r = true) :
    p.before r = true :=
  Std.TransCmp.isLE_trans h h'

theorem before_total (p q : Path) : (p.before q || q.before p) = true := by
  rw [before, before, Std.OrientedOrd.eq_swap (a := q.components)]
  cases compare p.components q.components <;> rfl

theorem precedes_of_before {p q : Path} (h : p.before q = true)
    (hne : p.components ≠ q.components) : Precedes p q := by
  rcases Ordering.isLE_iff_eq_lt_or_eq_eq.mp h with hLess | hSame
  · exact hLess
  · exact absurd (Std.LawfulEqOrd.eq_of_compare hSame) hne

/-- Paths with different steps are sorted strictly. -/
theorem pairwise_mergeSort {files : List Path} (h : (files.map components).Nodup) :
    (files.mergeSort before).Pairwise Precedes := by
  have hSorted : (files.mergeSort before).Pairwise fun p q => p.before q = true :=
    List.pairwise_mergeSort before_trans before_total files
  have hApart : (files.mergeSort before).Pairwise fun p q => p.components ≠ q.components :=
    List.pairwise_map.mp (((List.mergeSort_perm files before).map components).nodup_iff.mpr h)
  exact (hSorted.and hApart).imp fun h => precedes_of_before h.1 h.2

/-- In whatever order paths with different steps were found, they are sorted alike. -/
theorem mergeSort_eq_of_perm {files files' : List Path} (hPerm : files.Perm files')
    (h : (files.map components).Nodup) : files.mergeSort before = files'.mergeSort before := by
  have h' : (files'.map components).Nodup := (hPerm.map components).nodup_iff.mp h
  have hSorted : (files.mergeSort before).Perm (files'.mergeSort before) :=
    (List.mergeSort_perm _ _).trans (hPerm.trans (List.mergeSort_perm _ _).symm)
  refine hSorted.eq_of_pairwise ?_ (pairwise_mergeSort h) (pairwise_mergeSort h')
  intro p q _ _ hLess hGreater
  rw [Precedes, Std.OrientedCmp.gt_of_lt hLess] at hGreater
  cases hGreater

end ClassCollapse.Path
