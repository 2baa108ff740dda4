import ClassCollapse.Proofs.Markup.Located
import ClassCollapse.Proofs.OccurrenceIndex
import ClassCollapse.Rewrite.Rewriter

/-!
# The plan for a scanned file

Where the index lists for a file what a scan of its content found, the plan replaces each class list
at its place, and rewriting has a result: the content with these splices applied.
-/

namespace ClassCollapse

open Text

/-- A found class list as an occurrence in a file, under some key. -/
def ScannedClass.occurrence (file : String) (key : ScannedClass → CanonicalKey)
    (found : ScannedClass) : Occurrence :=
  ⟨file, found.classList, key found, found.offset, found.length, found.tag⟩

variable {content file : String} {key : ScannedClass → CanonicalKey}

/-- What a scan found is in the order of the offsets already. -/
theorem OccurrenceIndex.forFile_of_inFile {index : OccurrenceIndex}
    (h : index.inFile file = (Markup.scan content).map (ScannedClass.occurrence file key)) :
    index.forFile file = (Markup.scan content).map (ScannedClass.occurrence file key) := by
  rw [forFile, h]
  apply List.mergeSort_of_pairwise
  rw [List.pairwise_map]
  refine (Markup.located_scan content).ascending.imp ?_
  intro a b hab
  exact decide_eq_true hab

namespace Rewriter

/-- The splices for what a scan found. -/
def splices (w : Rewriter) (file : String) (key : ScannedClass → CanonicalKey)
    (found : List ScannedClass) : List Splice :=
  found.map fun f => ⟨f.offset, f.length, w.render (f.occurrence file key)⟩

theorem plan_eq {w : Rewriter}
    (h : w.index.forFile file = (Markup.scan content).map (ScannedClass.occurrence file key)) :
    w.plan content file = .ok (w.splices file key (Markup.scan content)) := by
  have hSplice : ∀ f ∈ Markup.scan content, w.splice content.toList (f.occurrence file key) =
      .ok ⟨f.offset, f.length, w.render (f.occurrence file key)⟩ := by
    intro f hf
    exact if_pos ((Markup.located_scan content).slice?_eq f hf)
  rw [plan, h, splices]
  generalize Markup.scan content = found at hSplice
  induction found with
  | nil => rfl
  | cons first found ih =>
    rw [List.map_cons, List.map_cons, List.mapM_cons, hSplice first List.mem_cons_self,
      ih fun other hOther => hSplice other (List.mem_cons_of_mem first hOther)]
    rfl

theorem replace_of_spliced {w : Rewriter} (hFresh : file ∉ w.claimed)
    (h : w.index.forFile file = (Markup.scan content).map (ScannedClass.occurrence file key))
    {out : String} (hOut : Spliced 0 content.toList (w.splices file key (Markup.scan content))
      out.toList) :
    w.replace content file = (.ok out, { w with claimed := file :: w.claimed }) := by
  have hClaim : w.claim file = (true, { w with claimed := file :: w.claimed }) := if_neg hFresh
  have hPlan := plan_eq (w := { w with claimed := file :: w.claimed }) h
  have hApply := (Splice.applyAll_eq_ok_iff content out _).mpr hOut
  rw [replace, hClaim]
  dsimp only
  rw [hPlan, ← hApply]
  rfl

end Rewriter

end ClassCollapse
