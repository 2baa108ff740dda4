import ClassCollapse.Proofs.Rewrite.Spliced
import ClassCollapse.Proofs.Text.Position
import Mathlib.Algebra.Order.Ring.Int
import Mathlib.Data.List.Chain

/-!
# Which splices apply, and what they give

Splices apply exactly if each of them replaces a part of the content, cut between characters, and
none starts before the one in front of it stops. The result has the gaps of the content with the
replacements between them, so each replacement stands at its offset, moved by what the earlier ones
have grown. The two tests of a step are the only ones that can fail: the balance keeps the drift
right.
-/

namespace ClassCollapse

open Text

namespace Splice

/-- The bytes that are replaced lie in the content, and they begin and end between characters. -/
structure FitsIn (content : String) (s : Splice) : Prop where
  starts : (⟨s.offset⟩ : String.Pos.Raw).IsValid content
  stops : (⟨s.stop⟩ : String.Pos.Raw).IsValid content

/-- By how many bytes a replacement is longer than what it replaces. -/
def growth (s : Splice) : Int :=
  s.replacement.utf8ByteSize - s.length

/-- The gaps of a content from a position on, with the replacements between them. There is no result
where a gap cannot be cut out of the content. -/
def interleaved? (content : List Char) : Nat → List Splice → Option (List Char)
  | position, [] => slice? position (byteCount content) content
  | position, s :: splices => do
    let gap ← slice? position s.offset content
    let rest ← interleaved? content s.stop splices
    some (gap ++ (s.replacement.toList ++ rest))

end Splice

variable {content : String} {lead cs out : List Char} {position : Nat} {splices : List Splice}

/-! ## The splices that cut a text -/

theorem Spliced.fits (h : Spliced position cs splices out) (hContent : content.toList = lead ++ cs)
    (hLead : byteCount lead = position) :
    (∀ s ∈ splices, s.FitsIn content) ∧ (∀ s ∈ splices.head?, position ≤ s.offset) ∧
      splices.IsChain fun a b => a.stop ≤ b.offset := by
  induction h generalizing lead with
  | nil => exact ⟨by simp, by simp, .nil⟩
  | @cons position gap part rest out s splices hOffset hLength _ ih =>
    have hStart : s.offset = byteCount (lead ++ gap) := by rw [hOffset, byteCount_append, hLead]
    have hStop : byteCount (lead ++ gap ++ part) = s.stop := by
      rw [byteCount_append, Splice.stop, hStart, hLength]
    have hText : content.toList = lead ++ gap ++ part ++ rest := by
      simp only [hContent, List.append_assoc]
    obtain ⟨hFits, hNext, hChain⟩ := ih hText hStop
    refine ⟨?_, ?_, ?_⟩
    · intro other hOther
      rcases List.mem_cons.mp hOther with rfl | hMore
      · have hFront : content.toList = lead ++ gap ++ (part ++ rest) := by
          rw [hText, List.append_assoc]
        exact ⟨isValid_iff.mpr ⟨_, _, hFront, hStart.symm⟩, isValid_iff.mpr ⟨_, _, hText, hStop⟩⟩
      · exact hFits other hMore
    · intro first hFirst
      obtain rfl := Option.some.inj hFirst
      omega
    · exact List.isChain_cons.mpr ⟨hNext, hChain⟩

theorem exists_spliced (hContent : content.toList = lead ++ cs) (hLead : byteCount lead = position)
    (hFits : ∀ s ∈ splices, s.FitsIn content) (hFirst : ∀ s ∈ splices.head?, position ≤ s.offset)
    (hChain : splices.IsChain fun a b => a.stop ≤ b.offset) :
    ∃ out, Spliced position cs splices out := by
  induction splices generalizing lead cs position with
  | nil => exact ⟨cs, .nil position cs⟩
  | cons s splices ih =>
    obtain ⟨hNext, hChain⟩ := List.isChain_cons.mp hChain
    obtain ⟨hStarts, hStops⟩ := hFits s List.mem_cons_self
    obtain ⟨before, after, hBefore, hStart⟩ := isValid_iff.mp hStarts
    obtain ⟨front, rest, hFront, hStop⟩ := isValid_iff.mp hStops
    have hAfter : position ≤ s.offset := hFirst s rfl
    obtain ⟨gap, rfl, rfl⟩ := exists_gap (hContent.symm.trans hBefore) (by omega)
    obtain ⟨part, rfl, rfl⟩ := exists_gap (hBefore.symm.trans hFront) (by
      rw [hStart, hStop, Splice.stop]
      omega)
    obtain ⟨out, hOut⟩ := ih hFront hStop
      (fun other hOther => hFits other (List.mem_cons_of_mem s hOther)) hNext hChain
    rw [Splice.stop, byteCount_append, byteCount_append] at hStop
    rw [byteCount_append] at hStart
    exact ⟨_, .cons (by omega) (by omega) hOut⟩

/-! ## The gaps and the replacements -/

/-- Where gaps can be cut out up to the end, the text can be cut at the position. -/
theorem Splice.exists_lead_of_interleaved? {content : List Char}
    (h : interleaved? content position splices = some out) :
    ∃ lead rest, content = lead ++ rest ∧ byteCount lead = position := by
  cases splices with
  | nil =>
    obtain ⟨before, after, hText, hPosition, _⟩ := slice?_eq_some_iff.mp h
    exact ⟨before, _, hText, hPosition⟩
  | cons s splices =>
    obtain ⟨gap, hGap, _⟩ := Option.bind_eq_some_iff.mp h
    obtain ⟨before, after, hText, hPosition, _⟩ := slice?_eq_some_iff.mp hGap
    exact ⟨before, _, hText, hPosition⟩

theorem spliced_iff_interleaved? {content : List Char} (hContent : content = lead ++ cs)
    (hLead : byteCount lead = position) : Spliced position cs splices out ↔
      Splice.interleaved? content position splices = some out := by
  induction splices generalizing lead cs position out with
  | nil =>
    rw [Splice.interleaved?, slice?_eq_some_iff]
    constructor
    · intro h
      cases h
      refine ⟨lead, [], by rw [List.append_nil, hContent], hLead, ?_⟩
      rw [hContent, byteCount_append, hLead]
    · rintro ⟨before, after, hText, hBefore, hEnd⟩
      obtain ⟨rfl, rfl⟩ := append_inj_of_byteCount (hContent.symm.trans hText) (by omega)
      rw [hText, byteCount_append, byteCount_append] at hEnd
      have hNil : after = [] := byteCount_eq_zero_iff.mp (by omega)
      rw [hNil, List.append_nil]
      exact .nil position out
  | cons s splices ih =>
    rw [Splice.interleaved?, Option.bind_eq_bind, Option.bind_eq_some_iff]
    constructor
    · intro h
      cases h with
      | @cons _ gap part rest out _ _ hOffset hLength hRest =>
        have hStop : byteCount (lead ++ gap ++ part) = s.stop := by
          rw [byteCount_append, byteCount_append, Splice.stop, hLead, hOffset, hLength]
        have hText : content = lead ++ gap ++ part ++ rest := by
          simp only [hContent, List.append_assoc]
        refine ⟨gap, slice?_eq_some_iff.mpr ⟨lead, part ++ rest, hContent, hLead, hOffset.symm⟩, ?_⟩
        rw [(ih hText hStop).mp hRest]
        rfl
    · rintro ⟨gap, hGap, hMore⟩
      obtain ⟨after, hAfter, hOut⟩ := Option.bind_eq_some_iff.mp hMore
      cases hOut
      obtain ⟨before, tail, hText, hBefore, hOffset⟩ := slice?_eq_some_iff.mp hGap
      obtain ⟨front, rest, hFront, hStop⟩ := Splice.exists_lead_of_interleaved? hAfter
      obtain ⟨rfl, rfl⟩ := append_inj_of_byteCount (hContent.symm.trans hText) (by omega)
      -- The gap ends before the next part of the content starts, and between them stands the part
      -- that is replaced.
      rw [← List.append_assoc] at hText
      obtain ⟨part, rfl, rfl⟩ := exists_gap (hText.symm.trans hFront) (by
        rw [byteCount_append, hStop, Splice.stop]
        omega)
      have hLength : s.length = byteCount part := by
        rw [byteCount_append, byteCount_append, Splice.stop] at hStop
        omega
      exact .cons (by omega) hLength ((ih hFront hStop).mpr hAfter)

/-! ## How far everything moves -/

theorem Spliced.byteCount_eq (h : Spliced position cs splices out) :
    (byteCount out : Int) = byteCount cs + (splices.map Splice.growth).sum := by
  induction h with
  | nil => simp
  | @cons position gap part rest out s splices _ hLength _ ih =>
    simp only [byteCount_append, List.map_cons, List.sum_cons, Splice.growth, hLength,
      byteCount_toList]
    push_cast
    omega

/-- A replacement stands at its offset, moved by what the earlier ones have grown. -/
theorem Spliced.exists_replacement (h : Spliced position cs splices out) (i : Nat)
    (hi : i < splices.length) : ∃ before after,
      out = before ++ (splices[i].replacement.toList ++ after) ∧
      (position + byteCount before : Int) =
        splices[i].offset + ((splices.take i).map Splice.growth).sum := by
  induction h generalizing i with
  | nil => cases hi
  | @cons position gap part rest out s splices hOffset hLength _ ih =>
    cases i with
    | zero =>
      refine ⟨gap, out, rfl, ?_⟩
      simp [hOffset]
    | succ i =>
      obtain ⟨before, after, hOut, hMoved⟩ := ih i (Nat.lt_of_succ_lt_succ hi)
      refine ⟨gap ++ (s.replacement.toList ++ before), after, ?_, ?_⟩
      · simp only [hOut, List.append_assoc, List.getElem_cons_succ]
      · rw [Splice.stop] at hMoved
        simp only [byteCount_append, byteCount_toList, List.getElem_cons_succ, List.take_succ_cons,
          List.map_cons, List.sum_cons, Splice.growth]
        push_cast at hMoved ⊢
        omega

/-! ## The tests that fail -/

namespace Splicing

/-- The balance rules a wrong drift out. -/
theorem Balanced.error_of_step {t : Splicing} (h : t.Balanced) {size : Nat} {s : Splice}
    {error : InternalError} (hError : t.step size s = .error error) :
    error = .overlap s.offset t.cursor ∨ error = .outside s.offset s.stop size := by
  rw [step] at hError
  split at hError
  · cases hError
    exact .inl rfl
  next hAfter =>
    split at hError
    · cases hError
      exact .inr rfl
    next gap rest hGap =>
      split at hError
      · cases hError
        exact .inr rfl
      · have hCount := (cutAt?_eq_some hGap).2
        have hDrift : (s.offset : Int) + t.drift = byteCount (t.written ++ gap) := by
          rw [Balanced] at h
          rw [byteCount_append]
          omega
        dsimp only at hError
        rw [if_neg fun hne => hne hDrift] at hError
        cases hError

theorem Balanced.error_of_run {t : Splicing} (h : t.Balanced) {size : Nat} {splices : List Splice}
    {error : InternalError} (hError : t.run size splices = .error error) :
    ∃ s ∈ splices, (∃ cursor, error = .overlap s.offset cursor) ∨
      error = .outside s.offset s.stop size := by
  induction splices generalizing t with
  | nil => cases hError
  | cons s splices ih =>
    rw [run] at hError
    split at hError
    next e hStep =>
      cases hError
      exact ⟨s, List.mem_cons_self, (h.error_of_step hStep).imp_left fun hSame => ⟨_, hSame⟩⟩
    next t' hStep =>
      obtain ⟨_, _, _, _, _, _, _, _, hBalanced⟩ := h.of_step hStep
      obtain ⟨other, hOther, hCause⟩ := ih hBalanced hError
      exact ⟨other, List.mem_cons_of_mem s hOther, hCause⟩

end Splicing

theorem Splice.error_of_applyAll {error : InternalError}
    (h : applyAll content splices = .error error) :
    ∃ s ∈ splices, (∃ cursor, error = .overlap s.offset cursor) ∨
      error = .outside s.offset s.stop content.utf8ByteSize := by
  rw [applyAll] at h
  cases hRun : (Splicing.start content.toList).run (byteCount content.toList) splices with
  | ok t => rw [hRun] at h; cases h
  | error e =>
    rw [hRun] at h
    cases h
    rw [← byteCount_toList]
    exact (Splicing.balanced_start content.toList).error_of_run hRun

/-- Splices apply to a content exactly if each of them fits into it and none starts before the one
in front of it stops. Then the result consists of the gaps of the content with the replacements
between them; its length is that of the content and what the replacements have grown; and each
replacement stands at its offset, moved by what those in front of it have grown. The drift is never
wrong. -/
theorem Splice.applyAll_spec (content : String) (splices : List Splice) :
    ((∃ result, applyAll content splices = .ok result) ↔
      (∀ s ∈ splices, s.FitsIn content) ∧ splices.IsChain fun a b => a.stop ≤ b.offset) ∧
    (∀ result, applyAll content splices = .ok result ↔
      interleaved? content.toList 0 splices = some result.toList) ∧
    (∀ result, applyAll content splices = .ok result →
      (result.utf8ByteSize : Int) = content.utf8ByteSize + (splices.map growth).sum ∧
      ∀ i (hi : i < splices.length), ∃ before after,
        result = before ++ splices[i].replacement ++ after ∧
        (before.utf8ByteSize : Int) =
          splices[i].offset + ((splices.take i).map growth).sum) ∧
    ∀ expected found, applyAll content splices ≠ .error (.drift expected found) := by
  have hWhole : content.toList = [] ++ content.toList := rfl
  refine ⟨⟨?_, ?_⟩, ?_, ?_, ?_⟩
  · rintro ⟨result, hResult⟩
    obtain ⟨hFits, _, hChain⟩ := ((applyAll_eq_ok_iff _ _ _).mp hResult).fits hWhole rfl
    exact ⟨hFits, hChain⟩
  · rintro ⟨hFits, hChain⟩
    obtain ⟨out, hOut⟩ := exists_spliced hWhole rfl hFits (fun _ _ => Nat.zero_le _) hChain
    refine ⟨String.ofList out, (applyAll_eq_ok_iff _ _ _).mpr ?_⟩
    rw [String.toList_ofList]
    exact hOut
  · intro result
    rw [applyAll_eq_ok_iff]
    exact spliced_iff_interleaved? hWhole rfl
  · intro result hResult
    have hSpliced := (applyAll_eq_ok_iff _ _ _).mp hResult
    refine ⟨?_, ?_⟩
    · rw [← byteCount_toList, ← byteCount_toList]
      exact hSpliced.byteCount_eq
    · intro i hi
      obtain ⟨before, after, hOut, hMoved⟩ := hSpliced.exists_replacement i hi
      refine ⟨String.ofList before, String.ofList after, ?_, ?_⟩
      · rw [← String.toList_inj, hOut]
        simp only [String.toList_append, String.toList_ofList, List.append_assoc]
      · rw [← byteCount_eq_utf8ByteSize, ← hMoved]
        omega
  · intro expected found hDrift
    obtain ⟨s, _, ⟨cursor, hOverlap⟩ | hOutside⟩ := error_of_applyAll hDrift
    · cases hOverlap
    · cases hOutside

end ClassCollapse
