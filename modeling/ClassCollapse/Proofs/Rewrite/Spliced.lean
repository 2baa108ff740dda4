import ClassCollapse.Rewrite.Splice

/-!
# What splices do to a text

A text is cut into gaps and parts, where the splices give the places of the parts. The spliced text
has the same gaps in the same order and a replacement in the place of each part. Applying splices
succeeds exactly where the text can be cut this way, and the result is the spliced text. The drift
is never wrong, because each step keeps the balance of what is written and what it stands for.
-/

namespace ClassCollapse

open Text

/-- The second text is the first one, which starts at a position, with its parts replaced. -/
inductive Spliced : Nat → List Char → List Splice → List Char → Prop
  | nil (position : Nat) (rest : List Char) : Spliced position rest [] rest
  | cons {position : Nat} {gap part rest out : List Char} {s : Splice} {splices : List Splice}
    (hOffset : s.offset = position + byteCount gap) (hLength : s.length = byteCount part)
    (hRest : Spliced s.stop rest splices out) :
    Spliced position (gap ++ (part ++ rest)) (s :: splices)
      (gap ++ (s.replacement.toList ++ out))

/-- Text before the parts stays as it is. -/
theorem Spliced.before {position : Nat} {rest out : List Char} {splices : List Splice}
    (lead : List Char) (h : Spliced (position + byteCount lead) rest splices out) :
    Spliced position (lead ++ rest) splices (lead ++ out) := by
  cases h with
  | nil => exact .nil _ _
  | @cons _ gap part rest out s splices hOffset hLength hRest =>
    rw [← List.append_assoc lead, ← List.append_assoc lead]
    refine .cons ?_ hLength hRest
    rw [hOffset, byteCount_append, Nat.add_assoc]

namespace Splicing

/-- What is written is as long as what it stands for and the drift. -/
def Balanced (t : Splicing) : Prop :=
  (byteCount t.written : Int) = t.cursor + t.drift

theorem balanced_start (content : List Char) : (start content).Balanced := rfl

/-- A splice after a gap is applied, and the balance is kept. -/
theorem step_of_cut {t : Splicing} (h : t.Balanced) {s : Splice} {gap part rest : List Char}
    (hOffset : s.offset = t.cursor + byteCount gap) (hLength : s.length = byteCount part)
    (hRest : t.rest = gap ++ (part ++ rest)) (size : Nat) :
    ∃ drift, t.step size s =
        .ok ⟨t.written ++ gap ++ s.replacement.toList, drift, s.stop, rest⟩ ∧
      (⟨t.written ++ gap ++ s.replacement.toList, drift, s.stop, rest⟩ : Splicing).Balanced := by
  have hGap : s.offset - t.cursor = byteCount gap := by omega
  have hDrift : (s.offset : Int) + t.drift = byteCount (t.written ++ gap) := by
    rw [Balanced] at h
    rw [byteCount_append]
    omega
  refine ⟨t.drift + ((byteCount s.replacement.toList : Int) - s.length), ?_, ?_⟩
  · rw [step, if_neg (by omega), hGap, hRest, cutAt?_append]
    dsimp only
    rw [hLength, cutAt?_append]
    dsimp only
    rw [if_neg (fun hne => hne hDrift)]
  · rw [Balanced]
    dsimp only
    rw [byteCount_append, Splice.stop]
    omega

/-- A splice that is applied comes after a gap. -/
theorem cut_of_step {t t' : Splicing} {size : Nat} {s : Splice} (h : t.step size s = .ok t') :
    ∃ gap part rest, t.rest = gap ++ (part ++ rest) ∧ s.offset = t.cursor + byteCount gap ∧
      s.length = byteCount part := by
  rw [step] at h
  split at h
  · cases h
  next hAfter =>
    split at h
    · cases h
    next gap tail hGap =>
      split at h
      · cases h
      next part rest hPart =>
        dsimp only at h
        split at h
        · cases h
        · cases h
          obtain ⟨hTail, hGapCount⟩ := cutAt?_eq_some hGap
          obtain ⟨hRest, hPartCount⟩ := cutAt?_eq_some hPart
          refine ⟨gap, part, rest, ?_, by omega, hPartCount.symm⟩
          rw [hRest, hTail]

/-- A step from a balanced state takes a gap and a part, and it keeps the balance. -/
theorem Balanced.of_step {t t' : Splicing} (h : t.Balanced) {size : Nat} {s : Splice}
    (hStep : t.step size s = .ok t') : ∃ gap part rest drift, t.rest = gap ++ (part ++ rest) ∧
      s.offset = t.cursor + byteCount gap ∧ s.length = byteCount part ∧
      t' = ⟨t.written ++ gap ++ s.replacement.toList, drift, s.stop, rest⟩ ∧ t'.Balanced := by
  obtain ⟨gap, part, rest, hRest, hOffset, hLength⟩ := cut_of_step hStep
  obtain ⟨drift, hStep', hBalanced⟩ := step_of_cut h hOffset hLength hRest size
  rw [hStep] at hStep'
  cases hStep'
  exact ⟨gap, part, rest, drift, hRest, hOffset, hLength, rfl, hBalanced⟩

theorem run_of_spliced {position : Nat} {rest out : List Char} {splices : List Splice}
    (h : Spliced position rest splices out) {t : Splicing} (hBalanced : t.Balanced)
    (hCursor : t.cursor = position) (hRest : t.rest = rest) (size : Nat) :
    ∃ t', t.run size splices = .ok t' ∧ t'.text = t.written ++ out := by
  induction h generalizing t with
  | nil position rest => exact ⟨t, rfl, by rw [text, hRest]⟩
  | @cons position gap part rest out s splices hOffset hLength _ ih =>
    obtain ⟨drift, hStep, hBalanced'⟩ :=
      step_of_cut hBalanced (by rw [hCursor]; exact hOffset) hLength hRest size
    obtain ⟨t', hRun, hText⟩ := ih hBalanced' rfl rfl
    refine ⟨t', ?_, ?_⟩
    · rw [run, hStep]
      exact hRun
    · rw [hText]
      simp only [List.append_assoc]

theorem spliced_of_run {t t' : Splicing} {size : Nat} {splices : List Splice}
    (hBalanced : t.Balanced) (h : t.run size splices = .ok t') :
    ∃ out, Spliced t.cursor t.rest splices out ∧ t'.text = t.written ++ out := by
  induction splices generalizing t with
  | nil =>
    cases h
    exact ⟨_, .nil _ _, rfl⟩
  | cons s splices ih =>
    rw [run] at h
    split at h
    · cases h
    next t₁ hStep =>
      obtain ⟨gap, part, rest, drift, hRest, hOffset, hLength, rfl, hBalanced'⟩ :=
        hBalanced.of_step hStep
      obtain ⟨out, hOut, hText⟩ := ih hBalanced' h
      refine ⟨gap ++ (s.replacement.toList ++ out), ?_, ?_⟩
      · rw [hRest]
        exact .cons hOffset hLength hOut
      · rw [hText]
        simp only [List.append_assoc]

end Splicing

/-- Splices apply to a text exactly if they cut it into gaps and parts. -/
theorem Splice.applyAll_eq_ok_iff (content result : String) (splices : List Splice) :
    applyAll content splices = .ok result ↔
      Spliced 0 content.toList splices result.toList := by
  have hStart := Splicing.balanced_start content.toList
  rw [applyAll]
  constructor
  · intro h
    cases hRun : (Splicing.start content.toList).run (byteCount content.toList) splices with
    | error e => rw [hRun] at h; cases h
    | ok t =>
      obtain ⟨out, hOut, hText⟩ := Splicing.spliced_of_run hStart hRun
      rw [hRun] at h
      cases h
      rw [String.toList_ofList, hText]
      exact hOut
  · intro h
    obtain ⟨t, hRun, hText⟩ :=
      Splicing.run_of_spliced h hStart rfl rfl (byteCount content.toList)
    rw [hRun, Except.map, hText]
    exact congrArg Except.ok String.ofList_toList

end ClassCollapse
