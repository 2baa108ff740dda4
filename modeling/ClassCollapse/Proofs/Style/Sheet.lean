import ClassCollapse.Proofs.Text.Search
import ClassCollapse.Proofs.Text.Trim
import ClassCollapse.Style.Placement

/-!
# Merged sheets

A merged sheet starts with what the existing one was, up to blanks at its end, and has the rules
that were merged as a part. Where several texts of rules are merged into one sheet, it makes a
difference whether each is merged into what the others left or all are merged into the existing
sheet and written one after the other. The second way repeats the existing sheet, or leaves no line
between the rules.
-/

namespace ClassCollapse.Placement

open Text

/-! ## What a merge keeps -/

/-- The part of an existing sheet that a merge keeps. -/
def kept (existing : Option String) : String :=
  trimEnd (existing.getD "")

theorem mergeSheet_eq (existing : Option String) (css : String) :
    mergeSheet existing css =
      if kept existing = "" then css
      else if holds css (kept existing) then kept existing
      else kept existing ++ "\n" ++ css := by
  cases existing with
  | none => rfl
  | some sheet =>
    rw [mergeSheet, Option.map_some, show kept (some sheet) = trimEnd sheet from rfl]
    dsimp only
    by_cases hEmpty : trimEnd sheet = ""
    · rw [if_pos hEmpty, if_pos (String.isEmpty_iff.mpr hEmpty)]
    · rw [if_neg hEmpty, if_neg (mt String.isEmpty_iff.mp hEmpty)]

theorem kept_prefix_mergeSheet (existing : Option String) (css : String) :
    (kept existing).toList <+: (mergeSheet existing css).toList := by
  rw [mergeSheet_eq]
  split
  next hEmpty => simp [hEmpty]
  next =>
    split
    · exact List.prefix_rfl
    · rw [String.append_assoc, String.toList_append]
      exact List.prefix_append _ _

theorem infix_mergeSheet (existing : Option String) (css : String) :
    css.toList <:+: (mergeSheet existing css).toList := by
  rw [mergeSheet_eq]
  split
  · exact List.infix_rfl
  · split
    next hHeld => exact holds_iff.mp hHeld
    next =>
      rw [String.toList_append]
      exact (List.suffix_append _ _).isInfix

/-! ## Rules as text -/

/-- A text of rules starts with the dot of its first selector and ends with the brace of its last
rule. -/
structure IsRules (css : String) : Prop where
  starts : css.toList.head? = some '.'
  ends : css.toList.getLast? = some '\x7d'

/-- The text ends with a character that is no blank. -/
def IsEnded (s : String) : Prop :=
  ∃ c, s.toList.getLast? = some c ∧ isBlank c = false

theorem IsRules.isEnded {css : String} (h : IsRules css) : IsEnded css :=
  ⟨'\x7d', h.ends, by decide⟩

theorem IsRules.ne_empty {css : String} (h : IsRules css) : css ≠ "" := by
  rintro rfl
  cases h.starts

theorem IsEnded.ne_empty {s : String} (h : IsEnded s) : s ≠ "" := by
  rintro rfl
  obtain ⟨c, hc, _⟩ := h
  cases hc

theorem IsEnded.trimEnd_eq {s : String} (h : IsEnded s) : trimEnd s = s := by
  obtain ⟨c, hc, hLetter⟩ := h
  obtain ⟨front, hFront⟩ := List.getLast?_eq_some_iff.mp hc
  rw [trimEnd, dropTrailing, hFront, List.reverse_concat,
    List.dropWhile_cons_of_neg (by simp [hLetter]), List.reverse_cons, List.reverse_reverse, ← hFront,
    String.ofList_toList]

theorem kept_some {s : String} (h : IsEnded s) : kept (some s) = s :=
  h.trimEnd_eq

theorem isEnded_kept {existing : Option String} (h : kept existing ≠ "") :
    IsEnded (kept existing) := by
  cases hLast : (kept existing).toList.getLast? with
  | none => exact absurd (String.toList_eq_nil_iff.mp (List.getLast?_eq_none_iff.mp hLast)) h
  | some c =>
    refine ⟨c, hLast, ?_⟩
    rw [kept, trimEnd, String.toList_ofList] at hLast
    exact last_dropTrailing hLast

theorem IsEnded.append {s t : String} (h : IsEnded t) : IsEnded (s ++ t) := by
  obtain ⟨c, hc, hLetter⟩ := h
  refine ⟨c, ?_, hLetter⟩
  rw [String.toList_append, List.getLast?_append, hc, Option.some_or]

theorem IsEnded.mergeSheet {css : String} (h : IsEnded css) (existing : Option String) :
    IsEnded (mergeSheet existing css) := by
  rw [mergeSheet_eq]
  split
  · exact h
  next hSome =>
    split
    · exact isEnded_kept hSome
    · exact h.append

theorem mergeSheet_of_isEnded {s : String} (h : IsEnded s) (css : String) :
    Placement.mergeSheet (some s) css =
      if css.toList <:+: s.toList then s else s ++ "\n" ++ css := by
  rw [mergeSheet_eq, kept_some h, if_neg h.ne_empty]
  simp only [holds_iff]

/-! ## One sheet for several texts of rules -/

/-- Merges texts of rules one after the other, each into the sheet that the others left. -/
def mergeAll (existing : Option String) (texts : List String) : Option String :=
  texts.foldl (fun sheet css => some (mergeSheet sheet css)) existing

/-- Merges each text of rules into the existing sheet and writes the results one after the other. -/
def mergeApart (existing : Option String) (texts : List String) : String :=
  String.join (texts.map (mergeSheet existing))

theorem mergeAll_cons (existing : Option String) (css : String) (texts : List String) :
    mergeAll existing (css :: texts) = mergeAll (some (mergeSheet existing css)) texts :=
  rfl

theorem mergeApart_cons (existing : Option String) (css : String) (texts : List String) :
    mergeApart existing (css :: texts) = mergeSheet existing css ++ mergeApart existing texts := by
  rw [mergeApart, List.map_cons, String.join_cons, mergeApart]

theorem kept_prefix_mergeApart (existing : Option String) {texts : List String} (h : texts ≠ []) :
    (kept existing).toList <+: (mergeApart existing texts).toList := by
  cases texts with
  | nil => exact absurd rfl h
  | cons css texts =>
    rw [mergeApart_cons, String.toList_append]
    exact (kept_prefix_mergeSheet existing css).trans (List.prefix_append _ _)

theorem infix_mergeApart (existing : Option String) {texts : List String} {css : String}
    (h : css ∈ texts) : css.toList <:+: (mergeApart existing texts).toList := by
  obtain ⟨front, back, rfl⟩ := List.append_of_mem h
  rw [mergeApart, List.map_append, List.map_cons, String.join_append, String.join_cons,
    String.toList_append, String.toList_append]
  refine (infix_mergeSheet existing css).trans ?_
  exact (List.infix_append _ _ _).trans (by rw [List.append_assoc])

/-- Without a sheet before, merging adds nothing to a text or goes on with a new line. -/
theorem mergeAll_of_isEnded {texts : List String} (hTexts : ∀ css ∈ texts, IsEnded css) {s : String}
    (hs : IsEnded s) : ∃ t, mergeAll (some s) texts = some t ∧
      (t = s ∨ (s ++ "\n").toList <+: t.toList) := by
  induction texts generalizing s with
  | nil => exact ⟨s, rfl, .inl rfl⟩
  | cons css texts ih =>
    have hMerged := (hTexts css List.mem_cons_self).mergeSheet (some s)
    obtain ⟨t, hAll, hText⟩ := ih (fun other h => hTexts other (List.mem_cons_of_mem _ h)) hMerged
    refine ⟨t, hAll, ?_⟩
    rw [mergeSheet_of_isEnded hs] at hText
    split at hText
    · exact hText
    · have hLine : (s ++ "\n").toList <+: (s ++ "\n" ++ css).toList :=
        ⟨css.toList, String.toList_append.symm⟩
      rcases hText with rfl | hMore
      · exact .inr hLine
      · rw [String.toList_append] at hMore
        exact .inr (hLine.trans ((List.prefix_append _ _).trans hMore))

/-- Each text that is merged into the existing sheet apart repeats what is kept of it. -/
theorem length_mergeAll_le {existing : Option String} (hKept : kept existing ≠ "")
    {texts : List String} (hTexts : ∀ css ∈ texts, IsEnded css) {s : String} (hs : IsEnded s)
    (hPrefix : (kept existing).toList <+: s.toList) : ∃ t, mergeAll (some s) texts = some t ∧
      t.length + texts.length ≤ s.length + (mergeApart existing texts).length := by
  induction texts generalizing s with
  | nil => exact ⟨s, rfl, by simp⟩
  | cons css texts ih =>
    have hMerged := (hTexts css List.mem_cons_self).mergeSheet (some s)
    obtain ⟨t, hAll, hLength⟩ := ih (fun other h => hTexts other (List.mem_cons_of_mem _ h)) hMerged
      (hPrefix.trans (by
        have hFront := kept_prefix_mergeSheet (some s) css
        rwa [kept_some hs] at hFront))
    refine ⟨t, hAll, ?_⟩
    have hPositive : 0 < (kept existing).length := by
      rw [← String.length_toList]
      exact List.length_pos_iff.mpr fun hNil => hKept (String.toList_eq_nil_iff.mp hNil)
    rw [mergeApart_cons, mergeSheet_eq existing, if_neg hKept, List.length_cons,
      String.length_append]
    rw [mergeSheet_of_isEnded hs] at hLength
    -- What the kept part holds, the longer sheet holds as well.
    by_cases hHeld : holds css (kept existing) = true
    · have hStill : css.toList <:+: s.toList := (holds_iff.mp hHeld).trans hPrefix.isInfix
      rw [if_pos hStill] at hLength
      rw [if_pos hHeld]
      omega
    · have hAdded : (if css.toList <:+: s.toList then s else s ++ "\n" ++ css).length ≤
          s.length + 1 + css.length := by
        split
        · omega
        · simp only [String.length_append]
          have hLine : "\n".length = 1 := rfl
          omega
      rw [if_neg hHeld]
      simp only [String.length_append]
      have hLine : "\n".length = 1 := rfl
      omega

/-- Texts of rules that are merged apart are what merging one after the other gives exactly if there
is one text. -/
theorem mergeApart_eq_iff (existing : Option String) {first : String} {rest : List String}
    (h : ∀ css ∈ first :: rest, IsRules css) :
    some (mergeApart existing (first :: rest)) = mergeAll existing (first :: rest) ↔ rest = [] := by
  constructor
  · intro hSame
    cases rest with
    | nil => rfl
    | cons second rest =>
      exfalso
      have hEnded : ∀ css ∈ second :: rest, IsEnded css :=
        fun css hcss => (h css (List.mem_cons_of_mem _ hcss)).isEnded
      have hFirst := (h first List.mem_cons_self).isEnded
      rw [mergeAll_cons, mergeApart_cons] at hSame
      by_cases hKept : kept existing = ""
      · obtain ⟨t, hAll, hText⟩ := mergeAll_of_isEnded hEnded hFirst
        have hAlone : ∀ css, Placement.mergeSheet existing css = css := by
          intro css
          rw [mergeSheet_eq, if_pos hKept]
        rw [hAlone, hAll, Option.some.injEq] at hSame
        have hStarts := (h second (by simp)).starts
        have hNext : (mergeApart existing (second :: rest)).toList.head? = some '.' := by
          rw [mergeApart_cons, hAlone, String.toList_append, List.head?_append, hStarts,
            Option.some_or]
        rcases hText with rfl | ⟨back, hBack⟩
        · rw [String.append_eq_left_iff.mp hSame] at hNext
          cases hNext
        · rw [← hSame, String.toList_append, String.toList_append, List.append_assoc] at hBack
          rw [← List.append_cancel_left hBack] at hNext
          cases hNext
      · obtain ⟨t, hAll, hLength⟩ := length_mergeAll_le hKept hEnded (hFirst.mergeSheet existing)
          (kept_prefix_mergeSheet existing first)
        rw [hAll, Option.some.injEq] at hSame
        have hTotal := congrArg String.length hSame
        rw [String.length_append] at hTotal
        rw [List.length_cons] at hLength
        omega
  · rintro rfl
    rw [mergeAll_cons, mergeApart_cons]
    simp [mergeAll, mergeApart]

end ClassCollapse.Placement
