import ClassCollapse.Proofs.Text.Characters
import ClassCollapse.Proofs.Text.Words
import Mathlib.Data.List.Basic
import Mathlib.Data.List.TakeWhile

/-!
# Trimmed texts

A text is trimmed if it neither starts nor ends with a blank. Trimming yields such a text and leaves
it as it is, and trimmed texts with characters stay trimmed when they are joined.
-/

namespace ClassCollapse.Text

/-- No blank stands at either end. -/
structure IsTrimmed (cs : List Char) : Prop where
  head : ∀ c, cs.head? = some c → isBlank c = false
  last : ∀ c, cs.getLast? = some c → isBlank c = false

theorem IsTrimmed.dropWhile_eq {cs : List Char} (h : IsTrimmed cs) :
    cs.dropWhile isBlank = cs := by
  have hNoBlanks : ∀ c ∈ ([] : List Char), isBlank c = true := fun _ hc => nomatch hc
  exact (span_run hNoBlanks h.head).2

theorem IsTrimmed.reverse {cs : List Char} (h : IsTrimmed cs) : IsTrimmed cs.reverse where
  head c hc := h.last c (by rwa [List.head?_reverse] at hc)
  last c hc := h.head c (by rwa [List.getLast?_reverse] at hc)

theorem IsTrimmed.trim_eq {s : String} (h : IsTrimmed s.toList) : trim s = s := by
  rw [trim, dropTrailing, h.dropWhile_eq, h.reverse.dropWhile_eq, List.reverse_reverse,
    String.ofList_toList]

theorem head_dropTrailing {cs : List Char} {c : Char} (h : (dropTrailing cs).head? = some c) :
    cs.head? = some c := by
  rw [dropTrailing, List.head?_reverse] at h
  have hSuffix : (cs.reverse.dropWhile isBlank) <:+ cs.reverse := List.dropWhile_suffix _
  obtain ⟨front, hFront⟩ := hSuffix
  rw [← List.getLast?_reverse, ← hFront, List.getLast?_append, h, Option.some_or]

theorem last_dropTrailing {cs : List Char} {c : Char} (h : (dropTrailing cs).getLast? = some c) :
    isBlank c = false := by
  rw [dropTrailing, List.getLast?_reverse] at h
  have hNot := List.head?_dropWhile_not isBlank cs.reverse
  rw [h] at hNot
  simpa using hNot

theorem isTrimmed_trim (s : String) : IsTrimmed (trim s).toList where
  head c hc := by
    rw [trim, String.toList_ofList] at hc
    have hHead := head_dropTrailing hc
    have hNot := List.head?_dropWhile_not isBlank s.toList
    rw [hHead] at hNot
    simpa using hNot
  last c hc := by
    rw [trim, String.toList_ofList] at hc
    exact last_dropTrailing hc

theorem trim_isEmpty (s : String) : (trim s).isEmpty = isBlankText s := by
  rw [Bool.eq_iff_iff, String.isEmpty_iff, isBlankText, List.all_eq_true,
    ← List.dropWhile_eq_nil_iff]
  constructor
  · intro h
    cases hRest : s.toList.dropWhile isBlank with
    | nil => rfl
    | cons c cs =>
      have hc : isBlank c = false := by
        have hNot := List.head?_dropWhile_not isBlank s.toList
        rw [hRest] at hNot
        simpa using hNot
      have hBlank : ∀ x ∈ (c :: cs).reverse, isBlank x = true := by
        rw [← List.dropWhile_eq_nil_iff, ← List.reverse_eq_nil_iff]
        rw [trim, dropTrailing, hRest] at h
        simpa using congrArg String.toList h
      have hcBlank := hBlank c (List.mem_reverse.mpr List.mem_cons_self)
      rw [hc] at hcBlank
      cases hcBlank
  · intro h
    rw [trim, h]
    rfl

theorem IsTrimmed.isBlankText_eq {s : String} (h : IsTrimmed s.toList) :
    isBlankText s = s.isEmpty := by
  rw [← trim_isEmpty, h.trim_eq]

theorem intercalate_ne_nil {separator : List Char} {l : List (List Char)} (hne : l ≠ [])
    (h : ∀ s ∈ l, s ≠ []) : separator.intercalate l ≠ [] := by
  cases l with
  | nil => exact absurd rfl hne
  | cons s rest =>
    have hs := h s List.mem_cons_self
    cases rest with
    | nil => simpa using hs
    | cons t rest => simp [List.intercalate_cons_cons, hs]

theorem isTrimmed_intercalate (separator : List Char) {l : List (List Char)}
    (hne : ∀ s ∈ l, s ≠ []) (h : ∀ s ∈ l, IsTrimmed s) : IsTrimmed (separator.intercalate l) := by
  induction l with
  | nil => exact ⟨fun c hc => by simp at hc, fun c hc => by simp at hc⟩
  | cons s rest ih =>
    have hs := h s List.mem_cons_self
    have hsne := hne s List.mem_cons_self
    cases rest with
    | nil => simpa using hs
    | cons t rest =>
      have hRest := ih (fun u hu => hne u (List.mem_cons_of_mem _ hu))
        (fun u hu => h u (List.mem_cons_of_mem _ hu))
      have hRestNe : separator.intercalate (t :: rest) ≠ [] :=
        intercalate_ne_nil (List.cons_ne_nil _ _) fun u hu => hne u (List.mem_cons_of_mem _ hu)
      rw [List.intercalate_cons_cons]
      constructor
      · intro c hc
        rw [List.append_assoc, List.head?_append_of_ne_nil _ hsne] at hc
        exact hs.head c hc
      · intro c hc
        rw [List.getLast?_append_of_ne_nil _ hRestNe] at hc
        exact hRest.last c hc

/-! ## Texts of one word -/

theorem wordsOf_blanks_append {front : List Char} (h : ∀ c ∈ front, isBlank c = true)
    (cs : List Char) : wordsOf (front ++ cs) = wordsOf cs := by
  induction front with
  | nil => rfl
  | cons b front ih =>
    rw [List.cons_append, wordsOf_blank (h b List.mem_cons_self)]
    exact ih fun c hc => h c (List.mem_cons_of_mem _ hc)

theorem wordsOf_blanks {cs : List Char} (h : ∀ c ∈ cs, isBlank c = true) : wordsOf cs = [] := by
  have hWords := wordsOf_blanks_append h []
  rwa [List.append_nil] at hWords

theorem isBlank_of_wordsOf_eq_nil {cs : List Char} (h : wordsOf cs = []) :
    ∀ c ∈ cs, isBlank c = true := by
  intro c hc
  cases hBlank : isBlank c with
  | true => rfl
  | false => exact absurd h (wordsOf_ne_nil hc hBlank)

/-- A text with one word is that word between blanks. -/
theorem exists_of_wordsOf_eq_singleton {cs w : List Char} (h : wordsOf cs = [w]) :
    ∃ front back, cs = front ++ w ++ back ∧ (∀ c ∈ front, isBlank c = true) ∧
      ∀ c ∈ back, isBlank c = true := by
  induction cs generalizing w with
  | nil => cases h
  | cons c cs ih =>
    by_cases hc : isBlank c = true
    · rw [wordsOf_blank hc] at h
      obtain ⟨front, back, rfl, hFront, hBack⟩ := ih h
      refine ⟨c :: front, back, rfl, ?_, hBack⟩
      intro x hx
      rcases List.mem_cons.mp hx with rfl | hx
      · exact hc
      · exact hFront x hx
    · have hLetter : isBlank c = false := by simpa using hc
      cases cs with
      | nil =>
        rw [wordsOf_letter hLetter] at h
        cases h
        exact ⟨[], [], rfl, by simp, by simp⟩
      | cons d cs =>
        by_cases hd : isBlank d = true
        · rw [wordsOf_letter_blank hLetter hd, List.cons.injEq] at h
          obtain ⟨rfl, hNone⟩ := h
          rw [← wordsOf_blank hd] at hNone
          exact ⟨[], d :: cs, rfl, by simp, isBlank_of_wordsOf_eq_nil hNone⟩
        · have hNext : isBlank d = false := by simpa using hd
          rw [wordsOf_letter_letter hLetter hNext] at h
          cases hWords : wordsOf (d :: cs) with
          | nil => exact absurd hWords (wordsOf_ne_nil List.mem_cons_self hNext)
          | cons v ws =>
            rw [hWords, extendFirst, List.cons.injEq] at h
            obtain ⟨rfl, rfl⟩ := h
            obtain ⟨front, back, hSplit, hFront, hBack⟩ := ih hWords
            -- The rest starts with a letter, so no blank stands before its word.
            cases front with
            | nil =>
              refine ⟨[], back, ?_, by simp, hBack⟩
              rw [hSplit]
              rfl
            | cons b front =>
              cases hSplit
              exact absurd (hFront d List.mem_cons_self) hd

theorem wordsOf_between {w front back : List Char} (h : IsWord w)
    (hFront : ∀ c ∈ front, isBlank c = true) (hBack : ∀ c ∈ back, isBlank c = true) :
    wordsOf (front ++ w ++ back) = [w] := by
  rw [List.append_assoc, wordsOf_blanks_append hFront]
  cases back with
  | nil => rw [List.append_nil, wordsOf_word h]
  | cons b back =>
    rw [wordsOf_word_append h (hBack b List.mem_cons_self),
      wordsOf_blanks fun c hc => hBack c (List.mem_cons_of_mem _ hc)]

theorem IsWord.isTrimmed {w : List Char} (h : IsWord w) : IsTrimmed w where
  head c hc := h.2 c (List.mem_of_mem_head? hc)
  last c hc := h.2 c (List.mem_of_getLast? hc)

/-- Trimming takes the blanks at both ends away and nothing else. -/
theorem eq_between_trim (s : String) : ∃ front back, s.toList = front ++ (trim s).toList ++ back ∧
    (∀ c ∈ front, isBlank c = true) ∧ ∀ c ∈ back, isBlank c = true := by
  refine ⟨s.toList.takeWhile isBlank,
    ((s.toList.dropWhile isBlank).reverse.takeWhile isBlank).reverse, ?_, ?_, ?_⟩
  · have hBack := congrArg List.reverse
      (List.takeWhile_append_dropWhile (p := isBlank) (l := (s.toList.dropWhile isBlank).reverse))
    rw [List.reverse_append, List.reverse_reverse] at hBack
    rw [trim, dropTrailing, String.toList_ofList, List.append_assoc, hBack,
      List.takeWhile_append_dropWhile]
  · exact fun c hc => List.mem_takeWhile_imp hc
  · exact fun c hc => List.mem_takeWhile_imp (List.mem_reverse.mp hc)

/-- Trimming takes blanks around a trimmed text away. -/
theorem trim_between {w front back : List Char} (hne : w ≠ []) (h : IsTrimmed w)
    (hFront : ∀ c ∈ front, isBlank c = true) (hBack : ∀ c ∈ back, isBlank c = true) :
    trim (.ofList (front ++ w ++ back)) = .ofList w := by
  have hBackReverse : ∀ c ∈ back.reverse, isBlank c = true :=
    fun c hc => hBack c (List.mem_reverse.mp hc)
  have hKept : (w ++ back).dropWhile isBlank = w ++ back := by
    rw [List.dropWhile_append, h.dropWhile_eq]
    cases w with
    | nil => exact absurd rfl hne
    | cons c w => rfl
  rw [trim, String.toList_ofList, List.append_assoc, List.dropWhile_append_of_pos hFront, hKept,
    dropTrailing, List.reverse_append, List.dropWhile_append_of_pos hBackReverse,
    h.reverse.dropWhile_eq, List.reverse_reverse]

theorem words_eq_singleton_iff {s w : String} :
    words s = [w] ↔ trim s = w ∧ IsWord w.toList := by
  constructor
  · intro h
    have hWord : IsWord w.toList := isWord_of_mem_words (h ▸ List.mem_singleton_self w)
    refine ⟨?_, hWord⟩
    obtain ⟨v, hOne, rfl⟩ := List.map_eq_singleton_iff.mp h
    rw [String.toList_ofList] at hWord
    obtain ⟨front, back, hSplit, hFront, hBack⟩ := exists_of_wordsOf_eq_singleton hOne
    rw [← String.ofList_toList (s := s), hSplit]
    exact trim_between hWord.1 hWord.isTrimmed hFront hBack
  · rintro ⟨rfl, hWord⟩
    obtain ⟨front, back, hSplit, hFront, hBack⟩ := eq_between_trim s
    rw [words, hSplit, wordsOf_between hWord hFront hBack, List.map_singleton, String.ofList_toList]

end ClassCollapse.Text
