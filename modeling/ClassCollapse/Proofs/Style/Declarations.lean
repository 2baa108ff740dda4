import ClassCollapse.Proofs.Distinct
import ClassCollapse.Proofs.Text.Trim
import ClassCollapse.Style.UtilityTable

/-!
# Declarations of a class list

A compiled class list is the list of the declarations of its distinct recognized words. Each of them
is trimmed and ends with a semicolon, so compiling a list and compiling its words one by one agree
on which words are recognized.
-/

namespace ClassCollapse.UtilityTable

open Text

/-- Whether the table has declarations for a word that are not blank. -/
def recognizes (t : UtilityTable) (word : String) : Bool :=
  (t.get? word).any fun css => !isBlankText css

/-- The declarations of the distinct recognized words of a class list. -/
def declared (t : UtilityTable) (classList : String) : List String :=
  (words classList).eraseDups.filterMap t.declaration?

theorem declaration?_eq_some_iff (t : UtilityTable) (word d : String) :
    t.declaration? word = some d ↔
      ∃ css, t.get? word = some css ∧ isBlankText css = false ∧ d = terminated (trim css) := by
  rw [declaration?]
  cases hGet : t.get? word with
  | none => simp
  | some css =>
    simp only [trim_isEmpty]
    cases hBlank : isBlankText css with
    | true => simp [hBlank]
    | false =>
      simp only [Bool.false_eq_true, if_false, Option.some.injEq, exists_eq_left', hBlank,
        true_and]
      exact eq_comm

theorem isSome_declaration? (t : UtilityTable) (word : String) :
    (t.declaration? word).isSome = t.recognizes word := by
  rw [Bool.eq_iff_iff, Option.isSome_iff_exists, recognizes, Option.any_eq_true]
  simp only [declaration?_eq_some_iff, Bool.not_eq_true']
  constructor
  · rintro ⟨_, css, hGet, hBlank, _⟩
    exact ⟨css, hGet, hBlank⟩
  · rintro ⟨css, hGet, hBlank⟩
    exact ⟨_, css, hGet, hBlank, rfl⟩

theorem terminated_ne_nil {css : String} (h : css.toList ≠ []) : (terminated css).toList ≠ [] := by
  rw [terminated]
  split
  · exact h
  · simp

theorem terminated_last (css : String) : (terminated css).toList.getLast? = some ';' := by
  rw [terminated]
  split
  next h =>
    rw [endsWith, List.isSuffixOf_iff_suffix] at h
    obtain ⟨front, hFront⟩ := h
    rw [← hFront, List.getLast?_append]
    rfl
  next => rw [String.toList_append, List.getLast?_append]; rfl

theorem isTrimmed_terminated {css : String} (hne : css.toList ≠ []) (h : IsTrimmed css.toList) :
    IsTrimmed (terminated css).toList where
  head c hc := by
    rw [terminated] at hc
    split at hc
    · exact h.head c hc
    · rw [String.toList_append, List.head?_append_of_ne_nil _ hne] at hc
      exact h.head c hc
  last c hc := by
    rw [terminated_last, Option.some.injEq] at hc
    subst hc
    decide

theorem declaration?_shape {t : UtilityTable} {word d : String}
    (h : t.declaration? word = some d) : d.toList ≠ [] ∧ IsTrimmed d.toList := by
  obtain ⟨css, _, hBlank, hDeclaration⟩ := (declaration?_eq_some_iff t word d).mp h
  have hne : (trim css).toList ≠ [] := by
    rw [← trim_isEmpty] at hBlank
    intro hNil
    rw [String.toList_eq_nil_iff.mp hNil] at hBlank
    cases hBlank
  rw [hDeclaration]
  exact ⟨terminated_ne_nil hne, isTrimmed_terminated hne (isTrimmed_trim css)⟩

theorem compile_eq_join (t : UtilityTable) (classList : String) :
    t.compile classList = join "\n  " (t.declared classList) := rfl

theorem shape_of_mem_declared {t : UtilityTable} {classList d : String}
    (h : d ∈ t.declared classList) : d.toList ≠ [] ∧ IsTrimmed d.toList := by
  obtain ⟨word, _, hWord⟩ := List.mem_filterMap.mp h
  exact declaration?_shape hWord

theorem isTrimmed_compile (t : UtilityTable) (classList : String) :
    IsTrimmed (t.compile classList).toList := by
  rw [compile_eq_join, toList_join]
  apply isTrimmed_intercalate
  · intro s hs
    obtain ⟨d, hd, rfl⟩ := List.mem_map.mp hs
    exact (shape_of_mem_declared hd).1
  · intro s hs
    obtain ⟨d, hd, rfl⟩ := List.mem_map.mp hs
    exact (shape_of_mem_declared hd).2

/-- A compiled class list has no blanks at its ends to trim. -/
@[simp] theorem trim_compile (t : UtilityTable) (classList : String) :
    trim (t.compile classList) = t.compile classList :=
  (isTrimmed_compile t classList).trim_eq

theorem compile_isEmpty_iff (t : UtilityTable) (classList : String) :
    (t.compile classList).isEmpty = true ↔ t.declared classList = [] := by
  rw [String.isEmpty_iff, ← String.toList_eq_nil_iff, compile_eq_join, toList_join]
  constructor
  · intro h
    by_contra hne
    refine intercalate_ne_nil (l := (t.declared classList).map String.toList) ?_ ?_ h
    · simpa using hne
    · intro s hs
      obtain ⟨d, hd, rfl⟩ := List.mem_map.mp hs
      exact (shape_of_mem_declared hd).1
  · intro h
    rw [h]
    rfl

theorem declared_eq_nil_iff (t : UtilityTable) (classList : String) :
    t.declared classList = [] ↔ ∀ word ∈ words classList, t.recognizes word = false := by
  rw [declared, List.filterMap_eq_nil_iff]
  simp only [List.mem_eraseDups, ← isSome_declaration?, Option.isSome_eq_false_iff,
    Option.isNone_iff_eq_none]

theorem declared_word {t : UtilityTable} {word : String} (h : IsWord word.toList) :
    t.declared word = (t.declaration? word).toList := by
  rw [declared, words_word h, List.eraseDups_cons, List.filter_nil, List.eraseDups_nil]
  cases hWord : t.declaration? word with
  | none => rw [List.filterMap_cons_none hWord]; rfl
  | some d => rw [List.filterMap_cons_some hWord]; rfl

/-- A single word compiles to something that is not blank if and only if the table recognizes it. -/
theorem isBlankText_compile_word {t : UtilityTable} {word : String} (h : IsWord word.toList) :
    isBlankText (t.compile word) = !t.recognizes word := by
  rw [(isTrimmed_compile t word).isBlankText_eq, ← isSome_declaration?, Bool.eq_iff_iff,
    compile_isEmpty_iff, declared_word h]
  cases t.declaration? word <;> simp

/-- The words of a class list that the table has declarations for. -/
def recognized (t : UtilityTable) (classList : String) : List String :=
  (words classList).filter t.recognizes

/-- The other words of a class list. -/
def kept (t : UtilityTable) (classList : String) : List String :=
  (words classList).filter fun word => !t.recognizes word

/-- The declarations of a word as a rule has them: trimmed, and with a semicolon at the end. -/
def styleOf? (t : UtilityTable) (word : String) : Option String :=
  (t.get? word).map fun css =>
    if (trim css).toList.getLast? = some ';' then trim css else trim css ++ ";"

theorem terminated_eq (css : String) :
    terminated css = if css.toList.getLast? = some ';' then css else css ++ ";" := by
  have hSemicolon : ";".toList = [';'] := rfl
  have h : endsWith css ";" = true ↔ css.toList.getLast? = some ';' := by
    rw [endsWith, List.isSuffixOf_iff_suffix, hSemicolon,
      List.singleton_suffix_iff_getLast?_eq_some]
  rw [terminated]
  by_cases hEnds : endsWith css ";" = true
  · rw [if_pos hEnds, if_pos (h.mp hEnds)]
  · rw [if_neg hEnds, if_neg fun hLast => hEnds (h.mpr hLast)]

theorem declaration?_of_recognizes {t : UtilityTable} {word : String}
    (h : t.recognizes word = true) : t.declaration? word = t.styleOf? word := by
  rw [recognizes, Option.any_eq_true] at h
  obtain ⟨css, hGet, hBlank⟩ := h
  have hText : isBlankText css = false := by simpa using hBlank
  rw [(declaration?_eq_some_iff t word _).mpr ⟨css, hGet, hText, rfl⟩, styleOf?, hGet,
    Option.map_some, terminated_eq]

/-- A rule has the declarations of each distinct recognized word, in order of first appearance. -/
theorem map_some_declared (t : UtilityTable) (classList : String) :
    (t.declared classList).map some = (t.recognized classList).eraseDups.map t.styleOf? := by
  rw [declared, recognized, eraseDups_filter]
  induction (words classList).eraseDups with
  | nil => rfl
  | cons word rest ih =>
    rw [List.filterMap_cons, List.filter_cons]
    cases hWord : t.recognizes word with
    | true =>
      obtain ⟨d, hd⟩ := Option.isSome_iff_exists.mp ((t.isSome_declaration? word).trans hWord)
      rw [hd, if_pos rfl, List.map_cons, List.map_cons, ih, ← declaration?_of_recognizes hWord, hd]
    | false =>
      have hNone := (t.isSome_declaration? word).trans hWord
      rw [Option.isSome_eq_false_iff, Option.isNone_iff_eq_none] at hNone
      rw [hNone]
      exact ih

theorem declared_eq_nil_iff_recognized (t : UtilityTable) (classList : String) :
    t.declared classList = [] ↔ t.recognized classList = [] := by
  rw [declared_eq_nil_iff, recognized, List.filter_eq_nil_iff]
  simp only [Bool.not_eq_true]

theorem recognized_perm (t : UtilityTable) {s s' : String} (h : (words s).Perm (words s')) :
    (t.recognized s).Perm (t.recognized s') :=
  h.filter _

end ClassCollapse.UtilityTable
