import ClassCollapse.Proofs.Style.Declarations
import ClassCollapse.CanonicalKey

/-!
# Compiling a class list and compiling its words

A class list compiles to the lines that its distinct words compile to, in the order of their first
appearance and without the empty ones. So a list compiles to nothing exactly if each of its words
does, and lists with the same words compile to the same lines in some order.
-/

namespace ClassCollapse.UtilityTable

open Text

/-- What the distinct words of a class list compile to, in the order of their first appearance and
without the words that compile to nothing. -/
def compiledWords (t : UtilityTable) (classList : String) : List String :=
  ((words classList).eraseDups.map t.compile).filter fun css => !css.isEmpty

theorem compile_word {t : UtilityTable} {word : String} (h : IsWord word.toList) :
    t.compile word = (t.declaration? word).getD "" := by
  rw [compile_eq_join, declared_word h]
  cases t.declaration? word <;> rfl

/-- A word compiles to its declarations, trimmed and with a semicolon at the end. -/
theorem compile_word_eq {t : UtilityTable} {word : String} (h : IsWord word.toList) :
    t.compile word = if t.recognizes word then (t.styleOf? word).getD "" else "" := by
  rw [compile_word h]
  cases hWord : t.recognizes word with
  | true => rw [if_pos rfl, declaration?_of_recognizes hWord]
  | false =>
    rw [← isSome_declaration?, Option.isSome_eq_false_iff, Option.isNone_iff_eq_none] at hWord
    rw [hWord]
    rfl

theorem compiledWords_eq_declared (t : UtilityTable) (classList : String) :
    t.compiledWords classList = t.declared classList := by
  have hWords : ∀ word ∈ (words classList).eraseDups, IsWord word.toList :=
    fun word hWord => isWord_of_mem_words (List.mem_eraseDups.mp hWord)
  rw [compiledWords, declared]
  generalize (words classList).eraseDups = l at hWords
  induction l with
  | nil => rfl
  | cons word l ih =>
    obtain ⟨hWord, hRest⟩ := List.forall_mem_cons.mp hWords
    rw [List.map_cons, compile_word hWord]
    cases hFound : t.declaration? word with
    | none =>
      rw [List.filterMap_cons_none hFound, Option.getD_none, List.filter_cons_of_neg (by simp)]
      exact ih hRest
    | some d =>
      have hSome : d.isEmpty = false := by
        rw [← Bool.not_eq_true, String.isEmpty_iff, ← String.toList_eq_nil_iff]
        exact (declaration?_shape hFound).1
      rw [List.filterMap_cons_some hFound, Option.getD_some,
        List.filter_cons_of_pos (by rw [hSome]; rfl), ih hRest]

theorem isBlankText_compile_iff (t : UtilityTable) (classList : String) :
    isBlankText (t.compile classList) = true ↔
      ∀ word ∈ words classList, isBlankText (t.compile word) = true := by
  rw [(isTrimmed_compile t classList).isBlankText_eq, compile_isEmpty_iff, declared_eq_nil_iff]
  refine forall₂_congr fun word hWord => ?_
  rw [isBlankText_compile_word (isWord_of_mem_words hWord), Bool.not_eq_true']

theorem compiledWords_perm (t : UtilityTable) {s s' : String} (h : (words s).Perm (words s')) :
    (t.compiledWords s).Perm (t.compiledWords s') :=
  ((eraseDups_perm h).map t.compile).filter _

/-- A class list compiles to what its distinct words compile to, each on its line and in the order
of first appearance, without the words that compile to nothing; and a word compiles to its
declarations, trimmed and with a semicolon at the end, unless they are blank or there are none. The
list compiles to something blank exactly if each of its words does. Lists with the same key, where
the order of words does not matter, compile to the same lines in some order. -/
theorem compile_eq_join_compiledWords (t : UtilityTable) (classList : String) :
    t.compile classList = join "\n  " (t.compiledWords classList) ∧
    (∀ word ∈ words classList,
      t.compile word = if t.recognizes word then (t.styleOf? word).getD "" else "") ∧
    (isBlankText (t.compile classList) = true ↔
      ∀ word ∈ words classList, isBlankText (t.compile word) = true) ∧
    ∀ other, CanonicalKey.ofClassList false other = .ofClassList false classList →
      t.compile other = join "\n  " (t.compiledWords other) ∧
      (t.compiledWords other).Perm (t.compiledWords classList) := by
  have hJoin : ∀ s, t.compile s = join "\n  " (t.compiledWords s) := by
    intro s
    rw [compile_eq_join, compiledWords_eq_declared]
  refine ⟨hJoin classList, ?_, t.isBlankText_compile_iff classList, ?_⟩
  · intro word hWord
    exact compile_word_eq (isWord_of_mem_words hWord)
  · intro other hKey
    exact ⟨hJoin other, t.compiledWords_perm (CanonicalKey.words_perm_of_key_eq hKey)⟩

end ClassCollapse.UtilityTable
