import ClassCollapse.Proofs.Text.Words
import Mathlib.Data.List.Sort

/-!
# Canonical keys and multisets of words

Where the order of words does not matter, the key of a class list stands for its words with their
multiplicity and for nothing else: neither their order nor the blanks between them make a
difference, and every other difference does. The text of such a key is a class list with this key.
-/

namespace ClassCollapse.CanonicalKey

theorem pairwise_sortedWords (s : String) : (sortedWords s).Pairwise (· ≤ ·) := by
  rw [sortedWords]
  exact List.pairwise_mergeSort' (· ≤ ·) (Text.words s)

/-- There is one way to put words in ascending order. -/
theorem sortedWords_eq_of_perm {s t : String} (h : (Text.words s).Perm (Text.words t)) :
    sortedWords s = sortedWords t := by
  have hPerm : (sortedWords s).Perm (sortedWords t) :=
    (sortedWords_perm s).trans (h.trans (sortedWords_perm t).symm)
  exact hPerm.eq_of_pairwise' (pairwise_sortedWords s) (pairwise_sortedWords t)

/-- Where the order of words does not matter, class lists have the same key exactly if they have
the same words equally often. The text of a key has this key again, whether or not the order of its
words matters. -/
theorem ofClassList_eq_iff (s t : String) :
    (ofClassList false s = ofClassList false t ↔ (Text.words s).Perm (Text.words t)) ∧
    ∀ orderMatters, ofClassList orderMatters (ofClassList false s).text = ofClassList false s := by
  have hKey : ∀ s, ofClassList false s = ⟨Text.join " " (sortedWords s)⟩ := fun _ => rfl
  refine ⟨⟨words_perm_of_key_eq, ?_⟩, ?_⟩
  · intro h
    rw [hKey, hKey, sortedWords_eq_of_perm h]
  · intro orderMatters
    cases orderMatters with
    | true => rfl
    | false =>
      have hWords : (Text.words (ofClassList false s).text).Perm (Text.words s) := by
        rw [words_key]
        exact sortedWords_perm s
      rw [hKey, sortedWords_eq_of_perm hWords, ← hKey]

end ClassCollapse.CanonicalKey
