import ClassCollapse.CanonicalKey

/-!
# Words and the texts that are joined from them

The words of a text are not empty and hold no blank. A text that is joined from such words with
single spaces has exactly these words, so joining loses nothing. A trimmed text neither starts nor
ends with a blank.
-/

namespace ClassCollapse.Text

/-- A longest run of characters that are not blank has at least one character. -/
def IsWord (w : List Char) : Prop :=
  w ≠ [] ∧ ∀ c ∈ w, isBlank c = false

theorem wordsOf_blank {c : Char} (hc : isBlank c = true) (cs : List Char) :
    wordsOf (c :: cs) = wordsOf cs := by
  rw [wordsOf.eq_def]
  simp only [if_pos hc]

theorem wordsOf_letter_blank {c d : Char} (hc : isBlank c = false) (hd : isBlank d = true)
    (cs : List Char) : wordsOf (c :: d :: cs) = [c] :: wordsOf cs := by
  rw [wordsOf, if_neg (by simp [hc])]
  simp only [if_pos hd, wordsOf_blank hd]

theorem wordsOf_letter_letter {c d : Char} (hc : isBlank c = false) (hd : isBlank d = false)
    (cs : List Char) : wordsOf (c :: d :: cs) = extendFirst c (wordsOf (d :: cs)) := by
  rw [wordsOf, if_neg (by simp [hc])]
  simp only [hd, Bool.false_eq_true, if_false]

theorem wordsOf_letter {c : Char} (hc : isBlank c = false) : wordsOf [c] = [[c]] := by
  simp [wordsOf, hc]

theorem IsWord.tail {c d : Char} {w : List Char} (h : IsWord (c :: d :: w)) : IsWord (d :: w) :=
  ⟨List.cons_ne_nil _ _, fun x hx => h.2 x (List.mem_cons_of_mem _ hx)⟩

theorem IsWord.cons {c : Char} {w : List Char} (hc : isBlank c = false) (h : IsWord w) :
    IsWord (c :: w) := by
  refine ⟨List.cons_ne_nil _ _, fun x hx => ?_⟩
  rcases List.mem_cons.mp hx with rfl | hx
  · exact hc
  · exact h.2 x hx

theorem isWord_singleton {c : Char} (hc : isBlank c = false) : IsWord [c] := by
  refine ⟨List.cons_ne_nil _ _, fun x hx => ?_⟩
  rw [List.mem_singleton.mp hx]
  exact hc

theorem wordsOf_word {w : List Char} (h : IsWord w) : wordsOf w = [w] := by
  induction w with
  | nil => exact absurd rfl h.1
  | cons c w ih =>
    have hc := h.2 c List.mem_cons_self
    cases w with
    | nil => exact wordsOf_letter hc
    | cons d w =>
      have hd := h.2 d (List.mem_cons_of_mem _ List.mem_cons_self)
      rw [wordsOf_letter_letter hc hd, ih h.tail, extendFirst]

theorem wordsOf_word_append {w : List Char} (h : IsWord w) {b : Char} (hb : isBlank b = true)
    (cs : List Char) : wordsOf (w ++ b :: cs) = w :: wordsOf cs := by
  induction w with
  | nil => exact absurd rfl h.1
  | cons c w ih =>
    have hc := h.2 c List.mem_cons_self
    cases w with
    | nil => exact wordsOf_letter_blank hc hb cs
    | cons d w =>
      have hd := h.2 d (List.mem_cons_of_mem _ List.mem_cons_self)
      rw [List.cons_append, List.cons_append, wordsOf_letter_letter hc hd,
        ← List.cons_append, ih h.tail, extendFirst]

theorem extendFirst_isWord {c : Char} (hc : isBlank c = false) {ws : List (List Char)}
    (h : ∀ w ∈ ws, IsWord w) : ∀ w ∈ extendFirst c ws, IsWord w := by
  cases ws with
  | nil =>
    intro w hw
    rw [List.mem_singleton.mp hw]
    exact isWord_singleton hc
  | cons v ws =>
    intro w hw
    rcases List.mem_cons.mp hw with rfl | hw
    · exact (h v List.mem_cons_self).cons hc
    · exact h w (List.mem_cons_of_mem _ hw)

theorem isWord_of_mem_wordsOf {cs w : List Char} (hw : w ∈ wordsOf cs) : IsWord w := by
  induction cs generalizing w with
  | nil => cases hw
  | cons c cs ih =>
    by_cases hc : isBlank c = true
    · rw [wordsOf_blank hc] at hw
      exact ih hw
    · have hc : isBlank c = false := by simpa using hc
      cases cs with
      | nil =>
        rw [wordsOf_letter hc, List.mem_singleton] at hw
        exact hw ▸ isWord_singleton hc
      | cons d cs =>
        by_cases hd : isBlank d = true
        · rw [wordsOf_letter_blank hc hd] at hw
          rcases List.mem_cons.mp hw with rfl | hw
          · exact isWord_singleton hc
          · exact ih (by rwa [wordsOf_blank hd])
        · rw [wordsOf_letter_letter hc (by simpa using hd)] at hw
          exact extendFirst_isWord hc (fun w hw => ih hw) w hw

theorem isWord_of_mem_words {s w : String} (hw : w ∈ words s) : IsWord w.toList := by
  obtain ⟨cs, hcs, rfl⟩ := List.mem_map.mp hw
  rw [String.toList_ofList]
  exact isWord_of_mem_wordsOf hcs

theorem mem_of_mem_wordsOf {cs w : List Char} (hw : w ∈ wordsOf cs) {c : Char} (hc : c ∈ w) :
    c ∈ cs := by
  induction cs generalizing w with
  | nil => cases hw
  | cons d cs ih =>
    by_cases hBlank : isBlank d = true
    · rw [wordsOf_blank hBlank] at hw
      exact List.mem_cons_of_mem d (ih hw hc)
    · have hLetter : isBlank d = false := by simpa using hBlank
      cases cs with
      | nil =>
        rw [wordsOf_letter hLetter, List.mem_singleton] at hw
        exact hw ▸ hc
      | cons e cs =>
        by_cases hNext : isBlank e = true
        · rw [wordsOf_letter_blank hLetter hNext] at hw
          rcases List.mem_cons.mp hw with rfl | hMore
          · rw [List.mem_singleton.mp hc]
            exact List.mem_cons_self
          · rw [← wordsOf_blank hNext] at hMore
            exact List.mem_cons_of_mem d (ih hMore hc)
        · rw [wordsOf_letter_letter hLetter (by simpa using hNext)] at hw
          cases hWords : wordsOf (e :: cs) with
          | nil =>
            rw [hWords, extendFirst, List.mem_singleton] at hw
            rw [hw, List.mem_singleton] at hc
            exact hc ▸ List.mem_cons_self
          | cons v ws =>
            rw [hWords] at ih
            rw [hWords, extendFirst] at hw
            rcases List.mem_cons.mp hw with rfl | hMore
            · rcases List.mem_cons.mp hc with rfl | hv
              · exact List.mem_cons_self
              · exact List.mem_cons_of_mem d (ih List.mem_cons_self hv)
            · exact List.mem_cons_of_mem d (ih (List.mem_cons_of_mem v hMore) hc)

theorem mem_of_mem_words {s w : String} (hw : w ∈ words s) {c : Char} (hc : c ∈ w.toList) :
    c ∈ s.toList := by
  obtain ⟨cs, hcs, rfl⟩ := List.mem_map.mp hw
  rw [String.toList_ofList] at hc
  exact mem_of_mem_wordsOf hcs hc

theorem wordsOf_ne_nil {cs : List Char} {c : Char} (hc : c ∈ cs) (hLetter : isBlank c = false) :
    wordsOf cs ≠ [] := by
  induction cs with
  | nil => cases hc
  | cons d cs ih =>
    by_cases hBlank : isBlank d = true
    · rw [wordsOf_blank hBlank]
      rcases List.mem_cons.mp hc with rfl | hMore
      · rw [hLetter] at hBlank
        cases hBlank
      · exact ih hMore
    · have hFirst : isBlank d = false := by simpa using hBlank
      cases cs with
      | nil =>
        rw [wordsOf_letter hFirst]
        exact List.cons_ne_nil _ _
      | cons e cs =>
        by_cases hNext : isBlank e = true
        · rw [wordsOf_letter_blank hFirst hNext]
          exact List.cons_ne_nil _ _
        · rw [wordsOf_letter_letter hFirst (by simpa using hNext)]
          cases wordsOf (e :: cs) with
          | nil => exact List.cons_ne_nil _ _
          | cons w ws => exact List.cons_ne_nil _ _

theorem words_word {w : String} (h : IsWord w.toList) : words w = [w] := by
  simp [words, wordsOf_word h]

/-! ## Joining -/

theorem toList_join (separator : String) (l : List String) :
    (join separator l).toList = separator.toList.intercalate (l.map String.toList) := by
  induction l with
  | nil => rfl
  | cons s rest ih =>
    cases rest with
    | nil => simp [join, List.intercalate]
    | cons t rest =>
      rw [join, String.toList_append, String.toList_append, ih, List.map_cons, List.map_cons,
        List.map_cons, List.intercalate_cons_cons]

theorem join_append (separator : String) {front back : List String} (hFront : front ≠ [])
    (hBack : back ≠ []) :
    join separator (front ++ back) = join separator front ++ separator ++ join separator back := by
  induction front with
  | nil => exact absurd rfl hFront
  | cons s front ih =>
    cases front with
    | nil =>
      obtain ⟨t, rest, rfl⟩ := List.exists_cons_of_ne_nil hBack
      rfl
    | cons t front =>
      rw [List.cons_append, List.cons_append, join, ← List.cons_append, ih (List.cons_ne_nil _ _),
        join]
      simp only [String.append_assoc]

theorem mem_join {separator : String} {l : List String} {c : Char}
    (hc : c ∈ (join separator l).toList) :
    c ∈ separator.toList ∨ ∃ s ∈ l, c ∈ s.toList := by
  induction l with
  | nil => cases hc
  | cons s rest ih =>
    cases rest with
    | nil => exact .inr ⟨s, List.mem_cons_self, hc⟩
    | cons t rest =>
      rw [join, String.toList_append, String.toList_append, List.mem_append, List.mem_append] at hc
      rcases hc with (hFirst | hSeparator) | hRest
      · exact .inr ⟨s, List.mem_cons_self, hFirst⟩
      · exact .inl hSeparator
      · refine (ih hRest).imp_right ?_
        rintro ⟨u, hu, hMem⟩
        exact ⟨u, List.mem_cons_of_mem s hu, hMem⟩

theorem mem_join_of_mem {separator : String} {l : List String} {s : String} (hs : s ∈ l) {c : Char}
    (hc : c ∈ s.toList) : c ∈ (join separator l).toList := by
  induction l with
  | nil => cases hs
  | cons t rest ih =>
    cases rest with
    | nil =>
      rw [List.mem_singleton] at hs
      exact hs ▸ hc
    | cons u rest =>
      rw [join, String.toList_append, String.toList_append, List.mem_append, List.mem_append]
      rcases List.mem_cons.mp hs with rfl | hMore
      · exact .inl (.inl hc)
      · exact .inr (ih hMore)

theorem wordsOf_spaced {ws : List (List Char)} (h : ∀ w ∈ ws, IsWord w) :
    wordsOf ([' '].intercalate ws) = ws := by
  induction ws with
  | nil => rfl
  | cons w ws ih =>
    have hw := h w List.mem_cons_self
    cases ws with
    | nil => simpa [List.intercalate] using wordsOf_word hw
    | cons v ws =>
      have hrest := ih fun u hu => h u (List.mem_cons_of_mem _ hu)
      have hspace : isBlank ' ' = true := by decide
      rw [List.intercalate_cons_cons, List.append_assoc, List.singleton_append,
        wordsOf_word_append hw hspace, hrest]

/-- A text joined from words has these words. -/
theorem words_join {ws : List String} (h : ∀ w ∈ ws, IsWord w.toList) :
    words (join " " ws) = ws := by
  have hspaced : wordsOf ([' '].intercalate (ws.map String.toList)) = ws.map String.toList := by
    apply wordsOf_spaced
    intro w hw
    obtain ⟨s, hs, rfl⟩ := List.mem_map.mp hw
    exact h s hs
  rw [words, toList_join, show (" " : String).toList = [' '] from rfl, hspaced, List.map_map]
  exact List.map_id'' (fun s => String.ofList_toList) ws

end ClassCollapse.Text

namespace ClassCollapse.CanonicalKey

theorem sortedWords_perm (s : String) : (sortedWords s).Perm (Text.words s) :=
  List.mergeSort_perm _ _

theorem words_key (s : String) : Text.words (ofClassList false s).text = sortedWords s := by
  apply Text.words_join
  intro w hw
  exact Text.isWord_of_mem_words ((sortedWords_perm s).mem_iff.mp hw)

/-- Where the order of words does not matter, lists with one key have the same words equally
often. -/
theorem words_perm_of_key_eq {s t : String} (h : ofClassList false s = ofClassList false t) :
    (Text.words s).Perm (Text.words t) := by
  have hSorted : sortedWords s = sortedWords t := by
    rw [← words_key s, ← words_key t, h]
  exact (sortedWords_perm s).symm.trans (hSorted ▸ sortedWords_perm t)

theorem eq_of_key_eq {s t : String} (h : ofClassList true s = ofClassList true t) : s = t :=
  congrArg CanonicalKey.text h

/-- Whether or not the order of words matters, lists with one key have the same words equally
often. -/
theorem words_perm_of_same_key {orderMatters : Bool} {s t : String}
    (h : ofClassList orderMatters s = ofClassList orderMatters t) :
    (Text.words s).Perm (Text.words t) := by
  cases orderMatters with
  | true => rw [eq_of_key_eq h]
  | false => exact words_perm_of_key_eq h

end ClassCollapse.CanonicalKey
