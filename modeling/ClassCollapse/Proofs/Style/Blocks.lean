import ClassCollapse.Proofs.Naming.Spelling
import ClassCollapse.Proofs.Style.Sheet
import ClassCollapse.Style.RuleBook
import Mathlib.Data.List.Duplicate

/-!
# How often a block stands in a sheet

A block has its name in front of its only opening brace and ends with its only closing brace, if
neither its class list nor its declarations have braces. Then the blocks on the lines of a sheet
stand where they were put and nowhere else, so a block occurs twice in the text exactly if it was put
there twice.
-/

namespace ClassCollapse

open Text

/-- A pattern stands at two positions of a text. -/
def OccursTwice (pattern text : List Char) : Prop :=
  ∃ i j, i < j ∧ pattern <+: text.drop i ∧ pattern <+: text.drop j

def isBrace (c : Char) : Bool :=
  c = '\x7b' || c = '\x7d'

theorem isBrace_eq_true_iff {c : Char} : isBrace c = true ↔ c = '\x7b' ∨ c = '\x7d' := by
  rw [isBrace, Bool.or_eq_true, decide_eq_true_eq, decide_eq_true_eq]

theorem isBrace_eq_false {chars : List Char} (h : chars.any isBrace = false) :
    ∀ c ∈ chars, isBrace c = false :=
  fun c hc => Bool.eq_false_iff.mpr (List.any_eq_false.mp h c hc)

/-- A text of the shape of a block: a dot, a selector without dots, and a body in braces. -/
structure IsBlock (selector body block : List Char) : Prop where
  eq : block = '.' :: (selector ++ '\x7b' :: (body ++ ['\x7d']))
  selector_plain : ∀ c ∈ selector, c ≠ '.' ∧ isBrace c = false
  body_plain : ∀ c ∈ body, isBrace c = false

/-- Where one text is the start of another, both go on alike after the first brace. -/
theorem eq_of_prefix_brace {front front' back back' : List Char} {c c' : Char}
    (hFront : ∀ x ∈ front, isBrace x = false) (hFront' : ∀ x ∈ front', isBrace x = false)
    (hc : isBrace c = true) (hc' : isBrace c' = true)
    (h : front ++ c :: back <+: front' ++ c' :: back') :
    front = front' ∧ c = c' ∧ back <+: back' := by
  induction front generalizing front' with
  | nil =>
    cases front' with
    | nil =>
      obtain ⟨hSame, hRest⟩ := List.cons_prefix_cons.mp h
      exact ⟨rfl, hSame, hRest⟩
    | cons x front' =>
      obtain ⟨rfl, _⟩ := List.cons_prefix_cons.mp h
      rw [hFront' c List.mem_cons_self] at hc
      cases hc
  | cons x front ih =>
    cases front' with
    | nil =>
      obtain ⟨rfl, _⟩ := List.cons_prefix_cons.mp h
      rw [hFront x List.mem_cons_self] at hc'
      cases hc'
    | cons x' front' =>
      obtain ⟨rfl, hRest⟩ := List.cons_prefix_cons.mp h
      obtain ⟨rfl, hSame, hBack⟩ := ih (fun y hy => hFront y (List.mem_cons_of_mem x hy))
        (fun y hy => hFront' y (List.mem_cons_of_mem x hy)) hRest
      exact ⟨rfl, hSame, hBack⟩

namespace IsBlock

variable {selector selector' body body' block block' : List Char}

/-- Blocks at the start of one text are the same. -/
theorem eq_of_prefix (h : IsBlock selector body block) (h' : IsBlock selector' body' block')
    {tail : List Char} (hPrefix : block <+: block' ++ tail) : selector = selector' ∧ block = block' := by
  rw [h.eq, h'.eq, List.cons_append, List.append_assoc, List.cons_append, List.append_assoc] at hPrefix
  obtain ⟨rfl, _, hBody⟩ := eq_of_prefix_brace (fun c hc => (h.selector_plain c hc).2)
    (fun c hc => (h'.selector_plain c hc).2) (by decide) (by decide)
    (List.cons_prefix_cons.mp hPrefix).2
  obtain ⟨rfl, _, _⟩ := eq_of_prefix_brace h.body_plain h'.body_plain (by decide) (by decide) hBody
  exact ⟨rfl, h.eq.trans h'.eq.symm⟩

theorem head?_of_prefix (h : IsBlock selector body block) {text : List Char}
    (hPrefix : block <+: text) : text.head? = some '.' := by
  obtain ⟨rest, rfl⟩ := hPrefix
  rw [h.eq]
  rfl

/-- No block starts within another one, or with what follows it at once. -/
theorem not_prefix_drop (h : IsBlock selector body block) (h' : IsBlock selector' body' block')
    {tail : List Char} (hTail : tail.head? ≠ some '.') {i : Nat} (hi : 0 < i)
    (hLength : i ≤ block'.length) : ¬block <+: block'.drop i ++ tail := by
  intro hPrefix
  have hHead := h.head?_of_prefix hPrefix
  obtain ⟨k, rfl⟩ := Nat.exists_eq_succ_of_ne_zero (Nat.ne_of_gt hi)
  rw [h'.eq, List.drop_succ_cons] at hPrefix hHead
  rcases Nat.lt_trichotomy k selector'.length with hBefore | rfl | hAfter
  · -- In the selector there is no dot.
    rw [List.drop_append_of_le_length hBefore.le, List.drop_eq_getElem_cons hBefore] at hHead
    exact (h'.selector_plain _ (List.getElem_mem hBefore)).1 (Option.some.inj hHead)
  · rw [List.drop_left] at hHead
    exact absurd (Option.some.inj hHead) (by decide)
  · obtain ⟨m, rfl⟩ := Nat.exists_eq_add_of_lt hAfter
    have hDrop : (selector' ++ '\x7b' :: (body' ++ ['\x7d'])).drop (selector'.length + m + 1) =
        (body' ++ ['\x7d']).drop m := by
      rw [Nat.add_assoc, List.drop_length_add_append, List.drop_succ_cons]
    rw [hDrop] at hPrefix hHead
    by_cases hBody : m ≤ body'.length
    · -- In the body the next brace closes, but a block opens one first.
      rw [List.drop_append_of_le_length hBody, List.append_assoc, h.eq, ← List.cons_append] at hPrefix
      have hSelector : ∀ c ∈ '.' :: selector, isBrace c = false := by
        intro c hc
        rcases List.mem_cons.mp hc with rfl | hMore
        · decide
        · exact (h.selector_plain c hMore).2
      obtain ⟨_, hSame, _⟩ := eq_of_prefix_brace hSelector
        (fun c hc => h'.body_plain c (List.mem_of_mem_drop hc)) (by decide) (by decide) hPrefix
      exact absurd hSame (by decide)
    · rw [List.drop_eq_nil_of_le (by simp; omega), List.nil_append] at hHead
      exact hTail hHead

end IsBlock

theorem plain_of_isNameCharacter {c : Char} (h : Naming.isNameCharacter c = true) :
    c ≠ '.' ∧ isBrace c = false := by
  constructor
  · rintro rfl
    exact absurd h (by decide)
  · rw [Bool.eq_false_iff]
    intro hBrace
    rcases isBrace_eq_true_iff.mp hBrace with rfl | rfl <;> exact absurd h (by decide)

theorem plain_selector {name : String} (hName : IsNameText name) :
    ∀ c ∈ (name ++ " ").toList, c ≠ '.' ∧ isBrace c = false := by
  intro c hc
  rw [String.toList_append, List.mem_append] at hc
  rcases hc with hChar | hSpace
  · exact plain_of_isNameCharacter (hName.spelled c hChar)
  · rw [List.mem_singleton.mp hSpace]
    decide

/-- What is written for a rule has the shape of a block. -/
theorem isBlock_formatBlock {name classList css : String} (hName : IsNameText name)
    (hClasses : ∀ c ∈ classList.toList, isBrace c = false)
    (hCss : ∀ c ∈ css.toList, isBrace c = false) :
    IsBlock (name ++ " ").toList
      ("\n  /* generated from: " ++ classList ++ " */\n  " ++ css ++ "\n").toList
      (RuleBook.formatBlock name classList css).toList where
  eq := by simp [RuleBook.formatBlock]
  selector_plain := plain_selector hName
  body_plain := by
    have hFront : "\n  /* generated from: ".toList.any isBrace = false := by decide
    have hMiddle : " */\n  ".toList.any isBrace = false := by decide
    have hEnd : "\n".toList.any isBrace = false := by decide
    intro c hc
    simp only [String.toList_append, List.mem_append] at hc
    rcases hc with (((hc | hc) | hc) | hc) | hc
    · exact isBrace_eq_false hFront c hc
    · exact hClasses c hc
    · exact isBrace_eq_false hMiddle c hc
    · exact hCss c hc
    · exact isBrace_eq_false hEnd c hc

/-- Blocks with other names are other texts. -/
theorem name_eq_of_formatBlock_eq {name name' classList classList' css css' : String}
    (hName : IsNameText name) (hName' : IsNameText name')
    (h : RuleBook.formatBlock name classList css = RuleBook.formatBlock name' classList' css') :
    name = name' := by
  have hText : ∀ name classList css, ∃ rest,
      (RuleBook.formatBlock name classList css).toList =
        '.' :: ((name ++ " ").toList ++ '\x7b' :: rest) := by
    intro name classList css
    exact ⟨_, by simp [RuleBook.formatBlock]; rfl⟩
  obtain ⟨rest, hRest⟩ := hText name classList css
  obtain ⟨rest', hRest'⟩ := hText name' classList' css'
  rw [h, hRest'] at hRest
  have hPrefix : (name' ++ " ").toList ++ '\x7b' :: rest' <+: (name ++ " ").toList ++ '\x7b' :: rest :=
    (List.cons.inj hRest).2 ▸ List.prefix_rfl
  obtain ⟨hSame, _⟩ := eq_of_prefix_brace (fun c hc => (plain_selector hName' c hc).2)
    (fun c hc => (plain_selector hName c hc).2) (by decide) (by decide) hPrefix
  exact (String.append_left_inj " ").mp (String.toList_inj.mp hSame.symm)

/-! ## Sheets of blocks -/

/-- The blocks on lines of their own. -/
def onLines (blocks : List (List Char)) : List Char :=
  ['\n'].intercalate blocks

/-- Whether a text has the shape of a block. -/
def IsBlockText (block : List Char) : Prop :=
  ∃ selector body, IsBlock selector body block

theorem onLines_cons (first : List Char) {rest : List (List Char)} (h : rest ≠ []) :
    onLines (first :: rest) = first ++ '\n' :: onLines rest := by
  obtain ⟨next, more, rfl⟩ := List.exists_cons_of_ne_nil h
  rw [onLines, List.intercalate_cons_cons, List.append_assoc]
  rfl

theorem exists_onLines_eq (first : List Char) (rest : List (List Char)) :
    ∃ tail, onLines (first :: rest) = first ++ tail ∧ tail.head? ≠ some '.' ∧
      ∀ j, tail.drop (1 + j) = (onLines rest).drop j := by
  by_cases hNil : rest = []
  · exact ⟨[], by simp [hNil, onLines], by simp, by simp [hNil, onLines]⟩
  · refine ⟨'\n' :: onLines rest, onLines_cons first hNil, ?_, ?_⟩
    · exact fun hSame => absurd (Option.some.inj hSame) (by decide)
    · intro j
      rw [Nat.add_comm, List.drop_succ_cons]

/-- A block stands on the first line, or on a later one. -/
theorem prefix_drop_onLines_iff {block first : List Char} (h : IsBlockText block)
    (hFirst : IsBlockText first) (rest : List (List Char)) (i : Nat) :
    block <+: (onLines (first :: rest)).drop i ↔ (i = 0 ∧ block = first) ∨
      ∃ j, i = first.length + (1 + j) ∧ block <+: (onLines rest).drop j := by
  obtain ⟨selector, body, hBlock⟩ := h
  obtain ⟨selector', body', hFirst⟩ := hFirst
  obtain ⟨tail, hText, hTail, hRest⟩ := exists_onLines_eq first rest
  rw [hText]
  constructor
  · intro hPrefix
    by_cases hLength : i ≤ first.length
    · rw [List.drop_append_of_le_length hLength] at hPrefix
      rcases Nat.eq_zero_or_pos i with rfl | hi
      · exact .inl ⟨rfl, (hBlock.eq_of_prefix hFirst hPrefix).2⟩
      · exact absurd hPrefix (hBlock.not_prefix_drop hFirst hTail hi hLength)
    · obtain ⟨j, rfl⟩ := Nat.exists_eq_add_of_lt (Nat.lt_of_not_le hLength)
      rw [Nat.add_assoc, Nat.add_comm j, List.drop_length_add_append, hRest] at hPrefix
      exact .inr ⟨j, by omega, hPrefix⟩
  · rintro (⟨rfl, rfl⟩ | ⟨j, rfl, hPrefix⟩)
    · exact List.prefix_append _ _
    · rw [List.drop_length_add_append, hRest]
      exact hPrefix

theorem IsBlockText.ne_nil {block : List Char} (h : IsBlockText block) : block ≠ [] := by
  obtain ⟨selector, body, hBlock⟩ := h
  rw [hBlock.eq]
  exact List.cons_ne_nil _ _

/-- A block starts somewhere in a sheet of blocks exactly if it is one of them. -/
theorem exists_prefix_drop_onLines_iff {block : List Char} (h : IsBlockText block)
    {blocks : List (List Char)} (hBlocks : ∀ b ∈ blocks, IsBlockText b) :
    (∃ i, block <+: (onLines blocks).drop i) ↔ block ∈ blocks := by
  induction blocks with
  | nil => simp [onLines, h.ne_nil]
  | cons first rest ih =>
    have hRest := ih fun b hb => hBlocks b (List.mem_cons_of_mem first hb)
    have hStep := prefix_drop_onLines_iff h (hBlocks first List.mem_cons_self) rest
    rw [List.mem_cons, ← hRest]
    constructor
    · rintro ⟨i, hPrefix⟩
      rcases (hStep i).mp hPrefix with ⟨_, hSame⟩ | ⟨j, _, hLater⟩
      · exact .inl hSame
      · exact .inr ⟨j, hLater⟩
    · rintro (hSame | ⟨j, hLater⟩)
      · exact ⟨0, (hStep 0).mpr (.inl ⟨rfl, hSame⟩)⟩
      · exact ⟨_, (hStep _).mpr (.inr ⟨j, rfl, hLater⟩)⟩

theorem infix_onLines_iff {block : List Char} (h : IsBlockText block) {blocks : List (List Char)}
    (hBlocks : ∀ b ∈ blocks, IsBlockText b) : block <:+: onLines blocks ↔ block ∈ blocks := by
  rw [← exists_prefix_drop_onLines_iff h hBlocks, List.infix_iff_prefix_suffix]
  constructor
  · rintro ⟨text, hPrefix, hSuffix⟩
    rw [List.suffix_iff_eq_drop.mp hSuffix] at hPrefix
    exact ⟨_, hPrefix⟩
  · rintro ⟨i, hPrefix⟩
    exact ⟨_, hPrefix, List.drop_suffix i _⟩

/-- A block occurs twice in a sheet of blocks exactly if it was put there twice. -/
theorem occursTwice_onLines_iff {block : List Char} (h : IsBlockText block)
    {blocks : List (List Char)} (hBlocks : ∀ b ∈ blocks, IsBlockText b) :
    OccursTwice block (onLines blocks) ↔ blocks.Duplicate block := by
  induction blocks with
  | nil =>
    constructor
    · rintro ⟨i, j, _, hPrefix, _⟩
      simp [onLines, h.ne_nil] at hPrefix
    · intro hTwice
      cases hTwice
  | cons first rest ih =>
    have hLater : ∀ b ∈ rest, IsBlockText b := fun b hb => hBlocks b (List.mem_cons_of_mem first hb)
    have hStep := prefix_drop_onLines_iff h (hBlocks first List.mem_cons_self) rest
    rw [List.duplicate_cons_iff, eq_comm, ← ih hLater, ← exists_prefix_drop_onLines_iff h hLater]
    constructor
    · rintro ⟨i, j, hij, hi, hj⟩
      rcases (hStep i).mp hi with ⟨rfl, hSame⟩ | ⟨i', rfl, hi'⟩
      · rcases (hStep j).mp hj with ⟨rfl, _⟩ | ⟨j', _, hj'⟩
        · exact absurd hij (Nat.lt_irrefl 0)
        · exact .inl ⟨hSame, j', hj'⟩
      · rcases (hStep j).mp hj with ⟨rfl, _⟩ | ⟨j', rfl, hj'⟩
        · exact absurd hij (Nat.not_lt_zero _)
        · exact .inr ⟨i', j', by omega, hi', hj'⟩
    · rintro (⟨hSame, j, hj⟩ | ⟨i, j, hij, hi, hj⟩)
      · exact ⟨0, _, by omega, (hStep 0).mpr (.inl ⟨rfl, hSame⟩), (hStep _).mpr (.inr ⟨j, rfl, hj⟩)⟩
      · exact ⟨_, _, by omega, (hStep _).mpr (.inr ⟨i, rfl, hi⟩), (hStep _).mpr (.inr ⟨j, rfl, hj⟩)⟩

end ClassCollapse
