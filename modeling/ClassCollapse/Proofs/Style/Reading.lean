import ClassCollapse.Proofs.Style.Blocks
import ClassCollapse.Proofs.Style.Comment
import ClassCollapse.Proofs.Style.Declarations

/-!
# Reading rules from a sheet

A sheet is read by taking its comments out and cutting the rest at the braces. Rules on lines of
their own are read as they were written, each of them once, exactly if nothing but blanks of their
class lists stands outside of the comments.
-/

namespace ClassCollapse

open Text

/-! ## Reading -/

/-- What of a text stands outside of comments, where the text starts within one or not. A comment
that is not closed goes on to the end. -/
def uncommented : Bool → List Char → List Char
  | _, [] => []
  | false, '/' :: '*' :: cs => uncommented true cs
  | false, c :: cs => c :: uncommented false cs
  | true, '*' :: '/' :: cs => uncommented false cs
  | true, _ :: cs => uncommented true cs

/-- A rule as it is read. -/
structure ReadRule where
  selector : String
  css : String
deriving DecidableEq

/-- Reads rules from a text without comments, given what was read so far of a rule: the selector in
front of the last brace, if that was an opening one, and what came since. There is no result if a
brace is out of place or a rule is not finished. -/
def readRules? (selector? : Option (List Char)) (piece : List Char) :
    List Char → Option (List ReadRule)
  | [] => if selector?.isNone && piece.all isBlank then some [] else none
  | c :: cs =>
    if c = '\x7b' then if selector?.isSome then none else readRules? (some piece) [] cs
    else if c = '\x7d' then selector?.bind fun selector =>
      (readRules? none [] cs).map (⟨trim (.ofList selector), trim (.ofList piece)⟩ :: ·)
    else readRules? selector? (piece ++ [c]) cs

def readSheet? (sheet : String) : Option (List ReadRule) :=
  readRules? none [] (uncommented false sheet.toList)

/-! ## Comments -/

theorem exists_cons_of_append_cons {c d : Char} {front rest more : List Char} (hNot : d ≠ c)
    (h : front ++ d :: rest = c :: more) : ∃ tail, front = c :: tail := by
  cases front with
  | nil => exact absurd (List.cons.inj h).1 hNot
  | cons first tail =>
    obtain ⟨rfl, -⟩ := List.cons.inj h
    exact ⟨tail, rfl⟩

theorem uncommented_outside {c : Char} {cs : List Char}
    (hOpens : ∀ more, c = '/' → cs = '*' :: more → False) :
    uncommented false (c :: cs) = c :: uncommented false cs :=
  uncommented.eq_3 c cs hOpens

theorem uncommented_inside {c : Char} {cs : List Char}
    (hCloses : ∀ more, c = '*' → cs = '/' :: more → False) :
    uncommented true (c :: cs) = uncommented true cs :=
  uncommented.eq_5 c cs hCloses

/-- A text in which no comment starts is kept. -/
theorem uncommented_append_cons {front : List Char} (hFront : ¬ "/*".toList <:+: front) {c : Char}
    (hc : c ≠ '*') (rest : List Char) :
    uncommented false (front ++ c :: rest) = front ++ uncommented false (c :: rest) := by
  induction front with
  | nil => rfl
  | cons first front ih =>
    have hOpens : ∀ more, first = '/' → front ++ c :: rest = '*' :: more → False := by
      rintro more rfl hStar
      obtain ⟨tail, rfl⟩ := exists_cons_of_append_cons hc hStar
      exact hFront ⟨[], tail, rfl⟩
    rw [List.cons_append, uncommented_outside hOpens, ih fun h => hFront (List.infix_cons h)]
    rfl

/-- A comment goes on over a text in which it does not end. -/
theorem uncommented_within {front : List Char} (hFront : ¬ "*/".toList <:+: front) {c : Char}
    (hc : c ≠ '/') (rest : List Char) :
    uncommented true (front ++ c :: rest) = uncommented true (c :: rest) := by
  induction front with
  | nil => rfl
  | cons first front ih =>
    have hCloses : ∀ more, first = '*' → front ++ c :: rest = '/' :: more → False := by
      rintro more rfl hSlash
      obtain ⟨tail, rfl⟩ := exists_cons_of_append_cons hc hSlash
      exact hFront ⟨[], tail, rfl⟩
    rw [List.cons_append, uncommented_inside hCloses, ih fun h => hFront (List.infix_cons h)]

/-- After the end of a comment with a blank in front no comment is open, whatever stands before. -/
theorem uncommented_closed (inside : Bool) (front : List Char) {c : Char} (hc : c ≠ '*')
    (rest : List Char) : uncommented inside (front ++ ' ' :: '*' :: '/' :: c :: rest) =
      uncommented inside (front ++ [' ', '*', '/']) ++ uncommented false (c :: rest) := by
  -- A mark within the text in front does not end with the blank that follows it.
  have hBlank : ∀ {x : Char} {cs : List Char} (after : List Char), x ≠ ' ' →
      (∀ more, cs = x :: more → False) → ∀ more, cs ++ ' ' :: after = x :: more → False := by
    intro x cs after hx hNone more hNext
    obtain ⟨tail, hTail⟩ := exists_cons_of_append_cons (Ne.symm hx) hNext
    exact hNone tail hTail
  induction inside, front using uncommented.induct with
  | case1 inside =>
    cases inside with
    | false =>
      exact uncommented_append_cons (show ¬ "/*".toList <:+: [' ', '*', '/'] by decide) hc rest
    | true => rfl
  | case2 cs ih => exact ih
  | case3 d cs hOpens ih =>
    have hKept : ∀ after more, d = '/' → cs ++ ' ' :: after = '*' :: more → False :=
      fun after more hSlash => hBlank after (by decide) (hOpens · hSlash) more
    rw [List.cons_append, List.cons_append, uncommented_outside (hKept _), ih,
      uncommented_outside (hKept _)]
    rfl
  | case4 cs ih => exact ih
  | case5 d cs hCloses ih =>
    have hKept : ∀ after more, d = '*' → cs ++ ' ' :: after = '/' :: more → False :=
      fun after more hStar => hBlank after (by decide) (hCloses · hStar) more
    rw [List.cons_append, List.cons_append, uncommented_inside (hKept _), ih,
      uncommented_inside (hKept _)]

/-- What of a class list stands outside of comments when it is put into one. -/
def leaked (classList : String) : List Char :=
  uncommented true (classList ++ " */").toList

/-- A comment holds a class list, except for blanks. -/
def IsEnclosed (classList : String) : Prop :=
  ∀ c ∈ leaked classList, isBlank c = true

/-- A class list that does not have the end of a comment is enclosed. -/
theorem isEnclosed_of_not_infix {classList : String} (h : ¬ "*/".toList <:+: classList.toList) :
    IsEnclosed classList := by
  have hNone : leaked classList = [] := by
    rw [leaked, String.toList_append]
    exact uncommented_within h (by decide) ['*', '/']
  intro c hc
  rw [hNone] at hc
  cases hc

/-- What stands between the braces of a block without its comment. -/
def shownBody (classList css : String) : List Char :=
  "\n  ".toList ++ leaked classList ++ "\n  ".toList ++ css.toList ++ "\n".toList

/-- What a block is without its comment. -/
def shownBlock (name classList css : String) : List Char :=
  RuleBook.ruleHead name ++ (leaked classList ++ RuleBook.ruleBody css)

theorem ruleBody_eq (css : String) :
    RuleBook.ruleBody css = '\n' :: ' ' :: ' ' :: (css.toList ++ '\n' :: ['\x7d']) := by
  unfold RuleBook.ruleBody
  simp

theorem uncommented_ruleBody {css : String} (hCss : ¬ "/*".toList <:+: css.toList)
    (rest : List Char) : uncommented false (RuleBook.ruleBody css ++ rest) =
      RuleBook.ruleBody css ++ uncommented false rest := by
  have hFree : ¬ "/*".toList <:+: ['\n', ' '] ++ ' ' :: (css.toList ++ '\n' :: []) := by
    rw [infix_append_cons_iff (by decide), infix_append_cons_iff (by decide), not_or, not_or]
    exact ⟨by decide, hCss, by decide⟩
  have hEnd : uncommented false ('\x7d' :: rest) = '\x7d' :: uncommented false rest := rfl
  have hKept := uncommented_append_cons hFree (show '\x7d' ≠ '*' by decide) rest
  rw [hEnd] at hKept
  rw [ruleBody_eq]
  simpa using hKept

theorem uncommented_formatBlock {name : String} (hName : IsNameText name) (classList : String)
    {css : String} (hCss : ¬ "/*".toList <:+: css.toList) (rest : List Char) :
    uncommented false ((RuleBook.formatBlock name classList css).toList ++ rest) =
      shownBlock name classList css ++ uncommented false rest := by
  obtain ⟨lead, hHead, hLead⟩ := RuleBook.exists_ruleHead_eq hName
  have hText : (RuleBook.formatBlock name classList css).toList ++ rest =
      lead ++ ' ' :: '/' :: '*' :: (" generated from: ".toList ++
        (classList.toList ++ ' ' :: '*' :: '/' :: (RuleBook.ruleBody css ++ rest))) := by
    rw [RuleBook.toList_formatBlock, hHead, RuleBook.originText]
    simp
  have hClosed : uncommented true
      (classList.toList ++ ' ' :: '*' :: '/' :: (RuleBook.ruleBody css ++ rest)) =
        leaked classList ++ uncommented false (RuleBook.ruleBody css ++ rest) := by
    have hMark : (classList ++ " */").toList = classList.toList ++ [' ', '*', '/'] :=
      String.toList_append
    rw [leaked, hMark, ruleBody_eq, List.cons_append]
    exact uncommented_closed true classList.toList (by decide) _
  calc
    uncommented false ((RuleBook.formatBlock name classList css).toList ++ rest)
    _ = lead ++ ' ' :: uncommented true (" generated from: ".toList ++
        (classList.toList ++ ' ' :: '*' :: '/' :: (RuleBook.ruleBody css ++ rest))) := by
      rw [hText, uncommented_append_cons hLead (by decide)]
      rfl
    _ = lead ++ ' ' :: (leaked classList ++ uncommented false (RuleBook.ruleBody css ++ rest)) := by
      have hLabel : ¬ "*/".toList <:+: " generated from:".toList := by decide
      rw [← hClosed]
      exact congrArg (lead ++ ' ' :: ·) (uncommented_within hLabel (by decide) _)
    _ = shownBlock name classList css ++ uncommented false rest := by
      rw [uncommented_ruleBody hCss, shownBlock, hHead]
      simp

/-! ## Braces -/

theorem shownBlock_eq (name classList css : String) : shownBlock name classList css =
    ("." ++ name ++ " ").toList ++ '\x7b' :: (shownBody classList css ++ ['\x7d']) := by
  unfold shownBlock shownBody RuleBook.ruleHead
  rw [ruleBody_eq]
  simp

theorem readRules?_append {text : List Char} (h : ∀ c ∈ text, isBrace c = false)
    (selector? : Option (List Char)) (piece rest : List Char) :
    readRules? selector? piece (text ++ rest) = readRules? selector? (piece ++ text) rest := by
  induction text generalizing piece with
  | nil => rw [List.append_nil, List.nil_append]
  | cons c text ih =>
    have hPlain := Bool.eq_false_iff.mp (h c List.mem_cons_self)
    obtain ⟨hOpens, hCloses⟩ := not_or.mp (mt isBrace_eq_true_iff.mpr hPlain)
    rw [List.cons_append, readRules?, if_neg hOpens, if_neg hCloses,
      ih fun d hd => h d (List.mem_cons_of_mem c hd), List.append_assoc]
    rfl

/-- A rule is read up to its closing brace, and the next one starts there. -/
theorem readRules?_block {selector body : List Char} (hSelector : ∀ c ∈ selector, isBrace c = false)
    (hBody : ∀ c ∈ body, isBrace c = false) (piece rest : List Char) :
    readRules? none piece (selector ++ '\x7b' :: (body ++ '\x7d' :: rest)) =
      (readRules? none [] rest).map
        (⟨trim (.ofList (piece ++ selector)), trim (.ofList body)⟩ :: ·) := by
  rw [readRules?_append hSelector, readRules?, if_pos rfl, if_neg (by decide),
    readRules?_append hBody, readRules?, if_neg (by decide), if_pos rfl, Option.bind_some]
  rfl

/-- A text is read as a rule for each of its opening braces, and has a closing one for each. -/
theorem count_of_readRules? {selector? : Option (List Char)} {piece cs : List Char}
    {rules : List ReadRule} (h : readRules? selector? piece cs = some rules) :
    cs.count '\x7b' + selector?.toList.length = rules.length ∧ cs.count '\x7d' = rules.length := by
  induction cs generalizing selector? piece rules with
  | nil =>
    rw [readRules?] at h
    split at h
    next hDone =>
      cases h
      cases selector? with
      | none => exact ⟨rfl, rfl⟩
      | some selector => cases hDone
    next => cases h
  | cons c cs ih =>
    rw [readRules?] at h
    by_cases hOpens : c = '\x7b'
    · subst hOpens
      rw [if_pos rfl] at h
      cases selector? with
      | some selector => cases h
      | none =>
        obtain ⟨hOpening, hClosing⟩ := ih h
        rw [List.count_cons_self, List.count_cons_of_ne (by decide)]
        exact ⟨hOpening, hClosing⟩
    · by_cases hCloses : c = '\x7d'
      · subst hCloses
        rw [if_neg hOpens, if_pos rfl] at h
        obtain ⟨selector, rfl, hNext⟩ := Option.bind_eq_some_iff.mp h
        obtain ⟨later, hLater, rfl⟩ := Option.map_eq_some_iff.mp hNext
        obtain ⟨hOpening, hClosing⟩ := ih hLater
        rw [List.count_cons_of_ne (by decide), List.count_cons_self, List.length_cons, hClosing]
        exact ⟨congrArg Nat.succ hOpening, rfl⟩
      · rw [if_neg hOpens, if_neg hCloses] at h
        rw [List.count_cons_of_ne hOpens, List.count_cons_of_ne hCloses]
        exact ih h

/-! ## Blocks that are read -/

/-- Declarations that are read as they are written. -/
structure IsPlainCss (css : String) : Prop where
  no_brace : ∀ c ∈ css.toList, isBrace c = false
  no_comment : ¬ "/*".toList <:+: css.toList

/-- A rule with its class name, the class list that it was made from, and its declarations. -/
structure StyleRule where
  name : String
  source : String
  declarations : List String
deriving DecidableEq

namespace StyleRule

def css (rule : StyleRule) : String :=
  join "\n  " rule.declarations

def text (rule : StyleRule) : String :=
  RuleBook.formatBlock rule.name rule.source rule.css

/-- What a reader should get for a rule. -/
def read (rule : StyleRule) : ReadRule :=
  ⟨"." ++ rule.name, rule.css⟩

/-- A sheet has one rule with the selector of this rule when it is read, and that one has its
declarations. -/
def AloneIn (rule : StyleRule) (sheet : String) : Prop :=
  (readSheet? sheet).map (fun found => found.filter fun r => r.selector = rule.read.selector) =
    some [rule.read]

instance (rule : StyleRule) (sheet : String) : Decidable (rule.AloneIn sheet) :=
  inferInstanceAs (Decidable (Option.map _ _ = _))

/-- A rule whose name is spelled like one and whose declarations can be read. -/
structure IsReadable (rule : StyleRule) : Prop where
  name : IsNameText rule.name
  nonempty : rule.css.toList ≠ []
  trimmed : IsTrimmed rule.css.toList
  plain : IsPlainCss rule.css

def shown (rule : StyleRule) : List Char :=
  shownBlock rule.name rule.source rule.css

end StyleRule

/-- The text between the braces is the declarations, blanks aside, exactly if no more than blanks
leak into it. -/
theorem trim_shownBody_iff {classList css : String} (hne : css.toList ≠ [])
    (hTrimmed : IsTrimmed css.toList) :
    trim (.ofList (shownBody classList css)) = css ↔ IsEnclosed classList := by
  have hLine : ∀ c ∈ "\n  ".toList, isBlank c = true := List.all_eq_true.mp (by decide)
  have hEnd : ∀ c ∈ "\n".toList, isBlank c = true := List.all_eq_true.mp (by decide)
  constructor
  · intro hSame
    obtain ⟨front, back, hSplit, hFront, hBack⟩ :=
      eq_between_trim (.ofList (shownBody classList css))
    rw [hSame, String.toList_ofList, shownBody] at hSplit
    -- Both sides have the characters of the declarations, and blanks.
    have hNone : ∀ {cs : List Char}, (∀ c ∈ cs, isBlank c = true) →
        cs.countP (fun c => !isBlank c) = 0 :=
      fun h => List.countP_eq_zero.mpr fun c hc => by simp [h c hc]
    have hCount := congrArg (List.countP fun c => !isBlank c) hSplit
    simp only [List.countP_append, hNone hLine, hNone hEnd, hNone hFront, hNone hBack] at hCount
    have hLeaked : (leaked classList).countP (fun c => !isBlank c) = 0 := by omega
    intro c hc
    simpa using List.countP_eq_zero.mp hLeaked c hc
  · intro hEnclosed
    have hFront : ∀ c ∈ "\n  ".toList ++ leaked classList ++ "\n  ".toList, isBlank c = true := by
      intro c hc
      simp only [List.mem_append] at hc
      rcases hc with (hc | hc) | hc
      · exact hLine c hc
      · exact hEnclosed c hc
      · exact hLine c hc
    rw [shownBody, trim_between hne hTrimmed hFront hEnd, String.ofList_toList]

/-! ## Sheets that are read -/

theorem onLines_map_cons_cons {α : Type} (f : α → List Char) (first next : α) (rest : List α) :
    onLines ((first :: next :: rest).map f) = f first ++ '\n' :: onLines ((next :: rest).map f) :=
  onLines_cons (f first) (List.cons_ne_nil _ _)

theorem uncommented_onLines {rules : List StyleRule} (h : ∀ rule ∈ rules, rule.IsReadable) :
    uncommented false (onLines (rules.map fun rule => rule.text.toList)) =
      onLines (rules.map StyleRule.shown) := by
  induction rules with
  | nil => rfl
  | cons rule rules ih =>
    have hRule := h rule List.mem_cons_self
    have hText : ∀ rest, uncommented false (rule.text.toList ++ rest) =
        rule.shown ++ uncommented false rest :=
      uncommented_formatBlock hRule.name rule.source hRule.plain.no_comment
    have hRest := ih fun r hr => h r (List.mem_cons_of_mem rule hr)
    cases rules with
    | nil =>
      have hOne := hText []
      rw [List.append_nil] at hOne
      simpa [onLines, uncommented] using hOne
    | cons next rules =>
      rw [onLines_map_cons_cons, onLines_map_cons_cons, hText, ← hRest]
      rfl

theorem isBrace_selector {name : String} (hName : IsNameText name) :
    ∀ c ∈ ("." ++ name ++ " ").toList, isBrace c = false := by
  intro c hc
  rw [String.append_assoc, String.toList_append, List.mem_append] at hc
  rcases hc with hDot | hName'
  · rw [List.mem_singleton.mp hDot]
    rfl
  · exact (plain_selector hName c hName').2

/-- A block that is shown has a brace of each kind, and those that leak from its comment. -/
theorem StyleRule.IsReadable.count_shown {rule : StyleRule} (h : rule.IsReadable) {c : Char}
    (hc : isBrace c = true) : rule.shown.count c = (leaked rule.source).count c + 1 := by
  have hNone : ∀ {cs : List Char}, (∀ d ∈ cs, isBrace d = false) → cs.count c = 0 := by
    intro cs hPlain
    refine List.count_eq_zero.mpr fun hMem => ?_
    rw [hPlain c hMem] at hc
    cases hc
  have hSelector := hNone (isBrace_selector h.name)
  have hCss := hNone h.plain.no_brace
  rw [shown, shownBlock_eq, shownBody, List.count_append, hSelector, ← List.singleton_append]
  simp only [List.count_append, hCss]
  rcases isBrace_eq_true_iff.mp hc with rfl | rfl
  · simp [Nat.add_comm]
  · simp

theorem count_onLines_cons {rule : StyleRule} (h : rule.IsReadable) (rules : List StyleRule)
    {c : Char} (hc : isBrace c = true) : (onLines ((rule :: rules).map StyleRule.shown)).count c =
      (leaked rule.source).count c + 1 + (onLines (rules.map StyleRule.shown)).count c := by
  rw [← h.count_shown hc]
  cases rules with
  | nil => simp [onLines]
  | cons next rules =>
    have hLine : '\n' ≠ c := by
      rintro rfl
      cases hc
    rw [onLines_map_cons_cons, List.count_append, List.count_cons_of_ne hLine]

/-- There is a brace of each kind for each rule, and if there are no more of a kind, none leaks. -/
theorem notMem_leaked_of_count {rules : List StyleRule} (h : ∀ rule ∈ rules, rule.IsReadable)
    {c : Char} (hc : isBrace c = true) :
    rules.length ≤ (onLines (rules.map StyleRule.shown)).count c ∧
      ((onLines (rules.map StyleRule.shown)).count c = rules.length →
        ∀ rule ∈ rules, c ∉ leaked rule.source) := by
  induction rules with
  | nil => exact ⟨Nat.zero_le _, fun _ rule hRule => nomatch hRule⟩
  | cons rule rules ih =>
    obtain ⟨hAtLeast, hNone⟩ := ih fun r hr => h r (List.mem_cons_of_mem rule hr)
    rw [count_onLines_cons (h rule List.mem_cons_self) rules hc, List.length_cons]
    refine ⟨by omega, fun hCount r hr => ?_⟩
    rcases List.mem_cons.mp hr with rfl | hMore
    · exact List.count_eq_zero.mp (by omega)
    · exact hNone (by omega) r hMore

theorem trim_selector {name : String} (hName : IsNameText name) {piece : List Char}
    (hPiece : ∀ c ∈ piece, isBlank c = true) :
    trim (.ofList (piece ++ ("." ++ name ++ " ").toList)) = "." ++ name := by
  have hWord : IsWord ("." ++ name).toList := by
    rw [String.toList_append]
    refine ⟨List.append_ne_nil_of_left_ne_nil (by decide) _, ?_⟩
    intro c hc
    rcases List.mem_append.mp hc with hDot | hRest
    · rw [List.mem_singleton.mp hDot]
      rfl
    · exact isBlank_of_isNameCharacter (hName.spelled c hRest)
  have hBlank : ∀ c ∈ " ".toList, isBlank c = true := List.all_eq_true.mp (by decide)
  rw [String.toList_append, ← List.append_assoc,
    trim_between hWord.1 hWord.isTrimmed hPiece hBlank, String.ofList_toList]

/-- What a rule is read as if no brace leaks from its comment. -/
def StyleRule.readShown (rule : StyleRule) : ReadRule :=
  ⟨"." ++ rule.name, trim (.ofList (shownBody rule.source rule.css))⟩

theorem StyleRule.IsReadable.readRules?_shown {rule : StyleRule} (h : rule.IsReadable)
    (hLeaked : ∀ c ∈ leaked rule.source, isBrace c = false) {piece : List Char}
    (hPiece : ∀ c ∈ piece, isBlank c = true) (rest : List Char) :
    readRules? none piece (rule.shown ++ rest) =
      (readRules? none [] rest).map (rule.readShown :: ·) := by
  have hBody : ∀ c ∈ shownBody rule.source rule.css, isBrace c = false := by
    have hLine : "\n  ".toList.any isBrace = false := by decide
    have hEnd : "\n".toList.any isBrace = false := by decide
    intro c hc
    simp only [shownBody, List.mem_append] at hc
    rcases hc with (((hc | hc) | hc) | hc) | hc
    · exact isBrace_eq_false hLine c hc
    · exact hLeaked c hc
    · exact isBrace_eq_false hLine c hc
    · exact h.plain.no_brace c hc
    · exact isBrace_eq_false hEnd c hc
  rw [shown, shownBlock_eq, List.append_assoc, List.cons_append, List.append_assoc,
    List.singleton_append, readRules?_block (isBrace_selector h.name) hBody,
    trim_selector h.name hPiece]
  rfl

theorem readRules?_onLines {rules : List StyleRule} (h : ∀ rule ∈ rules, rule.IsReadable)
    (hLeaked : ∀ rule ∈ rules, ∀ c ∈ leaked rule.source, isBrace c = false) {piece : List Char}
    (hPiece : ∀ c ∈ piece, isBlank c = true) :
    readRules? none piece (onLines (rules.map StyleRule.shown)) =
      some (rules.map StyleRule.readShown) := by
  induction rules generalizing piece with
  | nil =>
    have hBlank : piece.all isBlank = true := List.all_eq_true.mpr hPiece
    simp [onLines, readRules?, hBlank]
  | cons rule rules ih =>
    have hRule := (h rule List.mem_cons_self).readRules?_shown
      (hLeaked rule List.mem_cons_self) hPiece
    cases rules with
    | nil =>
      have hOne := hRule []
      rw [List.append_nil] at hOne
      simpa [onLines, readRules?] using hOne
    | cons next rules =>
      have hBlank : ∀ c ∈ ['\n'], isBlank c = true := List.all_eq_true.mp (by decide)
      have hRest := ih (fun r hr => h r (List.mem_cons_of_mem rule hr))
        (fun r hr => hLeaked r (List.mem_cons_of_mem rule hr)) hBlank
      have hLine : ∀ cs, readRules? none [] ('\n' :: cs) = readRules? none ['\n'] cs := fun _ => rfl
      rw [onLines_map_cons_cons, hRule, hLine, hRest]
      rfl

/-- A sheet that is read as so many rules as were written has no other braces. -/
theorem no_brace_of_readRules? {rules : List StyleRule} (h : ∀ rule ∈ rules, rule.IsReadable)
    {found : List ReadRule} (hLength : found.length = rules.length)
    (hRead : readRules? none [] (onLines (rules.map StyleRule.shown)) = some found) :
    ∀ rule ∈ rules, ∀ c ∈ leaked rule.source, isBrace c = false := by
  obtain ⟨hOpening, hClosing⟩ := count_of_readRules? hRead
  intro rule hRule c hc
  rw [Bool.eq_false_iff]
  intro hBrace
  have hCount : (onLines (rules.map StyleRule.shown)).count c = rules.length := by
    rcases isBrace_eq_true_iff.mp hBrace with rfl | rfl
    · exact hOpening.trans hLength
    · exact hClosing.trans hLength
  exact (notMem_leaked_of_count h hBrace).2 hCount rule hRule hc

theorem IsEnclosed.no_brace {classList : String} (h : IsEnclosed classList) :
    ∀ c ∈ leaked classList, isBrace c = false := by
  intro c hc
  rw [Bool.eq_false_iff]
  intro hBrace
  rcases isBrace_eq_true_iff.mp hBrace with rfl | rfl <;> exact absurd (h _ hc) (by decide)

/-- Rules on lines of their own are read as they were written exactly if nothing but blanks of their
class lists stands outside of the comments. -/
theorem readSheet?_join_iff {rules : List StyleRule} (h : ∀ rule ∈ rules, rule.IsReadable) :
    readSheet? (join "\n" (rules.map StyleRule.text)) = some (rules.map StyleRule.read) ↔
      ∀ rule ∈ rules, IsEnclosed rule.source := by
  have hText : readSheet? (join "\n" (rules.map StyleRule.text)) =
      readRules? none [] (onLines (rules.map StyleRule.shown)) := by
    rw [readSheet?, toList_join, List.map_map, ← uncommented_onLines h]
    rfl
  have hSame : ∀ rule ∈ rules, rule.readShown = rule.read ↔ IsEnclosed rule.source := by
    intro rule hRule
    rw [← trim_shownBody_iff (h rule hRule).nonempty (h rule hRule).trimmed]
    simp [StyleRule.readShown, StyleRule.read]
  rw [hText]
  constructor
  · intro hRead
    have hNoBrace := no_brace_of_readRules? h (List.length_map _) hRead
    rw [readRules?_onLines h hNoBrace (by simp), Option.some.injEq, List.map_inj_left] at hRead
    exact fun rule hRule => (hSame rule hRule).mp (hRead rule hRule)
  · intro hEnclosed
    rw [readRules?_onLines h (fun rule hRule => (hEnclosed rule hRule).no_brace) (by simp),
      Option.some.injEq, List.map_inj_left]
    exact fun rule hRule => (hSame rule hRule).mpr (hEnclosed rule hRule)

example : readSheet? (StyleRule.text ⟨"twk-a", "a */ b", ["x: 1;"]⟩) =
    some [⟨".twk-a", "b */\n  x: 1;"⟩] := by
  decide +kernel

theorem StyleRule.aloneIn_of_readSheet? {rules : List StyleRule} {sheet : String}
    (hRead : readSheet? sheet = some (rules.map StyleRule.read)) {rule : StyleRule}
    (hAlone : rules.filter (fun r => r.name = rule.name) = [rule]) : rule.AloneIn sheet := by
  have hSelector : ∀ r : StyleRule, r.read.selector = rule.read.selector ↔ r.name = rule.name :=
    fun r => String.append_right_inj "."
  rw [AloneIn, hRead, Option.map_some, List.filter_map]
  simp only [Function.comp_def, hSelector, hAlone, List.map_singleton]

end ClassCollapse
