import ClassCollapse.Proofs.Markup.Matches
import ClassCollapse.Proofs.Naming.NameTable
import ClassCollapse.Proofs.Style.Generation
import ClassCollapse.Proofs.Style.Inline

/-!
# What a class list does to its rule

A rule has its class list in a comment, as the list was found. The comment ends at the first mark of
an end, and a style element at the first one of its own, so a class list that has such a mark ends
them early: the rest of the list is read as a part of the rule, or as markup. No class list that can
be found is kept from having these marks.
-/

namespace ClassCollapse

open Text

/-! ## Reading comments and style elements -/

/-- The first comment of a sheet: what stands before it, in it and after it. -/
def splitComment? (sheet : List Char) : Option (List Char × List Char × List Char) :=
  (splitFirst? "/*".toList sheet).bind fun (before, rest) =>
    (splitFirst? "*/".toList rest).map fun (inside, after) => (before, inside, after)

/-- The text of a style element, which follows its mark and ends where the element is closed. -/
def styleText (rest : List Char) : List Char :=
  match splitFirst? "</style".toList rest with
  | some (inside, _) => inside
  | none => rest

/-- The text of the first style element of a page. -/
def firstStyleText? (page : String) : Option (List Char) :=
  (splitFirst? "<style>".toList page.toList).map fun (_, rest) => styleText rest

/-- A text that does not end within the mark of an end stays in its element exactly if it does not
hold the mark. -/
theorem prefix_styleText_iff {css : List Char} (hEnd : css.getLast? = some '\x7d')
    (rest : List Char) : css <+: styleText (css ++ rest) ↔ ¬ "</style".toList <:+: css := by
  constructor
  · intro hPrefix hInfix
    obtain ⟨⟨front, back⟩, hSplit⟩ :=
      Option.isSome_iff_exists.mp (isSome_splitFirst?_iff.mpr hInfix)
    rw [styleText, splitFirst?_append_of_some (by decide) hSplit] at hPrefix
    have hLength := hPrefix.length_le
    rw [eq_of_splitFirst? hSplit] at hLength
    have hMark : 0 < "</style".toList.length := by decide
    simp only [List.length_append] at hLength
    omega
  · intro hFree
    obtain ⟨front, rfl⟩ := List.getLast?_eq_some_iff.mp hEnd
    have hFront : ¬ "</style".toList <:+: front :=
      fun h => hFree (List.infix_append_of_infix_left h)
    rw [styleText, List.append_assoc, List.singleton_append,
      splitFirst?_append_cons (by decide) hFront]
    cases splitFirst? "</style".toList rest with
    | none => exact ⟨rest, by simp⟩
    | some found => exact ⟨found.1, by simp⟩

namespace RuleBook

/-! ## The comment of a rule -/

/-- What a rule has before its comment. -/
def ruleHead (name : String) : List Char :=
  ("." ++ name ++ " \x7b\n  ").toList

/-- What a rule has after its comment. -/
def ruleBody (css : String) : List Char :=
  ("\n  " ++ css ++ "\n\x7d").toList

/-- What the comment of a rule says. -/
def originText (classList : String) : List Char :=
  (" generated from: " ++ classList ++ " ").toList

theorem toList_formatBlock (name classList css : String) :
    (formatBlock name classList css).toList = ruleHead name ++ ("/*".toList ++
      (originText classList ++ ("*/".toList ++ ruleBody css))) := by
  have hOpening : " \x7b\n  /* generated from: " = " \x7b\n  " ++ "/*" ++ " generated from: " := rfl
  have hClosing : " */\n  " = " " ++ "*/" ++ "\n  " := rfl
  unfold formatBlock ruleHead originText ruleBody
  rw [hOpening, hClosing]
  simp only [String.toList_append, List.append_assoc]

theorem slash_notMem_name {name : String} (hName : IsNameText name) : '/' ∉ name.toList := by
  intro hMem
  exact absurd (hName.spelled _ hMem) (by decide)

/-- No comment starts in front of the one that a rule has, which comes after a blank. -/
theorem exists_ruleHead_eq {name : String} (hName : IsNameText name) :
    ∃ lead, ruleHead name = lead ++ [' '] ∧ ¬ "/*".toList <:+: lead := by
  have hBlank : " \x7b\n  " = " \x7b\n " ++ " " := rfl
  have hSlash : '/' ∉ ("." ++ name ++ " \x7b\n ").toList := by
    have hPlain := slash_notMem_name hName
    simp [hPlain]
  refine ⟨("." ++ name ++ " \x7b\n ").toList, ?_, fun h => hSlash (h.subset (by decide))⟩
  unfold ruleHead
  rw [hBlank, ← String.append_assoc, String.toList_append]
  rfl

theorem splitFirst?_formatBlock {name : String} (hName : IsNameText name) (classList css : String) :
    splitFirst? "/*".toList (formatBlock name classList css).toList =
      some (ruleHead name, originText classList ++ ("*/".toList ++ ruleBody css)) := by
  obtain ⟨lead, hHead, hNone⟩ := exists_ruleHead_eq hName
  rw [toList_formatBlock, hHead, List.append_assoc, List.singleton_append,
    splitFirst?_append_cons (by decide) hNone, splitFirst?_self_append (by decide)]
  rfl

theorem originText_eq (classList : String) :
    originText classList = " generated from:".toList ++ ' ' :: (classList.toList ++ [' ']) := by
  have hText : " generated from: " = " generated from:" ++ " " := rfl
  unfold originText
  rw [hText]
  simp only [String.toList_append, List.append_assoc]
  rfl

/-- The comment of a rule ends with its own mark, or within the class list. -/
theorem splitComment?_formatBlock {name : String} (hName : IsNameText name)
    (classList css : String) : splitComment? (formatBlock name classList css).toList =
      some (match splitFirst? "*/".toList classList.toList with
        | none => (ruleHead name, originText classList, ruleBody css)
        | some (front, back) => (ruleHead name, " generated from: ".toList ++ front,
          back ++ (" */".toList ++ ruleBody css))) := by
  have hRest : originText classList ++ ("*/".toList ++ ruleBody css) = " generated from:".toList ++
      ' ' :: (classList.toList ++ ' ' :: ("*/".toList ++ ruleBody css)) := by
    rw [originText_eq]
    simp only [List.append_assoc, List.cons_append, List.nil_append]
  have hNone : ¬ "*/".toList <:+: " generated from:".toList := by decide
  rw [splitComment?, splitFirst?_formatBlock hName, Option.bind_some]
  dsimp only
  rw [hRest, splitFirst?_append_cons (by decide) hNone]
  cases hSplit : splitFirst? "*/".toList classList.toList with
  | none =>
    rw [splitFirst?_append_cons (by decide) (splitFirst?_eq_none_iff.mp hSplit),
      splitFirst?_self_append (by decide), originText_eq]
    rfl
  | some found =>
    rw [splitFirst?_append_of_some (by decide) hSplit]
    rfl

/-- A rule has a comment. The class list is in it and nothing else, and the declarations follow it
and nothing else, exactly if the list has no mark of an end. -/
theorem exists_splitComment?_eq {name : String} (hName : IsNameText name)
    (classList css : String) :
    ∃ inside after, splitComment? (formatBlock name classList css).toList =
        some (ruleHead name, inside, after) ∧
      (inside = originText classList ↔ ¬ "*/".toList <:+: classList.toList) ∧
      (after = ruleBody css ↔ ¬ "*/".toList <:+: classList.toList) := by
  rw [splitComment?_formatBlock hName]
  cases hSplit : splitFirst? "*/".toList classList.toList with
  | none =>
    have hFree := splitFirst?_eq_none_iff.mp hSplit
    exact ⟨_, _, rfl, iff_of_true rfl hFree, iff_of_true rfl hFree⟩
  | some found =>
    obtain ⟨front, back⟩ := found
    have hHeld : "*/".toList <:+: classList.toList := by
      rw [← isSome_splitFirst?_iff, hSplit]
      rfl
    have hList := congrArg List.length (eq_of_splitFirst? hSplit)
    refine ⟨_, _, rfl, iff_of_false ?_ (not_not.mpr hHeld), iff_of_false ?_ (not_not.mpr hHeld)⟩
    · intro hSame
      have hLength := congrArg List.length hSame
      rw [originText_eq] at hLength
      simp only [List.length_append, List.length_cons, List.length_nil] at hLength hList
      have hLead : " generated from: ".toList.length = " generated from:".toList.length + 1 := rfl
      have hMark : 0 < "*/".toList.length := by decide
      omega
    · intro hSame
      have hLength := congrArg List.length hSame
      simp only [List.length_append] at hLength
      have hMark : 0 < " */".toList.length := by decide
      omega

/-! ## The rule in its element -/

/-- A mark without blanks stands in a rule exactly if it stands in one of the parts. -/
theorem styleClose_infix_formatBlock_iff {name : String} (hName : IsNameText name)
    (classList css : String) : "</style".toList <:+: (formatBlock name classList css).toList ↔
      "</style".toList <:+: classList.toList ∨ "</style".toList <:+: css.toList := by
  have hText : (formatBlock name classList css).toList =
      ("." ++ name ++ " \x7b\n  /* generated from:").toList ++ ' ' :: (classList.toList ++
        ' ' :: ("*/\n ".toList ++ ' ' :: (css.toList ++ '\n' :: ['\x7d']))) := by
    have hOpening : " \x7b\n  /* generated from: " = " \x7b\n  /* generated from:" ++ " " := rfl
    have hMiddle : " */\n  ".toList = ' ' :: ("*/\n ".toList ++ [' ']) := rfl
    have hEnd : "\n\x7d".toList = '\n' :: ['\x7d'] := rfl
    have hBlank : " ".toList = [' '] := rfl
    unfold formatBlock
    rw [hOpening]
    simp only [String.toList_append, List.append_assoc, hMiddle, hEnd, hBlank, List.cons_append,
      List.nil_append]
  have hName : '<' ∉ name.toList := fun hMem => absurd (hName.spelled _ hMem) (by decide)
  have hFront : ¬ "</style".toList <:+: ("." ++ name ++ " \x7b\n  /* generated from:").toList := by
    intro hInfix
    have hBracket : '<' ∈ ("." ++ name ++ " \x7b\n  /* generated from:").toList :=
      hInfix.subset (by decide)
    simp [hName] at hBracket
  have hMiddle : ¬ "</style".toList <:+: "*/\n ".toList := by decide
  have hEnd : ¬ "</style".toList <:+: ['\x7d'] := by decide
  rw [hText, infix_append_cons_iff (by decide), infix_append_cons_iff (by decide),
    infix_append_cons_iff (by decide), infix_append_cons_iff (by decide)]
  simp only [hFront, hMiddle, hEnd, false_or, or_false]

/-- A rule stays in the first style element of a page that it is put into exactly if neither its
class list nor its declarations close the element. -/
theorem exists_firstStyleText?_eq {name : String} (hName : IsNameText name)
    (classList css page : String) :
    ∃ text, firstStyleText? (Placement.injectInline page (formatBlock name classList css)) =
        some text ∧
      ((formatBlock name classList css).toList <+: text ↔
        ¬ "</style".toList <:+: classList.toList ∧ ¬ "</style".toList <:+: css.toList) := by
  obtain ⟨lead, -, hSplit⟩ := Placement.splitFirst?_fill (Placement.afterFirst_stylePlace page)
    (formatBlock name classList css)
  rw [← not_or, ← styleClose_infix_formatBlock_iff hName, firstStyleText?,
    Placement.injectInline_eq, hSplit, String.append_assoc, String.toList_append]
  refine ⟨_, rfl, prefix_styleText_iff ?_ _⟩
  have hEnd : "\n\x7d".toList = ['\n'] ++ ['\x7d'] := rfl
  unfold formatBlock
  rw [String.toList_append, hEnd, ← List.append_assoc, List.getLast?_concat]

/-! ## Rules that are asked for -/

theorem tabledWith_generate {namePrefix : String} {resolver : NameResolver}
    (h : resolver.TabledWith namePrefix) (compile : Compiler) (o : Occurrence) (book : RuleBook) :
    (generate compile o book resolver).2.2.TabledWith namePrefix := by
  obtain ⟨css, _, hSame⟩ | ⟨css, resolver', _, hNew, hAdded⟩ :=
    generate_cases compile o book resolver
  · rw [hSame]
    exact h
  · rw [hAdded]
    cases hEmpty : (trim (compile o.classList)).isEmpty with
    | true =>
      rw [generateNew_noCss hEmpty] at hNew
      cases hNew
      exact h
    | false =>
      rw [generateNew_block hEmpty] at hNew
      cases hNew
      exact h.assign o.key o.tag o.classList

/-- The rule that an occurrence gets, after any other occurrences asked. -/
theorem exists_generate_eq (t : UtilityTable) {config : ProjectConfig}
    (hValid : config.validate = .ok ()) {orderMatters : Bool} (maxInvocations : Nat)
    (strategy : Option NamingStrategy) (random : RandomSource) {earlier : List Occurrence}
    {o : Occurrence}
    (hKeys : ∀ other ∈ earlier ++ [o], other.key = .ofClassList orderMatters other.classList)
    (hWord : ∃ word ∈ words o.classList, t.recognizes word = true) :
    let state := generateAll t.compile earlier empty
      (.new config.naming.namePrefix maxInvocations strategy random)
    ∃ first name, IsFirst (earlier ++ [o]) first ∧ first.key = o.key ∧ IsNameText name ∧
      (generate t.compile o state.1 state.2).1 =
        .block (formatBlock name first.classList (t.compile first.classList)) := by
  intro state
  let resolver : NameResolver := .new config.naming.namePrefix maxInvocations strategy random
  let last := generateAll t.compile (earlier ++ [o]) empty resolver
  have hLast : last = (generate t.compile o state.1 state.2).2 := by
    simp only [last, generateAll, List.foldl_append, List.foldl_cons, List.foldl_nil]
    rfl
  have hEmpty : Follows t.compile [] empty resolver :=
    follows_empty t.compile (NameResolver.sound_new _ _ _ _) rfl
  have hNoCalls : AsksFirst [] resolver := fun call hCall => absurd hCall List.not_mem_nil
  have hNew : resolver.TabledWith config.naming.namePrefix := NameResolver.tabledWith_new _ _ _ _
  obtain ⟨hFollows, hAsks, hNames⟩ := generateAll_induction
    (P := fun seen book r => Follows t.compile seen book r ∧ AsksFirst seen r ∧
      r.TabledWith config.naming.namePrefix)
    (fun _ other book _ h => ⟨follows_generate h.1 other, asksFirst_generate h.1 h.2.1 other,
      tabledWith_generate h.2.2 t.compile other book⟩)
    ⟨hEmpty, hNoCalls, hNew⟩ (earlier ++ [o])
  have hInStep : InStep t (earlier ++ [o]) last.1 last.2 := inStep_of_follows hFollows hAsks hKeys
  have ho : o ∈ earlier ++ [o] := List.mem_append_right earlier List.mem_cons_self
  obtain ⟨first, hFirst, hKey⟩ := exists_isFirst ho
  obtain ⟨name, hName⟩ := (hInStep.name_iff o ho).mpr hWord
  have hRule := hInStep.rule_eq first name hFirst (hKey ▸ hName)
  rw [hKey, hLast, lookup_generate] at hRule
  exact ⟨first, name, hFirst, hKey,
    hNames.isNameText hValid (o.key, name) (mem_of_lookup_eq_some hName), Option.some.inj hRule⟩

/-- All texts can be found as class lists but the blank ones and those with both quotes. The rule of
an occurrence has the list of the first occurrence of its key in its comment: the comment is that
list, and the declarations alone follow it, exactly if the list has no mark of an end. Put into any
page, the rule stays in the first style element exactly if neither the list nor the declarations
close the element. -/
theorem generate_enclosed_iff (t : UtilityTable) {config : ProjectConfig}
    (hValid : config.validate = .ok ()) {orderMatters : Bool} (maxInvocations : Nat)
    (strategy : Option NamingStrategy) (random : RandomSource) {earlier : List Occurrence}
    {o : Occurrence}
    (hKeys : ∀ other ∈ earlier ++ [o], other.key = .ofClassList orderMatters other.classList)
    (hWord : ∃ word ∈ words o.classList, t.recognizes word = true) :
    let state := generateAll t.compile earlier empty
      (.new config.naming.namePrefix maxInvocations strategy random)
    (∀ classList, (∃ content, ∃ f ∈ Markup.scan content, f.classList = classList) ↔
      isBlankText classList = false ∧ ('"' ∉ classList.toList ∨ '\'' ∉ classList.toList)) ∧
    ∃ first name css rule inside after, IsFirst (earlier ++ [o]) first ∧ first.key = o.key ∧
      IsNameText name ∧ css = t.compile first.classList ∧
      rule = formatBlock name first.classList css ∧
      (generate t.compile o state.1 state.2).1 = .block rule ∧
      splitComment? rule.toList = some (("." ++ name ++ " \x7b\n  ").toList, inside, after) ∧
      (inside = (" generated from: " ++ first.classList ++ " ").toList ↔
        ¬ "*/".toList <:+: first.classList.toList) ∧
      (after = ("\n  " ++ css ++ "\n\x7d").toList ↔ ¬ "*/".toList <:+: first.classList.toList) ∧
      ∀ page, ∃ text, firstStyleText? (Placement.injectInline page rule) = some text ∧
        (rule.toList <+: text ↔
          ¬ "</style".toList <:+: first.classList.toList ∧ ¬ "</style".toList <:+: css.toList) := by
  intro state
  refine ⟨fun _ => Markup.exists_mem_scan_iff, ?_⟩
  obtain ⟨first, name, hFirst, hKey, hName, hRule⟩ :=
    exists_generate_eq t hValid maxInvocations strategy random hKeys hWord
  obtain ⟨inside, after, hComment, hInside, hAfter⟩ :=
    exists_splitComment?_eq hName first.classList (t.compile first.classList)
  exact ⟨first, name, _, _, inside, after, hFirst, hKey, hName, rfl, rfl, hRule, hComment, hInside,
    hAfter, exists_firstStyleText?_eq hName _ _⟩

/-- An occurrence whose class list ends a comment and a style element. -/
def endingOccurrence : Occurrence :=
  ⟨"a.html", "a */ </style>", .ofClassList false "a */ </style>", 10, 13, some "p"⟩

theorem words_endingOccurrence :
    ∃ word ∈ words endingOccurrence.classList, letterTable.recognizes word = true :=
  ⟨"a", by decide +kernel, by decide +kernel⟩

theorem keys_endingOccurrence :
    ∀ o ∈ [] ++ [endingOccurrence], o.key = .ofClassList false o.classList := by
  rintro o (_ | ⟨_, ⟨⟩⟩)
  rfl

theorem eq_of_isFirst_singleton {o first : Occurrence} (h : IsFirst ([] ++ [o]) first) :
    first = o := by
  rw [List.nil_append] at h
  exact List.mem_singleton.mp h.mem

theorem generate_enclosed_endingOccurrence :
    ProjectConfig.validate {} = .ok () ∧
      (∀ o ∈ [] ++ [endingOccurrence], o.key = .ofClassList false o.classList) ∧
      (∃ word ∈ words endingOccurrence.classList, letterTable.recognizes word = true) ∧
      ∃ rule before inside after,
        (generate letterTable.compile endingOccurrence empty
          (.new "twk-" 9 none (.ofSeed 0))).1 = .block rule ∧
        splitComment? rule.toList = some (before, inside, after) ∧
        inside ≠ " generated from: a */ </style> ".toList := by
  have hValid : ProjectConfig.validate {} = .ok () := rfl
  obtain ⟨-, first, name, css, rule, inside, after, hFirst, -, -, -, -, hRule, hComment, hInside,
    -⟩ := generate_enclosed_iff letterTable hValid 9 none (.ofSeed 0) keys_endingOccurrence
      words_endingOccurrence
  obtain rfl := eq_of_isFirst_singleton hFirst
  refine ⟨hValid, keys_endingOccurrence, words_endingOccurrence, rule, _, inside, after, hRule,
    hComment, ?_⟩
  intro hWhole
  exact hInside.mp hWhole (by decide)

/-- A list that is found in a page ends the comment of its rule, and a style element. -/
theorem scan_not_enclosed : ∃ f ∈ Markup.scan "<p class=\"a */ </style>\">",
    f.classList = endingOccurrence.classList ∧ f.tag = endingOccurrence.tag ∧
      endingOccurrence.key = .ofClassList false f.classList ∧
      (∃ word ∈ words f.classList, letterTable.recognizes word = true) ∧
      ∃ rule, (generate letterTable.compile endingOccurrence empty
          (.new "twk-" 9 none (.ofSeed 0))).1 = .block rule ∧
        (∀ before after, splitComment? rule.toList ≠
          some (before, (" generated from: " ++ f.classList ++ " ").toList, after)) ∧
        "</style".toList <:+: f.classList.toList := by
  have hFound : (⟨some "p", "a */ </style>", 10, 13⟩ : ScannedClass) ∈
      Markup.scan "<p class=\"a */ </style>\">" := by decide +kernel
  have hValid : ProjectConfig.validate {} = .ok () := rfl
  obtain ⟨first, name, hFirst, -, hName, hRule⟩ := exists_generate_eq letterTable hValid 9 none
    (.ofSeed 0) keys_endingOccurrence words_endingOccurrence
  obtain rfl := eq_of_isFirst_singleton hFirst
  refine ⟨_, hFound, rfl, rfl, rfl, words_endingOccurrence, _, hRule, ?_, by decide⟩
  intro before after hClosed
  obtain ⟨inside, _, hComment, hInside, -⟩ :=
    exists_splitComment?_eq hName endingOccurrence.classList
      (letterTable.compile endingOccurrence.classList)
  rw [hComment] at hClosed
  cases hClosed
  exact hInside.mp rfl (by decide)

end RuleBook

end ClassCollapse
