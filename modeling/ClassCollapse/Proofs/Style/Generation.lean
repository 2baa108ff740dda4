import ClassCollapse.Proofs.Naming.Budget
import ClassCollapse.Proofs.Style.Declarations
import ClassCollapse.Proofs.Style.RuleBook

/-!
# The rules of many occurrences

However often rules are asked for, and for whatever occurrences, the book and the resolver stay in
step: the keys with a rule are the keys with a name, and they are those whose class lists have a
recognized word. The first occurrence of a key decides on all of it, and what was decided stays.
-/

namespace ClassCollapse.RuleBook

open Text

/-- The book and the resolver after rules were asked for, one occurrence after the other. -/
def generateAll (compile : Compiler) (os : List Occurrence) (book : RuleBook)
    (resolver : NameResolver) : RuleBook × NameResolver :=
  os.foldl (fun state o => (generate compile o state.1 state.2).2) (book, resolver)

/-- The occurrence is the first one of its key. -/
def IsFirst (os : List Occurrence) (o : Occurrence) : Prop :=
  (os.find? fun other => other.key = o.key) = some o

/-- The strategy was asked about first occurrences only. -/
def AsksFirst (os : List Occurrence) (resolver : NameResolver) : Prop :=
  ∀ call ∈ resolver.calls, ∃ first, IsFirst os first ∧ call = ⟨first.tag, first.classList⟩

/-- What a table makes of occurrences, and what their keys are called. -/
structure InStep (t : UtilityTable) (os : List Occurrence) (book : RuleBook)
    (resolver : NameResolver) : Prop where
  /-- A key has a rule exactly if it has a name, -/
  block_iff : ∀ o ∈ os, (∃ css, book.rules.lookup o.key = some (.block css)) ↔
    ∃ name, resolver.nameFor? o.key = some name
  /-- and exactly if some word of its class list is recognized. -/
  name_iff : ∀ o ∈ os, (∃ name, resolver.nameFor? o.key = some name) ↔
    ∃ word ∈ words o.classList, t.recognizes word = true
  /-- The first occurrence of a key decides on the rule. -/
  rule_eq : ∀ first name, IsFirst os first → resolver.nameFor? first.key = some name →
    book.rules.lookup first.key =
      some (.block (formatBlock name first.classList (t.compile first.classList)))
  /-- A key without a recognized word is known to have no rule. -/
  plain_eq : ∀ o ∈ os, resolver.nameFor? o.key = none → book.rules.lookup o.key = some .noCss
  /-- No other keys have names, and no other names are held. -/
  names_seen : ∀ key name, resolver.nameFor? key = some name → ∃ o ∈ os, o.key = key
  owners_eq : ∀ name key, resolver.owners.lookup name = some key ↔
    resolver.nameFor? key = some name
  asked : AsksFirst os resolver

variable {compile : Compiler} {os : List Occurrence} {book : RuleBook} {resolver : NameResolver}

/-! ## What each call keeps -/

/-- What one call keeps, all calls keep. -/
theorem generateAll_induction {P : List Occurrence → RuleBook → NameResolver → Prop}
    (hStep : ∀ seen o book resolver, P seen book resolver →
      P (seen ++ [o]) (generate compile o book resolver).2.1 (generate compile o book resolver).2.2)
    {seen : List Occurrence} (h : P seen book resolver) (later : List Occurrence) :
    P (seen ++ later) (generateAll compile later book resolver).1
      (generateAll compile later book resolver).2 := by
  induction later generalizing seen book resolver with
  | nil =>
    rw [List.append_nil]
    exact h
  | cons o later ih =>
    rw [List.append_cons]
    exact ih (hStep seen o book resolver h)

theorem IsFirst.append {first : Occurrence} (h : IsFirst os first) (later : List Occurrence) :
    IsFirst (os ++ later) first := by
  rw [IsFirst] at h ⊢
  rw [List.find?_append, h, Option.some_or]

theorem IsFirst.mem {first : Occurrence} (h : IsFirst os first) : first ∈ os :=
  List.mem_of_find?_eq_some h

theorem asksFirst_generate (hFollows : Follows compile os book resolver)
    (h : AsksFirst os resolver) (o : Occurrence) :
    AsksFirst (os ++ [o]) (generate compile o book resolver).2.2 := by
  have hOld : AsksFirst (os ++ [o]) resolver := by
    intro call hCall
    obtain ⟨first, hFirst, hSame⟩ := h call hCall
    exact ⟨first, hFirst.append [o], hSame⟩
  obtain ⟨css, _, hSame⟩ | ⟨css, resolver', hKnown, hNew, hAdded⟩ :=
    generate_cases compile o book resolver
  · rw [hSame]
    exact hOld
  · obtain ⟨hUnseen, hUnnamed⟩ := hFollows.of_unknown hKnown
    rw [hAdded]
    cases hEmpty : (trim (compile o.classList)).isEmpty with
    | true =>
      rw [generateNew_noCss hEmpty] at hNew
      cases hNew
      exact hOld
    | false =>
      rw [generateNew_block hEmpty] at hNew
      cases hNew
      obtain ⟨n, _, _, hResolves⟩ :=
        NameResolver.exists_resolves (q := ⟨o.key, o.tag, o.classList⟩) hUnnamed
      intro call hCall
      rw [hResolves.calls] at hCall
      rcases List.mem_append.mp hCall with hBefore | hAsked
      · exact hOld call hBefore
      · refine ⟨o, ?_, (List.mem_replicate.mp hAsked).2⟩
        rw [IsFirst, find?_concat, hUnseen, Option.none_or]
        exact if_pos rfl

/-- What is held for a key that has an entry stays. -/
theorem generate_keeps (hFollows : Follows compile os book resolver) {key : CanonicalKey}
    {css : KeyCss} (hCss : book.rules.lookup key = some css) (o : Occurrence) :
    (generate compile o book resolver).2.1.rules.lookup key = some css ∧
      (generate compile o book resolver).2.2.nameFor? key = resolver.nameFor? key := by
  obtain ⟨other, _, hSame⟩ | ⟨new, resolver', hKnown, hNew, hAdded⟩ :=
    generate_cases compile o book resolver
  · rw [hSame]
    exact ⟨hCss, rfl⟩
  · have hOther : key ≠ o.key := by
      rintro rfl
      rw [hKnown] at hCss
      cases hCss
    obtain ⟨_, _, hNames⟩ := generateNew_held hFollows.sound (hFollows.of_unknown hKnown).2 hNew
    rw [hAdded]
    refine ⟨?_, hNames key hOther⟩
    rw [lookup_append_singleton, hCss, Option.some_or]

theorem held_generateAll (hFollows : Follows compile os book resolver)
    (hAsks : AsksFirst os resolver) (later : List Occurrence) :
    Follows compile (os ++ later) (generateAll compile later book resolver).1
        (generateAll compile later book resolver).2 ∧
      AsksFirst (os ++ later) (generateAll compile later book resolver).2 :=
  generateAll_induction
    (P := fun seen book resolver => Follows compile seen book resolver ∧ AsksFirst seen resolver)
    (fun _ o _ _ h => ⟨follows_generate h.1 o, asksFirst_generate h.1 h.2 o⟩) ⟨hFollows, hAsks⟩
    later

/-- A call answers what is held for the key from then on. -/
theorem lookup_generate (compile : Compiler) (o : Occurrence) (book : RuleBook)
    (resolver : NameResolver) : (generate compile o book resolver).2.1.rules.lookup o.key =
      some (generate compile o book resolver).1 := by
  obtain ⟨css, hKnown, hSame⟩ | ⟨css, resolver', hKnown, _, hAdded⟩ :=
    generate_cases compile o book resolver
  · rw [hSame, hKnown]
  · rw [hAdded]
    dsimp only
    rw [lookup_append_singleton, hKnown, Option.none_or, if_pos BEq.rfl]

/-! ## What is held for each key -/

theorem exists_isFirst {o : Occurrence} (ho : o ∈ os) :
    ∃ first, IsFirst os first ∧ first.key = o.key := by
  have hSome : (os.find? fun other => other.key = o.key).isSome = true :=
    List.find?_isSome.mpr ⟨o, ho, decide_eq_true rfl⟩
  obtain ⟨first, hFirst⟩ := Option.isSome_iff_exists.mp hSome
  have hKey : first.key = o.key := by simpa using List.find?_some hFirst
  refine ⟨first, ?_, hKey⟩
  rw [IsFirst, hKey]
  exact hFirst

theorem Follows.held_isFirst (h : Follows compile os book resolver) {first : Occurrence}
    (hFirst : IsFirst os first) :
    Held compile (some first) (book.rules.lookup first.key) (resolver.nameFor? first.key) := by
  have hHeld := h.held first.key
  rw [hFirst] at hHeld
  exact hHeld

theorem isEmpty_trim_compile_iff {t : UtilityTable} {o first : Occurrence}
    (hWords : (words first.classList).Perm (words o.classList)) :
    (trim (t.compile first.classList)).isEmpty = false ↔
      ∃ word ∈ words o.classList, t.recognizes word = true := by
  rw [UtilityTable.trim_compile, ← Bool.not_eq_true, UtilityTable.compile_isEmpty_iff,
    UtilityTable.declared_eq_nil_iff]
  simp only [hWords.mem_iff, not_forall, Bool.not_eq_false, exists_prop]

theorem inStep_of_follows {t : UtilityTable} {orderMatters : Bool}
    (h : Follows t.compile os book resolver) (hAsks : AsksFirst os resolver)
    (hKeys : ∀ o ∈ os, o.key = .ofClassList orderMatters o.classList) :
    InStep t os book resolver := by
  -- What is held for the key of an occurrence was decided by a list with the same words.
  have hHeld : ∀ o ∈ os, ∃ first, (words first.classList).Perm (words o.classList) ∧
      Held t.compile (some first) (book.rules.lookup o.key) (resolver.nameFor? o.key) := by
    intro o ho
    obtain ⟨first, hFirst, hKey⟩ := exists_isFirst ho
    have hSame : CanonicalKey.ofClassList orderMatters first.classList =
        .ofClassList orderMatters o.classList := by
      rw [← hKeys first hFirst.mem, ← hKeys o ho, hKey]
    exact ⟨first, CanonicalKey.words_perm_of_same_key hSame, hKey ▸ h.held_isFirst hFirst⟩
  constructor
  case block_iff =>
    intro o ho
    obtain ⟨first, _, hFirst⟩ := hHeld o ho
    generalize book.rules.lookup o.key = css at hFirst
    generalize resolver.nameFor? o.key = name at hFirst
    cases hFirst <;> simp
  case name_iff =>
    intro o ho
    obtain ⟨first, hWords, hFirst⟩ := hHeld o ho
    rw [← isEmpty_trim_compile_iff hWords]
    generalize book.rules.lookup o.key = css at hFirst
    generalize resolver.nameFor? o.key = name at hFirst
    cases hFirst with
    | plain _ hEmpty => rw [hEmpty]; simp
    | styled _ hEmpty name => rw [hEmpty]; simp
  case rule_eq =>
    intro first name hFirst hName
    have hStyled := h.held_isFirst hFirst
    rw [hName] at hStyled
    generalize book.rules.lookup first.key = css at hStyled
    cases hStyled
    rw [UtilityTable.trim_compile]
  case plain_eq =>
    intro o ho hNone
    obtain ⟨first, _, hFirst⟩ := hHeld o ho
    rw [hNone] at hFirst
    generalize book.rules.lookup o.key = css at hFirst
    cases hFirst
    rfl
  case names_seen =>
    intro key name hName
    have hSome := h.held key
    rw [hName] at hSome
    cases hFind : os.find? fun o => o.key = key with
    | none =>
      rw [hFind] at hSome
      cases hSome.unnamed
    | some o =>
      exact ⟨o, List.mem_of_find?_eq_some hFind, by simpa using List.find?_some hFind⟩
  case owners_eq => exact h.sound.lookup_owners_iff
  case asked => exact hAsks

/-- Whatever rules are asked for later, what is held for a key that was seen stays. -/
theorem generateAll_keeps (h : Follows compile os book resolver) {o : Occurrence} (ho : o ∈ os)
    (later : List Occurrence) :
    (generateAll compile later book resolver).1.rules.lookup o.key = book.rules.lookup o.key ∧
      (generateAll compile later book resolver).2.nameFor? o.key = resolver.nameFor? o.key := by
  obtain ⟨first, hFirst, hKey⟩ := exists_isFirst ho
  have hSome := (h.held_isFirst hFirst).isSome_eq
  obtain ⟨css, hCss⟩ := Option.isSome_iff_exists.mp hSome.symm
  rw [hKey] at hCss
  obtain ⟨_, hKept, hName⟩ := generateAll_induction
    (P := fun seen b r => Follows compile seen b r ∧ b.rules.lookup o.key = some css ∧
      r.nameFor? o.key = resolver.nameFor? o.key)
    (fun _ other _ _ hState => by
      obtain ⟨hFollows, hHeld, hName⟩ := hState
      obtain ⟨hHeld', hName'⟩ := generate_keeps hFollows hHeld other
      exact ⟨follows_generate hFollows other, hHeld', hName'.trans hName⟩) ⟨h, hCss, rfl⟩ later
  exact ⟨hKept.trans hCss.symm, hName⟩

/-- After rules were asked for any occurrences, with keys of their class lists, a new book and a new
resolver are in step; later calls leave what is held for the keys that were seen as it is; and each
call answers what is held for its key from then on. -/
theorem inStep_generateAll (t : UtilityTable) {orderMatters : Bool} (namePrefix : String)
    (maxInvocations : Nat) (strategy : Option NamingStrategy) (random : RandomSource)
    {os : List Occurrence} (hKeys : ∀ o ∈ os, o.key = .ofClassList orderMatters o.classList) :
    let state := generateAll t.compile os empty (.new namePrefix maxInvocations strategy random)
    InStep t os state.1 state.2 ∧
    (∀ later, ∀ o ∈ os,
      (generateAll t.compile later state.1 state.2).1.rules.lookup o.key =
        state.1.rules.lookup o.key ∧
      (generateAll t.compile later state.1 state.2).2.nameFor? o.key = state.2.nameFor? o.key) ∧
    ∀ o, (generate t.compile o state.1 state.2).2.1.rules.lookup o.key =
      some (generate t.compile o state.1 state.2).1 := by
  intro state
  have hEmpty : Follows t.compile [] empty (.new namePrefix maxInvocations strategy random) :=
    follows_empty t.compile (NameResolver.sound_new _ _ _ _) rfl
  have hNoCalls : AsksFirst [] (.new namePrefix maxInvocations strategy random) := by
    intro call hCall
    cases hCall
  obtain ⟨hFollows, hAsks⟩ := held_generateAll hEmpty hNoCalls os
  rw [List.nil_append] at hFollows hAsks
  refine ⟨inStep_of_follows hFollows hAsks hKeys, ?_, ?_⟩
  · intro later o ho
    exact generateAll_keeps hFollows ho later
  · intro o
    exact lookup_generate t.compile o state.1 state.2

def letterTable : UtilityTable :=
  ⟨.ofList [("a", "x: 1;"), ("b", "y: 2;")]⟩

/-- Two orders of the same words, with a list between them that has no recognized word. -/
def permutedLists : List Occurrence :=
  [⟨"a.html", "b a", ⟨"a b"⟩, 10, 3, some "div"⟩, ⟨"a.html", "card", ⟨"card"⟩, 30, 4, none⟩,
    ⟨"b.html", "a b", ⟨"a b"⟩, 10, 3, some "p"⟩]

theorem inStep_permutedLists :
    (∀ o ∈ permutedLists, o.key = .ofClassList false o.classList) ∧
    let state := generateAll letterTable.compile permutedLists empty
      (.new "twk-" 9 (some NameResolver.alwaysCard) (.ofSeed 0))
    state.1.rules.lookup ⟨"a b"⟩ = some (.block (formatBlock "twk-card" "b a" "y: 2;\n  x: 1;")) ∧
      state.1.rules.lookup ⟨"card"⟩ = some .noCss ∧ state.2.calls = [⟨some "div", "b a"⟩] ∧
      InStep letterTable permutedLists state.1 state.2 := by
  have hKeys : ∀ o ∈ permutedLists, o.key = .ofClassList false o.classList := by
    have hWords : words "b a" = ["b", "a"] ∧ words "card" = ["card"] ∧
        words "a b" = ["a", "b"] := by decide +kernel
    simp [permutedLists, CanonicalKey.ofClassList, CanonicalKey.sortedWords, hWords, join,
      List.mergeSort]
  refine ⟨hKeys, ?_⟩
  intro state
  obtain ⟨hInStep, -, -⟩ := inStep_generateAll letterTable "twk-" 9 (some NameResolver.alwaysCard)
    (.ofSeed 0) hKeys
  have hNames : state.2.nameFor? ⟨"a b"⟩ = some "twk-card" ∧ state.2.nameFor? ⟨"card"⟩ = none ∧
      state.2.calls = [⟨some "div", "b a"⟩] := by decide +kernel
  have hRule := hInStep.rule_eq ⟨"a.html", "b a", ⟨"a b"⟩, 10, 3, some "div"⟩ "twk-card" rfl
    hNames.1
  have hPlain := hInStep.plain_eq ⟨"a.html", "card", ⟨"card"⟩, 30, 4, none⟩ (by decide +kernel)
    hNames.2.1
  exact ⟨hRule, hPlain, hNames.2.2, hInStep⟩

end ClassCollapse.RuleBook
