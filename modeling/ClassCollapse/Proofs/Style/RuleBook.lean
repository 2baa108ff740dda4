import ClassCollapse.Proofs.Naming.Uniqueness
import ClassCollapse.Style.RuleBook

/-!
# The first occurrence of a key decides

After rules were generated for a list of occurrences, the book and the resolver hold for each key
what its first occurrence in the list asked for: a rule and a name if its class list compiles to
something, and neither otherwise. Later occurrences of the key change nothing.
-/

namespace ClassCollapse.RuleBook

/-- What the book and the resolver hold for a key whose first occurrence is given. -/
inductive Held (compile : Compiler) : Option Occurrence → Option KeyCss → Option String → Prop
  | unseen : Held compile none none none
  | plain (o : Occurrence) (hEmpty : (Text.trim (compile o.classList)).isEmpty = true) :
    Held compile (some o) (some .noCss) none
  | styled (o : Occurrence) (hEmpty : (Text.trim (compile o.classList)).isEmpty = false)
    (name : String) :
    Held compile (some o)
      (some (.block (formatBlock name o.classList (Text.trim (compile o.classList))))) (some name)

/-- The book and the resolver hold for every key what its first occurrence asked for. -/
structure Follows (compile : Compiler) (os : List Occurrence) (book : RuleBook)
    (resolver : NameResolver) : Prop where
  sound : resolver.Sound
  held : ∀ key, Held compile (os.find? fun o => o.key = key) (book.rules.lookup key)
    (resolver.nameFor? key)

theorem follows_empty (compile : Compiler) {resolver : NameResolver} (h : resolver.Sound)
    (hNames : resolver.names = []) : Follows compile [] empty resolver where
  sound := h
  held key := by
    rw [NameResolver.nameFor?, hNames]
    exact .unseen

theorem Held.isSome_eq {compile : Compiler} {first : Option Occurrence} {css : Option KeyCss}
    {name : Option String} (h : Held compile first css name) : first.isSome = css.isSome := by
  cases h <;> rfl

theorem Held.unnamed {compile : Compiler} {css : Option KeyCss} {name : Option String}
    (h : Held compile none css name) : name = none := by
  cases h
  rfl

theorem find?_concat (os : List Occurrence) (o : Occurrence) (key : CanonicalKey) :
    ((os ++ [o]).find? fun o => o.key = key) =
      (os.find? fun o => o.key = key).or (if o.key = key then some o else none) := by
  rw [List.find?_append, List.find?_singleton]
  by_cases h : o.key = key <;> simp [h]

theorem generate_known {compile : Compiler} {o : Occurrence} {book : RuleBook} {css : KeyCss}
    (h : book.rules.lookup o.key = some css) (resolver : NameResolver) :
    generate compile o book resolver = (css, book, resolver) := by
  rw [generate, h]

theorem generate_new {compile : Compiler} {o : Occurrence} {book : RuleBook}
    {resolver resolver' : NameResolver} {css : KeyCss} (h : book.rules.lookup o.key = none)
    (hNew : generateNew compile o resolver = (css, resolver')) :
    generate compile o book resolver = (css, ⟨book.rules ++ [(o.key, css)]⟩, resolver') := by
  rw [generate, h, hNew]

/-- A call answers what the book holds, or it adds what a new key gets. -/
theorem generate_cases (compile : Compiler) (o : Occurrence) (book : RuleBook)
    (resolver : NameResolver) :
    (∃ css, book.rules.lookup o.key = some css ∧
      generate compile o book resolver = (css, book, resolver)) ∨
    ∃ css resolver', book.rules.lookup o.key = none ∧
      generateNew compile o resolver = (css, resolver') ∧
      generate compile o book resolver = (css, ⟨book.rules ++ [(o.key, css)]⟩, resolver') := by
  cases hKnown : book.rules.lookup o.key with
  | some css => exact .inl ⟨css, rfl, generate_known hKnown resolver⟩
  | none => exact .inr ⟨_, _, rfl, rfl, generate_new hKnown rfl⟩

theorem generateNew_noCss {compile : Compiler} {o : Occurrence}
    (h : (Text.trim (compile o.classList)).isEmpty = true) (resolver : NameResolver) :
    generateNew compile o resolver = (.noCss, resolver) := by
  simp only [generateNew, h, if_true]

theorem generateNew_block {compile : Compiler} {o : Occurrence}
    (h : (Text.trim (compile o.classList)).isEmpty = false) (resolver : NameResolver) :
    generateNew compile o resolver =
      (.block (formatBlock (resolver.assign o.key o.tag o.classList).1 o.classList
        (Text.trim (compile o.classList))), (resolver.assign o.key o.tag o.classList).2) := by
  simp only [generateNew, h, Bool.false_eq_true, if_false]

/-- What is generated for a new key, and what the resolver knows afterwards. -/
theorem generateNew_held {compile : Compiler} {o : Occurrence} {resolver resolver' : NameResolver}
    {css : KeyCss} (hr : resolver.Sound) (h : resolver.nameFor? o.key = none)
    (hNew : generateNew compile o resolver = (css, resolver')) :
    resolver'.Sound ∧ Held compile (some o) (some css) (resolver'.nameFor? o.key) ∧
      ∀ key, key ≠ o.key → resolver'.nameFor? key = resolver.nameFor? key := by
  cases hEmpty : (Text.trim (compile o.classList)).isEmpty with
  | true =>
    rw [generateNew_noCss hEmpty] at hNew
    cases hNew
    rw [h]
    refine ⟨hr, ?_, ?_⟩
    · exact .plain o hEmpty
    · intro key _
      rfl
  | false =>
    rw [generateNew_block hEmpty] at hNew
    cases hNew
    obtain ⟨hNames, _, _⟩ := NameResolver.assign_new hr h o.tag o.classList
    have hLookup : ∀ key, (resolver.assign o.key o.tag o.classList).2.nameFor? key =
        (resolver.nameFor? key).or
          (if key == o.key then some (resolver.assign o.key o.tag o.classList).1 else none) := by
      intro key
      rw [NameResolver.nameFor?, hNames, lookup_append_singleton]
      rfl
    refine ⟨NameResolver.sound_assign hr _ _ _, ?_, ?_⟩
    · rw [hLookup, h, Option.none_or, if_pos BEq.rfl]
      exact .styled o hEmpty _
    · intro key hne
      rw [hLookup, if_neg (by simpa using hne), Option.or_none]

/-- A key without an entry was not seen and has no name. -/
theorem Follows.of_unknown {compile : Compiler} {os : List Occurrence} {book : RuleBook}
    {resolver : NameResolver} (h : Follows compile os book resolver) {key : CanonicalKey}
    (hNone : book.rules.lookup key = none) :
    (os.find? fun o => o.key = key) = none ∧ resolver.nameFor? key = none := by
  have hHeld := h.held key
  have hUnseen := hHeld.isSome_eq
  rw [hNone, Option.isSome_none, Option.isSome_eq_false_iff, Option.isNone_iff_eq_none] at hUnseen
  rw [hUnseen] at hHeld
  exact ⟨hUnseen, hHeld.unnamed⟩

theorem follows_generate {compile : Compiler} {os : List Occurrence} {book : RuleBook}
    {resolver : NameResolver} (h : Follows compile os book resolver) (o : Occurrence) :
    Follows compile (os ++ [o]) (generate compile o book resolver).2.1
      (generate compile o book resolver).2.2 := by
  obtain ⟨css, hKnown, hSame⟩ | ⟨css, resolver', hKnown, hNew, hAdded⟩ :=
    generate_cases compile o book resolver
  · rw [hSame]
    refine ⟨h.sound, fun key => ?_⟩
    rw [find?_concat]
    by_cases hKey : o.key = key
    · have hFirst := (h.held o.key).isSome_eq
      rw [hKnown, hKey] at hFirst
      obtain ⟨first, hSome⟩ := Option.isSome_iff_exists.mp hFirst
      have hHeld := h.held key
      rw [hSome] at hHeld ⊢
      exact hHeld
    · rw [if_neg hKey, Option.or_none]
      exact h.held key
  · obtain ⟨hUnseen, hUnnamed⟩ := h.of_unknown hKnown
    obtain ⟨hSound, hHeld, hOther⟩ := generateNew_held h.sound hUnnamed hNew
    rw [hAdded]
    refine ⟨hSound, fun key => ?_⟩
    rw [find?_concat, lookup_append_singleton]
    by_cases hKey : o.key = key
    · subst hKey
      rw [hUnseen, hKnown, if_pos rfl, if_pos BEq.rfl, Option.none_or, Option.none_or]
      exact hHeld
    · have hBeq : ¬(key == o.key) = true := by simpa using Ne.symm hKey
      rw [if_neg hKey, if_neg hBeq, Option.or_none, Option.or_none, hOther key (Ne.symm hKey)]
      exact h.held key

end ClassCollapse.RuleBook
