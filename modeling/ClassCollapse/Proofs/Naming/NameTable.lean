import ClassCollapse.Proofs.Naming.Spelling

/-!
# The table of names after any requests

Whatever is asked for, and whatever a strategy answers, a resolver keeps one name for each key and
one key for each name, all names begin with the prefix, and a name that was given is given again
without any other effect.
-/

namespace ClassCollapse.NameResolver

/-- A request for the name of a key, with the tag and the class list of the occurrence that asks. -/
structure NameRequest where
  key : CanonicalKey
  tag : Option String
  classList : String

def assignAll (requests : List NameRequest) (r : NameResolver) : NameResolver :=
  requests.foldl (fun r q => (r.assign q.key q.tag q.classList).2) r

/-- The tables are inverse to each other, and every name is the prefix and a text after it. -/
structure Tabled (r : NameResolver) : Prop where
  sound : r.Sound
  spelled : ∀ entry ∈ r.names, ∃ body, entry.2 = r.namePrefix ++ body ∧ IsNameText body

theorem tabled_new (namePrefix : String) (maxInvocations : Nat) (strategy : Option NamingStrategy)
    (random : RandomSource) : (new namePrefix maxInvocations strategy random).Tabled where
  sound := sound_new namePrefix maxInvocations strategy random
  spelled := by
    intro entry hEntry
    cases hEntry

theorem namePrefix_assign (r : NameResolver) (key : CanonicalKey) (tag : Option String)
    (classList : String) : (r.assign key tag classList).2.namePrefix = r.namePrefix := by
  obtain ⟨calls, invocations, random, hState⟩ := resolveBody_state tag classList r
  rw [assign]
  split
  · rfl
  · dsimp only
    rw [hState]

theorem Tabled.assign {r : NameResolver} (h : r.Tabled) (key : CanonicalKey) (tag : Option String)
    (classList : String) : (r.assign key tag classList).2.Tabled where
  sound := sound_assign h.sound key tag classList
  spelled := by
    rw [namePrefix_assign]
    cases hKnown : r.nameFor? key with
    | some name =>
      rw [assign_known hKnown]
      exact h.spelled
    | none =>
      rw [(assign_new h.sound hKnown tag classList).1]
      intro entry hEntry
      rcases List.mem_append.mp hEntry with hOld | hNew
      · exact h.spelled entry hOld
      · rw [List.mem_singleton.mp hNew]
        exact assign_eq_append hKnown tag classList

/-- The names are tabled and start with this prefix. -/
structure TabledWith (namePrefix : String) (r : NameResolver) : Prop where
  tabled : r.Tabled
  namePrefix_eq : r.namePrefix = namePrefix

theorem tabledWith_new (namePrefix : String) (maxInvocations : Nat)
    (strategy : Option NamingStrategy) (random : RandomSource) :
    (new namePrefix maxInvocations strategy random).TabledWith namePrefix :=
  ⟨tabled_new namePrefix maxInvocations strategy random, rfl⟩

theorem TabledWith.assign {namePrefix : String} {r : NameResolver} (h : r.TabledWith namePrefix)
    (key : CanonicalKey) (tag : Option String) (classList : String) :
    (r.assign key tag classList).2.TabledWith namePrefix :=
  ⟨h.tabled.assign key tag classList, (namePrefix_assign r key tag classList).trans h.namePrefix_eq⟩

/-- With a valid prefix the names are spelled like names. -/
theorem TabledWith.isNameText {r : NameResolver} {config : ProjectConfig}
    (h : r.TabledWith config.naming.namePrefix) (hValid : config.validate = .ok ()) :
    ∀ entry ∈ r.names, IsNameText entry.2 := by
  intro entry hEntry
  obtain ⟨body, hBody, hText⟩ := h.tabled.spelled entry hEntry
  rw [hBody, h.namePrefix_eq]
  exact hText.prepend (isSpelled_of_validate hValid)

/-! ## Keeping what was given -/

/-- Whoever asks, the name that a key has stays. -/
theorem nameFor?_assign_of_known {r : NameResolver} (h : r.Sound) {key : CanonicalKey}
    {name : String} (hKnown : r.nameFor? key = some name) (other : CanonicalKey)
    (tag : Option String) (classList : String) :
    (r.assign other tag classList).2.nameFor? key = some name := by
  cases hOther : r.nameFor? other with
  | some held =>
    rw [assign_known hOther]
    exact hKnown
  | none =>
    rw [nameFor?, (assign_new h hOther tag classList).1, lookup_append_singleton]
    rw [nameFor?] at hKnown
    rw [hKnown, Option.some_or]

theorem nameFor?_assign_self {r : NameResolver} (h : r.Sound) (key : CanonicalKey)
    (tag : Option String) (classList : String) :
    (r.assign key tag classList).2.nameFor? key = some (r.assign key tag classList).1 := by
  cases hKnown : r.nameFor? key with
  | some name =>
    rw [assign_known hKnown]
    exact hKnown
  | none =>
    rw [nameFor?] at hKnown
    rw [nameFor?, (assign_new h hKnown tag classList).1, lookup_append_singleton, hKnown,
      Option.none_or, if_pos BEq.rfl]

theorem Sound.lookup_owners_iff {r : NameResolver} (h : r.Sound) (name : String)
    (key : CanonicalKey) : r.owners.lookup name = some key ↔ r.nameFor? key = some name := by
  have hOwners : (r.owners.map Prod.fst).Nodup := h.owned_names ▸ h.names_nodup
  rw [lookup_eq_some_iff_mem hOwners, nameFor?, lookup_eq_some_iff_mem h.keys_nodup, h.owners_eq]
  constructor
  · intro hMem
    obtain ⟨entry, hEntry, hSwap⟩ := List.mem_map.mp hMem
    cases hSwap
    exact hEntry
  · intro hMem
    exact List.mem_map.mpr ⟨(key, name), hMem, rfl⟩

/-- What every request keeps, requests keep. -/
theorem assignAll_induction {P : NameResolver → Prop}
    (hStep : ∀ r key tag classList, P r → P (r.assign key tag classList).2)
    (requests : List NameRequest) {r : NameResolver} (h : P r) : P (assignAll requests r) := by
  induction requests generalizing r with
  | nil => exact h
  | cons q requests ih => exact ih (hStep r q.key q.tag q.classList h)

theorem tabled_assignAll {r : NameResolver} (h : r.Tabled) (requests : List NameRequest) :
    (assignAll requests r).Tabled :=
  assignAll_induction (fun _ key tag classList h => h.assign key tag classList) requests h

theorem nameFor?_assignAll_of_known {r : NameResolver} (h : r.Sound) {key : CanonicalKey}
    {name : String} (hKnown : r.nameFor? key = some name) (requests : List NameRequest) :
    (assignAll requests r).nameFor? key = some name :=
  (assignAll_induction (P := fun r => r.Sound ∧ r.nameFor? key = some name)
    (fun _ other tag classList hr => ⟨sound_assign hr.1 other tag classList,
      nameFor?_assign_of_known hr.1 hr.2 other tag classList⟩) requests ⟨h, hKnown⟩).2

/-- After any requests to a new resolver with a valid prefix: no two keys hold one name; the owners
of the names are the inverse of the names of the keys; each name is the prefix and a text that can
be a name, and so is the whole; and the name that a request yields is what every later request for
the key yields, whatever was asked in between, and such a request leaves the resolver as it is. -/
theorem tables_assignAll {config : ProjectConfig} (hValid : config.validate = .ok ())
    (maxInvocations : Nat) (strategy : Option NamingStrategy) (random : RandomSource)
    (requests : List NameRequest) :
    let r := assignAll requests (new config.naming.namePrefix maxInvocations strategy random)
    (∀ key other name, r.nameFor? key = some name → r.nameFor? other = some name → key = other) ∧
    (∀ name key, r.owners.lookup name = some key ↔ r.nameFor? key = some name) ∧
    (∀ key name, r.nameFor? key = some name → IsNameText name ∧
      ∃ body, name = config.naming.namePrefix ++ body ∧ IsNameText body) ∧
    (∀ key tag classList, (r.assign key tag classList).2.nameFor? key =
      some (r.assign key tag classList).1) ∧
    ∀ key name, r.nameFor? key = some name → ∀ later tag classList,
      (assignAll later r).assign key tag classList = (name, assignAll later r) := by
  intro r
  have hTabled : r.Tabled := tabled_assignAll (tabled_new _ _ _ _) requests
  have hPrefix : r.namePrefix = config.naming.namePrefix :=
    assignAll_induction (P := fun r => r.namePrefix = config.naming.namePrefix)
      (fun r key tag classList h => (namePrefix_assign r key tag classList).trans h) requests rfl
  refine ⟨?_, hTabled.sound.lookup_owners_iff, ?_, nameFor?_assign_self hTabled.sound, ?_⟩
  · intro key other name hKey hOther
    exact hTabled.sound.nameFor?_injective hKey hOther
  · intro key name hName
    obtain ⟨body, hBody, hText⟩ := hTabled.spelled (key, name) (mem_of_lookup_eq_some hName)
    rw [hPrefix] at hBody
    refine ⟨?_, body, hBody, hText⟩
    have hWhole : name = config.naming.namePrefix ++ body := hBody
    rw [hWhole]
    exact hText.prepend (isSpelled_of_validate hValid)
  · intro key name hName later tag classList
    exact assign_known (nameFor?_assignAll_of_known hTabled.sound hName later) tag classList

/-- A strategy that answers the same to every call. -/
def alwaysCard : NamingStrategy := fun _ _ => .ok "<result>card</result>"

def cardRequests : List NameRequest :=
  [⟨⟨"a b"⟩, none, "a b"⟩, ⟨⟨"c d"⟩, some "div", "d c"⟩, ⟨⟨"card"⟩, none, "card"⟩]

/-- Three keys want one name. -/
theorem tables_assignAll_cardRequests :
    let r := assignAll cardRequests (new "twk-" 9 (some alwaysCard) (.ofSeed 0))
    ProjectConfig.validate {} = .ok () ∧ r.nameFor? ⟨"a b"⟩ = some "twk-card" ∧
      r.owners.lookup "twk-card" = some ⟨"a b"⟩ ∧ r.invocations = 2 ∧
      r.assign ⟨"a b"⟩ (some "p") "b a" = ("twk-card", r) ∧ r.nameFor? ⟨"c d"⟩ ≠ some "twk-card" := by
  intro r
  have hValid : ProjectConfig.validate {} = .ok () := rfl
  obtain ⟨hApart, hOwners, _, _, hAgain⟩ :=
    tables_assignAll hValid 9 (some alwaysCard) (.ofSeed 0) cardRequests
  have hName : r.nameFor? ⟨"a b"⟩ = some "twk-card" := by decide +kernel
  refine ⟨hValid, hName, (hOwners _ _).mpr hName, by decide +kernel, ?_, ?_⟩
  · exact hAgain _ _ hName [] (some "p") "b a"
  · intro hOther
    exact absurd (hApart _ _ _ hName hOther) (by decide)

end ClassCollapse.NameResolver
