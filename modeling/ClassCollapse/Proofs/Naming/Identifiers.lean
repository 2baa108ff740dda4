import ClassCollapse.Proofs.Naming.Budget
import ClassCollapse.Style.RuleBook

/-!
# Names as class selectors

A selector takes a name for a class if the name is an identifier, which depends on its first two
characters. The first characters of a name are those of the prefix. So a resolver gives identifiers
only exactly if its prefix is one. With the empty prefix or a single `-`, what follows decides for
each name.
-/

namespace ClassCollapse

open Naming

/-- A text that a selector can take for the name of a class. -/
structure IsIdentifier (s : String) : Prop where
  spelled : IsSpelled s
  nonempty : s ≠ ""
  no_digit : ∀ c rest, s.toList = c :: rest → c.isDigit = false
  no_dash_digit : ∀ c rest, s.toList = '-' :: c :: rest → c.isDigit = false
  ne_dash : s ≠ "-"

/-- Whether the first characters of a text are those of an identifier. -/
def opensIdentifier : List Char → Bool
  | [] => false
  | c :: cs =>
    if c = '-' then
      match cs with
      | [] => false
      | d :: _ => !d.isDigit
    else !c.isDigit

theorem isIdentifier_iff {s : String} :
    IsIdentifier s ↔ IsSpelled s ∧ opensIdentifier s.toList = true := by
  constructor
  · intro h
    refine ⟨h.spelled, ?_⟩
    cases hChars : s.toList with
    | nil => exact absurd (String.toList_eq_nil_iff.mp hChars) h.nonempty
    | cons c cs =>
      rw [opensIdentifier.eq_def]
      dsimp only
      split
      next hDash =>
        subst hDash
        cases cs with
        | nil => exact absurd (String.toList_injective hChars) h.ne_dash
        | cons d rest => simp [h.no_dash_digit d rest hChars]
      next => simp [h.no_digit c cs hChars]
  · rintro ⟨hSpelled, hOpens⟩
    have hDash : '-'.isDigit = false := by decide
    refine ⟨hSpelled, ?_, ?_, ?_, ?_⟩
    · rintro rfl
      cases hOpens
    · intro c rest hChars
      rw [hChars, opensIdentifier.eq_def] at hOpens
      dsimp only at hOpens
      split at hOpens
      next hIs => rw [hIs, hDash]
      next => simpa using hOpens
    · intro c rest hChars
      rw [hChars] at hOpens
      simpa [opensIdentifier] using hOpens
    · rintro rfl
      cases hOpens

instance (s : String) : Decidable (IsIdentifier s) :=
  decidable_of_iff ((s.toList.all isNameCharacter && opensIdentifier s.toList) = true)
    (by rw [isIdentifier_iff, Bool.and_eq_true, List.all_eq_true, IsSpelled])

theorem opensIdentifier_append {front back : List Char} (hEmpty : front ≠ []) (hDash : front ≠ ['-']) :
    opensIdentifier (front ++ back) = opensIdentifier front := by
  cases front with
  | nil => exact absurd rfl hEmpty
  | cons c front =>
    cases front with
    | nil =>
      have hOther : c ≠ '-' := fun hIs => hDash (by rw [hIs])
      simp [opensIdentifier, hOther]
    | cons d front => rfl

/-- Whether a text after a prefix makes an identifier is decided by the prefix, unless this is empty
or a single dash. -/
theorem isIdentifier_append_iff {front back : String} (hFront : IsSpelled front)
    (hBack : IsNameText back) :
    IsIdentifier (front ++ back) ↔
      IsIdentifier front ∨ (front = "" ∧ IsIdentifier back) ∨
        (front = "-" ∧ ∀ c rest, back.toList = c :: rest → c.isDigit = false) := by
  have hSpelled : IsSpelled (front ++ back) := (hBack.prepend hFront).spelled
  by_cases hEmpty : front = ""
  · subst hEmpty
    have hNot : ¬IsIdentifier "" := by decide
    simp [hNot]
  by_cases hDash : front = "-"
  · subst hDash
    have hNot : ¬IsIdentifier "-" := by decide
    have hChars : ("-" ++ back).toList = '-' :: back.toList := String.toList_append
    rw [isIdentifier_iff, hChars]
    cases hCons : back.toList with
    | nil => exact absurd (String.toList_eq_nil_iff.mp hCons) hBack.nonempty
    | cons c rest => simp [hNot, hSpelled, opensIdentifier]
  · have hOpens : opensIdentifier (front ++ back).toList = opensIdentifier front.toList := by
      rw [String.toList_append]
      refine opensIdentifier_append ?_ ?_
      · exact fun hNil => hEmpty (String.toList_eq_nil_iff.mp hNil)
      · exact fun hChars => hDash (String.toList_injective hChars)
    rw [isIdentifier_iff, isIdentifier_iff, hOpens]
    simp [hSpelled, hFront, hEmpty, hDash]

/-- The first word of a rule is the selector of its name. -/
theorem head?_words_formatBlock {name : String} (h : IsNameText name) (classList css : String) :
    (Text.words (RuleBook.formatBlock name classList css)).head? = some ("." ++ name) := by
  have hDot : Text.isBlank '.' = false := by decide
  have hSpace : Text.isBlank ' ' = true := by decide
  have hChars : ("." ++ name).toList = '.' :: name.toList := String.toList_append
  have hSelector : Text.IsWord ("." ++ name).toList := hChars ▸ h.isWord.cons hDot
  have hBlock : (RuleBook.formatBlock name classList css).toList = ("." ++ name).toList ++
      ' ' :: ("\x7b\n  /* generated from: " ++ classList ++ " */\n  " ++ css ++ "\n\x7d").toList := by
    simp [RuleBook.formatBlock]
  rw [Text.words, hBlock, Text.wordsOf_word_append hSelector hSpace, List.map_cons, List.head?_cons,
    String.ofList_toList]

namespace NameResolver

/-- The name that a new resolver has given to a key after requests. -/
def nameAfter? (namePrefix : String) (maxInvocations : Nat) (strategy : Option NamingStrategy)
    (random : RandomSource) (requests : List NameRequest) (key : CanonicalKey) : Option String :=
  (assignAll requests (new namePrefix maxInvocations strategy random)).nameFor? key

/-- The only word of a class list follows the prefix, also where it is a digit. -/
theorem nameAfter?_digit (namePrefix : String) (maxInvocations : Nat)
    (strategy : Option NamingStrategy) (random : RandomSource) :
    nameAfter? namePrefix maxInvocations strategy random [⟨⟨"0"⟩, none, "0"⟩] ⟨"0"⟩ =
      some (namePrefix ++ "0") := by
  have hOwn : ownName? "0" = some "0" := by decide
  have hBody : resolveBody none "0" (new namePrefix maxInvocations strategy random) =
      ("0", new namePrefix maxInvocations strategy random) := by
    rw [resolveBody, hOwn]
  have hName : ((new namePrefix maxInvocations strategy random).assign ⟨"0"⟩ none "0").1 =
      namePrefix ++ "0" := by
    have hNew : (new namePrefix maxInvocations strategy random).nameFor? ⟨"0"⟩ = none := rfl
    rw [assign, hNew, hBody]
    rfl
  rw [nameAfter?, assignAll, List.foldl_cons, List.foldl_nil,
    nameFor?_assign_self (sound_new _ _ _ _), hName]

/-- With a valid prefix every rule selects the class of its name, which is the prefix and a text that
can be a name. The name is an identifier exactly if the prefix is one, or the prefix is empty and the
text after it is one, or the prefix is a dash and no digit follows. All names that a resolver can be
made to give are identifiers exactly if the prefix is one. -/
theorem isIdentifier_names_iff {config : ProjectConfig} (hValid : config.validate = .ok ())
    (maxInvocations : Nat) (strategy : Option NamingStrategy) (random : RandomSource) :
    let namePrefix := config.naming.namePrefix
    let given? := nameAfter? namePrefix maxInvocations strategy random
    (∀ requests key name, given? requests key = some name →
      (∀ classList css,
        (Text.words (RuleBook.formatBlock name classList css)).head? = some ("." ++ name)) ∧
      ∃ body, name = namePrefix ++ body ∧ IsNameText body ∧
        (IsIdentifier name ↔ IsIdentifier namePrefix ∨ (namePrefix = "" ∧ IsIdentifier body) ∨
          (namePrefix = "-" ∧ ∀ c rest, body.toList = c :: rest → c.isDigit = false))) ∧
    ((∀ requests key name, given? requests key = some name → IsIdentifier name) ↔
      IsIdentifier namePrefix) := by
  intro namePrefix given?
  have hPrefix : IsSpelled namePrefix := isSpelled_of_validate hValid
  have hTabled : ∀ requests, (assignAll requests
      (new namePrefix maxInvocations strategy random)).Tabled :=
    fun requests => tabled_assignAll (tabled_new _ _ _ _) requests
  have hNamed : ∀ requests key name, given? requests key = some name →
      ∃ body, name = namePrefix ++ body ∧ IsNameText body := by
    intro requests key name hName
    obtain ⟨body, hBody, hText⟩ :=
      (hTabled requests).spelled (key, name) (mem_of_lookup_eq_some hName)
    rw [(settings_assignAll requests _).1] at hBody
    exact ⟨body, hBody, hText⟩
  constructor
  · intro requests key name hName
    obtain ⟨body, rfl, hText⟩ := hNamed requests key name hName
    exact ⟨head?_words_formatBlock (hText.prepend hPrefix), body, rfl, hText,
      isIdentifier_append_iff hPrefix hText⟩
  · constructor
    · intro hAll
      have hDigit := hAll _ _ _ (nameAfter?_digit namePrefix maxInvocations strategy random)
      have hZero : IsNameText "0" := ⟨by decide, List.all_eq_true.mp (by decide)⟩
      rcases (isIdentifier_append_iff hPrefix hZero).mp hDigit with hIs | ⟨_, hIs⟩ | ⟨_, hNone⟩
      · exact hIs
      · exact absurd hIs (by decide)
      · exact absurd (hNone '0' [] rfl) (by decide)
    · intro hIs requests key name hName
      obtain ⟨body, rfl, hText⟩ := hNamed requests key name hName
      exact (isIdentifier_append_iff hPrefix hText).mpr (.inl hIs)

def dashConfig : ProjectConfig :=
  { naming := { namePrefix := "-" } }

def dashRequests : List NameRequest :=
  [⟨⟨"p q"⟩, none, "p q"⟩, ⟨⟨"x2"⟩, some "b", "x2"⟩]

/-- After a dash a word makes an identifier and a digest that starts with a digit does not. -/
theorem isIdentifier_dashRequests :
    dashConfig.validate = .ok () ∧
      nameAfter? "-" 9 none (.ofSeed 0) dashRequests ⟨"p q"⟩ = some "-99ad13d4801" ∧
      ¬IsIdentifier "-99ad13d4801" ∧
      nameAfter? "-" 9 none (.ofSeed 0) dashRequests ⟨"x2"⟩ = some "-x2" ∧ IsIdentifier "-x2" := by
  have hValid : dashConfig.validate = .ok () := rfl
  obtain ⟨hNames, _⟩ := isIdentifier_names_iff hValid 9 none (.ofSeed 0)
  have hEvaluated : nameAfter? "-" 9 none (.ofSeed 0) dashRequests ⟨"p q"⟩ = some "-99ad13d4801" ∧
      nameAfter? "-" 9 none (.ofSeed 0) dashRequests ⟨"x2"⟩ = some "-x2" := by
    decide +kernel
  obtain ⟨hDigest, hWord⟩ := hEvaluated
  refine ⟨hValid, hDigest, ?_, hWord, ?_⟩
  · obtain ⟨_, body, hBody, _, hIff⟩ := hNames _ _ _ hDigest
    have hRest : "99ad13d4801" = body := String.append_right_inj "-" |>.mp hBody
    intro hIs
    rcases hIff.mp hIs with hAlone | ⟨hEmpty, _⟩ | ⟨_, hNone⟩
    · exact absurd hAlone (by decide)
    · exact absurd hEmpty (by decide)
    · have hFirst : body.toList = '9' :: "9ad13d4801".toList := by
        rw [← hRest]
        rfl
      exact absurd (hNone '9' _ hFirst) (by decide)
  · obtain ⟨_, body, hBody, _, hIff⟩ := hNames _ _ _ hWord
    have hRest : "x2" = body := String.append_right_inj "-" |>.mp hBody
    refine hIff.mpr (.inr (.inr ⟨rfl, ?_⟩))
    rw [← hRest]
    rintro c rest ⟨⟩
    decide

def bareConfig : ProjectConfig :=
  { naming := { namePrefix := "" } }

/-- It is not so that a valid prefix makes every name an identifier. -/
theorem not_forall_isIdentifier :
    ¬∀ (config : ProjectConfig) (maxInvocations : Nat) (strategy : Option NamingStrategy)
      (random : RandomSource) (requests : List NameRequest) (key : CanonicalKey) (name : String),
      config.validate = .ok () →
      (assignAll requests (new config.naming.namePrefix maxInvocations strategy random)).nameFor?
        key = some name → IsIdentifier name := by
  intro hAll
  have hName : (assignAll [⟨⟨"4x"⟩, none, "4x"⟩] (new "" 9 none (.ofSeed 0))).nameFor? ⟨"4x"⟩ =
      some "4x" := by
    decide +kernel
  exact absurd (hAll bareConfig 9 none (.ofSeed 0) _ _ _ rfl hName) (by decide)

end NameResolver

end ClassCollapse
