import ClassCollapse.Config.Error
import ClassCollapse.Proofs.Naming.Uniqueness
import ClassCollapse.Proofs.Text.Characters
import ClassCollapse.Proofs.Text.Words

/-!
# How names are spelled

Whatever the sources of a name say, the part after the prefix consists of letters, digits, `-` and
`_`, and it is not empty. That holds of the only word of a class list, of an answer, of a digest with
a number, and of the suffixes that set a name apart.
-/

namespace ClassCollapse

open Naming

/-- Every character can stand in a name. -/
def IsSpelled (s : String) : Prop :=
  ∀ c ∈ s.toList, isNameCharacter c = true

/-- A text that can be a name, or the part of it after a prefix. -/
structure IsNameText (s : String) : Prop where
  nonempty : s ≠ ""
  spelled : IsSpelled s

theorem IsSpelled.append {s t : String} (h : IsSpelled s) (h' : IsSpelled t) :
    IsSpelled (s ++ t) := by
  intro c hc
  rw [String.toList_append, List.mem_append] at hc
  rcases hc with hFront | hBack
  · exact h c hFront
  · exact h' c hBack

theorem IsNameText.append {s t : String} (h : IsNameText s) (h' : IsSpelled t) :
    IsNameText (s ++ t) := by
  refine ⟨?_, h.spelled.append h'⟩
  intro hEmpty
  apply h.nonempty
  exact (String.append_eq_empty_iff.mp hEmpty).1

theorem IsNameText.prepend {s t : String} (h : IsNameText t) (h' : IsSpelled s) :
    IsNameText (s ++ t) := by
  refine ⟨?_, h'.append h.spelled⟩
  intro hEmpty
  apply h.nonempty
  exact (String.append_eq_empty_iff.mp hEmpty).2

/-! ## Names as words -/

theorem isBlank_of_isNameCharacter {c : Char} (h : isNameCharacter c = true) :
    Text.isBlank c = false := by
  have hAscii : c.toNat < 128 := by
    simp only [isNameCharacter, Bool.or_eq_true, Bool.and_eq_true, decide_eq_true_eq,
      beq_iff_eq] at h
    rcases h with (((⟨_, hTop⟩ | ⟨_, hTop⟩) | ⟨_, hTop⟩) | rfl) | rfl
    · exact Nat.lt_of_le_of_lt hTop (by decide)
    · exact Nat.lt_of_le_of_lt hTop (by decide)
    · exact Nat.lt_of_le_of_lt hTop (by decide)
    · decide
    · decide
  exact Text.forall_ascii (P := fun c => isNameCharacter c = true → Text.isBlank c = false)
    (by decide) hAscii h

/-- A name is one word. -/
theorem IsNameText.isWord {s : String} (h : IsNameText s) : Text.IsWord s.toList := by
  refine ⟨fun hNil => h.nonempty (String.toList_eq_nil_iff.mp hNil), ?_⟩
  intro c hc
  exact isBlank_of_isNameCharacter (h.spelled c hc)

/-! ## Digests and numbers -/

theorem isNameCharacter_of_isDigit {c : Char} (h : c.isDigit = true) :
    isNameCharacter c = true := by
  simp only [Char.isDigit, Bool.and_eq_true, decide_eq_true_eq] at h
  have hRange : '0' ≤ c ∧ c ≤ '9' := h
  simp [isNameCharacter, hRange]

theorem isSpelled_toString (n : Nat) : IsSpelled (toString n) := by
  intro c hc
  rw [Nat.toString_eq_repr, Nat.toList_repr] at hc
  exact isNameCharacter_of_isDigit (Nat.isDigit_of_mem_toDigits (by decide) (by decide) hc)

theorem isNameCharacter_hexDigit {n : Nat} (h : n < 16) :
    isNameCharacter (Text.hexDigit n) = true := by
  have hAll : ∀ k : Fin 16, isNameCharacter (Text.hexDigit k) = true := by decide
  exact hAll ⟨n, h⟩

theorem isNameText_shortDigest (s : String) : IsNameText (shortDigest s) := by
  have hChars : (shortDigest s).toList =
      ((Digest.ofText s).bytes.toList.flatMap Digest.hexPair).take 8 := by
    rw [shortDigest, Digest.short, Digest.toHex, String.toList_ofList, String.toList_ofList]
  constructor
  · intro hEmpty
    rw [hEmpty] at hChars
    have hBytes : (Digest.ofText s).bytes.toList.length = 16 := Vector.length_toList
    cases hList : (Digest.ofText s).bytes.toList with
    | nil =>
      rw [hList] at hBytes
      cases hBytes
    | cons b rest =>
      rw [hList, List.flatMap_cons, Digest.hexPair] at hChars
      cases hChars
  · intro c hc
    rw [hChars] at hc
    obtain ⟨b, _, hPair⟩ := List.mem_flatMap.mp (List.mem_of_mem_take hc)
    have hByte := b.toNat_lt
    rw [Digest.hexPair, List.mem_cons, List.mem_singleton] at hPair
    rcases hPair with rfl | rfl
    · exact isNameCharacter_hexDigit (by omega)
    · exact isNameCharacter_hexDigit (by omega)

theorem isSpelled_dash : IsSpelled "-" := by
  have hAll : "-".toList.all isNameCharacter = true := by decide
  exact List.all_eq_true.mp hAll

/-! ## Names -/

theorem isNameText_sanitize {raw : String} (h : (sanitize raw).isEmpty = false) :
    IsNameText (sanitize raw) := by
  constructor
  · intro hEmpty
    rw [hEmpty] at h
    cases h
  · intro c hc
    rw [sanitize, String.toList_ofList] at hc
    exact (List.mem_filter.mp hc).2

/-- A prefix that a configuration may have consists of characters of names. -/
theorem isSpelled_of_validate {config : ProjectConfig} (h : config.validate = .ok ()) :
    IsSpelled config.naming.namePrefix := by
  intro c hc
  rw [ProjectConfig.validate] at h
  split at h
  · cases h
  next hFault =>
    rw [ProjectConfig.fault?] at hFault
    split at hFault
    · cases hFault
    split at hFault
    · cases hFault
    split at hFault
    · cases hFault
    next hNone =>
      have hPrefix : isPrefixCharacter c = true := by simpa using List.find?_eq_none.mp hNone c hc
      delta isPrefixCharacter Char.isAlphanum Char.isAlpha Char.isUpper Char.isLower Char.isDigit
        at hPrefix
      simp only [Bool.or_eq_true, Bool.and_eq_true, decide_eq_true_eq, beq_iff_eq] at hPrefix
      simp only [isNameCharacter, Bool.or_eq_true, Bool.and_eq_true, decide_eq_true_eq, beq_iff_eq]
      -- Both tests name the same ranges in another order.
      rcases hPrefix with (((hUpper | hLower) | hDigit) | hDash) | hUnderscore
      · exact .inl (.inl (.inl (.inr hUpper)))
      · exact .inl (.inl (.inl (.inl hLower)))
      · exact .inl (.inl (.inr hDigit))
      · exact .inl (.inr hDash)
      · exact .inr hUnderscore

namespace NameResolver

theorem isNameText_ownName? {classList body : String} (h : ownName? classList = some body) :
    IsNameText body := by
  rw [ownName?] at h
  split at h
  · cases h
  split at h
  · cases h
  next hSome =>
    rw [← Option.some.inj h]
    exact isNameText_sanitize (by simpa using hSome)

theorem isNameText_requestName {tag : Option String} {classList body : String} {attempts : Nat}
    {r : NameResolver} (h : (requestName tag classList attempts r).1 = some body) :
    IsNameText body := by
  induction attempts generalizing r with
  | zero => cases h
  | succ attempts ih =>
    rw [requestName] at h
    split at h
    · cases h
    split at h
    · cases h
    dsimp only at h
    split at h
    · cases h
    split at h
    · exact ih h
    next hSome =>
      rw [← Option.some.inj h]
      exact isNameText_sanitize (by simpa using hSome)

theorem isNameText_resolveBody (tag : Option String) (classList : String) (r : NameResolver) :
    IsNameText (resolveBody tag classList r).1 := by
  rw [resolveBody]
  split
  next hOwn => exact isNameText_ownName? hOwn
  next =>
    split
    next hAnswer =>
      have hFound := congrArg Prod.fst hAnswer
      exact isNameText_requestName hFound
    next => exact (isNameText_shortDigest classList).append (isSpelled_toString _)

/-- What sets a name apart only extends it. -/
theorem disambiguate_eq_append (owners : List (String × CanonicalKey)) (candidate : String)
    (key : CanonicalKey) (classList : String) :
    ∃ suffix, disambiguate owners candidate key classList = candidate ++ suffix ∧
      IsSpelled suffix := by
  have hHashed : IsSpelled ("-" ++ shortDigest classList) :=
    isSpelled_dash.append (isNameText_shortDigest classList).spelled
  have hNumbered : ∀ i, ∃ suffix,
      numbered (candidate ++ "-" ++ shortDigest classList) i = candidate ++ suffix ∧
        IsSpelled suffix := by
    intro i
    refine ⟨"-" ++ shortDigest classList ++ "-" ++ toString (i + 2), ?_, ?_⟩
    · simp only [numbered, String.append_assoc]
    · exact (hHashed.append isSpelled_dash).append (isSpelled_toString _)
  obtain ⟨last, _, _, _, hName⟩ := exists_disambiguate_eq owners candidate key classList
  rw [hName]
  split
  · exact ⟨"", String.append_empty.symm, fun c hc => by simp at hc⟩
  split
  · exact ⟨"-" ++ shortDigest classList, String.append_assoc .., hHashed⟩
  · exact hNumbered last

/-- A new name is the prefix and a text that can be a name. -/
theorem assign_eq_append {r : NameResolver} {key : CanonicalKey} (h : r.nameFor? key = none)
    (tag : Option String) (classList : String) :
    ∃ body, (r.assign key tag classList).1 = r.namePrefix ++ body ∧ IsNameText body := by
  have hBody := isNameText_resolveBody tag classList r
  obtain ⟨calls, invocations, random, hState⟩ := resolveBody_state tag classList r
  have hPrefix : (resolveBody tag classList r).2.namePrefix = r.namePrefix := by rw [hState]
  rw [assign, h]
  dsimp only
  obtain ⟨suffix, hName, hSuffix⟩ := disambiguate_eq_append (resolveBody tag classList r).2.owners
    ((resolveBody tag classList r).2.namePrefix ++ (resolveBody tag classList r).1) key classList
  refine ⟨(resolveBody tag classList r).1 ++ suffix, ?_, hBody.append hSuffix⟩
  rw [hName, hPrefix, String.append_assoc]

end NameResolver

end ClassCollapse
