import ClassCollapse.Proofs.Markup.Edited
import ClassCollapse.Proofs.Text.Characters

/-!
# The pattern of tags and class attributes

What a tag and a class attribute look like is stated apart from how they are read: a tag has the
longest name that follows `<`, and a class attribute spells its name in any mixture of cases, has an
equals sign between blanks and encloses its value in quotes of one kind. A text starts with at most
one match, and reading its first piece finds exactly that match, although the reader takes every
optional part that it can get and never goes back.
-/

namespace ClassCollapse.Markup

/-- A character is a letter in either case. The long `ſ` is a form of `s` only. -/
def IsForm (letter c : Char) : Prop :=
  if c = 'ſ' then letter = 's' else c.toLower = letter

/-- A text spells a word, with each letter in some form. -/
def Spells (word text : List Char) : Prop :=
  List.Forall₂ IsForm word text

/-- A text spells a word or is empty. -/
def SpellsOptional (word text : List Char) : Prop :=
  text = [] ∨ Spells word text

/-- The name of a class attribute: `class`, with or without `ng` before it, `name` after it and a
bracket on either side. -/
inductive IsAttributeName : List Char → Prop
  | parts {opening binding word ending closing : List Char}
    (hOpening : SpellsOptional ['['] opening) (hBinding : SpellsOptional ['n', 'g'] binding)
    (hWord : Spells ['c', 'l', 'a', 's', 's'] word)
    (hEnding : SpellsOptional ['n', 'a', 'm', 'e'] ending)
    (hClosing : SpellsOptional [']'] closing) :
    IsAttributeName (opening ++ (binding ++ (word ++ (ending ++ closing))))

/-- An equals sign between blanks. -/
inductive IsEqualsSign : List Char → Prop
  | parts {before after : List Char} (hBefore : ∀ c ∈ before, Text.isBlank c = true)
    (hAfter : ∀ c ∈ after, Text.isBlank c = true) : IsEqualsSign (before ++ '=' :: after)

/-- What stands before the opening quote of a class attribute. -/
inductive IsLead : List Char → Prop
  | parts {name sign : List Char} (hName : IsAttributeName name) (hSign : IsEqualsSign sign) :
    IsLead (name ++ sign)

/-- A piece is a match where the text after it is given: a tag with its whole name, or a class
attribute with a value that does not hold the quote around it. -/
inductive IsMatch : Piece → List Char → Prop
  | openTag {first : Char} {more rest : List Char} (hFirst : isLetter first = true)
    (hMore : ∀ c ∈ more, isTagCharacter c = true)
    (hRest : ∀ c ∈ rest.head?, isTagCharacter c = false) : IsMatch (.openTag (first :: more)) rest
  | classValue {lead value rest : List Char} {quote : Quote} (hLead : IsLead lead)
    (hValue : quote.char ∉ value) : IsMatch (.classValue lead quote value) rest

/-! ## Words in any case -/

theorem foldCase_eq_iff {letter c : Char} : foldCase c = letter ↔ IsForm letter c := by
  have hFold : foldCase c = if c = 'ſ' then 's' else c.toLower := by
    by_cases hAscii : c.toNat < 128
    · exact Text.forall_ascii (P := fun c => foldCase c = if c = 'ſ' then 's' else c.toLower)
        (by decide) hAscii
    · have hNoCapital : ¬ ('A' ≤ c ∧ c ≤ 'Z') := by
        rintro ⟨-, hLe⟩
        exact hAscii (Nat.lt_of_le_of_lt (UInt32.le_iff_toNat_le.mp hLe) (by decide))
      have hLower : c.toLower = c := dif_neg hNoCapital
      rw [foldCase, hLower, if_neg (by simpa using hNoCapital)]
  rw [hFold, IsForm]
  split
  · exact eq_comm
  · rfl

theorem IsForm.unique {letter letter' c : Char} (h : IsForm letter c) (h' : IsForm letter' c) :
    letter = letter' :=
  (foldCase_eq_iff.mpr h).symm.trans (foldCase_eq_iff.mpr h')

theorem takeWord?_eq_some_iff {word cs taken rest : List Char} :
    takeWord? word cs = some (taken, rest) ↔ cs = taken ++ rest ∧ Spells word taken := by
  constructor
  · intro h
    refine ⟨(takeWord?_eq_some h).symm, ?_⟩
    induction word generalizing cs taken with
    | nil =>
      cases h
      exact .nil
    | cons letter word ih =>
      cases cs with
      | nil => cases h
      | cons c cs =>
        rw [takeWord?] at h
        split at h
        next hForm =>
          obtain ⟨⟨more, left⟩, hMore, hSame⟩ := Option.map_eq_some_iff.mp h
          cases hSame
          exact .cons (foldCase_eq_iff.mp hForm) (ih hMore)
        next => cases h
  · rintro ⟨rfl, hSpells⟩
    induction hSpells with
    | nil => rfl
    | @cons letter c word taken hForm _ ih =>
      rw [List.cons_append, takeWord?, if_pos (foldCase_eq_iff.mpr hForm), ih]
      rfl

theorem spellsOptional_takeOptional (word cs : List Char) :
    SpellsOptional word (takeOptional word cs).1 := by
  rw [takeOptional]
  cases hTaken : takeWord? word cs with
  | none => exact .inl rfl
  | some found => exact .inr (takeWord?_eq_some_iff.mp hTaken).2

/-- An optional word is read where it stands, unless what follows could be taken for it. -/
theorem takeOptional_eq {letter : Char} {word taken rest : List Char}
    (h : SpellsOptional (letter :: word) taken) (hRest : ∀ c ∈ rest.head?, ¬ IsForm letter c) :
    takeOptional (letter :: word) (taken ++ rest) = (taken, rest) := by
  rcases h with rfl | hSpells
  · have hNone : takeWord? (letter :: word) rest = none := by
      cases rest with
      | nil => rfl
      | cons c rest =>
        rw [takeWord?]
        exact if_neg fun hForm => hRest c rfl (foldCase_eq_iff.mp hForm)
    rw [List.nil_append, takeOptional, hNone]
    rfl
  · rw [takeOptional, takeWord?_eq_some_iff.mpr ⟨rfl, hSpells⟩]
    rfl

/-- A text that goes on with a word starts with a form of its first letter. -/
theorem Spells.isForm_head {letter c : Char} {word text rest : List Char}
    (h : Spells (letter :: word) text) (hc : c ∈ (text ++ rest).head?) : IsForm letter c := by
  cases h with
  | cons hForm _ =>
    cases hc
    exact hForm

theorem SpellsOptional.head {letter c : Char} {word text rest : List Char}
    (h : SpellsOptional (letter :: word) text) (hc : c ∈ (text ++ rest).head?) :
    IsForm letter c ∨ c ∈ rest.head? := by
  rcases h with rfl | hSpells
  · exact .inr hc
  · exact .inl (hSpells.isForm_head hc)

/-! ## Names, signs and values -/

theorem IsAttributeName.head {name rest : List Char} (h : IsAttributeName name) {c : Char}
    (hc : c ∈ (name ++ rest).head?) : ∃ letter ∈ ['[', 'n', 'c'], IsForm letter c := by
  cases h with
  | @parts opening binding word ending closing hOpening hBinding hWord _ _ =>
    rw [List.append_assoc, List.append_assoc, List.append_assoc] at hc
    rcases hOpening.head hc with hForm | hc
    · exact ⟨'[', by decide, hForm⟩
    rcases hBinding.head hc with hForm | hc
    · exact ⟨'n', by decide, hForm⟩
    · exact ⟨'c', by decide, hWord.isForm_head hc⟩

theorem isAttributeName_of_attributeName? {cs name rest : List Char}
    (h : attributeName? cs = some (name, rest)) : IsAttributeName name := by
  simp only [attributeName?, Option.bind_eq_bind, Option.bind_eq_some_iff] at h
  obtain ⟨⟨word, afterWord⟩, hWord, heq⟩ := h
  cases heq
  simp only [List.append_assoc]
  exact .parts (spellsOptional_takeOptional _ _) (spellsOptional_takeOptional _ _)
    (takeWord?_eq_some_iff.mp hWord).2 (spellsOptional_takeOptional _ _)
    (spellsOptional_takeOptional _ _)

/-- A name is read as a whole: no optional part of it can be taken for the part after it. -/
theorem attributeName?_append {name rest : List Char} (h : IsAttributeName name)
    (hRest : ∀ c ∈ rest.head?, ¬ IsForm 'n' c ∧ ¬ IsForm ']' c) :
    attributeName? (name ++ rest) = some (name, rest) := by
  cases h with
  | @parts opening binding word ending closing hOpening hBinding hWord hEnding hClosing =>
    have hAfterOpening : ∀ c ∈ (binding ++ (word ++ (ending ++ (closing ++ rest)))).head?,
        ¬ IsForm '[' c := by
      intro c hc hForm
      rcases hBinding.head hc with hOther | hc
      · exact absurd (hForm.unique hOther) (by decide)
      · exact absurd (hForm.unique (hWord.isForm_head hc)) (by decide)
    have hAfterBinding : ∀ c ∈ (word ++ (ending ++ (closing ++ rest))).head?, ¬ IsForm 'n' c := by
      intro c hc hForm
      exact absurd (hForm.unique (hWord.isForm_head hc)) (by decide)
    have hAfterEnding : ∀ c ∈ (closing ++ rest).head?, ¬ IsForm 'n' c := by
      intro c hc hForm
      rcases hClosing.head hc with hOther | hc
      · exact absurd (hForm.unique hOther) (by decide)
      · exact (hRest c hc).1 hForm
    have hWordRead := takeWord?_eq_some_iff.mpr
      ⟨(rfl : word ++ (ending ++ (closing ++ rest)) = _), hWord⟩
    simp only [attributeName?, Option.bind_eq_bind, List.append_assoc,
      takeOptional_eq hOpening hAfterOpening, takeOptional_eq hBinding hAfterBinding, hWordRead,
      Option.bind_some, takeOptional_eq hEnding hAfterEnding,
      takeOptional_eq hClosing fun c hc => (hRest c hc).2]

theorem isEqualsSign_of_equalsSign? {cs sign rest : List Char}
    (h : equalsSign? cs = some (sign, rest)) : IsEqualsSign sign := by
  unfold equalsSign? at h
  split at h
  · cases h
    exact .parts (fun _ hc => List.mem_takeWhile_imp hc) fun _ hc => List.mem_takeWhile_imp hc
  · cases h

theorem equalsSign?_append {sign rest : List Char} (h : IsEqualsSign sign)
    (hRest : ∀ c ∈ rest.head?, Text.isBlank c = false) :
    equalsSign? (sign ++ rest) = some (sign, rest) := by
  cases h with
  | @parts before after hBefore hAfter =>
    have hSign : ∀ c ∈ ('=' :: (after ++ rest)).head?, Text.isBlank c = false := by
      intro c hc
      cases hc
      decide
    obtain ⟨hTaken, hDropped⟩ := Text.span_run hBefore hSign
    obtain ⟨hTaken', hDropped'⟩ := Text.span_run hAfter hRest
    rw [List.append_assoc, List.cons_append, equalsSign?, hTaken, hDropped]
    simp only [hTaken', hDropped']

theorem foldCase_of_isBlank {c : Char} (h : Text.isBlank c = true) : foldCase c = c := by
  have hNoCapital : ¬ ('A' ≤ c ∧ c ≤ 'Z') := by
    rintro ⟨hLow, hHigh⟩
    have hLow : 65 ≤ c.toNat := UInt32.le_iff_toNat_le.mp hLow
    have hHigh : c.toNat ≤ 90 := UInt32.le_iff_toNat_le.mp hHigh
    simp [Text.isBlank] at h
    omega
  have hNoLong : c ≠ 'ſ' := by
    rintro rfl
    exact absurd h (by decide)
  rw [foldCase, if_neg (by simpa using hNoCapital), if_neg hNoLong]

/-- Neither a blank nor an equals sign goes on with a name. -/
theorem IsEqualsSign.head {sign rest : List Char} (h : IsEqualsSign sign) :
    ∀ c ∈ (sign ++ rest).head?, ¬ IsForm 'n' c ∧ ¬ IsForm ']' c := by
  intro c hc
  have hSame : foldCase c = c ∧ c ≠ 'n' ∧ c ≠ ']' := by
    cases h with
    | @parts before after hBefore _ =>
      cases before with
      | nil =>
        cases hc
        decide
      | cons blank before =>
        obtain rfl : blank = c := Option.some.inj hc
        have hBlank := hBefore blank List.mem_cons_self
        refine ⟨foldCase_of_isBlank hBlank, ?_, ?_⟩
        · rintro rfl
          exact absurd hBlank (by decide)
        · rintro rfl
          exact absurd hBlank (by decide)
  rw [← foldCase_eq_iff, ← foldCase_eq_iff, hSame.1]
  exact hSame.2

theorem classValue?_eq_some_iff {cs rest : List Char} {piece : Piece} :
    classValue? cs = some (piece, rest) ↔ ∃ lead quote value, piece = .classValue lead quote value ∧
      IsLead lead ∧ quote.char ∉ value ∧ piece.text ++ rest = cs := by
  constructor
  · intro h
    have hText := classValue?_eq_some h
    simp only [classValue?, Option.bind_eq_bind, Option.bind_eq_some_iff] at h
    obtain ⟨⟨name, afterName⟩, hName, ⟨sign, afterSign⟩, hSign, ⟨quote, value, _⟩, hQuoted,
      heq⟩ := h
    cases heq
    exact ⟨name ++ sign, quote, value, rfl, .parts (isAttributeName_of_attributeName? hName)
      (isEqualsSign_of_equalsSign? hSign), notMem_of_quoted? hQuoted, hText⟩
  · rintro ⟨lead, quote, value, rfl, hLead, hValue, rfl⟩
    cases hLead with
    | @parts name sign hName hSign =>
      have hQuote : ∀ c ∈ (quote.char :: (value ++ quote.char :: rest)).head?,
          Text.isBlank c = false := by
        intro c hc
        cases hc
        exact isBlank_quote quote
      simp only [classValue?, Option.bind_eq_bind, Piece.text, List.append_assoc, List.cons_append,
        List.nil_append, attributeName?_append hName hSign.head,
        Option.bind_some, equalsSign?_append hSign hQuote, quoted?_append hValue]

/-! ## The first piece -/

theorem openTag?_eq_some_iff {cs name rest : List Char} :
    openTag? cs = some (name, rest) ↔
      IsMatch (.openTag name) rest ∧ (Piece.openTag name).text ++ rest = cs := by
  constructor
  · intro h
    refine ⟨?_, openTag?_eq_some h⟩
    unfold openTag? at h
    split at h
    · split at h
      next hFirst =>
        cases h
        refine .openTag hFirst (fun _ hc => List.mem_takeWhile_imp hc) ?_
        intro c hc
        obtain ⟨more, hMore⟩ := List.head?_eq_some_iff.mp hc
        exact dropWhile_head hMore
      next => cases h
    · cases h
  · rintro ⟨hMatch, rfl⟩
    cases hMatch with
    | @openTag first more rest hFirst hMore hRest =>
      obtain ⟨hTaken, hDropped⟩ := Text.span_run hMore hRest
      rw [Piece.text, List.cons_append, List.cons_append, openTag?, if_pos hFirst, hTaken, hDropped]

theorem IsLead.head_ne {lead rest : List Char} (h : IsLead lead) :
    ∀ c ∈ (lead ++ rest).head?, c ≠ '<' := by
  cases h with
  | @parts name sign hName _ =>
    rintro _ hc rfl
    rw [List.append_assoc] at hc
    obtain ⟨letter, hLetter, hForm⟩ := hName.head hc
    have hSame : letter = '<' := hForm.unique (foldCase_eq_iff.mp rfl)
    rw [hSame] at hLetter
    exact absurd hLetter (by decide)

/-- What stands first is read first. -/
theorem firstPiece_of_isMatch {piece : Piece} {rest cs : List Char} {c : Char}
    (h : IsMatch piece rest) (hText : piece.text ++ rest = c :: cs) :
    firstPiece c cs = (piece, rest) := by
  cases h with
  | openTag hFirst hMore hRest =>
    rw [firstPiece, openTag?_eq_some_iff.mpr ⟨.openTag hFirst hMore hRest, hText⟩]
  | @classValue lead value rest quote hLead hValue =>
    -- A class attribute does not start like a tag.
    have hNoTag : openTag? (c :: cs) = none := by
      rw [Option.eq_none_iff_forall_not_mem]
      rintro ⟨name, left⟩ hTag
      have hOpen := openTag?_eq_some hTag
      rw [Piece.text, List.append_assoc] at hText
      exact hLead.head_ne '<' (by rw [hText, ← hOpen]; rfl) rfl
    rw [firstPiece, hNoTag, classValue?_eq_some_iff.mpr ⟨_, _, _, rfl, hLead, hValue, hText⟩]
    rfl

theorem firstPiece_cases (c : Char) (cs : List Char) :
    firstPiece c cs = (.other c, cs) ∨ IsMatch (firstPiece c cs).1 (firstPiece c cs).2 := by
  rw [firstPiece]
  cases hTag : openTag? (c :: cs) with
  | some found => exact .inr (openTag?_eq_some_iff.mp hTag).1
  | none =>
    cases hValue : classValue? (c :: cs) with
    | none => exact .inl rfl
    | some found =>
      obtain ⟨lead, quote, value, hPiece, hLead, hNotMem, -⟩ := classValue?_eq_some_iff.mp hValue
      right
      dsimp only
      rw [Option.getD_some, hPiece]
      exact .classValue hLead hNotMem

end ClassCollapse.Markup
