import ClassCollapse.Markup.Piece
import Mathlib.Data.List.Forall2
import Mathlib.Data.List.TakeWhile

/-!
# Markup with other values

When values between quotes are replaced by texts that bring no new quotes, a reader that goes from
left to right takes the same path through the edited text: whatever it reads, it reads there too,
and what is left is edited in the same way. So the edited text is cut into the same pieces but for
their values. An attempt that fails for want of a closing quote still fails, because an edit adds no
quote that was not in the value.
-/

namespace ClassCollapse.Markup

/-- The second text is the first one with other values between some quotes. -/
inductive Edited : List Char → List Char → Prop
  | nil : Edited [] []
  | keep (c : Char) {cs cs' : List Char} (h : Edited cs cs') : Edited (c :: cs) (c :: cs')
  | value {quote : Quote} {value value' rest rest' : List Char} (hClosed : quote.char ∉ value)
    (hQuotes : ∀ q : Quote, q.char ∈ value' → q.char ∈ value) (h : Edited rest rest') :
    Edited (quote.char :: (value ++ quote.char :: rest))
      (quote.char :: (value' ++ quote.char :: rest'))

theorem Edited.before (front : List Char) {cs cs' : List Char} (h : Edited cs cs') :
    Edited (front ++ cs) (front ++ cs') := by
  induction front with
  | nil => exact h
  | cons c front ih => exact .keep c ih

/-- An edit brings no quotes. -/
theorem Edited.mem_of_mem {cs cs' : List Char} (h : Edited cs cs') {q : Quote}
    (hq : q.char ∈ cs') : q.char ∈ cs := by
  induction h with
  | nil => exact hq
  | keep c _ ih =>
    rcases List.mem_cons.mp hq with hFirst | hRest
    · exact hFirst ▸ List.mem_cons_self
    · exact List.mem_cons_of_mem c (ih hRest)
  | @value quote value value' rest rest' _ hQuotes _ ih =>
    simp only [List.mem_cons, List.mem_append] at hq ⊢
    rcases hq with hFirst | hValue | hLast | hRest
    · exact .inl hFirst
    · exact .inr (.inl (hQuotes q hValue))
    · exact .inl hLast
    · exact .inr (.inr (.inr (ih hRest)))

/-! ## Reading from the front -/

/-- Two readers read the same and leave edited texts, or both read nothing. -/
inductive SameRead {α : Type} : Option (α × List Char) → Option (α × List Char) → Prop
  | none : SameRead none none
  | some (x : α) {rest rest' : List Char} (h : Edited rest rest') :
    SameRead (some (x, rest)) (some (x, rest'))

theorem SameRead.eq_none {α : Type} {result result' : Option (α × List Char)}
    (h : SameRead result result') (hNone : result = .none) : result' = .none := by
  cases h with
  | none => rfl
  | some x hRest => cases hNone

theorem SameRead.eq_some {α : Type} {result result' : Option (α × List Char)} {x : α}
    {rest : List Char} (h : SameRead result result') (hSome : result = .some (x, rest)) :
    ∃ rest', result' = .some (x, rest') ∧ Edited rest rest' := by
  cases h with
  | none => cases hSome
  | some y hRest =>
    cases hSome
    exact ⟨_, rfl, hRest⟩

/-- A run of characters that are no quotes is the same in the edited text. -/
theorem Edited.span {p : Char → Bool} (hp : ∀ q : Quote, p q.char = false) {cs cs' : List Char}
    (h : Edited cs cs') :
    cs'.takeWhile p = cs.takeWhile p ∧ Edited (cs.dropWhile p) (cs'.dropWhile p) := by
  induction h with
  | nil => exact ⟨rfl, .nil⟩
  | @keep c cs cs' h ih =>
    rw [List.takeWhile_cons, List.takeWhile_cons, List.dropWhile_cons, List.dropWhile_cons]
    cases p c with
    | true => exact ⟨congrArg (c :: ·) ih.1, ih.2⟩
    | false => exact ⟨rfl, .keep c h⟩
  | @value quote value value' rest rest' hClosed hQuotes h _ =>
    rw [List.takeWhile_cons, List.takeWhile_cons, List.dropWhile_cons, List.dropWhile_cons,
      hp quote]
    exact ⟨rfl, .value hClosed hQuotes h⟩

theorem sameRead_takeWord? (word : List Char) (hWord : ∀ q : Quote, foldCase q.char ∉ word)
    {cs cs' : List Char} (h : Edited cs cs') :
    SameRead (takeWord? word cs) (takeWord? word cs') := by
  induction word generalizing cs cs' with
  | nil => exact .some [] h
  | cons w word ih =>
    cases h with
    | nil => exact .none
    | @keep c cs cs' h =>
      rw [takeWord?, takeWord?]
      split
      · have hRead := ih (fun q hq => hWord q (List.mem_cons_of_mem w hq)) h
        revert hRead
        generalize takeWord? word cs = result
        generalize takeWord? word cs' = result'
        intro hRead
        cases hRead with
        | none => exact .none
        | some taken hRest => exact .some (c :: taken) hRest
      · exact .none
    | @value quote value value' rest rest' hClosed hQuotes h =>
      have hOther : foldCase quote.char ≠ w := fun hSame => hWord quote (hSame ▸ List.mem_cons_self)
      rw [takeWord?, takeWord?, if_neg hOther, if_neg hOther]
      exact .none

theorem Edited.takeOptional (word : List Char) (hWord : ∀ q : Quote, foldCase q.char ∉ word)
    {cs cs' : List Char} (h : Edited cs cs') :
    (takeOptional word cs').1 = (takeOptional word cs).1 ∧
      Edited (takeOptional word cs).2 (takeOptional word cs').2 := by
  have hRead := sameRead_takeWord? word hWord h
  rw [Markup.takeOptional, Markup.takeOptional]
  revert hRead
  generalize takeWord? word cs = result
  generalize takeWord? word cs' = result'
  intro hRead
  cases hRead with
  | none => exact ⟨rfl, h⟩
  | some taken hRest => exact ⟨rfl, hRest⟩

theorem foldCase_quote_notMem {word : List Char}
    (h : '"' ∉ word ∧ '\'' ∉ word) (q : Quote) : foldCase q.char ∉ word := by
  cases q with
  | double => exact h.1
  | single => exact h.2

theorem sameRead_attributeName? {cs cs' : List Char} (h : Edited cs cs') :
    SameRead (attributeName? cs) (attributeName? cs') := by
  obtain ⟨hOpening, hAfterOpening⟩ := h.takeOptional ['[']
    (foldCase_quote_notMem (by decide))
  obtain ⟨hBinding, hAfterBinding⟩ := hAfterOpening.takeOptional ['n', 'g']
    (foldCase_quote_notMem (by decide))
  have hName := sameRead_takeWord? ['c', 'l', 'a', 's', 's']
    (foldCase_quote_notMem (by decide)) hAfterBinding
  simp only [attributeName?, Option.bind_eq_bind, hOpening, hBinding]
  revert hName
  generalize takeWord? ['c', 'l', 'a', 's', 's'] _ = result
  generalize takeWord? ['c', 'l', 'a', 's', 's'] _ = result'
  intro hName
  cases hName with
  | none => exact .none
  | some name hAfterName =>
    obtain ⟨hEnding, hAfterEnding⟩ := hAfterName.takeOptional ['n', 'a', 'm', 'e']
      (foldCase_quote_notMem (by decide))
    obtain ⟨hClosing, hRest⟩ := hAfterEnding.takeOptional [']']
      (foldCase_quote_notMem (by decide))
    simp only [Option.bind_some, hEnding, hClosing]
    exact .some _ hRest

theorem isBlank_quote (q : Quote) : Text.isBlank q.char = false := by
  cases q <;> decide

theorem sameRead_equalsSign? {cs cs' : List Char} (h : Edited cs cs') :
    SameRead (equalsSign? cs) (equalsSign? cs') := by
  obtain ⟨hTaken, hDropped⟩ := h.span isBlank_quote
  rw [equalsSign?, equalsSign?, hTaken]
  revert hDropped
  generalize cs.dropWhile Text.isBlank = after
  generalize cs'.dropWhile Text.isBlank = after'
  intro hDropped
  cases hDropped with
  | nil => exact .none
  | @keep c rest rest' hRest =>
    by_cases hSign : c = '='
    · subst hSign
      obtain ⟨hBlanks, hAfter⟩ := hRest.span isBlank_quote
      have hSome := SameRead.some (cs.takeWhile Text.isBlank ++ '=' :: rest.takeWhile Text.isBlank)
        hAfter
      nth_rewrite 2 [← hBlanks] at hSome
      exact hSome
    · split
      next heq => exact absurd (List.cons.inj heq).1 hSign
      next =>
        split
        next heq => exact absurd (List.cons.inj heq).1 hSign
        next => exact .none
  | @value quote _ _ _ _ _ _ _ =>
    cases quote with
    | double => exact .none
    | single => exact .none

theorem sameRead_openTag? {cs cs' : List Char} (h : Edited cs cs') :
    SameRead (openTag? cs) (openTag? cs') := by
  have hNoQuote : ∀ q : Quote, isTagCharacter q.char = false := by
    intro q
    cases q <;> decide +kernel
  cases h with
  | nil => exact .none
  | @keep c cs cs' h =>
    by_cases hOpen : c = '<'
    · subst hOpen
      cases h with
      | nil => exact .none
      | @keep d cs cs' h =>
        obtain ⟨hName, hRest⟩ := h.span hNoQuote
        rw [openTag?, openTag?, hName]
        split
        · exact .some _ hRest
        · exact .none
      | @value quote _ _ _ _ _ _ _ =>
        cases quote with
        | double => exact .none
        | single => exact .none
    · rw [openTag?, openTag?]
      · exact .none
      · intro d rest heq
        exact hOpen (List.cons.inj heq).1
      · intro d rest heq
        exact hOpen (List.cons.inj heq).1
  | @value quote _ _ _ _ _ _ _ =>
    cases quote with
    | double => exact .none
    | single => exact .none

/-! ## Quoted values -/

theorem Quote.ofChar?_char (q : Quote) : Quote.ofChar? q.char = some q := by
  cases q <;> rfl

theorem quoted?_append {quote : Quote} {value : List Char} (h : quote.char ∉ value)
    (rest : List Char) :
    quoted? (quote.char :: (value ++ quote.char :: rest)) = some (quote, value, rest) := by
  have hAll : ∀ c ∈ value, decide (c ≠ quote.char) = true := by
    intro c hc
    rw [decide_eq_true_eq]
    rintro rfl
    exact h hc
  rw [quoted?, Quote.ofChar?_char]
  dsimp only
  rw [List.dropWhile_append_of_pos hAll, List.takeWhile_append_of_pos hAll]
  simp

theorem quoted?_eq_none_of_edited {cs cs' : List Char} (h : Edited cs cs')
    (hNone : quoted? cs = none) : quoted? cs' = none := by
  cases h with
  | nil => rfl
  | @keep c cs cs' h =>
    rw [quoted?] at hNone ⊢
    split
    · rfl
    next quote hQuote =>
      rw [hQuote] at hNone
      -- No closing quote followed, and an edit brings none.
      have hOpen : ∀ x ∈ cs, x ≠ quote.char := by
        have hDropped : cs.dropWhile (· ≠ quote.char) = [] := by
          dsimp only at hNone
          split at hNone
          next hEmpty => exact hEmpty
          next => cases hNone
        simpa using List.dropWhile_eq_nil_iff.mp hDropped
      have hOpen' : cs'.dropWhile (· ≠ quote.char) = [] := by
        rw [List.dropWhile_eq_nil_iff]
        intro x hx
        rw [decide_eq_true_eq]
        rintro rfl
        exact hOpen _ (h.mem_of_mem hx) rfl
      rw [hOpen']
  | @value quote value value' rest rest' hClosed hQuotes h =>
    rw [quoted?_append hClosed] at hNone
    cases hNone

theorem notMem_of_quoted? {cs value rest : List Char} {quote : Quote}
    (h : quoted? cs = some (quote, value, rest)) : quote.char ∉ value := by
  unfold quoted? at h
  split at h
  · cases h
  split at h
  · cases h
  split at h
  · cases h
  cases h
  intro hMem
  have hOther := List.mem_takeWhile_imp hMem
  exact of_decide_eq_true hOther rfl

/-! ## Pieces -/

theorem classValue?_eq_none_of_edited {cs cs' : List Char} (h : Edited cs cs')
    (hNone : classValue? cs = none) : classValue? cs' = none := by
  have hName := sameRead_attributeName? h
  simp only [classValue?, Option.bind_eq_bind] at hNone ⊢
  generalize attributeName? cs = name at hName hNone
  generalize attributeName? cs' = name' at hName ⊢
  cases hName with
  | none => rfl
  | @some name afterName afterName' hAfterName =>
    simp only [Option.bind_some] at hNone ⊢
    have hSign := sameRead_equalsSign? hAfterName
    generalize equalsSign? afterName = sign at hSign hNone
    generalize equalsSign? afterName' = sign' at hSign ⊢
    cases hSign with
    | none => rfl
    | @some sign afterSign afterSign' hAfterSign =>
      simp only [Option.bind_some] at hNone ⊢
      have hQuoted : quoted? afterSign = none := by
        cases hValue : quoted? afterSign with
        | none => rfl
        | some found =>
          rw [hValue] at hNone
          cases hNone
      rw [quoted?_eq_none_of_edited hAfterSign hQuoted]
      rfl

/-- An attribute is read with its new value. -/
theorem classValue?_of_edited {cs lead value rest : List Char} {quote : Quote}
    (h : classValue? cs = some (.classValue lead quote value, rest)) {value' rest' : List Char}
    (hQuotes : ∀ q : Quote, q.char ∈ value' → q.char ∈ value) (hRest : Edited rest rest') :
    quote.char ∉ value ∧
      classValue? (lead ++ quote.char :: (value' ++ quote.char :: rest')) =
        some (.classValue lead quote value', rest') := by
  have hText : lead ++ quote.char :: (value ++ quote.char :: rest) = cs := by
    have hAll := classValue?_eq_some h
    simpa only [Piece.text, List.append_assoc, List.cons_append, List.nil_append] using hAll
  simp only [classValue?, Option.bind_eq_bind, Option.bind_eq_some_iff] at h
  obtain ⟨⟨name, afterName⟩, hName, ⟨sign, afterSign⟩, hSign, found, hQuoted, heq⟩ := h
  obtain ⟨rfl, rfl⟩ : found = (quote, value, rest) ∧ lead = name ++ sign := by
    cases heq
    exact ⟨rfl, rfl⟩
  have hClosed := notMem_of_quoted? hQuoted
  refine ⟨hClosed, ?_⟩
  have hEdited : Edited cs
      (name ++ sign ++ quote.char :: (value' ++ quote.char :: rest')) := by
    rw [← hText]
    exact (Edited.value hClosed hQuotes hRest).before _
  obtain ⟨afterName', hName', hAfterName⟩ := (sameRead_attributeName? hEdited).eq_some hName
  obtain ⟨afterSign', hSign', _⟩ := (sameRead_equalsSign? hAfterName).eq_some hSign
  -- What is left after the sign is determined by the text.
  have hLeft : afterSign' = quote.char :: (value' ++ quote.char :: rest') := by
    have hNameText := attributeName?_eq_some hName'
    rw [← equalsSign?_eq_some hSign', ← List.append_assoc] at hNameText
    exact List.append_cancel_left hNameText
  have hClosed' : quote.char ∉ value' := fun hMem => hClosed (hQuotes quote hMem)
  simp only [classValue?, Option.bind_eq_bind, hName', Option.bind_some, hSign', hLeft,
    quoted?_append hClosed']

/-- The second piece is the first one, or has another value without new quotes. -/
inductive EditedPiece : Piece → Piece → Prop
  | same (piece : Piece) : EditedPiece piece piece
  | value {lead value value' : List Char} {quote : Quote}
    (hQuotes : ∀ q : Quote, q.char ∈ value' → q.char ∈ value) :
    EditedPiece (.classValue lead quote value) (.classValue lead quote value')

theorem EditedPiece.exists_value {lead value : List Char} {quote : Quote} {piece : Piece}
    (h : EditedPiece (.classValue lead quote value) piece) :
    ∃ value', piece = .classValue lead quote value' ∧
      ∀ q : Quote, q.char ∈ value' → q.char ∈ value := by
  cases h with
  | same => exact ⟨value, rfl, fun _ h => h⟩
  | @value _ _ value' _ hQuotes => exact ⟨value', rfl, hQuotes⟩

theorem exists_classValue_of_classValue? {cs rest : List Char} {piece : Piece}
    (h : classValue? cs = some (piece, rest)) :
    ∃ lead quote value, piece = .classValue lead quote value := by
  simp only [classValue?, Option.bind_eq_bind, Option.bind_eq_some_iff] at h
  obtain ⟨⟨name, afterName⟩, _, ⟨sign, afterSign⟩, _, ⟨quote, value, r⟩, _, heq⟩ := h
  cases heq
  exact ⟨name ++ sign, quote, value, rfl⟩

/-- The first piece of an edited text is the edited first piece. -/
theorem firstPiece_of_edited {c : Char} {cs rest' : List Char} {piece' : Piece}
    (hPiece : EditedPiece (firstPiece c cs).1 piece') (hRest : Edited (firstPiece c cs).2 rest') :
    ∃ c' cs', piece'.text ++ rest' = c' :: cs' ∧ firstPiece c' cs' = (piece', rest') ∧
      Edited (c :: cs) (c' :: cs') := by
  have hText := firstPiece_text c cs
  unfold firstPiece at hPiece hRest hText
  split at hPiece
  next name rest hTag =>
    rw [hTag] at hRest hText
    cases hPiece
    have hEdited : Edited (c :: cs) ('<' :: (name ++ rest')) := by
      rw [← hText]
      exact hRest.before ('<' :: name)
    obtain ⟨left, hTag', _⟩ := (sameRead_openTag? hEdited).eq_some hTag
    have hLeft := openTag?_eq_some hTag'
    obtain rfl : left = rest' := List.append_cancel_left (List.cons.inj hLeft).2
    exact ⟨'<', name ++ left, rfl, by rw [firstPiece, hTag'], hEdited⟩
  next hNoTag =>
    rw [hNoTag] at hRest hText
    dsimp only at hRest hText
    cases hValue : classValue? (c :: cs) with
    | none =>
      rw [hValue] at hPiece hRest
      cases hPiece
      have hEdited : Edited (c :: cs) (c :: rest') := .keep c hRest
      refine ⟨c, rest', rfl, ?_, hEdited⟩
      rw [firstPiece, (sameRead_openTag? hEdited).eq_none hNoTag,
        classValue?_eq_none_of_edited hEdited hValue]
      rfl
    | some found =>
      obtain ⟨piece, rest⟩ := found
      obtain ⟨lead, quote, value, rfl⟩ := exists_classValue_of_classValue? hValue
      rw [hValue] at hPiece hRest hText
      obtain ⟨value', rfl, hQuotes⟩ := hPiece.exists_value
      obtain ⟨hClosed, hValue'⟩ := classValue?_of_edited hValue hQuotes hRest
      have hEdited : Edited (c :: cs) ((Piece.classValue lead quote value').text ++ rest') := by
        rw [← hText]
        simp only [Option.getD_some, Piece.text, List.append_assoc, List.cons_append,
          List.nil_append]
        exact (Edited.value hClosed hQuotes hRest).before lead
      have hNew : (Piece.classValue lead quote value').text ++ rest' =
          lead ++ quote.char :: (value' ++ quote.char :: rest') := by
        simp only [Piece.text, List.append_assoc, List.cons_append, List.nil_append]
      cases hChars : (Piece.classValue lead quote value').text ++ rest' with
      | nil => exact absurd (List.append_eq_nil_iff.mp hChars).1 (Piece.text_ne_nil _)
      | cons c' cs' =>
        rw [hChars] at hEdited hNew
        refine ⟨c', cs', rfl, ?_, hEdited⟩
        rw [firstPiece, (sameRead_openTag? hEdited).eq_none hNoTag, hNew, hValue']
        rfl

/-- A text with edited pieces is cut into the edited pieces. -/
theorem pieces_of_edited {cs : List Char} {parts' : List Piece}
    (h : List.Forall₂ EditedPiece (pieces cs) parts') :
    pieces (parts'.flatMap Piece.text) = parts' ∧ Edited cs (parts'.flatMap Piece.text) := by
  induction cs using pieces.induct generalizing parts' with
  | case1 =>
    rw [pieces] at h
    cases h
    exact ⟨by rw [List.flatMap_nil, pieces], .nil⟩
  | case2 c cs ih =>
    rw [pieces] at h
    cases h with
    | @cons _ piece' _ parts' hPiece hParts =>
      obtain ⟨hPieces, hRest⟩ := ih hParts
      obtain ⟨c', cs', hText, hFirst, hEdited⟩ := firstPiece_of_edited hPiece hRest
      rw [List.flatMap_cons, hText]
      refine ⟨?_, hEdited⟩
      rw [pieces, hFirst]
      dsimp only
      rw [hPieces]

end ClassCollapse.Markup
