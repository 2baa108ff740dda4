import ClassCollapse.Proofs.Markup.Located
import ClassCollapse.Proofs.Markup.Pattern
import ClassCollapse.Proofs.Text.Position

/-!
# The matches in a text

A text has exactly one list of matches that stand one after the other and such that every match that
stands anywhere in the text starts inside one of them. A scan reports the class attributes of this
list whose values are not blank, each with the last tag before it in the list. So nothing is
reported from within a match, and nothing between matches is missed.
-/

namespace ClassCollapse.Markup

open Text

/-- A match stands at a position of a text that starts at `start`. -/
def StandsIn (start : Nat) (cs : List Char) (m : Nat × Piece) : Prop :=
  ∃ before after, cs = before ++ (m.2.text ++ after) ∧ m.1 = start + byteCount before ∧
    IsMatch m.2 after

/-- The matches of a text that starts at `start`, from left to right. Between them, no match starts,
not even one that goes on into the next of them. -/
structure Matches (start : Nat) (cs : List Char) (found : List (Nat × Piece)) : Prop where
  stands : ∀ m ∈ found, StandsIn start cs m
  apart : found.Pairwise fun a b => a.1 + byteCount a.2.text ≤ b.1
  complete : ∀ m, StandsIn start cs m → ∃ k ∈ found, k.1 ≤ m.1 ∧ m.1 < k.1 + byteCount k.2.text

/-! ## There is one list of matches -/

theorem Piece.byteCount_text_pos (piece : Piece) : 0 < byteCount piece.text :=
  Nat.pos_of_ne_zero fun hZero => piece.text_ne_nil (byteCount_eq_zero_iff.mp hZero)

theorem StandsIn.unique {start : Nat} {cs : List Char} {m m' : Nat × Piece}
    (h : StandsIn start cs m) (h' : StandsIn start cs m') (hSame : m.1 = m'.1) : m = m' := by
  obtain ⟨position, piece⟩ := m
  obtain ⟨position', piece'⟩ := m'
  obtain ⟨before, after, rfl, hPlace, hMatch⟩ := h
  obtain ⟨before', after', hText, hPlace', hMatch'⟩ := h'
  dsimp only at *
  subst hSame
  obtain ⟨rfl, hRest⟩ := append_inj_of_byteCount hText (by omega)
  cases hChars : piece.text ++ after with
  | nil => exact absurd (List.append_eq_nil_iff.mp hChars).1 piece.text_ne_nil
  | cons c cs =>
    have hFirst := firstPiece_of_isMatch hMatch hChars
    rw [firstPiece_of_isMatch hMatch' (hRest ▸ hChars)] at hFirst
    cases hFirst
    rfl

theorem Matches.ascending {start : Nat} {cs : List Char} {found : List (Nat × Piece)}
    (h : Matches start cs found) : found.Pairwise fun a b => a.1 < b.1 := by
  refine h.apart.imp ?_
  intro a b hApart
  have hPos := a.2.byteCount_text_pos
  omega

theorem Matches.end_le {start : Nat} {cs : List Char} {found : List (Nat × Piece)}
    (h : Matches start cs found) {a b : Nat × Piece} (ha : a ∈ found) (hb : b ∈ found)
    (hLt : a.1 < b.1) : a.1 + byteCount a.2.text ≤ b.1 := by
  obtain ⟨i, hi, rfl⟩ := List.getElem_of_mem ha
  obtain ⟨j, hj, rfl⟩ := List.getElem_of_mem hb
  rcases Nat.lt_trichotomy i j with hOrder | rfl | hOrder
  · exact List.pairwise_iff_getElem.mp h.apart i j hi hj hOrder
  · exact absurd hLt (Nat.lt_irrefl _)
  · have hGt := List.pairwise_iff_getElem.mp h.ascending j i hj hi hOrder
    omega

/-- A member of one list is in another one if the other has no members before it but those of the
first. -/
theorem Matches.mem_of_mem {start : Nat} {cs : List Char} {found found' : List (Nat × Piece)}
    (h : Matches start cs found) (h' : Matches start cs found') {m : Nat × Piece} (hm : m ∈ found)
    (hBefore : ∀ k ∈ found', k.1 < m.1 → k ∈ found) : m ∈ found' := by
  have hStands := h.stands m hm
  obtain ⟨k, hk, hStart, hStop⟩ := h'.complete m hStands
  rcases Nat.lt_or_eq_of_le hStart with hLt | hSame
  · -- `m` would start within `k`, and both are in the first list.
    have hEnd := h.end_le (hBefore k hk hLt) hm hLt
    omega
  · rwa [← (h'.stands k hk).unique hStands hSame]

theorem Matches.unique {start : Nat} {cs : List Char} {found found' : List (Nat × Piece)}
    (h : Matches start cs found) (h' : Matches start cs found') : found = found' := by
  have hMem : ∀ n, ∀ m : Nat × Piece, m.1 = n → (m ∈ found ↔ m ∈ found') := by
    intro n
    induction n using Nat.strongRecOn with
    | ind n ih =>
      rintro m rfl
      exact ⟨fun hm => h.mem_of_mem h' hm fun k hk hLt => (ih k.1 hLt k rfl).mpr hk,
        fun hm => h'.mem_of_mem h hm fun k hk hLt => (ih k.1 hLt k rfl).mp hk⟩
  have hPerm : found.Perm found' :=
    (List.perm_ext_iff_of_nodup (h.ascending.imp fun hLt heq => by simp [heq] at hLt)
      (h'.ascending.imp fun hLt heq => by simp [heq] at hLt)).mpr fun m => hMem m.1 m rfl
  refine hPerm.eq_of_pairwise ?_ h.ascending h'.ascending
  intro a b _ _ hLt hGt
  omega

/-! ## Pieces give the matches -/

theorem StandsIn.before {start : Nat} {rest : List Char} {m : Nat × Piece} (front : List Char)
    (h : StandsIn (start + byteCount front) rest m) : StandsIn start (front ++ rest) m := by
  obtain ⟨before, after, rfl, hPlace, hMatch⟩ := h
  refine ⟨front ++ before, after, ?_, ?_, hMatch⟩
  · rw [List.append_assoc]
  · rw [hPlace, byteCount_append, Nat.add_assoc]

theorem StandsIn.start_le {start : Nat} {cs : List Char} {m : Nat × Piece}
    (h : StandsIn start cs m) : start ≤ m.1 := by
  obtain ⟨before, after, -, hPlace, -⟩ := h
  omega

/-- A match starts within the first part of a text or stands in the rest. -/
theorem StandsIn.split {start : Nat} {front rest : List Char} {m : Nat × Piece}
    (h : StandsIn start (front ++ rest) m) :
    m.1 < start + byteCount front ∨ StandsIn (start + byteCount front) rest m := by
  obtain ⟨before, after, hText, hPlace, hMatch⟩ := h
  by_cases hWithin : byteCount before < byteCount front
  · exact .inl (by omega)
  · obtain ⟨gap, rfl, rfl⟩ := exists_gap hText (Nat.le_of_not_lt hWithin)
    refine .inr ⟨gap, after, rfl, ?_, hMatch⟩
    rw [hPlace, byteCount_append, Nat.add_assoc]

/-- A match at the front is the first of the matches. -/
theorem Matches.cons {start : Nat} {piece : Piece} {rest : List Char} {found : List (Nat × Piece)}
    (hMatch : IsMatch piece rest) (h : Matches (start + byteCount piece.text) rest found) :
    Matches start (piece.text ++ rest) ((start, piece) :: found) where
  stands m hm := by
    rcases List.mem_cons.mp hm with rfl | hMore
    · exact ⟨[], rest, rfl, rfl, hMatch⟩
    · exact (h.stands m hMore).before piece.text
  apart := List.Pairwise.cons (fun m hm => (h.stands m hm).start_le) h.apart
  complete m hStands := by
    rcases hStands.split with hWithin | hRest
    · exact ⟨(start, piece), List.mem_cons_self, hStands.start_le, hWithin⟩
    · obtain ⟨k, hk, hInside⟩ := h.complete m hRest
      exact ⟨k, List.mem_cons_of_mem _ hk, hInside⟩

/-- Where no match starts, the matches are those of the rest. -/
theorem Matches.skip {start : Nat} {c : Char} {cs : List Char} {found : List (Nat × Piece)}
    (hNone : ∀ piece rest, piece.text ++ rest = c :: cs → ¬ IsMatch piece rest)
    (h : Matches (start + byteCount [c]) cs found) : Matches start (c :: cs) found where
  stands m hm := (h.stands m hm).before [c]
  apart := h.apart
  complete m hStands := by
    obtain ⟨before, after, hText, hPlace, hMatch⟩ := hStands
    cases before with
    | nil => exact absurd hMatch (hNone m.2 after hText.symm)
    | cons b before =>
      obtain ⟨rfl, hRest⟩ := List.cons.inj hText
      refine h.complete m ⟨before, after, hRest, ?_, hMatch⟩
      rw [hPlace, byteCount, byteCount, byteCount]
      omega

/-- The pieces other than single characters, with their positions. -/
def matchesIn (start : Nat) : List Piece → List (Nat × Piece)
  | [] => []
  | piece :: parts =>
    let later := matchesIn (start + byteCount piece.text) parts
    match piece with
    | .other _ => later
    | .openTag _ | .classValue _ _ _ => (start, piece) :: later

theorem IsMatch.matchesIn_cons {piece : Piece} {rest : List Char} (h : IsMatch piece rest)
    (start : Nat) (parts : List Piece) : matchesIn start (piece :: parts) =
      (start, piece) :: matchesIn (start + byteCount piece.text) parts := by
  cases h <;> rfl

theorem matches_pieces (start : Nat) (cs : List Char) :
    Matches start cs (matchesIn start (pieces cs)) := by
  induction cs using pieces.induct generalizing start with
  | case1 =>
    rw [pieces]
    refine { stands := ?_, apart := .nil, complete := ?_ }
    · intro m hm
      cases hm
    · rintro m ⟨before, after, hText, -, -⟩
      have hNil := (List.append_eq_nil_iff.mp hText.symm).2
      exact absurd (List.append_eq_nil_iff.mp hNil).1 m.2.text_ne_nil
  | case2 c cs ih =>
    rw [pieces]
    rcases firstPiece_cases c cs with hOther | hMatch
    · rw [hOther] at ih ⊢
      refine .skip ?_ (ih _)
      intro piece rest hText hMatch
      have hFirst := firstPiece_of_isMatch hMatch hText
      rw [hOther] at hFirst
      cases hFirst
      cases hMatch
    · have hCons := Matches.cons hMatch (ih (start + byteCount (firstPiece c cs).1.text))
      rw [firstPiece_text] at hCons
      rwa [hMatch.matchesIn_cons]

/-! ## What a scan reports -/

def tagName? : Piece → Option String
  | .openTag name => some (String.ofList name)
  | _ => none

/-- The name of the last tag among some matches. -/
def lastTag? (found : List (Nat × Piece)) : Option String :=
  (found.filterMap fun m => tagName? m.2).getLast?

/-- A class list is the value of a class attribute among some matches and not blank. Before all
matches, the last tag is `tag`. -/
def Reported (tag : Option String) (found : List (Nat × Piece)) (f : ScannedClass) : Prop :=
  ∃ before position lead quote value after,
    found = before ++ (position, .classValue lead quote value) :: after ∧
      value.all isBlank = false ∧
      f = ⟨(lastTag? before).or tag, String.ofList value,
        position + byteCount (lead ++ [quote.char]), byteCount value⟩

theorem lastTag?_cons_or (m : Nat × Piece) (found : List (Nat × Piece)) (tag : Option String) :
    (lastTag? (m :: found)).or tag = (lastTag? found).or ((tagName? m.2).or tag) := by
  rw [lastTag?, lastTag?, List.filterMap_cons]
  cases hName : tagName? m.2 with
  | none => rfl
  | some name =>
    dsimp only
    rw [List.getLast?_cons]
    cases (found.filterMap fun m => tagName? m.2).getLast? <;> rfl

theorem reported_cons_iff {tag : Option String} {m : Nat × Piece} {found : List (Nat × Piece)}
    {f : ScannedClass} : Reported tag (m :: found) f ↔
      (∃ lead quote value, m.2 = .classValue lead quote value ∧ value.all isBlank = false ∧
        f = ⟨tag, String.ofList value, m.1 + byteCount (lead ++ [quote.char]), byteCount value⟩) ∨
      Reported ((tagName? m.2).or tag) found f := by
  constructor
  · rintro ⟨before, position, lead, quote, value, after, hFound, hValue, hReport⟩
    cases before with
    | nil =>
      cases hFound
      exact .inl ⟨lead, quote, value, rfl, hValue, hReport⟩
    | cons first before =>
      obtain ⟨rfl, hMore⟩ := List.cons.inj hFound
      rw [lastTag?_cons_or] at hReport
      exact .inr ⟨before, position, lead, quote, value, after, hMore, hValue, hReport⟩
  · rintro (⟨lead, quote, value, hPiece, hValue, hReport⟩ |
      ⟨before, position, lead, quote, value, after, hMore, hValue, hReport⟩)
    · exact ⟨[], m.1, lead, quote, value, found, by rw [← hPiece]; rfl, hValue, hReport⟩
    · refine ⟨m :: before, position, lead, quote, value, after, ?_, hValue, ?_⟩
      · rw [hMore, List.cons_append]
      · rw [lastTag?_cons_or]
        exact hReport

theorem mem_foundIn_iff (start : Nat) (tag : Option String) (parts : List Piece)
    {f : ScannedClass} : f ∈ foundIn start tag parts ↔ Reported tag (matchesIn start parts) f := by
  induction parts generalizing start tag with
  | nil =>
    rw [foundIn, matchesIn]
    refine iff_of_false List.not_mem_nil ?_
    rintro ⟨before, _, _, _, _, after, hFound, -⟩
    exact absurd hFound.symm (by simp)
  | cons piece parts ih =>
    cases piece with
    | other c => exact ih _ _
    | openTag name =>
      rw [matchesIn, reported_cons_iff, foundIn, ih]
      constructor
      · exact .inr
      · rintro (⟨_, _, _, hPiece, -⟩ | hLater)
        · cases hPiece
        · exact hLater
    | classValue lead quote value =>
      rw [matchesIn, reported_cons_iff, foundIn]
      split
      next hBlank =>
        rw [ih]
        constructor
        · exact .inr
        · rintro (⟨_, _, _, hPiece, hValue, -⟩ | hLater)
          · cases hPiece
            rw [hBlank] at hValue
            cases hValue
          · exact hLater
      next hValue =>
        rw [List.mem_cons, ih]
        refine or_congr ?_ Iff.rfl
        constructor
        · intro hReport
          exact ⟨lead, quote, value, rfl, Bool.eq_false_iff.mpr hValue, hReport⟩
        · rintro ⟨_, _, _, hPiece, -, hReport⟩
          cases hPiece
          exact hReport

/-- A class list stands between two quotes after the lead of a class attribute, at a place between
characters. -/
structure StandsQuoted (content : String) (f : ScannedClass) : Prop where
  start_valid : (⟨f.offset⟩ : String.Pos.Raw).IsValid content
  stop_valid : (⟨f.offset + f.length⟩ : String.Pos.Raw).IsValid content
  slice_eq : slice? f.offset (f.offset + f.length) content.toList = some f.classList.toList
  notBlank : isBlankText f.classList = false
  quoted : ∃ (before lead : List Char) (quote : Quote) (after : List Char), content.toList =
      before ++ (lead ++ quote.char :: (f.classList.toList ++ quote.char :: after)) ∧
    f.offset = byteCount (before ++ (lead ++ [quote.char])) ∧ IsLead lead ∧
    quote.char ∉ f.classList.toList

theorem Matches.standsQuoted {content : String} {found : List (Nat × Piece)}
    (h : Matches 0 content.toList found) {tag : Option String} {f : ScannedClass}
    (hf : Reported tag found f) : StandsQuoted content f := by
  obtain ⟨front, position, lead, quote, value, back, rfl, hValue, rfl⟩ := hf
  obtain ⟨before, after, hText, hPlace, hMatch⟩ :=
    h.stands (position, .classValue lead quote value)
      (List.mem_append_right front List.mem_cons_self)
  have hSplit : content.toList =
      (before ++ (lead ++ [quote.char])) ++ (value ++ quote.char :: after) := by
    rw [hText]
    simp only [Piece.text, List.append_assoc, List.cons_append, List.nil_append]
  have hOffset : byteCount (before ++ (lead ++ [quote.char])) =
      position + byteCount (lead ++ [quote.char]) := by
    dsimp only at hPlace
    rw [byteCount_append, hPlace, Nat.zero_add]
  cases hMatch with
  | classValue hLead hClosed =>
    rw [← String.toList_ofList (l := value)] at hSplit hValue hClosed
    refine { start_valid := ?_, stop_valid := ?_, slice_eq := ?_, notBlank := hValue, quoted := ?_ }
    · exact isValid_iff.mpr ⟨_, _, hSplit, hOffset⟩
    · refine isValid_iff.mpr ⟨_, _, hSplit.trans (List.append_assoc _ _ _).symm, ?_⟩
      rw [byteCount_append, hOffset, String.toList_ofList]
    · refine slice?_eq_some_iff.mpr ⟨_, _, hSplit, hOffset, ?_⟩
      rw [String.toList_ofList]
    · refine ⟨before, lead, quote, after, ?_, hOffset.symm, hLead, hClosed⟩
      simpa only [List.append_assoc, List.cons_append, List.nil_append] using hSplit

/-- A scan reports the class attributes among the matches of a text, which are determined by the
text, and everything that it reports stands between quotes. -/
theorem scan_matches (content : String) :
    ∃ found, (∀ other, Matches 0 content.toList other ↔ other = found) ∧
      (∀ f, f ∈ scan content ↔ Reported none found f) ∧
      (scan content).Pairwise (fun a b => a.offset < b.offset ∧ a.offset + a.length ≤ b.offset) ∧
      ∀ f ∈ scan content, StandsQuoted content f := by
  have hMatches := matches_pieces 0 content.toList
  have hReported : ∀ f, f ∈ scan content ↔
      Reported none (matchesIn 0 (pieces content.toList)) f :=
    fun f => mem_foundIn_iff 0 none _
  have hQuoted : ∀ f ∈ scan content, StandsQuoted content f :=
    fun f hf => hMatches.standsQuoted ((hReported f).mp hf)
  refine ⟨_, fun other => ⟨fun h => h.unique hMatches, fun h => h ▸ hMatches⟩, hReported, ?_,
    hQuoted⟩
  refine (located_scan content).apart.imp_of_mem ?_
  intro a b ha _ hApart
  have hLength : 0 < a.length := by
    obtain ⟨_, _, -, -, hCount⟩ := (located_scan content).part_eq a ha
    have hNotBlank := (hQuoted a ha).notBlank
    rw [hCount]
    refine Nat.pos_of_ne_zero fun hZero => ?_
    rw [isBlankText, byteCount_eq_zero_iff.mp hZero] at hNotBlank
    cases hNotBlank
  exact ⟨by omega, hApart⟩

/-- The plain lead of a class attribute. -/
theorem isLead_class : IsLead "class=".toList := by
  have hWord : Spells ['c', 'l', 'a', 's', 's'] "class".toList := by simp [Spells, IsForm]
  have hNone : ∀ c ∈ ([] : List Char), isBlank c = true := fun _ h => absurd h List.not_mem_nil
  exact .parts (.parts (.inl rfl) (.inl rfl) hWord (.inl rfl) (.inl rfl)) (.parts hNone hNone)

/-- A text can be found as a class list exactly if it is not blank and lacks one of the quotes. -/
theorem exists_mem_scan_iff {classList : String} :
    (∃ content, ∃ f ∈ scan content, f.classList = classList) ↔
      isBlankText classList = false ∧ ('"' ∉ classList.toList ∨ '\'' ∉ classList.toList) := by
  constructor
  · rintro ⟨content, f, hf, rfl⟩
    have hQuoted := (matches_pieces 0 content.toList).standsQuoted ((mem_foundIn_iff 0 none _).mp hf)
    obtain ⟨_, _, quote, _, -, -, -, hFree⟩ := hQuoted.quoted
    refine ⟨hQuoted.notBlank, ?_⟩
    cases quote with
    | double => exact .inl hFree
    | single => exact .inr hFree
  · rintro ⟨hNotBlank, hFree⟩
    obtain ⟨quote, hQuote⟩ : ∃ quote : Quote, quote.char ∉ classList.toList := by
      rcases hFree with hDouble | hSingle
      · exact ⟨.double, hDouble⟩
      · exact ⟨.single, hSingle⟩
    -- The text has one match, and this is all of it.
    let piece := Piece.classValue "class=".toList quote classList.toList
    have hMatch : IsMatch piece [] := .classValue isLead_class hQuote
    have hRest := matches_pieces (0 + byteCount piece.text) []
    rw [pieces] at hRest
    have hOne : Matches 0 (piece.text ++ []) [(0, piece)] := .cons hMatch hRest
    have hFound : matchesIn 0 (pieces piece.text) = [(0, piece)] := by
      rw [List.append_nil] at hOne
      exact (matches_pieces 0 _).unique hOne
    refine ⟨String.ofList piece.text, ⟨none, String.ofList classList.toList,
      0 + byteCount ("class=".toList ++ [quote.char]), byteCount classList.toList⟩, ?_,
      String.ofList_toList⟩
    rw [scan, mem_foundIn_iff, String.toList_ofList, hFound]
    exact ⟨[], 0, "class=".toList, quote, classList.toList, [], rfl, hNotBlank, rfl⟩

end ClassCollapse.Markup
