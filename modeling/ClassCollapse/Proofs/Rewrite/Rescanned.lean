import ClassCollapse.Proofs.Markup.Edited
import ClassCollapse.Proofs.Naming.Spelling
import ClassCollapse.Proofs.Rewrite.Planned
import ClassCollapse.Proofs.Text.Words
import Mathlib.Algebra.Ring.Int.Defs

/-!
# Scanning what was rewritten

What takes the place of a class list brings no quotes and is not blank. So a scan of a rewritten
text finds the same class attributes under the same tags, each with its rendered list, at the old
place moved by what the lists before it have grown.
-/

namespace ClassCollapse

open Text Naming

/-! ## What is rendered -/

/-- A text can take the place of a class list: it brings no quotes and is not blank. -/
structure Replaces (list replacement : String) : Prop where
  quotes : ∀ q : Markup.Quote, q.char ∈ replacement.toList → q.char ∈ list.toList
  letter : ∃ c ∈ replacement.toList, isBlank c = false

theorem isNameCharacter_quote (q : Markup.Quote) : isNameCharacter q.char = false := by
  cases q <;> decide

/-- Words and names joined with spaces can take the place of the list that the words are from. -/
theorem replaces_join {list : String} {parts : List String} (hne : parts ≠ [])
    (h : ∀ part ∈ parts, part ∈ words list ∨ IsNameText part) :
    Replaces list (join " " parts) := by
  constructor
  · intro q hq
    rcases mem_join hq with hSpace | ⟨part, hPart, hChar⟩
    · cases q <;> exact absurd hSpace (by decide)
    · rcases h part hPart with hWord | hName
      · exact mem_of_mem_words hWord hChar
      · have hSpelled := hName.spelled _ hChar
        rw [isNameCharacter_quote] at hSpelled
        cases hSpelled
  · obtain ⟨part, hPart⟩ := List.exists_mem_of_ne_nil parts hne
    have hLetters : part.toList ≠ [] ∧ ∀ c ∈ part.toList, isBlank c = false := by
      rcases h part hPart with hWord | hName
      · exact isWord_of_mem_words hWord
      · exact hName.isWord
    obtain ⟨c, hc⟩ := List.exists_mem_of_ne_nil part.toList hLetters.1
    exact ⟨c, mem_join_of_mem hPart hc, hLetters.2 c hc⟩

theorem Rewriter.replaces_render {w : Rewriter} (hNames : ∀ entry ∈ w.names, IsNameText entry.2)
    {o : Occurrence} (hWords : words o.classList ≠ []) :
    Replaces o.classList (w.render o) := by
  rw [render]
  split
  · exact replaces_join hWords fun part hPart => .inl hPart
  next name hName =>
    have hKept : ∀ part ∈ (words o.classList).filter (fun word => !w.isUtility word),
        part ∈ words o.classList := fun part hPart => (List.mem_filter.mp hPart).1
    dsimp only
    split
    · refine replaces_join (by simp) ?_
      intro part hPart
      rcases List.mem_append.mp hPart with hOld | hLast
      · exact .inl (hKept part hOld)
      · rw [List.mem_singleton.mp hLast]
        exact .inr (hNames _ (mem_of_lookup_eq_some hName))
    next hNone =>
      refine replaces_join ?_ fun part hPart => .inl (hKept part hPart)
      rw [List.filter_eq_self.mpr]
      · exact hWords
      · intro word hWord
        rw [Bool.not_eq_true', Bool.eq_false_iff]
        exact fun hUtility => hNone (List.any_eq_true.mpr ⟨word, hWord, hUtility⟩)

/-! ## The second scan -/

namespace Markup

/-- The second list of findings is the first one with replaced class lists, where the first of them
has moved by a drift. -/
inductive Rescanned (r : ScannedClass → String) :
    Int → List ScannedClass → List ScannedClass → Prop
  | nil (drift : Int) : Rescanned r drift [] []
  | cons {drift : Int} {f f' : ScannedClass} {found found' : List ScannedClass}
    (hTag : f'.tag = f.tag) (hList : f'.classList = r f) (hOffset : (f'.offset : Int) = f.offset + drift)
    (hLength : f'.length = byteCount (r f).toList)
    (hRest : Rescanned r (drift + ((byteCount (r f).toList : Int) - f.length)) found found') :
    Rescanned r drift (f :: found) (f' :: found')

/-- Pieces that are edited to those of the spliced text. The two texts start at positions of their
own. -/
structure Replaced (r : ScannedClass → String) (position position' : Nat) (tag : Option String)
    (parts parts' : List Piece) : Prop where
  edited : List.Forall₂ EditedPiece parts parts'
  spliced : Spliced position (parts.flatMap Piece.text)
    ((foundIn position tag parts).map fun f => ⟨f.offset, f.length, r f⟩) (parts'.flatMap Piece.text)
  rescanned : Rescanned r (position' - position) (foundIn position tag parts)
    (foundIn position' tag parts')

/-- A piece without a list stays as it is and moves the rest of both texts alike. -/
theorem Replaced.same {r : ScannedClass → String} {position position' : Nat}
    {tag tag' : Option String} {piece : Piece} {rest rest' : List Piece}
    (hFound : ∀ start parts, foundIn start tag (piece :: parts) =
      foundIn (start + byteCount piece.text) tag' parts)
    (h : Replaced r (position + byteCount piece.text) (position' + byteCount piece.text) tag'
      rest rest') :
    Replaced r position position' tag (piece :: rest) (piece :: rest') := by
  refine ⟨.cons (.same piece) h.edited, ?_, ?_⟩
  · rw [hFound, List.flatMap_cons, List.flatMap_cons]
    exact h.spliced.before piece.text
  · have hDrift : ((position' + byteCount piece.text : Nat) : Int) -
        (position + byteCount piece.text : Nat) = position' - position := by omega
    rw [hFound, hFound, ← hDrift]
    exact h.rescanned

theorem foundIn_classValue (start : Nat) (tag : Option String) (lead : List Char) (quote : Quote)
    {value : List Char} (hShown : ¬value.all isBlank = true) (parts : List Piece) :
    foundIn start tag (.classValue lead quote value :: parts) =
      ⟨tag, String.ofList value, start + byteCount (lead ++ [quote.char]), byteCount value⟩ ::
        foundIn (start + byteCount (Piece.classValue lead quote value).text) tag parts := by
  rw [foundIn]
  exact if_neg hShown

/-- A list that is rendered moves the rest by what it has grown. -/
theorem Replaced.value {r : ScannedClass → String} {position position' : Nat}
    {tag : Option String} {lead value : List Char} {quote : Quote} {rest rest' : List Piece}
    {f : ScannedClass} (hShown : ¬value.all isBlank = true)
    (hf : f = ⟨tag, String.ofList value, position + byteCount (lead ++ [quote.char]),
      byteCount value⟩)
    (hReplaces : Replaces f.classList (r f))
    (h : Replaced r (position + byteCount (Piece.classValue lead quote value).text)
      (position' + byteCount (Piece.classValue lead quote (r f).toList).text) tag rest rest') :
    Replaced r position position' tag (.classValue lead quote value :: rest)
      (.classValue lead quote (r f).toList :: rest') := by
  have hTag : f.tag = tag := by rw [hf]
  have hOffset : f.offset = position + byteCount (lead ++ [quote.char]) := by rw [hf]
  have hLength : f.length = byteCount value := by rw [hf]
  have hList : f.classList.toList = value := by rw [hf, String.toList_ofList]
  -- Nothing is lost in the second scan, since a blank list would not be found.
  have hShown' : ¬(r f).toList.all isBlank = true := by
    obtain ⟨c, hc, hNot⟩ := hReplaces.letter
    intro hAll
    have hIs := List.all_eq_true.mp hAll c hc
    rw [hNot] at hIs
    cases hIs
  have hText : ∀ value' tail, (Piece.classValue lead quote value').text ++ tail =
      (lead ++ [quote.char]) ++ (value' ++ ([quote.char] ++ tail)) := by
    intro value' tail
    simp only [Piece.text, List.append_assoc, List.cons_append, List.nil_append]
  have hQuotes := hReplaces.quotes
  rw [hList] at hQuotes
  refine ⟨.cons (.value hQuotes) h.edited, ?_, ?_⟩
  · have hStop : (⟨f.offset, f.length, r f⟩ : Splice).stop + byteCount [quote.char] =
        position + byteCount (Piece.classValue lead quote value).text := by
      simp only [Splice.stop, hOffset, hLength, Piece.text, byteCount_append, byteCount]
      omega
    rw [foundIn_classValue _ _ _ _ hShown, ← hf, List.flatMap_cons, List.flatMap_cons, hText, hText,
      List.map_cons]
    refine .cons hOffset hLength (.before [quote.char] ?_)
    rw [hStop]
    exact h.spliced
  · rw [foundIn_classValue _ _ _ _ hShown, ← hf, foundIn_classValue _ _ _ _ hShown']
    refine .cons hTag.symm String.ofList_toList ?_ rfl ?_
    · rw [hOffset]
      push_cast
      omega
    · have hDrift : ((position' + byteCount (Piece.classValue lead quote (r f).toList).text :
            Nat) : Int) - (position + byteCount (Piece.classValue lead quote value).text : Nat) =
            position' - position + ((byteCount (r f).toList : Int) - f.length) := by
        simp only [hLength, Piece.text, byteCount_append, byteCount]
        push_cast
        omega
      rw [← hDrift]
      exact h.rescanned

theorem exists_replaced {r : ScannedClass → String} {position : Nat} {tag : Option String}
    {parts : List Piece} (h : ∀ f ∈ foundIn position tag parts, Replaces f.classList (r f))
    (position' : Nat) : ∃ parts', Replaced r position position' tag parts parts' := by
  induction parts generalizing position position' tag with
  | nil => exact ⟨[], .nil, .nil _ _, .nil _⟩
  | cons piece rest ih =>
    have hPlain : ∀ tag', (∀ start parts, foundIn start tag (piece :: parts) =
          foundIn (start + byteCount piece.text) tag' parts) →
        ∃ parts', Replaced r position position' tag (piece :: rest) parts' := by
      intro tag' hFound
      rw [hFound] at h
      obtain ⟨rest', hRest⟩ := ih h (position' + byteCount piece.text)
      exact ⟨piece :: rest', hRest.same hFound⟩
    cases piece with
    | openTag name => exact hPlain (some (String.ofList name)) fun _ _ => rfl
    | other c => exact hPlain tag fun _ _ => rfl
    | classValue lead quote value =>
      by_cases hBlank : value.all isBlank = true
      · refine hPlain tag fun start parts => ?_
        rw [foundIn]
        exact if_pos hBlank
      · rw [foundIn_classValue _ _ _ _ hBlank] at h
        obtain ⟨hFirst, hRest⟩ := List.forall_mem_cons.mp h
        obtain ⟨rest', hReplaced⟩ := ih hRest _
        exact ⟨_, hReplaced.value hBlank rfl hFirst⟩

/-- A text whose class lists are replaced is scanned like the first one, with the replacements. -/
theorem exists_rescanned {content : String} {r : ScannedClass → String}
    (h : ∀ f ∈ scan content, Replaces f.classList (r f)) :
    ∃ out : String, Spliced 0 content.toList
        ((scan content).map fun f => ⟨f.offset, f.length, r f⟩) out.toList ∧
      Rescanned r 0 (scan content) (scan out) := by
  obtain ⟨parts', hEdited, hSpliced, hRescanned⟩ := exists_replaced h 0
  have hPieces := (pieces_of_edited hEdited).1
  rw [flatMap_text_pieces] at hSpliced
  refine ⟨String.ofList (parts'.flatMap Piece.text), ?_, ?_⟩
  · rw [String.toList_ofList]
    exact hSpliced
  · have hScan : scan (String.ofList (parts'.flatMap Piece.text)) = foundIn 0 none parts' := by
      rw [scan, String.toList_ofList, hPieces]
    rw [hScan]
    exact hRescanned

/-- What is found after a replacement is a replacement of what was found before. -/
theorem Rescanned.exists_replacement {r : ScannedClass → String} {drift : Int}
    {found found' : List ScannedClass} (h : Rescanned r drift found found') :
    ∀ f' ∈ found', ∃ f ∈ found, f'.classList = r f := by
  induction h with
  | nil => intro f' hf'; cases hf'
  | cons hTag hList hOffset hLength hRest ih =>
    intro f' hf'
    rcases List.mem_cons.mp hf' with rfl | hMore
    · exact ⟨_, List.mem_cons_self, hList⟩
    · obtain ⟨f, hf, hSame⟩ := ih f' hMore
      exact ⟨f, List.mem_cons_of_mem _ hf, hSame⟩

/-- A finding stands where the one before it stood, moved by what the lists before it have grown. -/
theorem Rescanned.getElem_eq {r : ScannedClass → String} {drift : Int}
    {found found' : List ScannedClass} (h : Rescanned r drift found found') :
    found'.length = found.length ∧ ∀ i (hi : i < found.length) (hi' : i < found'.length),
      found'[i].tag = found[i].tag ∧ found'[i].classList = r found[i] ∧
      found'[i].length = byteCount (r found[i]).toList ∧
      (found'[i].offset : Int) = found[i].offset + drift +
        ((found.take i).map fun f => (byteCount (r f).toList : Int) - f.length).sum := by
  induction h with
  | nil => exact ⟨rfl, fun i hi => nomatch hi⟩
  | @cons drift f f' found found' hTag hList hOffset hLength _ ih =>
    obtain ⟨hCount, hAll⟩ := ih
    refine ⟨congrArg (· + 1) hCount, ?_⟩
    intro i hi hi'
    cases i with
    | zero =>
      refine ⟨hTag, hList, hLength, ?_⟩
      rw [List.take_zero, List.map_nil, List.sum_nil, Int.add_zero]
      exact hOffset
    | succ i =>
      obtain ⟨hTagAt, hListAt, hLengthAt, hOffsetAt⟩ :=
        hAll i (Nat.lt_of_succ_lt_succ hi) (Nat.lt_of_succ_lt_succ hi')
      refine ⟨hTagAt, hListAt, hLengthAt, ?_⟩
      rw [List.take_succ_cons, List.map_cons, List.sum_cons, List.getElem_cons_succ,
        List.getElem_cons_succ, hOffsetAt]
      omega

theorem words_ne_nil_of_mem_foundIn {position : Nat} {tag : Option String} {parts : List Piece} :
    ∀ f ∈ foundIn position tag parts, words f.classList ≠ [] := by
  induction parts generalizing position tag with
  | nil => intro f hf; cases hf
  | cons piece rest ih =>
    cases piece with
    | openTag name => exact ih
    | other c => exact ih
    | classValue lead quote value =>
      rw [foundIn]
      split
      · exact ih
      next hShown =>
        intro f hf
        rcases List.mem_cons.mp hf with rfl | hMore
        · obtain ⟨c, hc, hLetter⟩ : ∃ c ∈ value, isBlank c = false := by simpa using hShown
          rw [Text.words, String.toList_ofList]
          exact fun hNil => wordsOf_ne_nil hc hLetter (List.map_eq_nil_iff.mp hNil)
        · exact ih f hMore

end Markup

/-- A scan of a rewritten content finds as many class attributes as before. Each has the tag it had,
the rendered list, and the old offset moved by the growth of the lists before it, in bytes. The
occurrences may have any keys, and the names may be any that are spelled like names. -/
theorem scan_replace (content file : String) (key : ScannedClass → CanonicalKey)
    (compile : Compiler) {names : List (CanonicalKey × String)}
    (hNames : ∀ entry ∈ names, IsNameText entry.2) :
    let found := Markup.scan content
    let w := Rewriter.new (.ofList (found.map (ScannedClass.occurrence file key))) names compile
    let rendered := fun f : ScannedClass => w.render (f.occurrence file key)
    ∃ out, (w.replace content file).1 = .ok out ∧ (Markup.scan out).length = found.length ∧
      ∀ i (hi : i < found.length) (hi' : i < (Markup.scan out).length),
        (Markup.scan out)[i].tag = found[i].tag ∧
        (Markup.scan out)[i].classList = rendered found[i] ∧
        (Markup.scan out)[i].length = byteCount (rendered found[i]).toList ∧
        ((Markup.scan out)[i].offset : Int) = found[i].offset +
          ((found.take i).map fun f => (byteCount (rendered f).toList : Int) - f.length).sum := by
  intro found w rendered
  have hReplaces : ∀ f ∈ found, Replaces f.classList (rendered f) := by
    intro f hf
    exact w.replaces_render hNames (o := f.occurrence file key)
      (Markup.words_ne_nil_of_mem_foundIn f hf)
  obtain ⟨parts', hEdited, hSpliced, hRescanned⟩ := Markup.exists_replaced hReplaces 0
  have hPieces := (Markup.pieces_of_edited hEdited).1
  have hInFile : w.index.inFile file = found.map (ScannedClass.occurrence file key) := by
    have hIndex : w.index = .ofList (found.map (ScannedClass.occurrence file key)) := rfl
    rw [hIndex, OccurrenceIndex.inFile_ofList, List.filter_eq_self]
    intro o ho
    obtain ⟨f, _, rfl⟩ := List.mem_map.mp ho
    exact decide_eq_true rfl
  rw [Markup.flatMap_text_pieces] at hSpliced
  have hScan : Markup.scan (String.ofList (parts'.flatMap Markup.Piece.text)) =
      Markup.foundIn 0 none parts' := by
    rw [Markup.scan, String.toList_ofList, hPieces]
  have hOut : Spliced 0 content.toList (w.splices file key found)
      (String.ofList (parts'.flatMap Markup.Piece.text)).toList := by
    rw [String.toList_ofList]
    exact hSpliced
  have hReplace := Rewriter.replace_of_spliced (w := w) List.not_mem_nil
    (OccurrenceIndex.forFile_of_inFile hInFile) hOut
  obtain ⟨hCount, hAll⟩ := hRescanned.getElem_eq
  refine ⟨String.ofList (parts'.flatMap Markup.Piece.text), congrArg Prod.fst hReplace, ?_⟩
  rw [hScan]
  refine ⟨hCount, ?_⟩
  intro i hi hi'
  obtain ⟨hTag, hList, hLength, hOffset⟩ := hAll i hi hi'
  refine ⟨hTag, hList, hLength, ?_⟩
  rw [hOffset, Int.sub_self, Int.add_zero]
  rfl

def spacedMarkup : String := "<p class=' x  p-4'><b class=\"y  z\">"

def spacedNames : List (CanonicalKey × String) := [(⟨" x  p-4"⟩, "twk-n")]

def compileSpacing : Compiler := fun word => if word = "p-4" then "padding: 1rem" else ""

/-- The first list shrinks by a byte, so the second one moves. -/
theorem scan_replace_spacedMarkup :
    let key := fun f : ScannedClass => (⟨f.classList⟩ : CanonicalKey)
    let found := Markup.scan spacedMarkup
    let w := Rewriter.new (.ofList (found.map (ScannedClass.occurrence "a.html" key)))
      spacedNames compileSpacing
    (∀ entry ∈ spacedNames, IsNameText entry.2) ∧
      ∃ out, (w.replace spacedMarkup "a.html").1 = .ok out ∧
        ∃ h : 1 < (Markup.scan out).length, (Markup.scan out)[1].tag = some "b" ∧
          (Markup.scan out)[1].classList = "y z" ∧ (Markup.scan out)[1].offset = 29 := by
  intro key found w
  have hNames : ∀ entry ∈ spacedNames, IsNameText entry.2 := by
    intro entry hEntry
    rw [List.mem_singleton.mp hEntry]
    exact ⟨by decide, List.all_eq_true.mp (by decide)⟩
  obtain ⟨out, hOut, hCount, hAll⟩ := scan_replace spacedMarkup "a.html" key compileSpacing hNames
  have hOther : 1 < (Markup.scan out).length := by
    rw [hCount]
    decide +kernel
  obtain ⟨hTag, hList, _, hOffset⟩ := hAll 1 (by decide +kernel) hOther
  refine ⟨hNames, out, hOut, hOther, ?_, ?_, ?_⟩
  · rw [hTag]
    decide +kernel
  · rw [hList]
    decide +kernel
  · apply Int.natCast_inj.mp
    rw [hOffset]
    decide +kernel

end ClassCollapse
