import ClassCollapse.Text.Blank
import ClassCollapse.Text.WordCharacter

/-!
# Pieces of markup

Markup is cut into pieces from left to right. A piece is an opening tag up to the end of its name, a
class attribute with its quoted value, or a single other character. An attribute counts wherever its
name stands, also inside another word or outside a tag. The main statement is that the pieces of a
text, written one after the other, are the text.
-/

namespace ClassCollapse.Markup

/-- The marks that enclose an attribute value. -/
inductive Quote
  | double
  | single
deriving DecidableEq

def Quote.char : Quote → Char
  | .double => '"'
  | .single => '\''

def Quote.ofChar? (c : Char) : Option Quote :=
  if c = '"' then some .double else if c = '\'' then some .single else none

/-- A part of markup. The lead of a class attribute is all that stands before its opening quote. -/
inductive Piece
  | openTag (name : List Char)
  | classValue (lead : List Char) (quote : Quote) (value : List Char)
  | other (c : Char)
deriving DecidableEq

def Piece.text : Piece → List Char
  | .openTag name => '<' :: name
  | .classValue lead quote value => lead ++ quote.char :: (value ++ [quote.char])
  | .other c => [c]

def isLetter (c : Char) : Bool :=
  ('a' ≤ c && c ≤ 'z') || ('A' ≤ c && c ≤ 'Z')

/-- The characters of a tag name after its first letter. -/
def isTagCharacter (c : Char) : Bool :=
  Text.isWordCharacter c || c == ':' || c == '.' || c == '-'

/-- The longest tag name after a `<`, with the rest. -/
def openTag? : List Char → Option (List Char × List Char)
  | '<' :: c :: cs =>
    if isLetter c then some (c :: cs.takeWhile isTagCharacter, cs.dropWhile isTagCharacter)
    else none
  | _ => none

/-- A letter without its case. The long `ſ` is a form of `s`. -/
def foldCase (c : Char) : Char :=
  if 'A' ≤ c && c ≤ 'Z' then Char.ofNat (c.toNat + 32) else if c = 'ſ' then 's' else c

/-- Takes a word in any case from the front. -/
def takeWord? : List Char → List Char → Option (List Char × List Char)
  | [], cs => some ([], cs)
  | _ :: _, [] => none
  | w :: ws, c :: cs =>
    if foldCase c = w then (takeWord? ws cs).map fun (taken, rest) => (c :: taken, rest) else none

def takeOptional (word : List Char) (cs : List Char) : List Char × List Char :=
  (takeWord? word cs).getD ([], cs)

/-- The name of a class attribute: `class`, with or without `ng` before it, `name` after it and
a bracket on either side. -/
def attributeName? (cs : List Char) : Option (List Char × List Char) := do
  let (opening, cs) := takeOptional ['['] cs
  let (binding, cs) := takeOptional ['n', 'g'] cs
  let (name, cs) ← takeWord? ['c', 'l', 'a', 's', 's'] cs
  let (ending, cs) := takeOptional ['n', 'a', 'm', 'e'] cs
  let (closing, cs) := takeOptional [']'] cs
  some (opening ++ binding ++ name ++ ending ++ closing, cs)

/-- The equals sign after an attribute name, with the blanks around it. -/
def equalsSign? (cs : List Char) : Option (List Char × List Char) :=
  match cs.dropWhile Text.isBlank with
  | '=' :: rest =>
    some (cs.takeWhile Text.isBlank ++ '=' :: rest.takeWhile Text.isBlank,
      rest.dropWhile Text.isBlank)
  | _ => none

/-- A value between quotes of one kind. -/
def quoted? : List Char → Option (Quote × List Char × List Char)
  | [] => none
  | c :: cs =>
    match Quote.ofChar? c with
    | none => none
    | some quote =>
      match cs.dropWhile (· ≠ quote.char) with
      | [] => none
      | _ :: rest => some (quote, cs.takeWhile (· ≠ quote.char), rest)

def classValue? (cs : List Char) : Option (Piece × List Char) := do
  let (name, cs) ← attributeName? cs
  let (equals, cs) ← equalsSign? cs
  let (quote, value, rest) ← quoted? cs
  some (.classValue (name ++ equals) quote value, rest)

/-- The first piece of a text and the text after it. -/
def firstPiece (c : Char) (cs : List Char) : Piece × List Char :=
  match openTag? (c :: cs) with
  | some (name, rest) => (.openTag name, rest)
  | none => (classValue? (c :: cs)).getD (.other c, cs)

theorem openTag?_eq_some {cs name rest : List Char} (h : openTag? cs = some (name, rest)) :
    '<' :: (name ++ rest) = cs := by
  unfold openTag? at h
  split at h
  · split at h
    · cases h
      simp [List.takeWhile_append_dropWhile]
    · cases h
  · cases h

theorem takeWord?_eq_some {word cs taken rest : List Char}
    (h : takeWord? word cs = some (taken, rest)) : taken ++ rest = cs := by
  induction word generalizing cs taken with
  | nil => cases h; rfl
  | cons w ws ih =>
    cases cs with
    | nil => cases h
    | cons c cs =>
      simp only [takeWord?] at h
      split at h
      · obtain ⟨⟨t, r⟩, hr, heq⟩ := Option.map_eq_some_iff.1 h
        cases heq
        simp [ih hr]
      · cases h

theorem takeOptional_append (word cs : List Char) :
    (takeOptional word cs).1 ++ (takeOptional word cs).2 = cs := by
  unfold takeOptional
  cases h : takeWord? word cs with
  | none => rfl
  | some p => exact takeWord?_eq_some h

theorem attributeName?_eq_some {cs name rest : List Char}
    (h : attributeName? cs = some (name, rest)) : name ++ rest = cs := by
  simp only [attributeName?, Option.bind_eq_bind, Option.bind_eq_some_iff] at h
  obtain ⟨⟨word, mid⟩, hword, heq⟩ := h
  have hopening := takeOptional_append ['['] cs
  have hbinding := takeOptional_append ['n', 'g'] (takeOptional ['['] cs).2
  have hmid := takeWord?_eq_some hword
  have hending := takeOptional_append ['n', 'a', 'm', 'e'] mid
  have hclosing := takeOptional_append [']'] (takeOptional ['n', 'a', 'm', 'e'] mid).2
  cases heq
  simp only [List.append_assoc, hclosing, hending, hmid, hbinding, hopening]

theorem equalsSign?_eq_some {cs sign rest : List Char}
    (h : equalsSign? cs = some (sign, rest)) : sign ++ rest = cs := by
  unfold equalsSign? at h
  split at h
  next r heq =>
    cases h
    rw [List.append_assoc, List.cons_append, List.takeWhile_append_dropWhile, ← heq,
      List.takeWhile_append_dropWhile]
  · cases h

theorem Quote.ofChar?_eq_some {c : Char} {quote : Quote} (h : Quote.ofChar? c = some quote) :
    quote.char = c := by
  unfold Quote.ofChar? at h
  split at h
  next hc => cases h; exact hc.symm
  · split at h
    next hc => cases h; exact hc.symm
    · cases h

theorem dropWhile_head {p : Char → Bool} {cs rest : List Char} {c : Char}
    (h : cs.dropWhile p = c :: rest) : p c = false := by
  have := List.head?_dropWhile_not p cs
  rw [h] at this
  simpa using this

theorem quoted?_eq_some {cs value rest : List Char} {quote : Quote}
    (h : quoted? cs = some (quote, value, rest)) :
    quote.char :: (value ++ quote.char :: rest) = cs := by
  unfold quoted? at h
  split at h
  · cases h
  next c cs =>
    split at h
    · cases h
    next q hq =>
      split at h
      · cases h
      next d r hr =>
        cases h
        have hd : d = quote.char := by simpa using dropWhile_head hr
        subst hd
        rw [Quote.ofChar?_eq_some hq, ← Quote.ofChar?_eq_some hq, ← hr,
          List.takeWhile_append_dropWhile]

theorem classValue?_eq_some {cs rest : List Char} {piece : Piece}
    (h : classValue? cs = some (piece, rest)) : piece.text ++ rest = cs := by
  simp only [classValue?, Option.bind_eq_bind, Option.bind_eq_some_iff] at h
  obtain ⟨⟨name, afterName⟩, hname, ⟨equals, afterSign⟩, hequals, ⟨quote, value, r⟩, hquoted,
    heq⟩ := h
  cases heq
  have hvalue := quoted?_eq_some hquoted
  simp only [Piece.text, List.append_assoc, List.cons_append, List.nil_append, hvalue,
    equalsSign?_eq_some hequals, attributeName?_eq_some hname]

theorem firstPiece_text (c : Char) (cs : List Char) :
    (firstPiece c cs).1.text ++ (firstPiece c cs).2 = c :: cs := by
  unfold firstPiece
  split
  next name rest h => exact openTag?_eq_some h
  · cases h : classValue? (c :: cs) with
    | none => rfl
    | some p => exact classValue?_eq_some h

theorem Piece.text_ne_nil (p : Piece) : p.text ≠ [] := by
  cases p <;> simp [Piece.text]

theorem firstPiece_shorter (c : Char) (cs : List Char) :
    (firstPiece c cs).2.length < (c :: cs).length := by
  have h := congrArg List.length (firstPiece_text c cs)
  have hpos := List.length_pos_iff.2 (firstPiece c cs).1.text_ne_nil
  rw [List.length_append] at h
  omega

def pieces : List Char → List Piece
  | [] => []
  | c :: cs => (firstPiece c cs).1 :: pieces (firstPiece c cs).2
termination_by cs => cs.length
decreasing_by exact firstPiece_shorter c cs

/-- Cutting a text into pieces loses nothing. -/
theorem flatMap_text_pieces (cs : List Char) : (pieces cs).flatMap Piece.text = cs := by
  induction cs using pieces.induct with
  | case1 => simp [pieces]
  | case2 c cs ih => rw [pieces, List.flatMap_cons, ih, firstPiece_text]

end ClassCollapse.Markup
