import ClassCollapse.Markup.ScannedClass
import ClassCollapse.Proofs.Rewrite.Spliced

/-!
# Where a scan finds class lists

Each class list that a scan reports stands at its place, between characters, and after the one
before it. So the places can be used to cut the text into gaps and class lists, and each class list
is the part of the text at its place.
-/

namespace ClassCollapse.Markup

open Text

/-- The class lists stand one after the other in a text that starts at a position. -/
inductive Located : Nat → List Char → List ScannedClass → Prop
  | nil (position : Nat) (rest : List Char) : Located position rest []
  | cons {position : Nat} {text gap rest : List Char} {found : ScannedClass}
    {more : List ScannedClass} (hText : text = gap ++ (found.classList.toList ++ rest))
    (hOffset : found.offset = position + byteCount gap)
    (hLength : found.length = byteCount found.classList.toList)
    (hRest : Located (found.offset + found.length) rest more) :
    Located position text (found :: more)

/-- Text before the class lists only moves them. -/
theorem Located.before {position : Nat} {rest : List Char} {found : List ScannedClass}
    (lead : List Char) (h : Located (position + byteCount lead) rest found) :
    Located position (lead ++ rest) found := by
  cases h with
  | nil => exact .nil _ _
  | cons hText hOffset hLength hRest =>
    rw [hText, ← List.append_assoc]
    refine .cons rfl ?_ hLength hRest
    rw [hOffset, byteCount_append, Nat.add_assoc]

theorem located_foundIn (position : Nat) (tag : Option String) (parts : List Piece) :
    Located position (parts.flatMap Piece.text) (foundIn position tag parts) := by
  induction parts generalizing position tag with
  | nil => exact .nil _ _
  | cons piece rest ih =>
    rw [List.flatMap_cons]
    cases piece with
    | openTag name => exact (ih _ _).before _
    | other c => exact (ih _ _).before _
    | classValue lead quote value =>
      rw [foundIn]
      split
      · exact (ih _ _).before _
      · have hText : (Piece.classValue lead quote value).text ++ rest.flatMap Piece.text =
            (lead ++ [quote.char]) ++ ((String.ofList value).toList ++
              ([quote.char] ++ rest.flatMap Piece.text)) := by
          rw [String.toList_ofList, Piece.text]
          simp only [List.append_assoc, List.cons_append, List.nil_append]
        have hNext : position + byteCount (Piece.classValue lead quote value).text =
            position + byteCount (lead ++ [quote.char]) + byteCount value +
              byteCount [quote.char] := by
          simp only [Piece.text, byteCount_append, byteCount]
          omega
        rw [hNext]
        refine .cons hText ?_ ?_ ?_
        · rfl
        · rw [String.toList_ofList]
        · exact (ih _ _).before _

theorem located_scan (content : String) : Located 0 content.toList (scan content) := by
  have h := located_foundIn 0 none (pieces content.toList)
  rw [flatMap_text_pieces] at h
  exact h

/-! ## What follows from the places -/

theorem Located.offset_le {position : Nat} {rest : List Char} {found : List ScannedClass}
    (h : Located position rest found) : ∀ f ∈ found, position ≤ f.offset := by
  induction h with
  | nil => intro f hf; cases hf
  | cons hText hOffset hLength hRest ih =>
    intro f hf
    rcases List.mem_cons.mp hf with rfl | hMore
    · omega
    · have := ih f hMore
      omega

/-- Each class list ends before the next one starts. -/
theorem Located.apart {position : Nat} {rest : List Char} {found : List ScannedClass}
    (h : Located position rest found) :
    found.Pairwise fun a b => a.offset + a.length ≤ b.offset := by
  induction h with
  | nil => exact List.Pairwise.nil
  | cons hText hOffset hLength hRest ih => exact List.Pairwise.cons hRest.offset_le ih

theorem Located.ascending {position : Nat} {rest : List Char} {found : List ScannedClass}
    (h : Located position rest found) : found.Pairwise fun a b => a.offset ≤ b.offset :=
  h.apart.imp Nat.le_of_add_right_le

theorem Located.part_eq {position : Nat} {rest : List Char} {found : List ScannedClass}
    (h : Located position rest found) :
    ∀ f ∈ found, ∃ before after, rest = before ++ (f.classList.toList ++ after) ∧
      f.offset = position + byteCount before ∧ f.length = byteCount f.classList.toList := by
  induction h with
  | nil => intro f hf; cases hf
  | @cons position text gap rest first more hText hOffset hLength hRest ih =>
    intro f hf
    rcases List.mem_cons.mp hf with rfl | hMore
    · exact ⟨gap, rest, hText, hOffset, hLength⟩
    · obtain ⟨before, after, hRestText, hPlace, hCount⟩ := ih f hMore
      refine ⟨gap ++ (first.classList.toList ++ before), after, ?_, ?_, hCount⟩
      · rw [hText, hRestText]
        simp only [List.append_assoc]
      · rw [byteCount_append, byteCount_append]
        omega

/-- The text at the place of a class list is the class list. -/
theorem Located.slice?_eq {cs : List Char} {found : List ScannedClass} (h : Located 0 cs found) :
    ∀ f ∈ found, slice? f.offset (f.offset + f.length) cs = some f.classList.toList := by
  intro f hf
  obtain ⟨before, after, hText, hPlace, hCount⟩ := h.part_eq f hf
  have hStart : f.offset = byteCount before := by omega
  have hLength : f.offset + f.length - f.offset = byteCount f.classList.toList := by omega
  rw [slice?, if_neg (by omega), hLength, hText, hStart, cutAt?_append]
  dsimp only [Option.bind_eq_bind, Option.bind_some, Option.pure_def]
  rw [cutAt?_append]
  rfl

/-- The class lists can be replaced by any texts. -/
theorem Located.exists_spliced {position : Nat} {rest : List Char} {found : List ScannedClass}
    (h : Located position rest found) (replacement : ScannedClass → String) :
    ∃ out, Spliced position rest
      (found.map fun f => ⟨f.offset, f.length, replacement f⟩) out := by
  induction h with
  | nil position rest => exact ⟨rest, .nil position rest⟩
  | cons hText hOffset hLength hRest ih =>
    obtain ⟨out, hOut⟩ := ih
    rw [hText]
    exact ⟨_, .cons hOffset hLength hOut⟩

/-- Class lists that are replaced by themselves leave the text as it is. -/
theorem Located.spliced_self {position : Nat} {rest : List Char} {found : List ScannedClass}
    (h : Located position rest found) :
    Spliced position rest (found.map fun f => ⟨f.offset, f.length, f.classList⟩) rest := by
  induction h with
  | nil position rest => exact .nil position rest
  | cons hText hOffset hLength hRest ih =>
    rw [hText]
    exact .cons hOffset hLength ih

end ClassCollapse.Markup
