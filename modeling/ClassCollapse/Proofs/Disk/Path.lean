import ClassCollapse.Disk.Path
import ClassCollapse.Proofs.Text.Words
import Mathlib.Data.List.Basic

/-!
# Paths and the names in them

A path below a root has the steps of the root followed by its names, both as a way to walk and as
components to compare. So its key is its names with slashes between them, and different names give
different keys. The last part of a path decides its file name, its last step and its last component.
-/

namespace ClassCollapse

/-- A name that a directory can have an entry for. -/
structure IsName (s : String) : Prop where
  nonempty : s ≠ ""
  no_slash : '/' ∉ s.toList
  ne_here : s ≠ "."
  ne_up : s ≠ ".."

instance (s : String) : Decidable (IsName s) :=
  decidable_of_iff (s ≠ "" ∧ '/' ∉ s.toList ∧ s ≠ "." ∧ s ≠ "..")
    ⟨fun h => ⟨h.1, h.2.1, h.2.2.1, h.2.2.2⟩,
      fun h => ⟨h.nonempty, h.no_slash, h.ne_here, h.ne_up⟩⟩

namespace Path

/-! ## Splitting at slashes -/

theorem split_ne_nil (cs : List Char) : split cs ≠ [] := by
  induction cs with
  | nil => exact List.cons_ne_nil _ _
  | cons c cs ih =>
    by_cases h : c = '/'
    · subst h
      rw [split]
      exact List.cons_ne_nil _ _
    · rw [split.eq_3 _ _ h]
      cases hSplit : split cs with
      | nil => exact absurd hSplit ih
      | cons part parts => exact List.cons_ne_nil _ _

theorem split_append (front back : List Char) :
    split (front ++ '/' :: back) = split front ++ split back := by
  induction front with
  | nil => rfl
  | cons c front ih =>
    by_cases h : c = '/'
    · subst h
      rw [List.cons_append, split, split, ih, List.cons_append]
    · rw [List.cons_append, split.eq_3 _ _ h, split.eq_3 _ _ h, ih]
      cases hSplit : split front with
      | nil => exact absurd hSplit (split_ne_nil front)
      | cons part parts => rfl

theorem split_part {cs : List Char} (h : '/' ∉ cs) : split cs = [cs] := by
  induction cs with
  | nil => rfl
  | cons c cs ih =>
    obtain ⟨hFirst, hRest⟩ := not_or.mp (mt List.mem_cons.mpr h)
    rw [split.eq_3 _ _ (Ne.symm hFirst), ih hRest, Text.extendFirst]

theorem split_intercalate {parts : List (List Char)} (hne : parts ≠ [])
    (h : ∀ part ∈ parts, '/' ∉ part) : split (['/'].intercalate parts) = parts := by
  induction parts with
  | nil => exact absurd rfl hne
  | cons part parts ih =>
    have hPart := split_part (h part List.mem_cons_self)
    cases parts with
    | nil => rw [List.intercalate_singleton, hPart]
    | cons next parts =>
      have hText : ['/'].intercalate (part :: next :: parts) =
          part ++ '/' :: ['/'].intercalate (next :: parts) := by
        rw [List.intercalate_cons_cons, List.append_assoc]
        rfl
      rw [hText, split_append, hPart,
        ih (List.cons_ne_nil _ _) fun other hOther => h other (List.mem_cons_of_mem _ hOther)]
      rfl

theorem split_join_parts {parts : List String} (hne : parts ≠ [])
    (h : ∀ part ∈ parts, '/' ∉ part.toList) :
    (split (Text.join "/" parts).toList).map String.ofList = parts := by
  have hSlash : "/".toList = ['/'] := rfl
  rw [Text.toList_join, hSlash, split_intercalate]
  · rw [List.map_map]
    have hId : String.ofList ∘ String.toList = id := funext fun _ => String.ofList_toList
    rw [hId, List.map_id]
  · exact fun hNil => hne (List.map_eq_nil_iff.mp hNil)
  · intro cs hcs
    obtain ⟨part, hPart, rfl⟩ := List.mem_map.mp hcs
    exact h part hPart

theorem split_join {names : List String} (hne : names ≠ []) (h : ∀ s ∈ names, IsName s) :
    (split (Text.join "/" names).toList).map String.ofList = names :=
  split_join_parts hne fun s hs => (h s hs).no_slash

theorem join_injective {names names' : List String} (hne : names ≠ []) (hne' : names' ≠ [])
    (h : ∀ s ∈ names, IsName s) (h' : ∀ s ∈ names', IsName s)
    (hJoin : Text.join "/" names = Text.join "/" names') : names = names' := by
  rw [← split_join hne h, hJoin, split_join hne' h']

/-! ## Paths below a root -/

/-- The parts of a path that a name can follow. -/
def leadingParts (p : Path) : List String :=
  if p.endsWithSlash then p.parts.dropLast else p.parts

theorem head_join_parts {first : String} (hne : first ≠ "") (h : '/' ∉ first.toList)
    (rest : List String) : (Text.join "/" (first :: rest)).toList.head? ≠ some '/' := by
  cases hText : first.toList with
  | nil => exact absurd (String.toList_eq_nil_iff.mp hText) hne
  | cons c cs =>
    have hHead : (Text.join "/" (first :: rest)).toList.head? = some c := by
      rw [Text.toList_join, List.map_cons, hText]
      cases rest with
      | nil =>
        rw [List.map_nil, List.intercalate_singleton]
        rfl
      | cons next rest =>
        rw [List.map_cons, List.intercalate_cons_cons]
        rfl
    rw [hHead]
    intro hSlash
    have hMem : c ∈ first.toList := hText ▸ List.mem_cons_self
    exact h (Option.some.inj hSlash ▸ hMem)

theorem isAbsolute_join_parts {names : List String} (hne : names ≠ [])
    (h : ∀ s ∈ names, s ≠ "" ∧ '/' ∉ s.toList) : isAbsolute ⟨Text.join "/" names⟩ = false := by
  rw [isAbsolute, beq_eq_false_iff_ne]
  obtain ⟨first, rest, rfl⟩ := List.exists_cons_of_ne_nil hne
  obtain ⟨hFirst, hSlash⟩ := h first List.mem_cons_self
  exact head_join_parts hFirst hSlash rest

/-- The parts of a path whose text goes on after a slash. -/
theorem parts_of_slash {p : Path} {front back : List Char}
    (h : p.text.toList = front ++ '/' :: back) :
    p.parts = (if p.isAbsolute then ((split front).map String.ofList).tail
      else (split front).map String.ofList) ++ (split back).map String.ofList := by
  have hne : (split front).map String.ofList ≠ [] :=
    fun hNil => split_ne_nil front (List.map_eq_nil_iff.mp hNil)
  rw [parts, h, split_append, List.map_append]
  split
  · exact List.tail_append_of_ne_nil hne
  · rfl

/-- A path that goes on after a root is absolute if the root is, and has the parts of the root and
its own. -/
theorem parts_join_parts {root : Path} (hRoot : root.text ≠ "") {names : List String}
    (hne : names ≠ []) (h : ∀ s ∈ names, s ≠ "" ∧ '/' ∉ s.toList) :
    (root.join ⟨Text.join "/" names⟩).isAbsolute = root.isAbsolute ∧
      (root.join ⟨Text.join "/" names⟩).parts = root.leadingParts ++ names ∧
      (root.isAbsolute = false → root.leadingParts ≠ []) := by
  have hNames := split_join_parts hne fun s hs => (h s hs).2
  have hRelative := isAbsolute_join_parts hne h
  have hEmpty : root.text.isEmpty = false := by
    rw [Bool.eq_false_iff]
    exact fun hTrue => hRoot (String.isEmpty_iff.mp hTrue)
  rw [leadingParts]
  cases hSlash : root.endsWithSlash with
  | true =>
    obtain ⟨front, hFront⟩ := List.getLast?_eq_some_iff.mp (beq_iff_eq.mp hSlash)
    have hJoin : root.join ⟨Text.join "/" names⟩ = ⟨root.text ++ Text.join "/" names⟩ := by
      rw [join, hRelative, if_neg Bool.false_ne_true, if_pos]
      rw [endsWithSlash] at hSlash
      rw [hSlash, Bool.or_true]
    have hText : (⟨root.text ++ Text.join "/" names⟩ : Path).text.toList =
        front ++ '/' :: (Text.join "/" names).toList := by
      rw [String.toList_append, hFront, List.append_assoc]
      rfl
    have hAbsolute : (⟨root.text ++ Text.join "/" names⟩ : Path).isAbsolute =
        root.isAbsolute := by
      rw [isAbsolute, hText, isAbsolute, hFront, List.head?_append, List.head?_append]
      rfl
    have hParts := parts_of_slash (p := root) hFront
    rw [hJoin, parts_of_slash hText, hAbsolute, hNames, hParts, split, List.map_singleton,
      if_pos rfl, List.dropLast_concat]
    refine ⟨rfl, rfl, ?_⟩
    intro hRootRelative hNil
    rw [hRootRelative, if_neg Bool.false_ne_true] at hNil
    exact split_ne_nil front (List.map_eq_nil_iff.mp hNil)
  | false =>
    have hJoin : root.join ⟨Text.join "/" names⟩ =
        ⟨root.text ++ "/" ++ Text.join "/" names⟩ := by
      rw [join, hRelative, if_neg Bool.false_ne_true, if_neg]
      rw [endsWithSlash] at hSlash
      rw [hSlash, hEmpty]
      exact Bool.false_ne_true
    have hText : (⟨root.text ++ "/" ++ Text.join "/" names⟩ : Path).text.toList =
        root.text.toList ++ '/' :: (Text.join "/" names).toList := by
      rw [String.toList_append, String.toList_append, List.append_assoc]
      rfl
    have hAbsolute : (⟨root.text ++ "/" ++ Text.join "/" names⟩ : Path).isAbsolute =
        root.isAbsolute := by
      rw [isAbsolute, hText, isAbsolute]
      cases hChars : root.text.toList with
      | nil => exact absurd (String.toList_eq_nil_iff.mp hChars) hRoot
      | cons c cs => rfl
    rw [hJoin, parts_of_slash hText, hAbsolute, hNames, if_neg Bool.false_ne_true]
    refine ⟨rfl, rfl, ?_⟩
    intro hRootRelative hNil
    rw [parts, hRootRelative, if_neg Bool.false_ne_true] at hNil
    exact split_ne_nil _ (List.map_eq_nil_iff.mp hNil)

theorem parts_join {root : Path} (hRoot : root.text ≠ "") {names : List String}
    (hne : names ≠ []) (h : ∀ s ∈ names, IsName s) :
    (root.join ⟨Text.join "/" names⟩).isAbsolute = root.isAbsolute ∧
      (root.join ⟨Text.join "/" names⟩).parts = root.leadingParts ++ names ∧
      (root.isAbsolute = false → root.leadingParts ≠ []) :=
  parts_join_parts hRoot hne fun s hs => ⟨(h s hs).nonempty, (h s hs).no_slash⟩

end Path

end ClassCollapse
