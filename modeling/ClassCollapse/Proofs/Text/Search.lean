import ClassCollapse.Text.Search
import Mathlib.Data.List.Infix

/-!
# Texts within texts

A text holds a pattern exactly if the pattern is a part of it, and it is split at the first place
where the pattern stands. Whether the pattern stands across a seam of two texts is decided by the
characters next to the seam. A text that starts with a line has this line and the lines of the rest.
-/

namespace ClassCollapse.Text

theorem eq_of_splitFirst? {pattern cs before after : List Char}
    (h : splitFirst? pattern cs = some (before, after)) : cs = before ++ pattern ++ after := by
  induction cs generalizing before with
  | nil =>
    rw [splitFirst?] at h
    split at h
    next hEmpty =>
      cases h
      rw [List.isEmpty_iff.mp hEmpty]
      rfl
    next => cases h
  | cons c cs ih =>
    rw [splitFirst?] at h
    split at h
    next hHere =>
      cases h
      obtain ⟨rest, hRest⟩ := List.isPrefixOf_iff_prefix.mp hHere
      rw [← hRest, List.drop_left, List.nil_append]
    next =>
      obtain ⟨⟨front, back⟩, hLater, hSplit⟩ := Option.map_eq_some_iff.mp h
      cases hSplit
      rw [ih hLater]
      rfl

theorem isSome_splitFirst?_iff {pattern cs : List Char} :
    (splitFirst? pattern cs).isSome = true ↔ pattern <:+: cs := by
  constructor
  · intro h
    obtain ⟨⟨before, after⟩, hSplit⟩ := Option.isSome_iff_exists.mp h
    exact ⟨before, after, (eq_of_splitFirst? hSplit).symm⟩
  · intro h
    induction cs with
    | nil => rw [List.infix_nil.mp h, splitFirst?]; rfl
    | cons c cs ih =>
      rw [splitFirst?]
      split
      next => rfl
      next hElsewhere =>
        rcases List.infix_cons_iff.mp h with hHere | hLater
        · exact absurd (List.isPrefixOf_iff_prefix.mpr hHere) hElsewhere
        · rw [Option.isSome_map]
          exact ih hLater

theorem holds_iff {pattern s : String} :
    holds pattern s = true ↔ pattern.toList <:+: s.toList :=
  isSome_splitFirst?_iff

theorem splitFirst?_eq_none_iff {pattern cs : List Char} :
    splitFirst? pattern cs = none ↔ ¬ pattern <:+: cs := by
  rw [← isSome_splitFirst?_iff, Bool.not_eq_true, Option.isSome_eq_false_iff,
    Option.isNone_iff_eq_none]

/-! ## The first place of a pattern -/

theorem not_infix_dropLast {pattern : List Char} (h : pattern ≠ []) :
    ¬ pattern <:+: pattern.dropLast := by
  intro hInfix
  have hLength := hInfix.length_le
  have hPositive := List.length_pos_iff.mpr h
  rw [List.length_dropLast] at hLength
  omega

/-- A text is split where a pattern stands first: without the last character of the pattern, the
text up to there does not hold it. -/
theorem splitFirst?_eq_some_iff {pattern cs before after : List Char} (hPattern : pattern ≠ []) :
    splitFirst? pattern cs = some (before, after) ↔
      cs = before ++ pattern ++ after ∧ ¬ pattern <:+: before ++ pattern.dropLast := by
  constructor
  · intro h
    refine ⟨eq_of_splitFirst? h, ?_⟩
    induction cs generalizing before with
    | nil =>
      rw [splitFirst?, if_neg (by simpa using hPattern)] at h
      cases h
    | cons c cs ih =>
      rw [splitFirst?] at h
      split at h
      next =>
        cases h
        exact not_infix_dropLast hPattern
      next hElsewhere =>
        obtain ⟨⟨front, back⟩, hLater, hSplit⟩ := Option.map_eq_some_iff.mp h
        cases hSplit
        intro hInfix
        rcases List.infix_cons_iff.mp hInfix with hHere | hEarlier
        · apply hElsewhere
          rw [List.isPrefixOf_iff_prefix, eq_of_splitFirst? hLater, List.append_assoc]
          refine hHere.trans (List.cons_prefix_cons.mpr ⟨rfl, ?_⟩)
          exact (List.prefix_append_right_inj front).mpr
            ((List.dropLast_prefix pattern).trans (List.prefix_append pattern after))
        · exact ih hLater hEarlier
  · rintro ⟨rfl, hFirst⟩
    induction before with
    | nil =>
      obtain ⟨c, pattern, rfl⟩ := List.exists_cons_of_ne_nil hPattern
      rw [List.nil_append, List.cons_append, splitFirst?, ← List.cons_append,
        if_pos (List.isPrefixOf_iff_prefix.mpr (List.prefix_append _ _)), List.drop_left]
    | cons b before ih =>
      have hElsewhere : ¬ pattern.isPrefixOf (b :: (before ++ pattern ++ after)) = true := by
        rw [List.isPrefixOf_iff_prefix]
        intro hHere
        have hEnough : b :: (before ++ pattern.dropLast) <+: b :: (before ++ pattern ++ after) := by
          rw [List.append_assoc]
          exact (List.prefix_append_right_inj (b :: before)).mpr
            ((List.dropLast_prefix pattern).trans (List.prefix_append pattern after))
        have hLength : pattern.length ≤ (b :: (before ++ pattern.dropLast)).length := by
          simp only [List.length_cons, List.length_append, List.length_dropLast]
          omega
        exact hFirst (List.prefix_of_prefix_length_le hHere hEnough hLength).isInfix
      rw [List.cons_append, List.cons_append, splitFirst?, if_neg hElsewhere,
        ih fun hEarlier => hFirst (List.infix_cons hEarlier)]
      rfl

/-- A pattern whose first character does not come again does not run into another copy of itself. -/
theorem not_infix_append_dropLast {c : Char} {rest before : List Char} (hOnce : c ∉ rest)
    (hNone : ¬ c :: rest <:+: before) : ¬ c :: rest <:+: before ++ (c :: rest).dropLast := by
  intro hInfix
  rcases List.infix_append_iff_ne_nil.mp hInfix with
    hBefore | hLast | ⟨front, back, hFront, hBack, hSplit, -, hPrefix⟩
  · exact hNone hBefore
  · exact not_infix_dropLast (List.cons_ne_nil c rest) hLast
  · -- The part that reaches into the copy starts with the first character once more.
    obtain ⟨first, front, rfl⟩ := List.exists_cons_of_ne_nil hFront
    obtain ⟨next, back, rfl⟩ := List.exists_cons_of_ne_nil hBack
    obtain ⟨-, rfl⟩ := List.cons.inj hSplit
    have hNext : next = c :=
      (List.cons_prefix_cons.mp (hPrefix.trans (List.dropLast_prefix _))).1
    exact hOnce (hNext ▸ List.mem_append_right front List.mem_cons_self)

/-- A pattern does not reach over a character that it does not have. -/
theorem infix_append_cons_iff {pattern front back : List Char} {c : Char} (hc : c ∉ pattern) :
    pattern <:+: front ++ c :: back ↔ pattern <:+: front ∨ pattern <:+: back := by
  constructor
  · intro hInfix
    rcases List.infix_append_iff_ne_nil.mp hInfix with
      hFront | hRest | ⟨left, right, -, hRight, rfl, -, hPrefix⟩
    · exact .inl hFront
    · rcases List.infix_cons_iff.mp hRest with hHere | hBack
      · rcases List.prefix_cons_iff.mp hHere with rfl | ⟨more, rfl, -⟩
        · exact .inl List.nil_infix
        · exact absurd List.mem_cons_self hc
      · exact .inr hBack
    · obtain ⟨next, right, rfl⟩ := List.exists_cons_of_ne_nil hRight
      obtain ⟨rfl, -⟩ := List.cons_prefix_cons.mp hPrefix
      exact absurd (List.mem_append_right left List.mem_cons_self) hc
  · rintro (hFront | hBack)
    · exact List.infix_append_of_infix_left hFront
    · exact List.infix_append_of_infix_right (List.infix_cons hBack)

/-- What stands before a character that a pattern does not have, and does not hold the pattern, has
nothing to do with the place of the pattern. -/
theorem splitFirst?_append_cons {pattern lead : List Char} {c : Char} (hc : c ∉ pattern)
    (hLead : ¬ pattern <:+: lead) (cs : List Char) : splitFirst? pattern (lead ++ c :: cs) =
      (splitFirst? pattern cs).map fun (before, after) => (lead ++ c :: before, after) := by
  have hPattern : pattern ≠ [] := by
    rintro rfl
    exact hLead List.nil_infix
  cases hSplit : splitFirst? pattern cs with
  | none =>
    rw [Option.map_none, splitFirst?_eq_none_iff, infix_append_cons_iff hc, not_or]
    exact ⟨hLead, splitFirst?_eq_none_iff.mp hSplit⟩
  | some found =>
    obtain ⟨before, after⟩ := found
    obtain ⟨rfl, hFirst⟩ := (splitFirst?_eq_some_iff hPattern).mp hSplit
    refine (splitFirst?_eq_some_iff hPattern).mpr ⟨by simp, ?_⟩
    rw [List.append_assoc, List.cons_append, infix_append_cons_iff hc, not_or]
    exact ⟨hLead, hFirst⟩

theorem splitFirst?_append_of_some {pattern cs before after : List Char} (hPattern : pattern ≠ [])
    (h : splitFirst? pattern cs = some (before, after)) (more : List Char) :
    splitFirst? pattern (cs ++ more) = some (before, after ++ more) := by
  obtain ⟨rfl, hFirst⟩ := (splitFirst?_eq_some_iff hPattern).mp h
  exact (splitFirst?_eq_some_iff hPattern).mpr ⟨List.append_assoc _ _ _, hFirst⟩

theorem splitFirst?_self_append {pattern : List Char} (hPattern : pattern ≠ []) (rest : List Char) :
    splitFirst? pattern (pattern ++ rest) = some ([], rest) :=
  (splitFirst?_eq_some_iff hPattern).mpr ⟨rfl, not_infix_dropLast hPattern⟩

/-- The first line of a text ends at its first line feed, if no carriage return stands there. -/
theorem linesOf_append {line rest : List Char} (hLine : '\n' ∉ line)
    (hReturn : line.getLast? ≠ some '\r') :
    linesOf (line ++ '\n' :: rest) = line :: linesOf rest := by
  induction line with
  | nil => rfl
  | cons c line ih =>
    obtain ⟨hFirst, hMore⟩ := not_or.mp (mt List.mem_cons.mpr hLine)
    have hLast : line.getLast? ≠ some '\r' := by
      intro hSome
      rw [List.getLast?_cons, hSome] at hReturn
      exact hReturn rfl
    -- A carriage return before the line feed would be the last character of the line.
    have hPair : ∀ more, c = '\r' → line ++ '\n' :: rest = '\n' :: more → False := by
      rintro more rfl hNext
      cases line with
      | nil => exact hReturn rfl
      | cons d line =>
        obtain ⟨rfl, _⟩ := List.cons.inj hNext
        exact hMore List.mem_cons_self
    rw [List.cons_append, linesOf.eq_4 _ _ (Ne.symm hFirst) hPair, ih hMore hLast]
    rfl

end ClassCollapse.Text
