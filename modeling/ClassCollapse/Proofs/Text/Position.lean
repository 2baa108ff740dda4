import ClassCollapse.Text.Bytes

/-!
# Places in a text

The positions at which a text can be cut are its valid byte positions, and a slice is what stands
between two of them.
-/

namespace ClassCollapse.Text

theorem byteCount_eq_utf8ByteSize (cs : List Char) :
    byteCount cs = (String.ofList cs).utf8ByteSize := by
  induction cs with
  | nil => rfl
  | cons c cs ih =>
    rw [byteCount, ih, String.ofList_cons, String.utf8ByteSize_append,
      String.utf8ByteSize_singleton]

theorem byteCount_toList (s : String) : byteCount s.toList = s.utf8ByteSize := by
  rw [byteCount_eq_utf8ByteSize, String.ofList_toList]

/-- The position of a cut determines both parts. -/
theorem append_inj_of_byteCount {before after before' after' : List Char}
    (h : before ++ after = before' ++ after') (hCount : byteCount before = byteCount before') :
    before = before' ∧ after = after' := by
  have hCut := cutAt?_append before after
  rw [h, hCount, cutAt?_append] at hCut
  cases hCut
  exact ⟨rfl, rfl⟩

theorem byteCount_eq_zero_iff {cs : List Char} : byteCount cs = 0 ↔ cs = [] := by
  cases cs with
  | nil => exact iff_of_true rfl rfl
  | cons c cs =>
    have hPos := c.utf8Size_pos
    rw [byteCount]
    exact iff_of_false (by omega) (List.cons_ne_nil c cs)

/-- Between two cuts of one text there is a gap. -/
theorem exists_gap {before after before' after' : List Char}
    (h : before ++ after = before' ++ after') (hLe : byteCount before ≤ byteCount before') :
    ∃ gap, before' = before ++ gap ∧ after = gap ++ after' := by
  rcases List.append_eq_append_iff.mp h with ⟨gap, hBefore, hAfter⟩ | ⟨gap, hBefore, hAfter⟩
  · exact ⟨gap, hBefore, hAfter⟩
  · -- The cuts are the other way round, so they are the same.
    have hNil : gap = [] := by
      rw [← byteCount_eq_zero_iff]
      rw [hBefore, byteCount_append] at hLe
      omega
    subst hNil
    exact ⟨[], by rw [hBefore, List.append_nil, List.append_nil], hAfter.symm⟩

theorem isValid_iff {n : Nat} {s : String} : (⟨n⟩ : String.Pos.Raw).IsValid s ↔
    ∃ before after, s.toList = before ++ after ∧ byteCount before = n := by
  rw [String.Pos.Raw.isValid_iff_exists_append]
  constructor
  · rintro ⟨front, back, rfl, hPos⟩
    refine ⟨front.toList, back.toList, String.toList_append, ?_⟩
    rw [byteCount_toList]
    exact (congrArg String.Pos.Raw.byteIdx hPos).symm
  · rintro ⟨before, after, hText, rfl⟩
    refine ⟨String.ofList before, String.ofList after, ?_, ?_⟩
    · rw [← String.ofList_append, ← hText, String.ofList_toList]
    · rw [byteCount_eq_utf8ByteSize]
      rfl

theorem slice?_eq_some_iff {start stop : Nat} {cs part : List Char} :
    slice? start stop cs = some part ↔ ∃ before after, cs = before ++ (part ++ after) ∧
      byteCount before = start ∧ start + byteCount part = stop := by
  constructor
  · intro h
    rw [slice?] at h
    split at h
    · cases h
    next hOrder =>
      obtain ⟨⟨before, rest⟩, hBefore, hRest⟩ := Option.bind_eq_some_iff.mp h
      obtain ⟨⟨part', after⟩, hPart, hSame⟩ := Option.bind_eq_some_iff.mp hRest
      cases hSame
      obtain ⟨hText, hStart⟩ := cutAt?_eq_some hBefore
      obtain ⟨hRest, hStop⟩ := cutAt?_eq_some hPart
      refine ⟨before, after, ?_, hStart, by omega⟩
      rw [hRest, hText]
  · rintro ⟨before, after, rfl, rfl, rfl⟩
    rw [slice?, if_neg (by omega), cutAt?_append, Nat.add_sub_cancel_left]
    dsimp only [Option.bind_eq_bind, Option.bind_some, Option.pure_def]
    rw [cutAt?_append]
    rfl

end ClassCollapse.Text
