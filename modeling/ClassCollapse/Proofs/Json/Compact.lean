import ClassCollapse.Proofs.Json.RoundTrip

/-!
# Objects of texts in compact form

An object whose members are texts is read back from its compact form, and the texts from the object.
The compact form has no control characters, so it stands on one line.
-/

namespace ClassCollapse.Json

/-- The object with these keys and texts. -/
def ofTexts (fields : List (String × String)) : Json :=
  record (fields.map fun (key, text) => (key, ofText text))

/-- The keys and texts of an object whose members are texts. -/
def texts? (value : Json) : Option (List (String × String)) := do
  (← value.members?).mapM fun (key, value) => value.text?.map fun text => (key, text)

theorem texts?_ofTexts (fields : List (String × String)) : (ofTexts fields).texts? = some fields := by
  have hTexts := mapM_map_some (l := fields) (f := fun field => (field.1, ofText field.2))
    (g := fun field => field.2.text?.map fun text => (field.1, text)) (h := id) fun field _ => by
      dsimp only
      rw [text?_ofText]
      rfl
  rw [List.map_id] at hTexts
  rw [texts?, ofTexts, members?_record]
  exact hTexts

/-! ## The form -/

/-- A member of the object as it is written. -/
def packedText (key text : String) : List Char :=
  quoted (escape key.toList) ++ ':' :: quoted (escape text.toList)

/-- The further members. -/
def packedTexts (fields : List (String × String)) : List Char :=
  fields.flatMap fun (key, text) => ',' :: packedText key text

def textMembers (fields : List (String × String)) : List (List Char × Json) :=
  fields.map fun (key, text) => (escape key.toList, ofText text)

theorem ofTexts_eq (fields : List (String × String)) :
    ofTexts fields = .object (textMembers fields) := by
  rw [ofTexts, record, List.map_map]
  rfl

theorem packedTexts_cons (key text : String) (fields : List (String × String)) :
    packedTexts ((key, text) :: fields) = ',' :: (packedText key text ++ packedTexts fields) := by
  rw [packedTexts, List.flatMap_cons]
  rfl

theorem packedMembers_textMembers (fields : List (String × String)) :
    packedMembers (textMembers fields) = packedTexts fields := by
  induction fields with
  | nil => rw [textMembers, List.map_nil, packedMembers, packedTexts, List.flatMap_nil]
  | cons field fields ih =>
    rw [textMembers, List.map_cons, packedMembers, ← textMembers, ih, packedTexts_cons, ofText,
      packed, packedText]

theorem packed_ofTexts (key text : String) (fields : List (String × String)) :
    packed (ofTexts ((key, text) :: fields)) =
      '\x7b' :: (packedText key text ++ packedTexts fields ++ ['\x7d']) := by
  rw [ofTexts_eq, textMembers, List.map_cons, packed, ← textMembers, packedMembers_textMembers,
    ofText, packed, packedText]

theorem length_packedTexts (fields : List (String × String)) :
    fields.length ≤ (packedTexts fields).length := by
  induction fields with
  | nil => exact Nat.zero_le _
  | cons field fields ih =>
    rw [packedTexts_cons, List.length_cons, List.length_cons, List.length_append]
    omega

/-! ## Reading -/

theorem key?_skipSpace_packedText (key text : String) (rest : List Char) :
    key? (skipSpace (packedText key text ++ rest)) =
      some (escape key.toList, quoted (escape text.toList) ++ rest) := by
  rw [packedText, List.append_assoc, skipSpace_quoted, quoted, List.cons_append, List.append_assoc,
    List.singleton_append, key?, List.cons_append, body?_escape]
  rfl

/-- Members are read up to the closing bracket. The bound is used up by one for each member. -/
theorem readMembers_packedTexts (key text : String) (fields : List (String × String)) {bound : Nat}
    (hBound : fields.length + 1 < bound) (rest : List Char) :
    readMembers bound (packedText key text ++ (packedTexts fields ++ '\x7d' :: rest)) =
      some (textMembers ((key, text) :: fields), rest) := by
  obtain ⟨bound, rfl⟩ : ∃ b, bound = b + 2 := ⟨bound - 2, by omega⟩
  induction fields generalizing key text bound with
  | nil =>
    exact readMembers_last (key?_skipSpace_packedText key text _)
      (readValue_quoted text.toList bound _) rfl
  | cons next fields ih =>
    obtain ⟨nextKey, nextText⟩ := next
    rw [List.length_cons] at hBound
    obtain ⟨bound, rfl⟩ : ∃ b, bound = b + 1 := ⟨bound - 1, by omega⟩
    apply readMembers_more (key?_skipSpace_packedText key text _)
      (readValue_quoted text.toList (bound + 1) _)
    · rw [packedTexts_cons, List.cons_append, skipSpace_cons rfl, List.append_assoc]
    · exact ih nextKey nextText bound (by omega)

theorem readValue_packed (fields : List (String × String)) (rest : List Char) {bound : Nat}
    (hBound : fields.length < bound) :
    readValue (bound + 1) (packed (ofTexts fields) ++ rest) = some (ofTexts fields, rest) := by
  cases fields with
  | nil =>
    rw [ofTexts_eq, textMembers, List.map_nil, packed, readValue]
    rfl
  | cons field fields =>
    obtain ⟨key, text⟩ := field
    have hMembers := readMembers_packedTexts key text fields hBound rest
    rw [packed_ofTexts, readValue, List.cons_append, skipSpace_cons rfl, List.append_assoc,
      List.append_assoc, List.singleton_append, ofTexts_eq]
    exact congrArg (Option.map fun x => (object x.1, x.2)) hMembers

theorem length_le_packed (fields : List (String × String)) :
    fields.length ≤ (packed (ofTexts fields)).length := by
  cases fields with
  | nil => exact Nat.zero_le _
  | cons field fields =>
    have hFields := length_packedTexts fields
    rw [packed_ofTexts]
    simp only [List.length_cons, List.length_append]
    omega

theorem parse?_compact (fields : List (String × String)) :
    parse? (ofTexts fields).compact = some (ofTexts fields) := by
  have hLength := length_le_packed fields
  have hBound : fields.length < 2 * (packed (ofTexts fields)).length + 1 := by omega
  have hRead := readValue_packed fields [] hBound
  rw [List.append_nil] at hRead
  rw [parse?, compact, String.toList_ofList, String.length_ofList, hRead]
  rfl

/-! ## Control characters -/

theorem le_of_shortEscape? {e c : Char} (h : shortEscape? e = some c) : 0x20 ≤ e.toNat := by
  unfold shortEscape? at h
  split at h
  case h_9 => cases h
  all_goals decide

theorem le_of_isHexDigit {c : Char} (h : Text.IsHexDigit c) : 0x20 ≤ c.toNat :=
  Text.forall_ascii (P := fun c => Text.IsHexDigit c → 0x20 ≤ c.toNat) (by decide) h.toNat_lt h

theorem Escaped.le_of_mem {c d : Char} {written : List Char} (h : Escaped c written)
    (hMem : d ∈ written) : 0x20 ≤ d.toNat := by
  cases h with
  | short e hShort hOther =>
    simp only [List.mem_cons, List.not_mem_nil, or_false] at hMem
    rcases hMem with rfl | rfl
    · decide
    · exact le_of_shortEscape? hShort
  | unit x y hUnit hSmall =>
    have hZero : Text.hexValue? '0' = some 0 := rfl
    rw [codeUnit?, hZero] at hUnit
    dsimp only [Option.bind_eq_bind, Option.bind_some] at hUnit
    obtain ⟨_, hx, hLow⟩ := Option.bind_eq_some_iff.mp hUnit
    obtain ⟨_, hy, _⟩ := Option.bind_eq_some_iff.mp hLow
    simp only [List.mem_cons, List.not_mem_nil, or_false] at hMem
    rcases hMem with rfl | rfl | rfl | rfl | rfl | rfl
    · decide
    · decide
    · decide
    · decide
    · exact le_of_isHexDigit (Text.isHexDigit_of_hexValue? hx)
    · exact le_of_isHexDigit (Text.isHexDigit_of_hexValue? hy)
  | plain hQuote hBackslash hLarge =>
    rw [List.mem_singleton.mp hMem]
    exact Nat.le_of_not_lt hLarge

/-- No character of a body is a control character. -/
theorem le_of_mem_escape {text : List Char} {c : Char} (h : c ∈ escape text) : 0x20 ≤ c.toNat := by
  obtain ⟨_, _, hMem⟩ := List.mem_flatMap.mp h
  exact (escaped_escapeChar _).le_of_mem hMem

theorem le_of_mem_packedText {key text : String} {c : Char} (h : c ∈ packedText key text) :
    0x20 ≤ c.toNat := by
  have hQuoted : ∀ cs : List Char, c ∈ quoted (escape cs) → 0x20 ≤ c.toNat := by
    intro cs hMem
    rw [quoted, List.mem_cons, List.mem_append, List.mem_singleton] at hMem
    rcases hMem with rfl | hBody | rfl
    · decide
    · exact le_of_mem_escape hBody
    · decide
  rw [packedText, List.mem_append, List.mem_cons] at h
  rcases h with hKey | rfl | hText
  · exact hQuoted _ hKey
  · decide
  · exact hQuoted _ hText

theorem le_of_mem_compact {fields : List (String × String)} {c : Char}
    (h : c ∈ (ofTexts fields).compact.toList) : 0x20 ≤ c.toNat := by
  rw [compact, String.toList_ofList] at h
  cases fields with
  | nil =>
    rw [ofTexts_eq, textMembers, List.map_nil, packed] at h
    simp only [List.mem_cons, List.not_mem_nil, or_false] at h
    rcases h with rfl | rfl <;> decide
  | cons field fields =>
    rw [packed_ofTexts, List.mem_cons, List.mem_append, List.mem_append, List.mem_singleton,
      packedTexts, List.mem_flatMap] at h
    rcases h with rfl | (hFirst | ⟨field, _, hMore⟩) | rfl
    · decide
    · exact le_of_mem_packedText hFirst
    · rcases List.mem_cons.mp hMore with rfl | hMember
      · decide
      · exact le_of_mem_packedText hMember
    · decide

end ClassCollapse.Json
