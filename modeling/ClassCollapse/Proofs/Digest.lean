import ClassCollapse.Digest.Basic
import ClassCollapse.Proofs.Text.Hex

/-!
# Written digests

A digest that was written is read again. Besides 32 hexadecimal digits of either case, a plus sign
in the place of a high digit is read, as a zero, and nothing else is. So a text is read although it
is not the written form of a digest in either case exactly if it is read and has a plus sign.
-/

namespace ClassCollapse.Digest

open Text (IsHexDigit)

/-! ## Writing -/

theorem hexPair_ofNat {high low : Nat} (hHigh : high < 16) (hLow : low < 16) :
    hexPair (UInt8.ofNat (16 * high + low)) = [Text.hexDigit high, Text.hexDigit low] := by
  have hByte : (UInt8.ofNat (16 * high + low)).toNat = 16 * high + low := by
    rw [UInt8.toNat_ofNat']
    omega
  have hDiv : (16 * high + low) / 16 = high := by omega
  have hMod : (16 * high + low) % 16 = low := by omega
  rw [hexPair, hByte, hDiv, hMod]

theorem length_flatMap_hexPair (bytes : List UInt8) :
    (bytes.flatMap hexPair).length = 2 * bytes.length := by
  induction bytes with
  | nil => rfl
  | cons b bytes ih =>
    rw [List.flatMap_cons, List.length_append, ih, List.length_cons, hexPair]
    simp only [List.length_cons, List.length_nil]
    omega

theorem length_toHex (d : Digest) : d.toHex.length = 32 := by
  rw [toHex, String.length_ofList, length_flatMap_hexPair, Vector.length_toList]

theorem exists_of_mem_toHex {d : Digest} {c : Char} (h : c ∈ d.toHex.toList) :
    ∃ n < 16, c = Text.hexDigit n := by
  rw [toHex, String.toList_ofList, List.mem_flatMap] at h
  obtain ⟨b, _, hPair⟩ := h
  have hByte := b.toNat_lt
  rcases List.mem_cons.mp hPair with rfl | hLow
  · exact ⟨b.toNat / 16, by omega, rfl⟩
  · rw [List.mem_singleton] at hLow
    exact ⟨b.toNat % 16, by omega, hLow⟩

/-! ## Reading pairs -/

/-- How a character that is read is written: in lower case, and a plus sign as a zero. -/
def plainDigit (c : Char) : Char :=
  if c = '+' then '0' else c.toLower

/-- Every character is a hexadecimal digit, or a plus sign where a pair of characters starts. -/
def IsReadable (cs : List Char) : Prop :=
  ∀ i c, cs[i]? = some c → IsHexDigit c ∨ (c = '+' ∧ i % 2 = 0)

theorem ne_plus_of_isHexDigit {c : Char} (h : IsHexDigit c) : c ≠ '+' := by
  rintro rfl
  exact absurd h (by decide)

theorem plainDigit_of_isHexDigit {c : Char} (h : IsHexDigit c) : plainDigit c = c.toLower :=
  if_neg (ne_plus_of_isHexDigit h)

theorem isReadable_cons_cons {a b : Char} {cs : List Char} :
    IsReadable (a :: b :: cs) ↔ (IsHexDigit a ∨ a = '+') ∧ IsHexDigit b ∧ IsReadable cs := by
  constructor
  · intro h
    refine ⟨(h 0 a rfl).imp_right And.left, (h 1 b rfl).resolve_right (by simp), ?_⟩
    intro i c hc
    have hLater := h (i + 2) c hc
    rwa [Nat.add_mod_right] at hLater
  · rintro ⟨ha, hb, hRest⟩ i c hc
    match i with
    | 0 =>
      cases hc
      exact ha.imp_right fun hPlus => ⟨hPlus, rfl⟩
    | 1 =>
      cases hc
      exact .inl hb
    | i + 2 =>
      rw [Nat.add_mod_right]
      exact hRest i c hc

theorem exists_byteOfPair? {a b : Char} (ha : IsHexDigit a ∨ a = '+') (hb : IsHexDigit b) :
    ∃ x, byteOfPair? a b = some x ∧ hexPair x = [plainDigit a, plainDigit b] := by
  obtain ⟨low, hLow, hLowValue, hLowDigit⟩ := hb.exists_hexValue?
  rw [plainDigit_of_isHexDigit hb, ← hLowDigit]
  rcases ha with hDigit | rfl
  · obtain ⟨high, hHigh, hHighValue, hHighDigit⟩ := hDigit.exists_hexValue?
    refine ⟨UInt8.ofNat (16 * high + low), ?_, ?_⟩
    · rw [byteOfPair?, if_neg (ne_plus_of_isHexDigit hDigit), hHighValue, hLowValue]
      rfl
    · rw [hexPair_ofNat hHigh hLow, plainDigit_of_isHexDigit hDigit, hHighDigit]
  · refine ⟨UInt8.ofNat (16 * 0 + low), ?_, hexPair_ofNat (by decide) hLow⟩
    rw [byteOfPair?, if_pos rfl, hLowValue, Nat.mul_zero, Nat.zero_add]
    rfl

theorem readable_of_byteOfPair? {a b : Char} {x : UInt8} (h : byteOfPair? a b = some x) :
    (IsHexDigit a ∨ a = '+') ∧ IsHexDigit b := by
  rw [byteOfPair?] at h
  split at h
  next hPlus =>
    obtain ⟨low, hLow, _⟩ := Option.map_eq_some_iff.mp h
    exact ⟨.inr hPlus, Text.isHexDigit_of_hexValue? hLow⟩
  next =>
    obtain ⟨high, hHigh, hRest⟩ := Option.bind_eq_some_iff.mp h
    obtain ⟨low, hLow, _⟩ := Option.bind_eq_some_iff.mp hRest
    exact ⟨.inl (Text.isHexDigit_of_hexValue? hHigh), Text.isHexDigit_of_hexValue? hLow⟩

/-- Pairs of characters are read as the bytes that are written in their place. -/
theorem exists_bytesOfHex? {cs : List Char} (hEven : cs.length % 2 = 0) (h : IsReadable cs) :
    ∃ bytes, bytesOfHex? cs = some bytes ∧ bytes.flatMap hexPair = cs.map plainDigit := by
  induction cs using bytesOfHex?.induct with
  | case1 => exact ⟨[], rfl, rfl⟩
  | case2 c => cases hEven
  | case3 a b rest ih =>
    obtain ⟨ha, hb, hRest⟩ := isReadable_cons_cons.mp h
    have hRestEven : rest.length % 2 = 0 := by
      simp only [List.length_cons] at hEven
      omega
    obtain ⟨x, hx, hPair⟩ := exists_byteOfPair? ha hb
    obtain ⟨xs, hxs, hPairs⟩ := ih hRestEven hRest
    refine ⟨x :: xs, ?_, ?_⟩
    · rw [bytesOfHex?, hx, hxs]
      rfl
    · rw [List.flatMap_cons, hPair, hPairs]
      rfl

theorem isReadable_of_bytesOfHex? {cs : List Char} {bytes : List UInt8}
    (h : bytesOfHex? cs = some bytes) : cs.length % 2 = 0 ∧ IsReadable cs := by
  induction cs using bytesOfHex?.induct generalizing bytes with
  | case1 => exact ⟨rfl, fun i c hc => by cases hc⟩
  | case2 c => cases h
  | case3 a b rest ih =>
    rw [bytesOfHex?] at h
    obtain ⟨x, hx, hMore⟩ := Option.bind_eq_some_iff.mp h
    obtain ⟨xs, hxs, _⟩ := Option.bind_eq_some_iff.mp hMore
    obtain ⟨ha, hb⟩ := readable_of_byteOfPair? hx
    obtain ⟨hEven, hRest⟩ := ih hxs
    refine ⟨?_, isReadable_cons_cons.mpr ⟨ha, hb, hRest⟩⟩
    simp only [List.length_cons]
    omega

/-! ## Reading digests -/

theorem ofHex?_eq_some_iff (s : String) (d : Digest) :
    ofHex? s = some d ↔ bytesOfHex? s.toList = some d.bytes.toList := by
  rw [ofHex?]
  cases hBytes : bytesOfHex? s.toList with
  | none => simp
  | some bytes =>
    dsimp only [Option.bind_eq_bind, Option.bind_some]
    by_cases hLength : bytes.length = 16
    · rw [dif_pos hLength]
      obtain ⟨⟨⟨own⟩, hOwn⟩⟩ := d
      simp
    · rw [dif_neg hLength]
      constructor
      · intro h
        cases h
      · intro h
        cases h
        exact absurd d.bytes.length_toList hLength

theorem parse_eq_ok_iff (s : String) (d : Digest) : parse s = .ok d ↔ ofHex? s = some d := by
  rw [parse]
  cases ofHex? s with
  | none => simp
  | some own => simp

theorem byteOfPair?_hexPair (b : UInt8) :
    byteOfPair? (Text.hexDigit (b.toNat / 16)) (Text.hexDigit (b.toNat % 16)) = some b := by
  have hByte := b.toNat_lt
  have hHigh : b.toNat / 16 < 16 := by omega
  have hLow : b.toNat % 16 < 16 := by omega
  rw [byteOfPair?, if_neg (ne_plus_of_isHexDigit (Text.isHexDigit_hexDigit hHigh)),
    Text.hexValue?_hexDigit hHigh, Text.hexValue?_hexDigit hLow]
  dsimp only [Option.bind_eq_bind, Option.bind_some]
  rw [Nat.div_add_mod, UInt8.ofNat_toNat]

theorem bytesOfHex?_flatMap (bytes : List UInt8) :
    bytesOfHex? (bytes.flatMap hexPair) = some bytes := by
  induction bytes with
  | nil => rfl
  | cons b bytes ih =>
    rw [List.flatMap_cons, hexPair, List.cons_append, List.cons_append, List.nil_append,
      bytesOfHex?, byteOfPair?_hexPair, ih]
    rfl

theorem ofHex?_toHex (d : Digest) : ofHex? d.toHex = some d := by
  rw [ofHex?_eq_some_iff, toHex, String.toList_ofList, bytesOfHex?_flatMap]

theorem parse_toHex (d : Digest) : parse d.toHex = .ok d :=
  (parse_eq_ok_iff d.toHex d).mpr d.ofHex?_toHex

/-- A readable text is the written form of its digest, up to the case of digits and plus signs. -/
theorem toHex_of_parse {s : String} {d : Digest} (h : parse s = .ok d) :
    s.length = 32 ∧ IsReadable s.toList ∧ d.toHex = s.map plainDigit := by
  have hBytes := (ofHex?_eq_some_iff s d).mp ((parse_eq_ok_iff s d).mp h)
  obtain ⟨hEven, hReadable⟩ := isReadable_of_bytesOfHex? hBytes
  obtain ⟨bytes, hSame, hPairs⟩ := exists_bytesOfHex? hEven hReadable
  rw [hBytes] at hSame
  cases hSame
  have hHex : d.toHex = s.map plainDigit := by
    rw [← String.toList_inj, toHex, String.toList_ofList, hPairs, String.toList_map]
  refine ⟨?_, hReadable, hHex⟩
  rw [← d.length_toHex, hHex, String.length_map]

theorem exists_parse {s : String} (hLength : s.length = 32) (h : IsReadable s.toList) :
    ∃ d, parse s = .ok d := by
  have hEven : s.toList.length % 2 = 0 := by rw [String.length_toList, hLength]
  obtain ⟨bytes, hBytes, hPairs⟩ := exists_bytesOfHex? hEven h
  have hCount := congrArg List.length hPairs
  rw [length_flatMap_hexPair, List.length_map, String.length_toList, hLength] at hCount
  have hSize : bytes.toArray.size = 16 := by
    rw [List.size_toArray]
    omega
  refine ⟨⟨⟨bytes.toArray, hSize⟩⟩, ?_⟩
  rw [parse_eq_ok_iff, ofHex?_eq_some_iff, hBytes]
  rfl

/-- The documented form: 32 hexadecimal digits of either case. -/
def IsHexText (s : String) : Prop :=
  s.length = 32 ∧ ∀ c ∈ s.toList, IsHexDigit c

/-- A text is read exactly if it has the documented form, and then its digest is written as this
text in lower case. -/
def ReadAsDocumented (s : String) : Prop :=
  ((∃ d, parse s = .ok d) ↔ IsHexText s) ∧ ∀ d, parse s = .ok d → d.toHex = s.toLower

theorem IsHexText.isReadable {s : String} (h : IsHexText s) : IsReadable s.toList :=
  fun _ c hc => .inl (h.2 c (List.mem_of_getElem? hc))

/-- Where there is no plus sign, the readable texts are the documented ones. -/
theorem isHexText_iff {s : String} {d : Digest} (h : parse s = .ok d) :
    IsHexText s ↔ '+' ∉ s.toList := by
  obtain ⟨hLength, hReadable, _⟩ := toHex_of_parse h
  constructor
  · intro hHex hPlus
    exact ne_plus_of_isHexDigit (hHex.2 '+' hPlus) rfl
  · intro hPlus
    refine ⟨hLength, ?_⟩
    intro c hc
    obtain ⟨i, hi⟩ := List.mem_iff_getElem?.mp hc
    refine (hReadable i c hi).resolve_right ?_
    rintro ⟨rfl, _⟩
    exact hPlus hc

/-- A text is read as a digest exactly if it has 32 characters, each of them a hexadecimal digit or
a plus sign where a pair of characters starts. Then the digest is written as the text in lower case,
with zeros for its plus signs. So reading differs from its documentation exactly at the texts with a
plus sign that are read. -/
theorem readAsDocumented_iff (s : String) :
    ((∃ d, parse s = .ok d) ↔ s.length = 32 ∧
      ∀ i c, s.toList[i]? = some c → IsHexDigit c ∨ (c = '+' ∧ i % 2 = 0)) ∧
    (∀ d, parse s = .ok d → d.toHex = s.map fun c => if c = '+' then '0' else c.toLower) ∧
    (ReadAsDocumented s ↔ ¬((∃ d, parse s = .ok d) ∧ '+' ∈ s.toList)) := by
  refine ⟨⟨?_, fun h => exists_parse h.1 h.2⟩, fun d h => (toHex_of_parse h).2.2, ?_, ?_⟩
  · rintro ⟨d, h⟩
    obtain ⟨hLength, hReadable, _⟩ := toHex_of_parse h
    exact ⟨hLength, hReadable⟩
  · rintro ⟨hIff, _⟩ ⟨⟨d, h⟩, hPlus⟩
    exact (isHexText_iff h).mp (hIff.mp ⟨d, h⟩) hPlus
  · intro hNot
    have hPlain : ∀ d, parse s = .ok d → '+' ∉ s.toList := fun d h hPlus => hNot ⟨⟨d, h⟩, hPlus⟩
    refine ⟨⟨?_, fun hHex => exists_parse hHex.1 hHex.isReadable⟩, ?_⟩
    · rintro ⟨d, h⟩
      exact (isHexText_iff h).mpr (hPlain d h)
    · intro d h
      obtain ⟨_, _, hHex⟩ := toHex_of_parse h
      have hLower : s.toLower = s.map Char.toLower := rfl
      rw [hHex, hLower, ← String.toList_inj, String.toList_map, String.toList_map]
      refine List.map_congr_left fun c hc => if_neg ?_
      rintro rfl
      exact hPlain d h hc

/-- A plus sign and a digit are read as a byte, though a plus sign is no hexadecimal digit. -/
theorem not_forall_readAsDocumented : ¬∀ s, ReadAsDocumented s := by
  intro h
  have hRead : parse "+f000000000000000000000000000000" =
      .ok ⟨#v[0x0f, 0, 0, 0, 0, 0, 0, 0, 0, 0, 0, 0, 0, 0, 0, 0]⟩ := by
    decide
  have hHex : IsHexText "+f000000000000000000000000000000" := (h _).1.mp ⟨_, hRead⟩
  have hPlus : IsHexDigit '+' := hHex.2 '+' (by decide)
  exact absurd hPlus (by decide)

end ClassCollapse.Digest
