import ClassCollapse.Json.Writer
import ClassCollapse.Proofs.Json.Escape
import ClassCollapse.Proofs.Json.Number

/-!
# Written values read back

A value that was made from texts, natural numbers, lists and records is read back from its spaced
form. The bound on the nesting is met because every step of the reader that uses it up has a
character of its own.
-/

namespace ClassCollapse.Json

/-- The values that are made from texts and numbers. -/
inductive Written : Json → Prop
  | null : Written .null
  | bool (b : Bool) : Written (.bool b)
  | ofNat (n : Nat) : Written (ofNat n)
  | ofText (s : String) : Written (ofText s)
  | list (items : List Json) (hItems : ∀ item ∈ items, Written item) : Written (.list items)
  | record (fields : List (String × Json)) (hFields : ∀ field ∈ fields, Written field.2) :
    Written (record fields)

/-! ## Blanks -/

theorem skipSpace_newLine (depth : Nat) (cs : List Char) :
    skipSpace (newLine depth ++ cs) = skipSpace cs := by
  rw [skipSpace, skipSpace, List.dropWhile_append_of_pos]
  intro c hc
  rcases List.mem_cons.mp hc with rfl | hBlank
  · rfl
  · rw [(List.mem_replicate.mp hBlank).2]
    rfl

theorem skipSpace_cons {c : Char} (h : isSpace c = false) (cs : List Char) :
    skipSpace (c :: cs) = c :: cs := by
  rw [skipSpace, List.dropWhile_cons, h, if_neg Bool.false_ne_true]

theorem readValue_skipSpace {bound : Nat} {cs cs' : List Char} (h : skipSpace cs = skipSpace cs') :
    readValue bound cs = readValue bound cs' := by
  cases bound with
  | zero => rw [readValue, readValue]
  | succ bound => rw [readValue, readValue, h]

/-! ## Scalars -/

theorem isSpace_of_isDigit {c : Char} (h : c.isDigit = true) : isSpace c = false := by
  rw [Bool.eq_false_iff]
  intro hSpace
  simp only [isSpace, Bool.or_eq_true, beq_iff_eq] at hSpace
  rcases hSpace with ((rfl | rfl) | rfl) | rfl <;> exact absurd h (by decide)

theorem after?_toDigits {mark : Char} (hMark : mark.isDigit = false) (word : List Char) (n : Nat)
    (rest : List Char) : after? (mark :: word) (Nat.toDigits 10 n ++ rest) = none := by
  cases hDigits : Nat.toDigits 10 n with
  | nil => exact absurd hDigits Nat.toDigits_ne_nil
  | cons c cs =>
    have hDigit : c.isDigit = true := digit_of_toDigits (n := n) (hDigits ▸ List.mem_cons_self)
    have hOther : (mark == c) = false := by
      rw [beq_eq_false_iff_ne]
      rintro rfl
      rw [hDigit] at hMark
      cases hMark
    rw [after?, List.cons_append, List.isPrefixOf_cons_cons, hOther, Bool.false_and,
      if_neg Bool.false_ne_true]

theorem scalar?_toDigits (n : Nat) {rest : List Char} (hRest : EndsNumber rest) :
    scalar? (Nat.toDigits 10 n ++ rest) = some (ofNat n, rest) := by
  rw [scalar?, after?_toDigits rfl]
  dsimp only
  rw [after?_toDigits rfl]
  dsimp only
  rw [after?_toDigits rfl]
  exact number?_toDigits n hRest

theorem readValue_toDigits (n bound : Nat) {rest : List Char} (hRest : EndsNumber rest) :
    readValue (bound + 1) (Nat.toDigits 10 n ++ rest) = some (ofNat n, rest) := by
  have hScalar := scalar?_toDigits n hRest
  cases hDigits : Nat.toDigits 10 n with
  | nil => exact absurd hDigits Nat.toDigits_ne_nil
  | cons c cs =>
    have hDigit : c.isDigit = true := digit_of_toDigits (n := n) (hDigits ▸ List.mem_cons_self)
    rw [hDigits] at hScalar
    rw [readValue, List.cons_append, skipSpace_cons (isSpace_of_isDigit hDigit)]
    split
    next hHead =>
      obtain ⟨rfl, _⟩ := List.cons.inj hHead
      cases hDigit
    next hHead =>
      obtain ⟨rfl, _⟩ := List.cons.inj hHead
      cases hDigit
    next hHead =>
      obtain ⟨rfl, _⟩ := List.cons.inj hHead
      cases hDigit
    next => exact hScalar

theorem readValue_quoted (text : List Char) (bound : Nat) (rest : List Char) :
    readValue (bound + 1) (quoted (escape text) ++ rest) = some (.string (escape text), rest) := by
  rw [readValue, quoted, List.cons_append, skipSpace_cons rfl, List.append_assoc,
    List.singleton_append]
  change (body? (escape text ++ '"' :: rest)).map _ = _
  rw [body?_escape]
  rfl

/-! ## Values -/

/-- A value that is read back from its spaced form. -/
def ReadsBack (value : Json) : Prop :=
  ∀ depth bound rest, EndsNumber rest → (spaced depth value).length < bound →
    readValue bound (spaced depth value ++ rest) = some (value, rest)

/-- A spaced form starts with a character that neither is blank nor closes a list. -/
theorem spaced_of_written {value : Json} (h : Written value) (depth : Nat) :
    ∃ c cs, spaced depth value = c :: cs ∧ isSpace c = false ∧ c ≠ ']' := by
  cases h with
  | null => exact ⟨'n', _, by rw [spaced], rfl, by decide⟩
  | bool b =>
    cases b with
    | true => exact ⟨'t', _, by rw [spaced, boolName, if_pos rfl], rfl, by decide⟩
    | false => exact ⟨'f', _, by rw [spaced, boolName, if_neg Bool.false_ne_true], rfl, by decide⟩
  | ofNat n =>
    cases hDigits : Nat.toDigits 10 n with
    | nil => exact absurd hDigits Nat.toDigits_ne_nil
    | cons c cs =>
      have hDigit : c.isDigit = true := digit_of_toDigits (n := n) (hDigits ▸ List.mem_cons_self)
      refine ⟨c, cs, by rw [ofNat, spaced, hDigits], isSpace_of_isDigit hDigit, ?_⟩
      rintro rfl
      cases hDigit
  | ofText s => exact ⟨'"', _, by rw [ofText, spaced, quoted], rfl, by decide⟩
  | list items hItems =>
    cases items with
    | nil => exact ⟨'[', _, by rw [spaced], rfl, by decide⟩
    | cons item items => exact ⟨'[', _, by rw [spaced], rfl, by decide⟩
  | record fields hFields =>
    cases fields with
    | nil => exact ⟨'\x7b', _, by rw [record, List.map_nil, spaced], rfl, by decide⟩
    | cons field fields => exact ⟨'\x7b', _, by rw [record, List.map_cons, spaced], rfl, by decide⟩

theorem endsNumber_newLine (depth : Nat) (cs : List Char) : EndsNumber (newLine depth ++ cs) := by
  intro c hc
  cases hc
  decide

theorem endsNumber_comma (cs : List Char) : EndsNumber (',' :: cs) := by
  intro c hc
  cases hc
  decide

theorem length_newLine_pos (depth : Nat) : 0 < (newLine depth).length := Nat.succ_pos _

theorem readItems_newLine (bound depth : Nat) (cs : List Char) :
    readItems bound (newLine depth ++ cs) = readItems bound cs := by
  cases bound with
  | zero => rw [readItems, readItems]
  | succ bound => rw [readItems, readItems, readValue_skipSpace (skipSpace_newLine depth cs)]

theorem readItems_spaced {item : Json} {items : List Json}
    (hReads : ∀ i ∈ item :: items, ReadsBack i) (depth last bound : Nat) (rest : List Char)
    (hBound : (spaced depth item).length + (spacedItems depth items).length + 1 < bound) :
    readItems bound (spaced depth item ++ (spacedItems depth items ++
      (newLine last ++ ']' :: rest))) = some (item :: items, rest) := by
  induction items generalizing item bound with
  | nil =>
    obtain ⟨bound, rfl⟩ : ∃ b, bound = b + 1 := ⟨bound - 1, by omega⟩
    have hItem := hReads item List.mem_cons_self depth bound (newLine last ++ ']' :: rest)
      (endsNumber_newLine last _) (by omega)
    rw [spacedItems, List.nil_append, readItems, hItem]
    dsimp only [Option.bind_eq_bind, Option.bind_some]
    rw [skipSpace_newLine, skipSpace_cons rfl]
    rfl
  | cons next items ih =>
    obtain ⟨bound, rfl⟩ : ∃ b, bound = b + 1 := ⟨bound - 1, by omega⟩
    have hLine := length_newLine_pos depth
    rw [spacedItems, List.length_cons, List.length_append, List.length_append] at hBound
    have hItem := hReads item List.mem_cons_self depth bound
      (spacedItems depth (next :: items) ++ (newLine last ++ ']' :: rest))
      (by rw [spacedItems]; exact endsNumber_comma _) (by omega)
    have hItems := ih (fun i hi => hReads i (List.mem_cons_of_mem _ hi)) bound (by omega)
    rw [readItems, hItem]
    dsimp only [Option.bind_eq_bind, Option.bind_some]
    rw [spacedItems, List.cons_append, skipSpace_cons rfl]
    change (readItems bound _).map _ = _
    rw [List.append_assoc, List.append_assoc, readItems_newLine, hItems]
    rfl

theorem key?_quoted (key rest : List Char) :
    key? (quoted (escape key) ++ ([':', ' '] ++ rest)) = some (escape key, ' ' :: rest) := by
  rw [quoted, List.cons_append, List.append_assoc, List.singleton_append, key?, body?_escape]
  dsimp only [Option.bind_eq_bind, Option.bind_some]
  rw [List.cons_append, skipSpace_cons rfl]
  rfl

theorem skipSpace_quoted (body cs : List Char) :
    skipSpace (quoted body ++ cs) = quoted body ++ cs :=
  skipSpace_cons rfl _

theorem readValue_blank (bound : Nat) (cs : List Char) :
    readValue bound (' ' :: cs) = readValue bound cs :=
  readValue_skipSpace rfl

theorem readMembers_newLine (bound depth : Nat) (cs : List Char) :
    readMembers bound (newLine depth ++ cs) = readMembers bound cs := by
  cases bound with
  | zero => rw [readMembers, readMembers]
  | succ bound => rw [readMembers, readMembers, skipSpace_newLine]

def membersOf (fields : List (String × Json)) : List (List Char × Json) :=
  fields.map fun (key, value) => (escape key.toList, value)

theorem readMembers_last {bound : Nat} {cs afterKey afterValue rest key : List Char} {value : Json}
    (hKey : key? (skipSpace cs) = some (key, afterKey))
    (hValue : readValue bound afterKey = some (value, afterValue))
    (hEnd : skipSpace afterValue = '\x7d' :: rest) :
    readMembers (bound + 1) cs = some ([(key, value)], rest) := by
  rw [readMembers, hKey]
  dsimp only [Option.bind_eq_bind, Option.bind_some]
  rw [hValue]
  dsimp only [Option.bind_some]
  rw [hEnd]
  rfl

theorem readMembers_more {bound : Nat} {cs afterKey afterValue next rest key : List Char}
    {value : Json} {members : List (List Char × Json)}
    (hKey : key? (skipSpace cs) = some (key, afterKey))
    (hValue : readValue bound afterKey = some (value, afterValue))
    (hComma : skipSpace afterValue = ',' :: next)
    (hNext : readMembers bound next = some (members, rest)) :
    readMembers (bound + 1) cs = some ((key, value) :: members, rest) := by
  rw [readMembers, hKey]
  dsimp only [Option.bind_eq_bind, Option.bind_some]
  rw [hValue]
  dsimp only [Option.bind_some]
  rw [hComma]
  change (readMembers bound next).map _ = _
  rw [hNext]
  rfl

theorem readMembers_spaced {key : String} {value : Json} {fields : List (String × Json)}
    (hReads : ∀ field ∈ (key, value) :: fields, ReadsBack field.2) (depth last bound : Nat)
    (rest : List Char)
    (hBound : (spaced depth value).length + (spacedMembers depth (membersOf fields)).length + 1 <
      bound) :
    readMembers bound (quoted (escape key.toList) ++ ([':', ' '] ++ (spaced depth value ++
      (spacedMembers depth (membersOf fields) ++ (newLine last ++ '\x7d' :: rest))))) =
      some (membersOf ((key, value) :: fields), rest) := by
  have hKey : ∀ (name : String) (cs : List Char),
      key? (skipSpace (quoted (escape name.toList) ++ ([':', ' '] ++ cs))) =
        some (escape name.toList, ' ' :: cs) := by
    intro name cs
    rw [skipSpace_quoted, key?_quoted]
  have hValue : ReadsBack value := hReads (key, value) List.mem_cons_self
  obtain ⟨bound, rfl⟩ : ∃ b, bound = b + 1 := ⟨bound - 1, by omega⟩
  induction fields generalizing key value bound with
  | nil =>
    have hRead := hValue depth bound (newLine last ++ '\x7d' :: rest)
      (endsNumber_newLine last _) (by omega)
    apply readMembers_last (hKey key _) ((readValue_blank bound _).trans hRead)
    rw [skipSpace_newLine, skipSpace_cons rfl]
  | cons next fields ih =>
    obtain ⟨nextKey, nextValue⟩ := next
    have hMembers : membersOf ((nextKey, nextValue) :: fields) =
        (escape nextKey.toList, nextValue) :: membersOf fields := rfl
    have hLine := length_newLine_pos depth
    rw [hMembers, spacedMembers, List.length_cons, List.length_append, List.length_append,
      List.length_append, List.length_append] at hBound
    have hRead := hValue depth bound
      (spacedMembers depth (membersOf ((nextKey, nextValue) :: fields)) ++
        (newLine last ++ '\x7d' :: rest))
      (by rw [hMembers, spacedMembers]; exact endsNumber_comma _) (by omega)
    obtain ⟨bound, rfl⟩ : ∃ b, bound = b + 1 := ⟨bound - 1, by omega⟩
    apply readMembers_more (hKey key _) ((readValue_blank (bound + 1) _).trans hRead)
    · rw [hMembers, spacedMembers, List.cons_append, skipSpace_cons rfl]
    · rw [List.append_assoc, List.append_assoc, List.append_assoc, List.append_assoc,
        readMembers_newLine]
      exact ih (fun field hField => hReads field (List.mem_cons_of_mem _ hField))
        (hReads (nextKey, nextValue) (List.mem_cons_of_mem _ List.mem_cons_self)) bound (by omega)

/-! ## Whole texts -/

theorem readsBack_list {items : List Json} (hWritten : ∀ item ∈ items, Written item)
    (hReads : ∀ item ∈ items, ReadsBack item) : ReadsBack (.list items) := by
  intro depth bound rest hRest hBound
  obtain ⟨bound, rfl⟩ : ∃ b, bound = b + 1 := ⟨bound - 1, by omega⟩
  cases items with
  | nil =>
    rw [spaced, readValue]
    rfl
  | cons item items =>
    obtain ⟨c, cs, hText, hBlank, hOpen⟩ :=
      spaced_of_written (hWritten item List.mem_cons_self) (depth + 1)
    have hLine := length_newLine_pos (depth + 1)
    have hLast := length_newLine_pos depth
    rw [spaced] at hBound
    simp only [List.length_cons, List.length_append, List.length_nil] at hBound
    have hItems := readItems_spaced hReads (depth + 1) depth bound rest (by omega)
    rw [spaced, readValue, List.cons_append, skipSpace_cons rfl]
    simp only [List.append_assoc, List.singleton_append]
    rw [skipSpace_newLine, hText, List.cons_append, skipSpace_cons hBlank]
    split
    next hHead => exact absurd (List.cons.inj hHead).1 hOpen
    next =>
      rw [← List.cons_append, ← hText, hItems]
      rfl

theorem readsBack_record {fields : List (String × Json)}
    (hReads : ∀ field ∈ fields, ReadsBack field.2) : ReadsBack (record fields) := by
  intro depth bound rest hRest hBound
  obtain ⟨bound, rfl⟩ : ∃ b, bound = b + 1 := ⟨bound - 1, by omega⟩
  cases fields with
  | nil =>
    rw [record, List.map_nil, spaced, readValue]
    rfl
  | cons field fields =>
    obtain ⟨key, value⟩ := field
    have hObject : record ((key, value) :: fields) =
        .object ((escape key.toList, value) :: membersOf fields) := rfl
    have hLine := length_newLine_pos (depth + 1)
    have hLast := length_newLine_pos depth
    rw [hObject, spaced] at hBound
    simp only [List.length_cons, List.length_append, List.length_nil] at hBound
    have hMembers := readMembers_spaced hReads (depth + 1) depth bound rest (by omega)
    rw [hObject, spaced, readValue, List.cons_append, skipSpace_cons rfl]
    simp only [List.append_assoc]
    rw [skipSpace_newLine, skipSpace_quoted]
    exact congrArg (Option.map fun x => (object x.1, x.2)) hMembers

theorem readsBack_of_written {value : Json} (h : Written value) : ReadsBack value := by
  induction h with
  | null =>
    intro depth bound rest hRest hBound
    obtain ⟨bound, rfl⟩ : ∃ b, bound = b + 1 := ⟨bound - 1, by omega⟩
    rw [spaced, readValue]
    rfl
  | bool b =>
    intro depth bound rest hRest hBound
    obtain ⟨bound, rfl⟩ : ∃ b, bound = b + 1 := ⟨bound - 1, by omega⟩
    rw [spaced, readValue]
    cases b <;> rfl
  | ofNat n =>
    intro depth bound rest hRest hBound
    obtain ⟨bound, rfl⟩ : ∃ b, bound = b + 1 := ⟨bound - 1, by omega⟩
    rw [ofNat, spaced]
    exact readValue_toDigits n bound hRest
  | ofText s =>
    intro depth bound rest hRest hBound
    obtain ⟨bound, rfl⟩ : ∃ b, bound = b + 1 := ⟨bound - 1, by omega⟩
    rw [ofText, spaced]
    exact readValue_quoted s.toList bound rest
  | list items hItems ih => exact readsBack_list hItems ih
  | record fields hFields ih => exact readsBack_record ih

/-- A written value is read back from its spaced form, also with blanks after it. -/
theorem parse?_pretty {value : Json} (h : Written value) :
    parse? (value.pretty ++ "\n") = some value := by
  have hLength : (spaced 0 value).length < 2 * (value.pretty ++ "\n").length + 2 := by
    rw [String.length_append, pretty, String.length_ofList]
    omega
  have hRead := readsBack_of_written h 0 _ ['\n'] (endsNumber_newLine 0 []) hLength
  have hText : (value.pretty ++ "\n").toList = spaced 0 value ++ ['\n'] := by
    rw [String.toList_append, pretty, String.toList_ofList]
    rfl
  rw [parse?, hText, hRead]
  rfl

/-! ## Texts and records -/

theorem mapM_map_some {α β γ : Type} {f : α → β} {g : β → Option γ} {h : α → γ} {l : List α}
    (hEach : ∀ a ∈ l, g (f a) = some (h a)) : (l.map f).mapM g = some (l.map h) := by
  induction l with
  | nil => rfl
  | cons a l ih =>
    rw [List.map_cons, List.mapM_cons, hEach a List.mem_cons_self,
      ih fun b hb => hEach b (List.mem_cons_of_mem a hb)]
    rfl

theorem text?_ofText (s : String) : (ofText s).text? = some s := by
  rw [ofText, text?, unescape_escape]
  exact congrArg some String.ofList_toList

theorem members?_record (fields : List (String × Json)) :
    (record fields).members? = some fields := by
  have hMembers := mapM_map_some (l := fields) (f := fun field => (escape field.1.toList, field.2))
    (g := fun field => (unescape field.1).map fun key => (String.ofList key, field.2))
    (h := id) fun field _ => by
      dsimp only
      rw [unescape_escape, Option.map_some, String.ofList_toList]
      rfl
  rw [List.map_id] at hMembers
  exact hMembers

end ClassCollapse.Json
