import ClassCollapse.Json.Escape
import ClassCollapse.Proofs.Text.Hex

/-!
# Escaped texts read back

The body that stands for a text ends at the quote after it, and it stands for that text only. Both
facts are proved for one character and then along the text.
-/

namespace ClassCollapse

namespace Json

/-- How a character is written: with a short escape, with its number, or as it is. -/
inductive Escaped (c : Char) : List Char → Prop
  | short (e : Char) (hShort : shortEscape? e = some c) (hOther : e ≠ 'u') : Escaped c ['\\', e]
  | unit (x y : Char) (hUnit : codeUnit? '0' '0' x y = some c.toNat) (hSmall : c.toNat < 0x20) :
    Escaped c ['\\', 'u', '0', '0', x, y]
  | plain (hQuote : c ≠ '"') (hBackslash : c ≠ '\\') (hLarge : ¬c.toNat < 0x20) : Escaped c [c]

theorem codeUnit?_control {n : Nat} (h : n < 0x20) :
    codeUnit? '0' '0' (Text.hexDigit (n / 16)) (Text.hexDigit (n % 16)) = some n := by
  have hZero : Text.hexValue? '0' = some 0 := rfl
  have hHigh : n / 16 < 16 := by omega
  have hLow : n % 16 < 16 := by omega
  rw [codeUnit?, hZero, Text.hexValue?_hexDigit hHigh, Text.hexValue?_hexDigit hLow]
  dsimp only [Option.bind_eq_bind, Option.bind_some]
  congr 1
  omega

theorem escaped_escapeChar (c : Char) : Escaped c (escapeChar c) := by
  unfold escapeChar
  split
  next h => exact h ▸ .short '"' rfl (by decide)
  next hQuote =>
    split
    next h => exact h ▸ .short '\\' rfl (by decide)
    next hBackslash =>
      split
      next h => exact h ▸ .short 'b' rfl (by decide)
      · split
        next h => exact h ▸ .short 'f' rfl (by decide)
        · split
          next h => exact h ▸ .short 'n' rfl (by decide)
          · split
            next h => exact h ▸ .short 'r' rfl (by decide)
            · split
              next h => exact h ▸ .short 't' rfl (by decide)
              · split
                next hSmall => exact .unit _ _ (codeUnit?_control hSmall) hSmall
                next hLarge => exact .plain hQuote hBackslash hLarge

theorem body?_escaped {c : Char} {written : List Char} (h : Escaped c written)
    (rest : List Char) :
    body? (written ++ rest) = (body? rest).map fun (body, rest) => (written ++ body, rest) := by
  cases h with
  | short e hShort hOther =>
    rw [List.cons_append, List.singleton_append,
      body?.eq_4 e rest fun _ _ _ _ _ hUnit _ => hOther hUnit, hShort]
    rfl
  | unit x y hUnit hSmall =>
    simp only [List.cons_append, List.nil_append]
    rw [body?.eq_3, hUnit]
  | plain hQuote hBackslash hLarge =>
    rw [List.singleton_append, body?.eq_5 c rest hQuote (fun _ _ _ _ _ h _ => hBackslash h)
      (fun _ _ h _ => hBackslash h), if_neg (by simp only [hBackslash, hLarge, or_self,
        not_false_eq_true])]
    rfl

theorem unescapeFrom_escaped {c : Char} {written : List Char} (h : Escaped c written)
    (rest : List Char) :
    unescapeFrom none (written ++ rest) = (unescapeFrom none rest).map (c :: ·) := by
  cases h with
  | short e hShort hOther =>
    rw [List.cons_append, List.singleton_append,
      unescapeFrom.eq_5 e rest fun _ _ _ _ _ hUnit _ => hOther hUnit, hShort]
  | unit x y hUnit hSmall =>
    have hLead : ¬isLeadUnit c.toNat = true := by
      simp only [isLeadUnit, Bool.and_eq_true, decide_eq_true_eq]
      omega
    have hTrail : ¬isTrailUnit c.toNat = true := by
      simp only [isTrailUnit, Bool.and_eq_true, decide_eq_true_eq]
      omega
    simp only [List.cons_append, List.nil_append]
    rw [unescapeFrom.eq_3, hUnit]
    dsimp only
    rw [if_neg hLead, if_neg hTrail, Char.ofNat_toNat]
  | plain hQuote hBackslash hLarge =>
    rw [List.singleton_append, unescapeFrom.eq_6 c rest (fun _ _ _ _ _ h _ => hBackslash h)
      (fun _ _ h _ => hBackslash h), if_neg (by simp only [hQuote, hBackslash, hLarge, or_self,
        not_false_eq_true])]

theorem body?_escape (text rest : List Char) :
    body? (escape text ++ '"' :: rest) = some (escape text, rest) := by
  induction text with
  | nil => exact body?.eq_2 rest
  | cons c text ih =>
    rw [escape, List.flatMap_cons, List.append_assoc, body?_escaped (escaped_escapeChar c),
      ← escape, ih]
    rfl

theorem unescape_escape (text : List Char) : unescape (escape text) = some text := by
  rw [unescape]
  induction text with
  | nil => exact unescapeFrom.eq_2
  | cons c text ih =>
    rw [escape, List.flatMap_cons, unescapeFrom_escaped (escaped_escapeChar c), ← escape, ih]
    rfl

end Json

end ClassCollapse
