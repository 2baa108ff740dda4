/-!
# Positions in bytes

Positions and lengths in a text count the bytes of its UTF-8 form. A text can be cut at a position
only where a character ends.
-/

namespace ClassCollapse.Text

/-- The number of bytes of a list of characters in UTF-8. -/
def byteCount : List Char → Nat
  | [] => 0
  | c :: cs => c.utf8Size + byteCount cs

/-- Cuts after `n` bytes. There is no cut inside a character or beyond the end. -/
def cutAt? (n : Nat) : List Char → Option (List Char × List Char)
  | [] => if n = 0 then some ([], []) else none
  | c :: cs =>
    if n = 0 then some ([], c :: cs)
    else if n < c.utf8Size then none
    else (cutAt? (n - c.utf8Size) cs).map fun (before, after) => (c :: before, after)

/-- The part from byte `start` to byte `stop`, where both are positions of a cut. -/
def slice? (start stop : Nat) (cs : List Char) : Option (List Char) := do
  if stop < start then none
  let (_, rest) ← cutAt? start cs
  let (part, _) ← cutAt? (stop - start) rest
  some part

theorem byteCount_append (a b : List Char) : byteCount (a ++ b) = byteCount a + byteCount b := by
  induction a with
  | nil => simp [byteCount]
  | cons c cs ih => simp [byteCount, ih, Nat.add_assoc]

/-- A cut loses nothing and its first part has the asked number of bytes. -/
theorem cutAt?_eq_some {n : Nat} {cs before after : List Char}
    (h : cutAt? n cs = some (before, after)) : before ++ after = cs ∧ byteCount before = n := by
  induction cs generalizing n before after with
  | nil =>
    simp only [cutAt?] at h
    split at h <;> simp_all [byteCount]
  | cons c cs ih =>
    simp only [cutAt?] at h
    split at h
    · simp_all [byteCount]
    · split at h
      · simp at h
      · obtain ⟨⟨b, a⟩, hb, heq⟩ := Option.map_eq_some_iff.1 h
        obtain ⟨rfl, rfl⟩ := Prod.mk.injEq .. ▸ heq
        have := ih hb
        simp only [List.cons_append, this.1, byteCount, this.2, true_and]
        omega

/-- A text can be cut after each of its initial parts. -/
theorem cutAt?_append (before after : List Char) :
    cutAt? (byteCount before) (before ++ after) = some (before, after) := by
  induction before with
  | nil => cases after <;> simp [cutAt?, byteCount]
  | cons c cs ih =>
    have hc : 0 < c.utf8Size := c.utf8Size_pos
    simp [cutAt?, byteCount, ih, Nat.ne_of_gt hc]

end ClassCollapse.Text
