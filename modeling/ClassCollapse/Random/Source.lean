import ClassCollapse.Random.ChaCha

/-!
# Random sources

A random source is a key and a position in its keystream, so the numbers it yields are a function of
its seed. Numbers below a bound are drawn from 32-bit words, and words that would favour some
numbers are passed over.
-/

namespace ClassCollapse

/-- A keystream and the position of its next word. -/
structure RandomSource where
  key : Vector UInt32 8
  position : Nat

namespace RandomSource

open ClassCollapse.Random

/-- A step of the generator that spreads a seed over the key. -/
def spread (s : UInt64) : UInt64 :=
  s * 6364136223846793005 + 11634580027462260723

def spreadWord (s : UInt64) : UInt32 :=
  let x := (((s >>> 18) ^^^ s) >>> 27).toUInt32
  let n := (s >>> 59).toUInt32
  if n = 0 then x else (x >>> n) ||| (x <<< (32 - n))

/-- The states of the spreading generator after one step, two steps and so on. -/
def spreadAfter (s : UInt64) : Nat → UInt64
  | 0 => spread s
  | n + 1 => spread (spreadAfter s n)

def ofSeed (seed : UInt64) : RandomSource :=
  ⟨Vector.ofFn fun i : Fin 8 => spreadWord (spreadAfter seed i.val), 0⟩

def word (r : RandomSource) : UInt32 :=
  (keystreamBlock r.key (UInt64.ofNat (r.position / 16))).get
    ⟨r.position % 16, Nat.mod_lt _ (by decide)⟩

def advance (r : RandomSource) : RandomSource :=
  { r with position := r.position + 1 }

/-- The number of bits in front of the first bit that is set, in 32 bits. -/
def leadingZeros (n : Nat) : Nat :=
  if n = 0 then 32 else 31 - n.log2

/-- The largest lower half of a product that is not passed over. -/
def zone (bound : Nat) : Nat :=
  (bound <<< leadingZeros bound) - 1

/-- Draws a number below `bound`, passing over at most `tries` words. A word `v` gives the upper
half of `v * bound` unless the lower half lies beyond the zone. -/
def drawWithin (bound : Nat) : Nat → RandomSource → Nat × RandomSource
  | 0, r => (r.word.toNat * bound / 2 ^ 32, r.advance)
  | tries + 1, r =>
    let m := r.word.toNat * bound
    if m % 2 ^ 32 ≤ zone bound then (m / 2 ^ 32, r.advance)
    else drawWithin bound tries r.advance

/-- How many words a draw may pass over. Each is passed over with a chance below one half. -/
def maxTries : Nat := 4096

/-- Draws a number below a bound, where `0 < bound < 2 ^ 32`. -/
def draw (r : RandomSource) (bound : Nat) : Nat × RandomSource :=
  drawWithin bound maxTries r

def drawMany (r : RandomSource) (bound : Nat) : Nat → List Nat × RandomSource
  | 0 => ([], r)
  | n + 1 =>
    let (x, r) := r.draw bound
    let (xs, r) := r.drawMany bound n
    (x :: xs, r)

end RandomSource

end ClassCollapse
