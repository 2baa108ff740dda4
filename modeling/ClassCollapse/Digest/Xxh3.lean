/-!
# The 128-bit XXH3 hash

XXH3-128 with seed zero and the standard secret, for inputs of every length. Inputs of at most 240
bytes are mixed in one of six ways by their length; longer ones run through eight accumulators in
stripes of 64 bytes. Words are little-endian and arithmetic is modulo `2 ^ 64`.
-/

namespace ClassCollapse.Digest.Xxh3

/-- The two halves of a 128-bit number. -/
structure Pair where
  low : UInt64
  high : UInt64
deriving DecidableEq

def prime32a : UInt64 := 0x9E3779B1
def prime32b : UInt64 := 0x85EBCA77
def prime32c : UInt64 := 0xC2B2AE3D
def prime64a : UInt64 := 0x9E3779B185EBCA87
def prime64b : UInt64 := 0xC2B2AE3D27D4EB4F
def prime64c : UInt64 := 0x165667B19E3779F9
def prime64d : UInt64 := 0x85EBCA77C2B2AE63
def prime64e : UInt64 := 0x27D4EB2F165667C5
def mixPrimeA : UInt64 := 0x165667919E3779F9
def mixPrimeB : UInt64 := 0x9FB21C651E98DF25

/-- The standard secret of 192 bytes. -/
def secret : ByteArray := ⟨#[
  0xb8, 0xfe, 0x6c, 0x39, 0x23, 0xa4, 0x4b, 0xbe, 0x7c, 0x01, 0x81, 0x2c, 0xf7, 0x21, 0xad, 0x1c,
  0xde, 0xd4, 0x6d, 0xe9, 0x83, 0x90, 0x97, 0xdb, 0x72, 0x40, 0xa4, 0xa4, 0xb7, 0xb3, 0x67, 0x1f,
  0xcb, 0x79, 0xe6, 0x4e, 0xcc, 0xc0, 0xe5, 0x78, 0x82, 0x5a, 0xd0, 0x7d, 0xcc, 0xff, 0x72, 0x21,
  0xb8, 0x08, 0x46, 0x74, 0xf7, 0x43, 0x24, 0x8e, 0xe0, 0x35, 0x90, 0xe6, 0x81, 0x3a, 0x26, 0x4c,
  0x3c, 0x28, 0x52, 0xbb, 0x91, 0xc3, 0x00, 0xcb, 0x88, 0xd0, 0x65, 0x8b, 0x1b, 0x53, 0x2e, 0xa3,
  0x71, 0x64, 0x48, 0x97, 0xa2, 0x0d, 0xf9, 0x4e, 0x38, 0x19, 0xef, 0x46, 0xa9, 0xde, 0xac, 0xd8,
  0xa8, 0xfa, 0x76, 0x3f, 0xe3, 0x9c, 0x34, 0x3f, 0xf9, 0xdc, 0xbb, 0xc7, 0xc7, 0x0b, 0x4f, 0x1d,
  0x8a, 0x51, 0xe0, 0x4b, 0xcd, 0xb4, 0x59, 0x31, 0xc8, 0x9f, 0x7e, 0xc9, 0xd9, 0x78, 0x73, 0x64,
  0xea, 0xc5, 0xac, 0x83, 0x34, 0xd3, 0xeb, 0xc3, 0xc5, 0x81, 0xa0, 0xff, 0xfa, 0x13, 0x63, 0xeb,
  0x17, 0x0d, 0xdd, 0x51, 0xb7, 0xf0, 0xda, 0x49, 0xd3, 0x16, 0x55, 0x26, 0x29, 0xd4, 0x68, 0x9e,
  0x2b, 0x16, 0xbe, 0x58, 0x7d, 0x47, 0xa1, 0xfc, 0x8f, 0xf8, 0xb8, 0xd1, 0x7a, 0xd0, 0x31, 0xce,
  0x45, 0xcb, 0x3a, 0x8f, 0x95, 0x16, 0x04, 0x28, 0xaf, 0xd7, 0xfb, 0xca, 0xbb, 0x4b, 0x40, 0x7e]⟩

/-- The byte at a position, zero beyond the end. -/
def byteAt (data : ByteArray) (i : Nat) : UInt64 :=
  if h : i < data.size then data[i].toUInt64 else 0

/-- The four bytes from position `i` as a number. -/
def word32 (data : ByteArray) (i : Nat) : UInt64 :=
  byteAt data i ||| (byteAt data (i + 1) <<< 8) ||| (byteAt data (i + 2) <<< 16) |||
    (byteAt data (i + 3) <<< 24)

/-- The eight bytes from position `i` as a number. -/
def word64 (data : ByteArray) (i : Nat) : UInt64 :=
  word32 data i ||| (word32 data (i + 4) <<< 32)

def lower (x : UInt64) : UInt64 :=
  x &&& 0xFFFFFFFF

def octet (x n : UInt64) : UInt64 :=
  (x >>> n) &&& 0xFF

/-- A number of 32 bits with its bytes in reverse order. -/
def swap32 (x : UInt64) : UInt64 :=
  (octet x 0 <<< 24) ||| (octet x 8 <<< 16) ||| (octet x 16 <<< 8) ||| octet x 24

def swap64 (x : UInt64) : UInt64 :=
  (swap32 (lower x) <<< 32) ||| swap32 (x >>> 32)

def rotate13 (x : UInt64) : UInt64 :=
  lower (x <<< 13) ||| (x >>> 19)

def product (x y : UInt64) : Pair :=
  let n := x.toNat * y.toNat
  ⟨UInt64.ofNat n, UInt64.ofNat (n >>> 64)⟩

/-- The exclusive or of the halves of the full product. -/
def fold (x y : UInt64) : UInt64 :=
  let p := product x y
  p.low ^^^ p.high

def shiftMix (x : UInt64) (n : UInt64) : UInt64 :=
  x ^^^ (x >>> n)

/-- The finish of the accumulating lengths. -/
def avalanche (x : UInt64) : UInt64 :=
  shiftMix (shiftMix x 37 * mixPrimeA) 32

/-- The finish of the shortest lengths. -/
def shortAvalanche (x : UInt64) : UInt64 :=
  shiftMix (shiftMix (shiftMix x 33 * prime64b) 29 * prime64c) 32

def hashEmpty : Pair :=
  ⟨shortAvalanche (word64 secret 64 ^^^ word64 secret 72),
    shortAvalanche (word64 secret 80 ^^^ word64 secret 88)⟩

def hashUpTo3 (data : ByteArray) : Pair :=
  let size := data.size
  let combined := (byteAt data 0 <<< 16) ||| (byteAt data (size / 2) <<< 24) |||
    byteAt data (size - 1) ||| (UInt64.ofNat size <<< 8)
  let turned := rotate13 (swap32 combined)
  ⟨shortAvalanche (combined ^^^ (word32 secret 0 ^^^ word32 secret 4)),
    shortAvalanche (turned ^^^ (word32 secret 8 ^^^ word32 secret 12))⟩

def hashUpTo8 (data : ByteArray) : Pair :=
  let size := data.size
  let input := word32 data 0 + (word32 data (size - 4) <<< 32)
  let keyed := input ^^^ (word64 secret 16 ^^^ word64 secret 24)
  let m := product keyed (prime64a + (UInt64.ofNat size <<< 2))
  let high := m.high + (m.low <<< 1)
  let low := m.low ^^^ (high >>> 3)
  ⟨shiftMix (shiftMix low 35 * mixPrimeB) 28, avalanche high⟩

def hashUpTo16 (data : ByteArray) : Pair :=
  let size := data.size
  let flipLow := word64 secret 32 ^^^ word64 secret 40
  let flipHigh := word64 secret 48 ^^^ word64 secret 56
  let first := word64 data 0
  let last := word64 data (size - 8)
  let m := product (first ^^^ last ^^^ flipLow) prime64a
  let low := m.low + (UInt64.ofNat (size - 1) <<< 54)
  let keyed := last ^^^ flipHigh
  let high := m.high + keyed + lower keyed * (prime32b - 1)
  let h := product (low ^^^ swap64 high) prime64b
  ⟨avalanche h.low, avalanche (h.high + high * prime64b)⟩

def mix16 (data : ByteArray) (i s : Nat) : UInt64 :=
  fold (word64 data i ^^^ word64 secret s) (word64 data (i + 8) ^^^ word64 secret (s + 8))

/-- Mixes the 16 bytes at `i` and the 16 bytes at `j` with the secret from `s`. -/
def mix32 (data : ByteArray) (acc : Pair) (i j s : Nat) : Pair :=
  ⟨(acc.low + mix16 data i s) ^^^ (word64 data j + word64 data (j + 8)),
    (acc.high + mix16 data j (s + 16)) ^^^ (word64 data i + word64 data (i + 8))⟩

def finishMiddle (size : Nat) (acc : Pair) : Pair :=
  let low := acc.low + acc.high
  let high := acc.low * prime64a + acc.high * prime64d + UInt64.ofNat size * prime64b
  ⟨avalanche low, 0 - avalanche high⟩

def hashUpTo128 (data : ByteArray) : Pair :=
  let size := data.size
  let start : Pair := ⟨UInt64.ofNat size * prime64a, 0⟩
  let rounds := (size - 1) / 32
  let acc := (List.range (rounds + 1)).reverse.foldl
    (fun acc k => mix32 data acc (16 * k) (size - 16 * (k + 1)) (32 * k)) start
  finishMiddle size acc

def hashUpTo240 (data : ByteArray) : Pair :=
  let size := data.size
  let start : Pair := ⟨UInt64.ofNat size * prime64a, 0⟩
  let acc := (List.range 4).foldl
    (fun acc k => mix32 data acc (32 * k) (32 * k + 16) (32 * k)) start
  let acc : Pair := ⟨avalanche acc.low, avalanche acc.high⟩
  let acc := (List.range (size / 32 - 4)).foldl
    (fun acc k => mix32 data acc (128 + 32 * k) (144 + 32 * k) (3 + 32 * k)) acc
  let acc := mix32 data acc (size - 16) (size - 32) 103
  finishMiddle size acc

/-- The eight accumulators of a long input. -/
abbrev Lanes := Vector UInt64 8

def startLanes : Lanes :=
  #v[prime32c, prime64a, prime64b, prime64c, prime64d, prime32b, prime64e, prime32a]

/-- Takes in the 64 bytes at `i` with the secret from `s`. -/
def stripe (data : ByteArray) (acc : Lanes) (i s : Nat) : Lanes :=
  Vector.ofFn fun k : Fin 8 =>
    let own := word64 data (i + 8 * k.val)
    let other := word64 data (i + 8 * (k.val ^^^ 1))
    let key := own ^^^ word64 secret (s + 8 * k.val)
    acc[k] + other + lower key * (key >>> 32)

def scramble (acc : Lanes) : Lanes :=
  Vector.ofFn fun k : Fin 8 =>
    (shiftMix acc[k] 47 ^^^ word64 secret (128 + 8 * k.val)) * prime32a

def merge (acc : Lanes) (s : Nat) (start : UInt64) : UInt64 :=
  avalanche (start +
    fold (acc[0] ^^^ word64 secret s) (acc[1] ^^^ word64 secret (s + 8)) +
    fold (acc[2] ^^^ word64 secret (s + 16)) (acc[3] ^^^ word64 secret (s + 24)) +
    fold (acc[4] ^^^ word64 secret (s + 32)) (acc[5] ^^^ word64 secret (s + 40)) +
    fold (acc[6] ^^^ word64 secret (s + 48)) (acc[7] ^^^ word64 secret (s + 56)))

/-- A block is sixteen stripes; the last stripe of the input is taken in once more at the end. -/
def hashLong (data : ByteArray) : Pair :=
  let size := data.size
  let blocks := (size - 1) / 1024
  let stripes := (size - 1 - 1024 * blocks) / 64
  let acc := (List.range blocks).foldl
    (fun acc b => scramble ((List.range 16).foldl
      (fun acc n => stripe data acc (1024 * b + 64 * n) (8 * n)) acc)) startLanes
  let acc := (List.range stripes).foldl
    (fun acc n => stripe data acc (1024 * blocks + 64 * n) (8 * n)) acc
  let acc := stripe data acc (size - 64) 121
  ⟨merge acc 11 (UInt64.ofNat size * prime64a), merge acc 117 (~~~(UInt64.ofNat size * prime64b))⟩

def hash (data : ByteArray) : Pair :=
  if data.size = 0 then hashEmpty
  else if data.size ≤ 3 then hashUpTo3 data
  else if data.size ≤ 8 then hashUpTo8 data
  else if data.size ≤ 16 then hashUpTo16 data
  else if data.size ≤ 128 then hashUpTo128 data
  else if data.size ≤ 240 then hashUpTo240 data
  else hashLong data

end ClassCollapse.Digest.Xxh3
