import ClassCollapse.Digest.Xxh3
import ClassCollapse.Text.Hex

/-!
# Content digests

A digest is sixteen bytes: the two halves of the 128-bit hash, the lower one first and each with its
least significant byte first. It is written as 32 lowercase hexadecimal digits.
-/

namespace ClassCollapse

/-- The digest of a content. Two contents with the same digest count as equal. -/
structure Digest where
  bytes : Vector UInt8 16
deriving DecidableEq

namespace Digest

/-- The eight bytes of a word, the least significant one first. -/
def octets (x : UInt64) : Vector UInt8 8 :=
  Vector.ofFn fun i : Fin 8 => (x >>> (8 * UInt64.ofNat i.val)).toUInt8

def ofBytes (data : ByteArray) : Digest :=
  let h := Xxh3.hash data
  ⟨octets h.low ++ octets h.high⟩

def ofText (s : String) : Digest :=
  ofBytes s.toUTF8

def hexPair (b : UInt8) : List Char :=
  [Text.hexDigit (b.toNat / 16), Text.hexDigit (b.toNat % 16)]

def toHex (d : Digest) : String :=
  String.ofList (d.bytes.toList.flatMap hexPair)

/-- The first eight digits, which tell names apart. -/
def short (d : Digest) : String :=
  String.ofList (d.toHex.toList.take 8)

/-- A digest abridged to its first two bytes. -/
def abridged (d : Digest) : String :=
  "ContentHash(" ++ String.ofList (d.toHex.toList.take 4) ++ "..)"

/-- The byte of a pair of characters: two digits, or a plus sign and one digit. -/
def byteOfPair? (a b : Char) : Option UInt8 :=
  if a = '+' then (Text.hexValue? b).map UInt8.ofNat
  else do
    let high ← Text.hexValue? a
    let low ← Text.hexValue? b
    some (UInt8.ofNat (16 * high + low))

def bytesOfHex? : List Char → Option (List UInt8)
  | [] => some []
  | [_] => none
  | a :: b :: rest => do
    let x ← byteOfPair? a b
    let xs ← bytesOfHex? rest
    some (x :: xs)

/-- Reads 32 characters as a digest. -/
def ofHex? (s : String) : Option Digest := do
  let bytes ← bytesOfHex? s.toList
  if h : bytes.length = 16 then some ⟨⟨bytes.toArray, by simpa using h⟩⟩ else none

/-- A text that is not the written form of a digest. -/
structure ParseError where
  text : String
deriving DecidableEq

def ParseError.message (e : ParseError) : String :=
  "invalid content hash '" ++ e.text ++ "': expected 32 hex characters"

def parse (s : String) : Except ParseError Digest :=
  match ofHex? s with
  | some d => .ok d
  | none => .error ⟨s⟩

end Digest

def shortDigest (s : String) : String :=
  (Digest.ofText s).short

end ClassCollapse
