import ClassCollapse.Digest.Basic
import ClassCollapse.Json.Reader
import ClassCollapse.Json.Writer
import ClassCollapse.Table

/-!
# Manifests

A manifest keeps for each file the digests of its content before and after the last rewrite. It is
written as a JSON object in the order of its keys and read back from it.
-/

namespace ClassCollapse

/-- What is remembered of a file. -/
structure CacheEntry where
  hash : Digest
  hashModified : Digest
  modified : UInt64
  algorithm : String
deriving DecidableEq

def algorithmTag : String := "classfold/xxh3-128"

namespace CacheEntry

/-- Whether a content has one of the digests of an entry. -/
def accepts (e : CacheEntry) (d : Digest) : Bool :=
  e.hash == d || e.hashModified == d

def keys : List String := ["hash", "hashModified", "modified", "algorithm"]

def toJson (e : CacheEntry) : Json :=
  .record [("hash", .ofText e.hash.toHex), ("hashModified", .ofText e.hashModified.toHex),
    ("modified", .ofNat e.modified.toNat), ("algorithm", .ofText e.algorithm)]

def ofJson? (value : Json) : Option CacheEntry :=
  match value.fields? keys with
  | some [hash, hashModified, modified, algorithm] => do
    let hash ← hash.text?.bind Digest.ofHex?
    let hashModified ← hashModified.text?.bind Digest.ofHex?
    let modified ← modified.word?
    let algorithm ← algorithm.text?
    some ⟨hash, hashModified, UInt64.ofNat modified, algorithm⟩
  | _ => none

end CacheEntry

abbrev Manifest := Table CacheEntry

namespace Manifest

def toJson (m : Manifest) : Json :=
  .record (m.entries.map fun (key, entry) => (key, entry.toJson))

def ofJson? (value : Json) : Option Manifest := do
  let members ← value.members?
  let entries ← members.mapM fun (key, value) =>
    (CacheEntry.ofJson? value).map fun entry => (key, entry)
  some (Table.ofList entries)

/-- The written form of a manifest, which ends with a line feed. -/
def toText (m : Manifest) : String :=
  m.toJson.pretty ++ "\n"

def parse? (s : String) : Option Manifest :=
  (Json.parse? s).bind ofJson?

end Manifest

end ClassCollapse
