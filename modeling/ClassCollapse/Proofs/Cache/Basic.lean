import ClassCollapse.Cache.Basic
import ClassCollapse.Proofs.Cache.Manifest
import ClassCollapse.Proofs.Disk.Saving

/-!
# What a cache remembers

A recorded file is not modified while it has the text that was written, whenever it was recorded.
Forgetting keys leaves the entries of the others. A cache that was saved is the cache that is loaded
again.
-/

namespace ClassCollapse

/-- An entry without the time when it was recorded. -/
def CacheEntry.untimed (e : CacheEntry) : CacheEntry :=
  { e with modified := 0 }

namespace ChangeCache

variable {c : ChangeCache} {key content written : String} {now : UInt64}

theorem isModified_of_find? (h : c.manifest.find? key = some (newEntry now content written)) :
    c.isModified key written = false := by
  rw [isModified, h]
  simp [newEntry, CacheEntry.accepts]

theorem isModified_congr {c' : ChangeCache}
    (h : c'.manifest.find? key = c.manifest.find? key) (text : String) :
    c'.isModified key text = c.isModified key text := by
  rw [isModified, isModified, h]

theorem find?_record_self (c : ChangeCache) (now : UInt64) (key content written : String) :
    (c.record now key content written).manifest.find? key =
      some (newEntry now content written) := by
  rw [record, Table.find?_insert, if_pos rfl]

theorem find?_record_other (c : ChangeCache) (now : UInt64) {key other : String}
    (h : other ≠ key) (content written : String) :
    (c.record now key content written).manifest.find? other = c.manifest.find? other := by
  rw [record, Table.find?_insert, if_neg (Ne.symm h)]

theorem find?_forgetAll (c : ChangeCache) (keys : List String) (key : String) :
    (keys.foldl forget c).manifest.find? key =
      if key ∈ keys then none else c.manifest.find? key := by
  induction keys generalizing c with
  | nil => rfl
  | cons first keys ih =>
    rw [List.foldl_cons, ih, forget, Table.find?_erase]
    by_cases hFirst : first = key
    · simp [hFirst]
    · simp [hFirst, Ne.symm hFirst]

theorem path_forgetAll (c : ChangeCache) (keys : List String) :
    (keys.foldl forget c).path = c.path := by
  induction keys generalizing c with
  | nil => rfl
  | cons first keys ih => exact ih (c.forget first)

/-! ## Up to the time -/

/-- What a cache remembers of a key, but for the time when it was recorded. -/
def untimed? (c : ChangeCache) (key : String) : Option CacheEntry :=
  (c.manifest.find? key).map CacheEntry.untimed

theorem isModified_of_untimed? {c' : ChangeCache} (h : c'.untimed? key = c.untimed? key)
    (text : String) : c'.isModified key text = c.isModified key text := by
  rw [untimed?, untimed?] at h
  rw [isModified, isModified]
  cases hThis : c.manifest.find? key with
  | none =>
    rw [hThis] at h
    rw [Option.map_eq_none_iff.mp h]
  | some entry =>
    rw [hThis] at h
    obtain ⟨entry', hOther, hSame⟩ := Option.map_eq_some_iff.mp h
    -- The time has no part in what an entry accepts.
    have hAccepts := congrArg (fun entry : CacheEntry => !entry.accepts (Digest.ofText text)) hSame
    rw [hOther]
    exact hAccepts

theorem untimed?_record (c : ChangeCache) (now : UInt64) (key content written other : String) :
    (c.record now key content written).untimed? other =
      if key = other then some (newEntry 0 content written) else c.untimed? other := by
  rw [untimed?, record, Table.find?_insert]
  split <;> rfl

end ChangeCache

theorem Disk.readText_eq_ok_iff {d : Disk} {p : Path} {text : String} :
    d.readText p = .ok text ↔ d.read p = .ok text.toUTF8 := by
  rw [readText]
  cases d.read p with
  | error cause => simp
  | ok content =>
    dsimp only
    constructor
    · intro h
      split at h
      next text' hText =>
        cases h
        rw [String.fromUTF8?] at hText
        split at hText
        · cases hText
          rfl
        · cases hText
      next => cases h
    · intro h
      cases h
      rw [fromUTF8?_toUTF8]

theorem Disk.Names.readText_eq {d : Disk} {p : Path} {place : Place} (h : d.Names p place)
    (hTree : d.IsTree) {text : String} (hFile : d.node? place = some (.file text.toUTF8)) :
    d.readText p = .ok text := by
  rw [Disk.readText_eq_ok_iff, h.read_eq hTree hFile]

theorem Disk.Saved.load_eq {d d' : Disk} {c : ChangeCache} {place : Place}
    (h : d.Saved c.path c.manifest.toText.toUTF8 d' place) : ChangeCache.load d' c.path = c := by
  rw [ChangeCache.load, ChangeCache.manifestAt?, h.names.readText_eq h.isTree h.node?_eq]
  dsimp only
  rw [Manifest.parse?_toText]
  rfl

namespace ChangeCache

/-- The text that a manifest is saved as reads as the manifest, whatever its keys and its entries
are, and the digests in it are read back from 32 lowercase hexadecimal digits. So a manifest that was
saved in a tree is the one that is found there. -/
theorem manifestAt?_save (m : Manifest) :
    (String.fromUTF8? m.toText.toUTF8).bind Manifest.parse? = some m ∧
    (∀ digest : Digest, Digest.parse digest.toHex = .ok digest ∧ digest.toHex.length = 32 ∧
      ∀ c ∈ digest.toHex.toList, ∃ n < 16, c = Text.hexDigit n) ∧
    ∀ (d d' : Disk) (path : Path), d.IsTree → save ⟨path, m⟩ d = (.ok (), d') →
      manifestAt? d' path = some m := by
  refine ⟨?_, ?_, ?_⟩
  · rw [fromUTF8?_toUTF8, Option.bind_some, Manifest.parse?_toText]
  · intro digest
    exact ⟨digest.parse_toHex, digest.length_toHex, fun c => Digest.exists_of_mem_toHex⟩
  · intro d d' path hTree hSave
    obtain ⟨place, hSaved⟩ := Disk.saved_of_save hTree hSave
    rw [manifestAt?, hSaved.names.readText_eq hSaved.isTree hSaved.node?_eq]
    exact Manifest.parse?_toText m

/-- A manifest with keys and entries at the limits of what can be written. -/
def oddManifest : Manifest :=
  .ofList [("", ⟨⟨.replicate 16 0⟩, ⟨.replicate 16 255⟩, .ofNat (UInt64.size - 1), ""⟩),
    ("\"\\/\n\u0000\u001f", ⟨⟨.replicate 16 255⟩, ⟨.replicate 16 0⟩, 0, "é\"\t"⟩)]

theorem manifestAt?_oddManifest : Disk.IsTree ⟨[], []⟩ ∧
    ∃ d', save ⟨⟨"locks/classfold.lock"⟩, oddManifest⟩ ⟨[], []⟩ = (.ok (), d') ∧
      manifestAt? d' ⟨"locks/classfold.lock"⟩ = some oddManifest := by
  have hTree : Disk.IsTree ⟨[], []⟩ := by decide
  have hSaves : (save ⟨⟨"locks/classfold.lock"⟩, oddManifest⟩ ⟨[], []⟩).1 = .ok () := by
    decide +kernel
  obtain ⟨_, _, hFound⟩ := manifestAt?_save oddManifest
  refine ⟨hTree, _, Prod.ext hSaves rfl, ?_⟩
  exact hFound _ _ _ hTree (Prod.ext hSaves rfl)

end ChangeCache

end ClassCollapse
