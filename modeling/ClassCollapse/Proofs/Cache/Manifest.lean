import ClassCollapse.Cache.Manifest
import ClassCollapse.Proofs.Digest
import ClassCollapse.Proofs.Json.RoundTrip
import ClassCollapse.Proofs.Table

/-!
# Manifests read back

Reading the written form of a manifest gives the manifest, for any keys and any entries.
-/

namespace ClassCollapse

theorem CacheEntry.ofJson?_toJson (e : CacheEntry) : ofJson? e.toJson = some e := by
  have hFields : e.toJson.fields? keys =
      some [.ofText e.hash.toHex, .ofText e.hashModified.toHex, .ofNat e.modified.toNat,
        .ofText e.algorithm] := by
    have hObject : e.toJson.fields? keys = e.toJson.members?.bind fun members =>
        keys.mapM fun key => Json.onlyValue? key members := rfl
    rw [hObject, toJson, Json.members?_record, Option.bind_some]
    simp [keys, Json.onlyValue?, Json.valuesOf]
  rw [ofJson?, hFields]
  dsimp only
  rw [Json.text?_ofText, Json.text?_ofText, Json.text?_ofText, Json.word?_ofNat e.modified.toNat_lt]
  dsimp only [Option.bind_eq_bind, Option.bind_some]
  rw [Digest.ofHex?_toHex, Digest.ofHex?_toHex]
  dsimp only [Option.bind_some]
  rw [UInt64.ofNat_toNat]

theorem CacheEntry.written_toJson (e : CacheEntry) : e.toJson.Written := by
  refine .record _ fun field hField => ?_
  simp only [List.mem_cons, List.not_mem_nil, or_false] at hField
  rcases hField with rfl | rfl | rfl | rfl
  · exact .ofText _
  · exact .ofText _
  · exact .ofNat _
  · exact .ofText _

namespace Manifest

theorem ofJson?_toJson (m : Manifest) : ofJson? m.toJson = some m := by
  have hEntries := Json.mapM_map_some (l := m.entries)
    (f := fun field => (field.1, CacheEntry.toJson field.2))
    (g := fun field => (CacheEntry.ofJson? field.2).map fun entry => (field.1, entry))
    (h := id) fun field _ => by
      dsimp only
      rw [CacheEntry.ofJson?_toJson]
      rfl
  rw [List.map_id] at hEntries
  rw [ofJson?, toJson, Json.members?_record]
  dsimp only [Option.bind_eq_bind, Option.bind_some]
  refine (congrArg (Option.bind · _) hEntries).trans ?_
  exact congrArg some (Table.ofList_entries m)

theorem written_toJson (m : Manifest) : m.toJson.Written := by
  refine .record _ fun field hField => ?_
  obtain ⟨entry, _, rfl⟩ := List.mem_map.mp hField
  exact CacheEntry.written_toJson entry.2

theorem parse?_toText (m : Manifest) : parse? m.toText = some m := by
  rw [parse?, toText, Json.parse?_pretty (written_toJson m), Option.bind_some, ofJson?_toJson]

end Manifest

end ClassCollapse
