import ClassCollapse.Proofs.Cache.Basic
import Mathlib.Data.List.Sort

/-!
# What a change set says of a file

A file that can be read is in one of three lists, by what the manifest holds for its key. All lists
are in ascending order, and a text has the status that the cache gives it.
-/

namespace ClassCollapse

namespace ChangeSet

variable (m : Manifest) (current : Table Digest)

theorem mem_withStatus_iff (status : Status) (key : String) :
    key ∈ withStatus m current status ↔
      ∃ digest, current.find? key = some digest ∧ statusOf m key digest = status := by
  rw [withStatus, List.mem_map]
  constructor
  · rintro ⟨⟨_, digest⟩, hMem, rfl⟩
    obtain ⟨hEntry, hStatus⟩ := List.mem_filter.mp hMem
    exact ⟨digest, (current.mem_entries_iff _ _).mp hEntry, of_decide_eq_true hStatus⟩
  · rintro ⟨digest, hFound, hStatus⟩
    have hEntry := (current.mem_entries_iff key digest).mpr hFound
    exact ⟨(key, digest), List.mem_filter.mpr ⟨hEntry, decide_eq_true hStatus⟩, rfl⟩

theorem status_unique {status status' : Status} {key : String}
    (h : key ∈ withStatus m current status) (h' : key ∈ withStatus m current status') :
    status = status' := by
  obtain ⟨digest, hFound, rfl⟩ := (mem_withStatus_iff m current status key).mp h
  obtain ⟨digest', hFound', rfl⟩ := (mem_withStatus_iff m current status' key).mp h'
  rw [hFound] at hFound'
  rw [Option.some.inj hFound']

theorem ascending_withStatus (status : Status) :
    (withStatus m current status).Pairwise (· < ·) :=
  List.pairwise_map.mpr (current.ascending.filter _)

theorem ascending_detect :
    let changes := detect current m
    changes.newFiles.Pairwise (· < ·) ∧ changes.modifiedFiles.Pairwise (· < ·) ∧
      changes.unchangedFiles.Pairwise (· < ·) ∧ changes.deletedFiles.Pairwise (· < ·) :=
  ⟨ascending_withStatus m current .new, ascending_withStatus m current .modified,
    ascending_withStatus m current .unchanged, m.ascending_keys.filter _⟩

theorem mem_deletedFiles_iff (key : String) :
    key ∈ (detect current m).deletedFiles ↔ m.find? key ≠ none ∧ current.find? key = none := by
  rw [detect, List.mem_filter, Table.mem_keys_iff, Table.has]
  simp

theorem perm_keys_detect :
    ((detect current m).newFiles ++ (detect current m).modifiedFiles ++
      (detect current m).unchangedFiles).Perm current.keys := by
  have hNodup : ∀ status, (withStatus m current status).Nodup := fun status =>
    (ascending_withStatus m current status).imp String.ne_of_lt
  have hApart : ∀ {status status'}, status ≠ status' →
      ∀ key ∈ withStatus m current status, ∀ key' ∈ withStatus m current status', key ≠ key' := by
    rintro status status' hne key hKey _ hKey' rfl
    exact hne (status_unique m current hKey hKey')
  have hAll : (withStatus m current .new ++ withStatus m current .modified ++
      withStatus m current .unchanged).Nodup := by
    rw [List.nodup_append, List.nodup_append]
    refine ⟨⟨hNodup _, hNodup _, hApart (by decide)⟩, hNodup _, ?_⟩
    intro key hKey
    rcases List.mem_append.mp hKey with hNew | hModified
    · exact hApart (by decide) key hNew
    · exact hApart (by decide) key hModified
  refine (List.perm_ext_iff_of_nodup hAll current.nodup_keys).mpr fun key => ?_
  rw [List.mem_append, List.mem_append, Table.mem_keys_iff, Option.ne_none_iff_exists']
  simp only [mem_withStatus_iff]
  constructor
  · rintro ((⟨digest, hFound, _⟩ | ⟨digest, hFound, _⟩) | ⟨digest, hFound, _⟩) <;>
      exact ⟨digest, hFound⟩
  · rintro ⟨digest, hFound⟩
    cases hStatus : statusOf m key digest with
    | new => exact .inl (.inl ⟨digest, hFound, hStatus⟩)
    | modified => exact .inl (.inr ⟨digest, hFound, hStatus⟩)
    | unchanged => exact .inr ⟨digest, hFound, hStatus⟩

theorem statusOf_eq_new_iff (key : String) (digest : Digest) :
    statusOf m key digest = .new ↔ m.find? key = none := by
  rw [statusOf]
  split
  next hNone => simp [hNone]
  next entry hEntry => split <;> simp [hEntry]

theorem statusOf_eq_unchanged_iff (c : ChangeCache) (key text : String) :
    statusOf c.manifest key (Digest.ofText text) = .unchanged ↔ c.isModified key text = false := by
  rw [statusOf, ChangeCache.isModified]
  cases c.manifest.find? key with
  | none => simp
  | some entry => simp

end ChangeSet

namespace ChangeCache

variable {d : Disk}

theorem hashFile_of_readText {path : Path} {text : String} (h : d.readText path = .ok text) :
    hashFile d path = .ok (Digest.ofText text) := by
  rw [hashFile, Disk.readText_eq_ok_iff.mp h]
  rfl

theorem find?_hashFiles_eq_some_iff {files : List (String × Path)} (h : (files.map Prod.fst).Nodup)
    (key : String) (digest : Digest) :
    (hashFiles d files).find? key = some digest ↔
      ∃ path, (key, path) ∈ files ∧ hashFile d path = .ok digest := by
  have hSublist : ((files.filterMap fun file =>
      (hashFile d file.2).toOption.map fun digest => (file.1, digest)).map Prod.fst).Sublist
      (files.map Prod.fst) := by
    clear h
    induction files with
    | nil => exact List.Sublist.slnil
    | cons file files ih =>
      obtain ⟨first, path⟩ := file
      cases hHash : hashFile d path with
      | error error =>
        simp only [List.filterMap_cons, hHash]
        exact ih.cons first
      | ok digest =>
        simp only [List.filterMap_cons, hHash]
        exact ih.cons_cons first
  rw [hashFiles, Table.find?_ofList_eq_some_iff (h.sublist hSublist), List.mem_filterMap]
  constructor
  · rintro ⟨⟨first, path⟩, hMem, hSome⟩
    obtain ⟨digest', hHash, hSame⟩ := Option.map_eq_some_iff.mp hSome
    cases hSame
    refine ⟨path, hMem, ?_⟩
    cases hFile : hashFile d path with
    | error error =>
      rw [hFile] at hHash
      cases hHash
    | ok other =>
      rw [hFile] at hHash
      cases hHash
      rfl
  · rintro ⟨path, hMem, hHash⟩
    refine ⟨(key, path), hMem, ?_⟩
    dsimp only
    rw [hHash]
    rfl

end ChangeCache

end ClassCollapse
