import ClassCollapse.Disk.Walk
import ClassCollapse.Proofs.Disk.Saving

/-!
# What is discovered

Below a root that is a directory exactly the source files are found, each once and under a key of
its own, whether or not there are links. In a tree the path of each leads to it, and files that are
found stay found while the disk keeps them.
-/

namespace ClassCollapse.Disk

variable {d : Disk} {root : Path} {scan : ScanConfig} {base names : Place}

/-- A file that is to be processed stands at names below a place. -/
def IsSourceAt (d : Disk) (scan : ScanConfig) (base names : Place) : Prop :=
  ∃ content, d.fileAt? (base ++ names) = some content ∧ isSource scan (names, .file content) = true

/-- A list of paths is what is to be processed below a root. -/
structure Discovered (d : Disk) (root : Path) (scan : ScanConfig) (base : Place)
    (files : List Path) : Prop where
  leadsTo : d.LeadsTo root base
  mem_iff : ∀ p, p ∈ files ↔ ∃ names, d.IsSourceAt scan base names ∧ p = pathBelow root names
  keys_nodup : (files.map (Path.fileKey root)).Nodup

theorem fileAt?_eq_some_iff {place : Place} {content : ByteArray} :
    d.fileAt? place = some content ↔ d.node? place = some (.file content) := by
  rw [fileAt?]
  split
  next other hNode => simp [hNode]
  next hNode => simpa using hNode content

theorem names_ne_nil_of_isSource {node : Node} (h : isSource scan (names, node) = true) :
    names ≠ [] := by
  rintro rfl
  cases node <;> simp [isSource] at h

theorem mem_below {node : Node} :
    (names, node) ∈ d.below base ↔ names ≠ [] ∧ (base ++ names, node) ∈ d.nodes := by
  rw [below, List.mem_filterMap]
  constructor
  · rintro ⟨⟨other, node'⟩, hMem, hBelow⟩
    dsimp only at hBelow
    split at hBelow
    next first rest hRest =>
      cases hBelow
      rw [(Path.below?_eq_some_iff _ _ _).mp hRest] at hMem
      exact ⟨List.cons_ne_nil _ _, hMem⟩
    next => cases hBelow
  · rintro ⟨hNames, hMem⟩
    refine ⟨(base ++ names, node), hMem, ?_⟩
    cases names with
    | nil => exact absurd rfl hNames
    | cons first rest =>
      dsimp only
      rw [(Path.below?_eq_some_iff _ _ _).mpr rfl]

theorem pairwise_below (h : (d.nodes.map Prod.fst).Nodup) (base : Place) :
    (d.below base).Pairwise fun a b => a.1 ≠ b.1 := by
  refine List.Pairwise.filterMap _ ?_ (List.pairwise_map.mp h)
  intro a b hab a' ha' b' hb' hSame
  dsimp only at ha' hb'
  split at ha'
  next first rest hRest =>
    split at hb'
    next first' rest' hRest' =>
      cases ha'
      cases hb'
      have hRests : first :: rest = first' :: rest' := hSame
      apply hab
      rw [(Path.below?_eq_some_iff _ _ _).mp hRest, (Path.below?_eq_some_iff _ _ _).mp hRest',
        hRests]
    next => cases hb'
  next => cases ha'

/-! ## Keys -/

/-- What stands on a disk has a place of its own, and every part of a place is a name. There may be
links. -/
structure IsNamed (d : Disk) : Prop where
  nodup : (d.nodes.map Prod.fst).Nodup
  isName : ∀ entry ∈ d.nodes, ∀ s ∈ entry.1, IsName s

theorem IsLinkedTree.isNamed (h : d.IsLinkedTree) : d.IsNamed where
  nodup := h.nodup
  isName := by
    intro entry hEntry
    obtain ⟨front, s, hPlace, hName, hFront⟩ := h.stands entry hEntry
    rw [← List.nil_append front] at hFront
    rw [hPlace, List.forall_mem_append]
    exact ⟨(h.above hFront).2, by simpa using hName⟩

theorem IsTree.isNamed (h : d.IsTree) : d.IsNamed :=
  h.isLinkedTree.isNamed

namespace IsNamed

variable (h : d.IsNamed)
include h

theorem isName_below {entry : Place × Node} (hEntry : entry ∈ d.below base) :
    entry.1 ≠ [] ∧ ∀ s ∈ entry.1, IsName s := by
  obtain ⟨hne, hNode⟩ := mem_below.mp hEntry
  exact ⟨hne, fun s hs => h.isName _ hNode s (List.mem_append_right base hs)⟩

theorem key_eq (hRoot : root.text ≠ "") {entry : Place × Node} (hEntry : entry ∈ d.below base) :
    Path.fileKey root (pathBelow root entry.1) = Text.join "/" entry.1 :=
  Path.fileKey_join hRoot (h.isName_below hEntry).1 (h.isName_below hEntry).2

/-- What stands at different places has different keys. -/
theorem keys_nodup (hRoot : root.text ≠ "") (scan : ScanConfig) (base : Place) :
    ((((d.below base).filter (isSource scan)).map fun e => pathBelow root e.1).map
      (Path.fileKey root)).Nodup := by
  rw [List.map_map]
  refine List.pairwise_map.mpr (((pairwise_below h.nodup base).filter _).imp_of_mem ?_)
  intro a b ha hb hab hKey
  have ha' := (List.mem_filter.mp ha).1
  have hb' := (List.mem_filter.mp hb).1
  have hKeys : Text.join "/" a.1 = Text.join "/" b.1 := by
    rw [← h.key_eq hRoot ha', ← h.key_eq hRoot hb']
    exact hKey
  exact hab (Path.join_injective (h.isName_below ha').1 (h.isName_below hb').1
    (h.isName_below ha').2 (h.isName_below hb').2 hKeys)

end IsNamed

theorem exists_of_discover {files : List Path} (h : d.discover root scan = .ok files) :
    ∃ base, d.locate root = .ok base ∧ d.node? base = some .directory ∧
      files.Perm (((d.below base).filter (isSource scan)).map fun e => pathBelow root e.1) := by
  rw [discover] at h
  split at h
  · cases h
  next base hLocate =>
    split at h
    next hNode =>
      cases h
      exact ⟨base, hLocate, hNode, List.mergeSort_perm _ _⟩
    next => cases h
    next => cases h

/-- Source files that are found in the order of their paths are discovered in this order. -/
theorem discover_eq {files : List Path} (hLocate : d.locate root = .ok base)
    (hNode : d.node? base = some .directory)
    (hFound : ((d.below base).filter (isSource scan)).map (fun e => pathBelow root e.1) = files)
    (hSorted : files.Pairwise fun p q => p.before q = true) :
    d.discover root scan = .ok files := by
  rw [discover, hLocate]
  dsimp only
  rw [hNode]
  dsimp only
  rw [hFound, List.mergeSort_of_pairwise hSorted]

theorem text_ne_of_locate {place : Place} (h : d.locate root = .ok place) : root.text ≠ "" := by
  intro hEmpty
  rw [locate, hEmpty] at h
  cases h

/-- The discovered files have keys of their own, and the keys are those of the source files. -/
theorem keys_of_discover (h : d.IsNamed) {files : List Path}
    (hFiles : d.discover root scan = .ok files) :
    ∃ base, d.locate root = .ok base ∧ (files.map (Path.fileKey root)).Nodup ∧
      ∀ key, key ∈ files.map (Path.fileKey root) ↔
        ∃ entry ∈ d.below base, isSource scan entry = true ∧ key = Text.join "/" entry.1 := by
  obtain ⟨base, hBase, _, hPerm⟩ := exists_of_discover hFiles
  have hRoot := text_ne_of_locate hBase
  refine ⟨base, hBase, (hPerm.map _).nodup_iff.mpr (h.keys_nodup hRoot scan base), ?_⟩
  intro key
  rw [(hPerm.map _).mem_iff, List.map_map, List.mem_map]
  constructor
  · rintro ⟨entry, hEntry, rfl⟩
    obtain ⟨hMem, hSource⟩ := List.mem_filter.mp hEntry
    exact ⟨entry, hMem, hSource, h.key_eq hRoot hMem⟩
  · rintro ⟨entry, hMem, hSource, rfl⟩
    exact ⟨entry, List.mem_filter.mpr ⟨hMem, hSource⟩, h.key_eq hRoot hMem⟩

/-! ## Sources -/

theorem isSourceAt_iff (hTree : d.IsTree) :
    d.IsSourceAt scan base names ↔
      ∃ node, (names, node) ∈ d.below base ∧ isSource scan (names, node) = true := by
  constructor
  · rintro ⟨content, hFile, hSource⟩
    have hNames := names_ne_nil_of_isSource hSource
    refine ⟨.file content, mem_below.mpr ⟨hNames, ?_⟩, hSource⟩
    exact (hTree.node?_eq_some_iff (by simp [hNames]) _).mp (fileAt?_eq_some_iff.mp hFile)
  · rintro ⟨node, hMem, hSource⟩
    obtain ⟨hNames, hNode⟩ := mem_below.mp hMem
    have hThere := (hTree.node?_eq_some_iff (by simp [hNames]) _).mpr hNode
    cases node with
    | file content => exact ⟨content, fileAt?_eq_some_iff.mpr hThere, hSource⟩
    | directory => cases hSource
    | link target => exact absurd hThere (hTree.ne_link _ _)

namespace IsSourceAt

theorem names_ne_nil (h : d.IsSourceAt scan base names) : names ≠ [] := by
  obtain ⟨content, _, hSource⟩ := h
  exact names_ne_nil_of_isSource hSource

theorem isName (h : d.IsSourceAt scan base names) (hTree : d.IsTree) : ∀ s ∈ names, IsName s := by
  obtain ⟨content, hFile, _⟩ := h
  exact (hTree.above (fileAt?_eq_some_iff.mp hFile)).2

theorem pathBelow_names (h : d.IsSourceAt scan base names) (hTree : d.IsTree)
    (hRoot : d.LeadsTo root base) : d.Names (pathBelow root names) (base ++ names) := by
  obtain ⟨front, s, rfl⟩ := (List.eq_nil_or_concat' names).resolve_left h.names_ne_nil
  have hWay := Path.way_join hRoot.text_ne h.names_ne_nil (h.isName hTree)
  rw [List.map_append, List.map_singleton, ← List.append_assoc] at hWay
  obtain ⟨content, hFile, _⟩ := h
  have hFront : d.node? (base ++ front) = some .directory := by
    have hNode := fileAt?_eq_some_iff.mp hFile
    rw [← List.append_assoc] at hNode
    exact (hTree.parent hNode).2
  have hLeading : d.walk? d.workingDirectory root.leadingWay = some base := by
    have hAll := hRoot.walk?_eq
    rw [Path.way_eq, walk?_append] at hAll
    obtain ⟨place, hPlace, hEnd⟩ := Option.bind_eq_some_iff.mp hAll
    rw [hPlace]
    split at hEnd <;> exact hEnd
  rw [pathBelow]
  refine ⟨root.leadingWay ++ front.map .name, base ++ front, s, hWay, ?_, ?_⟩
  · rw [walk?_append, hLeading, Option.bind_some]
    exact hTree.walk?_names hFront
  · rw [List.append_assoc]

theorem keeps {d' : Disk} (h : d.IsSourceAt scan base names) (hKeeps : Keeps d d') :
    d'.IsSourceAt scan base names := by
  obtain ⟨content, hFile, hSource⟩ := h
  have hThere := hKeeps.file (base ++ names) (by simp [hFile])
  obtain ⟨content', hFile'⟩ := Option.ne_none_iff_exists'.mp hThere
  exact ⟨content', hFile', hSource⟩

end IsSourceAt

/-! ## Discovering -/

theorem exists_discover (hTree : d.IsTree) (hRoot : d.LeadsTo root base) (scan : ScanConfig) :
    ∃ files, d.discover root scan = .ok files ∧ d.Discovered root scan base files := by
  obtain ⟨hLocate, hNode⟩ := (leadsTo_iff hTree).mp hRoot
  rw [discover, hLocate]
  dsimp only
  rw [hNode]
  refine ⟨_, rfl, hRoot, ?_, ?_⟩
  · intro p
    rw [List.mem_mergeSort, List.mem_map]
    constructor
    · rintro ⟨⟨names, node⟩, hEntry, rfl⟩
      obtain ⟨hMem, hSource⟩ := List.mem_filter.mp hEntry
      exact ⟨names, (isSourceAt_iff hTree).mpr ⟨node, hMem, hSource⟩, rfl⟩
    · rintro ⟨names, hSource, rfl⟩
      obtain ⟨node, hMem, hIs⟩ := (isSourceAt_iff hTree).mp hSource
      exact ⟨(names, node), List.mem_filter.mpr ⟨hMem, hIs⟩, rfl⟩
  · rw [((List.mergeSort_perm _ _).map _).nodup_iff]
    exact hTree.isNamed.keys_nodup hRoot.text_ne scan base

theorem discovered_of_discover (hTree : d.IsTree) {files : List Path}
    (h : d.discover root scan = .ok files) : ∃ base, d.Discovered root scan base files := by
  obtain ⟨base, hLocate, hNode, _⟩ := exists_of_discover h
  obtain ⟨found, hFound, hDiscovered⟩ := exists_discover hTree
    ((leadsTo_iff hTree).mpr ⟨hLocate, hNode⟩) scan
  rw [hFound] at h
  cases h
  exact ⟨base, hDiscovered⟩

end ClassCollapse.Disk
