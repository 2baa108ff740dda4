import ClassCollapse.Proofs.Disk.Links
import ClassCollapse.Proofs.Disk.Ordering
import Mathlib.Data.List.Nodup

/-!
# Walking directories

What is discovered can be found directory by directory: a walk lists a directory, in any order,
takes up what is no directory and has a scanned name, and walks the directories that are not
excluded. It ends, since it enters no links, and sorting what it found gives what is discovered.
-/

namespace ClassCollapse.Disk

variable {d : Disk} {scan : ScanConfig} {place : Place}

/-! ## Walks -/

/-- What stands in a directory, by name. -/
def entries (d : Disk) (place : Place) : List (String × Node) :=
  (d.below place).filterMap fun
    | ([s], node) => some (s, node)
    | _ => none

/-- What a walk finds for the entries of a directory, where `enter` walks the directories in it. -/
def walkEntries (scan : ScanConfig) (enter : Path → Place → Option (List Path)) (path : Path)
    (place : Place) : List (String × Node) → Option (List Path)
  | [] => some []
  | (s, node) :: listed =>
    match node with
    | .directory =>
      if scan.isExcluded s then walkEntries scan enter path place listed
      else
        (enter (path.join ⟨s⟩) (place ++ [s])).bind fun inner =>
          (walkEntries scan enter path place listed).map fun rest => inner ++ rest
    | _ =>
      if scan.isScanned s then
        (walkEntries scan enter path place listed).map fun rest => path.join ⟨s⟩ :: rest
      else walkEntries scan enter path place listed

/-- What a walk finds below a path that leads to a place, where directories are listed in some order
and at most `depth` of them are walked one within the other. -/
def walkWithin (listing : Place → List (String × Node)) (scan : ScanConfig) :
    (depth : Nat) → Path → Place → Option (List Path)
  | 0 => fun _ _ => none
  | depth + 1 => fun path place =>
    walkEntries scan (walkWithin listing scan depth) path place (listing place)

/-- The length of the longest place on a disk. -/
def height (d : Disk) : Nat :=
  (d.nodes.map fun entry => entry.1.length).foldr max 0

/-- A path with names after it. -/
def goOn (path : Path) (names : Place) : Path :=
  names.foldl (fun p s => p.join ⟨s⟩) path

/-! ## The sources below a place -/

/-- The names that lead from a place to what is to be processed. -/
def sourcesBelow (d : Disk) (scan : ScanConfig) (place : Place) : List Place :=
  ((d.below place).filter (isSource scan)).map Prod.fst

/-- The part of them that one entry gives. -/
def sourcesOf (d : Disk) (scan : ScanConfig) (place : Place) : String × Node → List Place
  | (s, node) =>
    match node with
    | .directory =>
      if scan.isExcluded s then [] else (d.sourcesBelow scan (place ++ [s])).map (s :: ·)
    | _ => if scan.isScanned s then [[s]] else []

theorem mem_sourcesBelow {names : Place} : names ∈ d.sourcesBelow scan place ↔
    ∃ node, names ≠ [] ∧ (place ++ names, node) ∈ d.nodes ∧ isSource scan (names, node) = true := by
  rw [sourcesBelow, List.mem_map]
  constructor
  · rintro ⟨⟨_, node⟩, hEntry, rfl⟩
    obtain ⟨hMem, hSource⟩ := List.mem_filter.mp hEntry
    obtain ⟨hne, hNode⟩ := mem_below.mp hMem
    exact ⟨node, hne, hNode, hSource⟩
  · rintro ⟨node, hne, hNode, hSource⟩
    exact ⟨(names, node), List.mem_filter.mpr ⟨mem_below.mpr ⟨hne, hNode⟩, hSource⟩, rfl⟩

theorem isSource_concat {front : Place} {s : String} {node : Node} :
    isSource scan (front ++ [s], node) = true ↔ node ≠ .directory ∧
      (∀ dir ∈ front, scan.isExcluded dir = false) ∧ scan.isScanned s = true := by
  cases node <;> simp [isSource]

theorem isSource_singleton {s : String} {node : Node} :
    isSource scan ([s], node) = true ↔ node ≠ .directory ∧ scan.isScanned s = true := by
  rw [← List.nil_append [s], isSource_concat]
  simp

theorem isSource_cons {s : String} {names : Place} (hne : names ≠ []) {node : Node} :
    isSource scan (s :: names, node) = true ↔
      scan.isExcluded s = false ∧ isSource scan (names, node) = true := by
  obtain ⟨front, last, rfl⟩ := (List.eq_nil_or_concat' names).resolve_left hne
  rw [← List.cons_append, isSource_concat, isSource_concat, List.forall_mem_cons]
  tauto

theorem mem_entries {s : String} {node : Node} :
    (s, node) ∈ d.entries place ↔ (place ++ [s], node) ∈ d.nodes := by
  rw [entries, List.mem_filterMap]
  constructor
  · rintro ⟨⟨names, other⟩, hMem, hEntry⟩
    obtain ⟨hne, hNode⟩ := mem_below.mp hMem
    match names, hEntry with
    | [t], hEntry =>
      cases hEntry
      exact hNode
  · intro hNode
    exact ⟨([s], node), mem_below.mpr ⟨List.cons_ne_nil _ _, hNode⟩, rfl⟩

theorem nodup_sourcesBelow (h : (d.nodes.map Prod.fst).Nodup) (scan : ScanConfig) (place : Place) :
    (d.sourcesBelow scan place).Nodup :=
  List.pairwise_map.mpr ((pairwise_below h place).filter _)

theorem pairwise_entries (h : (d.nodes.map Prod.fst).Nodup) (place : Place) :
    (d.entries place).Pairwise fun a b => a.1 ≠ b.1 := by
  refine List.Pairwise.filterMap _ ?_ (pairwise_below h place)
  rintro ⟨names, node⟩ ⟨names', node'⟩ hApart ⟨s, found⟩ hEntry ⟨s', found'⟩ hEntry' hSame
  match names, names', hEntry, hEntry' with
  | [t], [t'], hEntry, hEntry' =>
    cases hEntry
    cases hEntry'
    exact hApart (congrArg (fun s => [s]) hSame)

theorem sourcesOf_directory (d : Disk) (scan : ScanConfig) (place : Place) (s : String) :
    d.sourcesOf scan place (s, .directory) =
      if scan.isExcluded s then [] else (d.sourcesBelow scan (place ++ [s])).map (s :: ·) :=
  rfl

theorem sourcesOf_other {node : Node} (h : node ≠ .directory) (d : Disk) (scan : ScanConfig)
    (place : Place) (s : String) :
    d.sourcesOf scan place (s, node) = if scan.isScanned s then [[s]] else [] := by
  cases node with
  | directory => exact absurd rfl h
  | _ => rfl

theorem mem_sourcesOf {s : String} {node : Node} {names : Place} :
    names ∈ d.sourcesOf scan place (s, node) ↔
      (node = .directory ∧ scan.isExcluded s = false ∧
        ∃ rest ∈ d.sourcesBelow scan (place ++ [s]), s :: rest = names) ∨
      (node ≠ .directory ∧ scan.isScanned s = true ∧ names = [s]) := by
  by_cases hDirectory : node = .directory
  · rw [hDirectory, sourcesOf_directory]
    cases scan.isExcluded s <;> simp
  · rw [sourcesOf_other hDirectory]
    cases scan.isScanned s <;> simp [hDirectory]

theorem head?_of_mem_sourcesOf {entry : String × Node} {names : Place}
    (h : names ∈ d.sourcesOf scan place entry) : names.head? = some entry.1 := by
  rcases mem_sourcesOf.mp h with ⟨-, -, rest, -, rfl⟩ | ⟨-, -, rfl⟩ <;> rfl

theorem nodup_sourcesOf (h : (d.nodes.map Prod.fst).Nodup) (entry : String × Node) :
    (d.sourcesOf scan place entry).Nodup := by
  obtain ⟨s, node⟩ := entry
  by_cases hDirectory : node = .directory
  · rw [hDirectory, sourcesOf_directory]
    split
    · exact List.nodup_nil
    · exact (nodup_sourcesBelow h scan (place ++ [s])).map List.cons_injective
  · rw [sourcesOf_other hDirectory]
    split
    · exact List.nodup_singleton _
    · exact List.nodup_nil

/-- The sources below a place are those that its entries give. -/
theorem sourcesBelow_perm (h : d.IsLinkedTree) (scan : ScanConfig) (place : Place) :
    (d.sourcesBelow scan place).Perm ((d.entries place).flatMap (d.sourcesOf scan place)) := by
  have hApart : ((d.entries place).flatMap (d.sourcesOf scan place)).Nodup := by
    refine List.nodup_flatMap.mpr ⟨fun entry _ => nodup_sourcesOf h.nodup entry, ?_⟩
    refine (pairwise_entries h.nodup place).imp ?_
    intro a b hne names ha hb
    have hSame := (head?_of_mem_sourcesOf ha).symm.trans (head?_of_mem_sourcesOf hb)
    exact hne (Option.some.inj hSame)
  refine (List.perm_ext_iff_of_nodup (nodup_sourcesBelow h.nodup scan place) hApart).mpr ?_
  intro names
  rw [mem_sourcesBelow, List.mem_flatMap]
  constructor
  · rintro ⟨node, hne, hNode, hSource⟩
    match names with
    | [s] =>
      obtain ⟨hFile, hScanned⟩ := isSource_singleton.mp hSource
      exact ⟨(s, node), mem_entries.mpr hNode, mem_sourcesOf.mpr (.inr ⟨hFile, hScanned, rfl⟩)⟩
    | s :: t :: rest =>
      obtain ⟨hKept, hRest⟩ := (isSource_cons (List.cons_ne_nil t rest)).mp hSource
      rw [List.append_cons] at hNode
      have hThere := (h.node?_eq_some_iff (by simp) node).mpr hNode
      have hDirectory := (h.above hThere).1 (List.cons_ne_nil t rest)
      refine ⟨(s, .directory), mem_entries.mpr ((h.node?_eq_some_iff (by simp) _).mp hDirectory),
        mem_sourcesOf.mpr (.inl ⟨rfl, hKept, t :: rest, ?_, rfl⟩)⟩
      exact mem_sourcesBelow.mpr ⟨node, List.cons_ne_nil t rest, hNode, hRest⟩
  · rintro ⟨⟨s, node⟩, hEntry, hNames⟩
    rcases mem_sourcesOf.mp hNames with ⟨rfl, hKept, rest, hRest, rfl⟩ | ⟨hFile, hScanned, rfl⟩
    · obtain ⟨node, hne, hNode, hSource⟩ := mem_sourcesBelow.mp hRest
      refine ⟨node, List.cons_ne_nil s rest, ?_, (isSource_cons hne).mpr ⟨hKept, hSource⟩⟩
      rwa [List.append_cons]
    · exact ⟨node, List.cons_ne_nil s [], mem_entries.mp hEntry,
        isSource_singleton.mpr ⟨hFile, hScanned⟩⟩

/-! ## What a walk finds -/

section Entries

variable {enter : Path → Place → Option (List Path)} {path : Path} {s : String}
  {listed : List (String × Node)}

theorem walkEntries_directory : walkEntries scan enter path place ((s, .directory) :: listed) =
    if scan.isExcluded s then walkEntries scan enter path place listed
    else
      (enter (path.join ⟨s⟩) (place ++ [s])).bind fun inner =>
        (walkEntries scan enter path place listed).map fun rest => inner ++ rest :=
  rfl

theorem walkEntries_other {node : Node} (h : node ≠ .directory) :
    walkEntries scan enter path place ((s, node) :: listed) =
      if scan.isScanned s then
        (walkEntries scan enter path place listed).map fun rest => path.join ⟨s⟩ :: rest
      else walkEntries scan enter path place listed := by
  cases node with
  | directory => exact absurd rfl h
  | _ => rfl

/-- Where walks of the directories among some entries find the sources below them, so does a walk of
the entries. -/
theorem exists_walkEntries_eq
    (hEnter : ∀ s, (s, .directory) ∈ listed → scan.isExcluded s = false →
      ∃ inner, enter (path.join ⟨s⟩) (place ++ [s]) = some inner ∧
        inner.Perm ((d.sourcesBelow scan (place ++ [s])).map (goOn (path.join ⟨s⟩)))) :
    ∃ found, walkEntries scan enter path place listed = some found ∧
      found.Perm ((listed.flatMap (d.sourcesOf scan place)).map (goOn path)) := by
  induction listed with
  | nil => exact ⟨[], rfl, .nil⟩
  | cons entry listed ih =>
    obtain ⟨s, node⟩ := entry
    obtain ⟨rest, hRest, hPerm⟩ := ih fun s hs => hEnter s (List.mem_cons_of_mem _ hs)
    rw [List.flatMap_cons, List.map_append]
    by_cases hDirectory : node = .directory
    · subst hDirectory
      rw [walkEntries_directory, sourcesOf_directory, hRest]
      cases hExcluded : scan.isExcluded s with
      | true => exact ⟨rest, rfl, hPerm⟩
      | false =>
        obtain ⟨inner, hInner, hInnerPerm⟩ := hEnter s List.mem_cons_self hExcluded
        refine ⟨inner ++ rest, by rw [hInner]; rfl, hInnerPerm.append hPerm |>.trans ?_⟩
        rw [if_neg Bool.false_ne_true, List.map_map]
        rfl
    · rw [walkEntries_other hDirectory, sourcesOf_other hDirectory, hRest]
      cases scan.isScanned s with
      | true => exact ⟨path.join ⟨s⟩ :: rest, rfl, hPerm.cons _⟩
      | false => exact ⟨rest, rfl, hPerm⟩

end Entries

/-- A walk that may go deeper than all that stands below a place ends, and finds the sources below
it. -/
theorem exists_walkWithin_eq (h : d.IsLinkedTree) {listing : Place → List (String × Node)}
    (hListing : ∀ place, (listing place).Perm (d.entries place)) {depth : Nat} (path : Path)
    (hPositive : 0 < depth) (hDepth : ∀ entry ∈ d.below place, entry.1.length < depth) :
    ∃ found, walkWithin listing scan depth path place = some found ∧
      found.Perm ((d.sourcesBelow scan place).map (goOn path)) := by
  induction depth generalizing path place with
  | zero => exact absurd hPositive (Nat.lt_irrefl 0)
  | succ depth ih =>
    have hEnter : ∀ s, (s, .directory) ∈ listing place → scan.isExcluded s = false →
        ∃ inner, walkWithin listing scan depth (path.join ⟨s⟩) (place ++ [s]) = some inner ∧
          inner.Perm ((d.sourcesBelow scan (place ++ [s])).map (goOn (path.join ⟨s⟩))) := by
      intro s hs _
      have hEntry := mem_entries.mp ((hListing place).mem_iff.mp hs)
      have hOne := hDepth _ (mem_below.mpr ⟨List.cons_ne_nil s [], hEntry⟩)
      refine ih _ (Nat.lt_of_succ_lt_succ hOne) ?_
      rintro ⟨names, node⟩ hNames
      obtain ⟨_, hNode⟩ := mem_below.mp hNames
      rw [← List.append_cons] at hNode
      exact Nat.lt_of_succ_lt_succ (hDepth _ (mem_below.mpr ⟨List.cons_ne_nil s names, hNode⟩))
    obtain ⟨found, hFound, hPerm⟩ := exists_walkEntries_eq hEnter
    refine ⟨found, hFound, hPerm.trans (.map _ ?_)⟩
    exact ((hListing place).flatMap_right _).trans (sourcesBelow_perm h scan place).symm

theorem length_le_height {entry : Place × Node} (h : entry ∈ d.nodes) :
    entry.1.length ≤ d.height := by
  rw [height]
  generalize d.nodes = nodes at h
  induction nodes with
  | nil => cases h
  | cons first nodes ih =>
    rw [List.map_cons, List.foldr_cons]
    rcases List.mem_cons.mp h with rfl | hMore
    · exact Nat.le_max_left _ _
    · exact (ih hMore).trans (Nat.le_max_right _ _)

theorem goOn_eq {root : Path} (hRoot : root.text ≠ "") {names : Place} (hne : names ≠ [])
    (h : ∀ s ∈ names, IsName s) : goOn root names = pathBelow root names := by
  induction names using List.reverseRecOn with
  | nil => exact absurd rfl hne
  | append_singleton front s ih =>
    obtain ⟨hFront, hLast⟩ := List.forall_mem_append.mp h
    rw [goOn, List.foldl_append, List.foldl_cons, List.foldl_nil, ← goOn]
    by_cases hNil : front = []
    · rw [hNil]
      rfl
    · rw [ih hNil hFront]
      exact Path.join_join hRoot hNil hFront (hLast s List.mem_cons_self)

/-! ## What is discovered -/

/-- Names lead through directories of which none is excluded, and a scanned name follows. -/
structure Reaches (d : Disk) (scan : ScanConfig) (base front : Place) (s : String) : Prop where
  directory : d.node? (base ++ front) = some .directory
  kept : ∀ dir ∈ front, scan.isExcluded dir = false
  scanned : scan.isScanned s = true

/-- A path below a root has a scanned name, can be read as a file, and goes through no directory
that is excluded and through no link. -/
def IsToProcess (d : Disk) (scan : ScanConfig) (root : Path) (base : Place) (p : Path) : Prop :=
  ∃ front s, p = pathBelow root (front ++ [s]) ∧ (∀ name ∈ front ++ [s], IsName name) ∧
    scan.isScanned s = true ∧ d.isFile p = true ∧
    (∀ dir ∈ front, scan.isExcluded dir = false) ∧ d.Unlinked base front

section Discovered

variable {root : Path} {base : Place}

theorem map_sourcesBelow (d : Disk) (scan : ScanConfig) (root : Path) (base : Place) :
    (d.sourcesBelow scan base).map (pathBelow root) =
      ((d.below base).filter (isSource scan)).map fun e => pathBelow root e.1 :=
  List.map_map

theorem mem_sourcesBelow_iff (h : d.IsLinkedTree) {names : Place} :
    names ∈ d.sourcesBelow scan base ↔ ∃ front s node, names = front ++ [s] ∧
      d.Reaches scan base front s ∧ d.node? (base ++ front ++ [s]) = some node ∧
      node ≠ .directory := by
  rw [mem_sourcesBelow]
  constructor
  · rintro ⟨node, hne, hNode, hSource⟩
    obtain ⟨front, s, rfl⟩ := (List.eq_nil_or_concat' names).resolve_left hne
    obtain ⟨hFile, hKept, hScanned⟩ := isSource_concat.mp hSource
    have hThere := (h.node?_eq_some_iff (by simp) node).mpr hNode
    rw [← List.append_assoc] at hThere
    have hFront := (h.parent hThere).2
    exact ⟨front, s, node, rfl, ⟨hFront, hKept, hScanned⟩, hThere, hFile⟩
  · rintro ⟨front, s, node, rfl, hReaches, hThere, hFile⟩
    refine ⟨node, List.concat_ne_nil s front, ?_,
      isSource_concat.mpr ⟨hFile, hReaches.kept, hReaches.scanned⟩⟩
    rw [← List.append_assoc]
    exact (h.node?_eq_some_iff (by simp) node).mp hThere

theorem mem_map_sourcesBelow_iff (h : d.IsLinkedTree) {p : Path} :
    p ∈ (d.sourcesBelow scan base).map (pathBelow root) ↔ ∃ front s node,
      d.Reaches scan base front s ∧ d.node? (base ++ front ++ [s]) = some node ∧
        node ≠ .directory ∧ p = pathBelow root (front ++ [s]) := by
  rw [List.mem_map]
  constructor
  · rintro ⟨names, hNames, rfl⟩
    obtain ⟨front, s, node, rfl, hReaches, hThere, hOther⟩ := (mem_sourcesBelow_iff h).mp hNames
    exact ⟨front, s, node, hReaches, hThere, hOther, rfl⟩
  · rintro ⟨front, s, node, hReaches, hThere, hOther, rfl⟩
    exact ⟨_, (mem_sourcesBelow_iff h).mpr ⟨front, s, node, rfl, hReaches, hThere, hOther⟩, rfl⟩

theorem isName_of_mem_sourcesBelow (h : d.IsLinkedTree) {names : Place}
    (hNames : names ∈ d.sourcesBelow scan base) : names ≠ [] ∧ ∀ s ∈ names, IsName s := by
  obtain ⟨node, hne, hNode, _⟩ := mem_sourcesBelow.mp hNames
  have hThere := (h.node?_eq_some_iff (by simp [hne]) node).mpr hNode
  exact ⟨hne, (h.above hThere).2⟩

theorem Reaches.unlinked (h : d.IsLinkedTree) {front : Place} {s : String}
    (hReaches : d.Reaches scan base front s) : d.Unlinked base front := by
  rintro parents ⟨back, rfl⟩ _ target hLink
  have hDirectory := hReaches.directory
  by_cases hNil : back = []
  · rw [hNil, List.append_nil, hLink] at hDirectory
    cases hDirectory
  · rw [← List.append_assoc] at hDirectory
    have hAbove := (h.above hDirectory).1 hNil
    rw [hLink] at hAbove
    cases hAbove

theorem nodup_components (h : d.IsLinkedTree) (hText : root.text ≠ "") :
    (((d.sourcesBelow scan base).map (pathBelow root)).map Path.components).Nodup := by
  -- The key of a path is a function of its components.
  have hKey : Path.fileKey root = (fun steps => Text.join "/"
      (((Path.below? root.components steps).getD steps).map Path.Component.text)) ∘
        Path.components := rfl
  have hKeys := h.isNamed.keys_nodup hText scan base
  rw [hKey, ← List.map_map] at hKeys
  rw [map_sourcesBelow]
  exact hKeys.of_map

/-- What is to be processed are the sources below the root that can be read as files. -/
theorem isToProcess_iff (h : d.IsLinkedTree) (hRoot : d.locate root = .ok base)
    (hBase : d.node? base = some .directory) {p : Path} :
    d.IsToProcess scan root base p ↔
      p ∈ (d.sourcesBelow scan base).map (pathBelow root) ∧ d.isFile p = true := by
  rw [mem_map_sourcesBelow_iff h]
  constructor
  · rintro ⟨front, s, rfl, hNames, hScanned, hFile, hKept, hFree⟩
    obtain ⟨hFront, node, hThere, hOther⟩ := stands_of_isFile hRoot hBase hNames hFree hFile
    exact ⟨⟨front, s, node, ⟨hFront, hKept, hScanned⟩, hThere, hOther, rfl⟩, hFile⟩
  · rintro ⟨⟨front, s, node, hReaches, hThere, _, rfl⟩, hFile⟩
    rw [List.append_assoc] at hThere
    exact ⟨front, s, rfl, (h.above hThere).2, hReaches.scanned, hFile, hReaches.kept,
      hReaches.unlinked h⟩

/-- All sources below the root are to be processed exactly if every link among them leads to a
file. -/
theorem forall_isToProcess_iff (h : d.IsLinkedTree) (hRoot : d.locate root = .ok base)
    (hBase : d.node? base = some .directory) :
    (∀ p, p ∈ (d.sourcesBelow scan base).map (pathBelow root) ↔ d.IsToProcess scan root base p) ↔
      ∀ front s target, d.Reaches scan base front s →
        d.node? (base ++ front ++ [s]) = some (.link target) →
        d.isFile (pathBelow root (front ++ [s])) = true := by
  constructor
  · intro hAll front s target hReaches hLink
    have hMember := (hAll (pathBelow root (front ++ [s]))).mp
      ((mem_map_sourcesBelow_iff h).mpr ⟨front, s, _, hReaches, hLink, by simp, rfl⟩)
    exact ((isToProcess_iff h hRoot hBase).mp hMember).2
  · intro hLinks p
    rw [isToProcess_iff h hRoot hBase]
    refine ⟨fun hp => ⟨hp, ?_⟩, fun hp => hp.1⟩
    obtain ⟨front, s, node, hReaches, hThere, hOther, rfl⟩ := (mem_map_sourcesBelow_iff h).mp hp
    cases node with
    | file content => exact isFile_of_file h hRoot hBase hThere
    | directory => exact absurd rfl hOther
    | link target => exact hLinks front s target hReaches hThere

/-- Whatever the order in which directories are listed, a walk ends, and what it found is the same
when it is sorted. -/
theorem exists_walkWithin_mergeSort_eq (h : d.IsLinkedTree) (hText : root.text ≠ "")
    {listing : Place → List (String × Node)}
    (hListing : ∀ place, (listing place).Perm (d.entries place)) {depth : Nat}
    (hDepth : d.height < depth) :
    ∃ found, walkWithin listing scan depth root base = some found ∧
      found.mergeSort Path.before =
        ((d.sourcesBelow scan base).map (pathBelow root)).mergeSort Path.before := by
  have hShort : ∀ entry ∈ d.below base, entry.1.length < depth := by
    rintro ⟨names, node⟩ hEntry
    have hLength := length_le_height (mem_below.mp hEntry).2
    rw [List.length_append] at hLength
    exact Nat.lt_of_le_of_lt (Nat.le_of_add_left_le hLength) hDepth
  obtain ⟨found, hFound, hPerm⟩ := exists_walkWithin_eq h hListing root
    (Nat.zero_lt_of_lt hDepth) hShort
  have hSame : (d.sourcesBelow scan base).map (goOn root) =
      (d.sourcesBelow scan base).map (pathBelow root) := by
    refine List.map_congr_left fun names hNames => ?_
    obtain ⟨hne, hIs⟩ := isName_of_mem_sourcesBelow h hNames
    exact goOn_eq hText hne hIs
  rw [hSame] at hPerm
  have hApart := (hPerm.map Path.components).nodup_iff.mpr (nodup_components h hText)
  exact ⟨found, hFound, Path.mergeSort_eq_of_perm hPerm hApart⟩

/-- Below a root that leads to a directory, whatever links there are, all that is no directory, has
a scanned name and stands in directories of which none is excluded is discovered, in the order of
the paths. Walks that list directories in any order end and find the same. Those of the files that
can be read are the ones to process, so all of them are to process exactly if every link among them
leads to a file. -/
theorem exists_discover_eq (h : d.IsLinkedTree) (hRoot : d.locate root = .ok base)
    (hBase : d.node? base = some .directory) (scan : ScanConfig) :
    ∃ files, d.discover root scan = .ok files ∧ files.Pairwise Path.Precedes ∧
      (∀ p, p ∈ files ↔ ∃ front s node, d.Reaches scan base front s ∧
        d.node? (base ++ front ++ [s]) = some node ∧ node ≠ .directory ∧
        p = pathBelow root (front ++ [s])) ∧
      (∀ listing, (∀ place, (listing place).Perm (d.entries place)) → ∀ depth, d.height < depth →
        ∃ found, walkWithin listing scan depth root base = some found ∧
          found.mergeSort Path.before = files) ∧
      (∀ p, d.IsToProcess scan root base p ↔ p ∈ files ∧ d.isFile p = true) ∧
      ((∀ p, p ∈ files ↔ d.IsToProcess scan root base p) ↔
        ∀ front s target, d.Reaches scan base front s →
          d.node? (base ++ front ++ [s]) = some (.link target) →
          d.isFile (pathBelow root (front ++ [s])) = true) := by
  have hText := text_ne_of_locate hRoot
  have hDiscover : d.discover root scan =
      .ok (((d.sourcesBelow scan base).map (pathBelow root)).mergeSort Path.before) := by
    rw [discover, hRoot]
    dsimp only
    rw [hBase, ← map_sourcesBelow]
  refine ⟨_, hDiscover, Path.pairwise_mergeSort (nodup_components h hText), ?_, ?_, ?_, ?_⟩
  · intro p
    rw [List.mem_mergeSort]
    exact mem_map_sourcesBelow_iff h
  · intro listing hListing depth hDepth
    exact exists_walkWithin_mergeSort_eq h hText hListing hDepth
  · intro p
    rw [List.mem_mergeSort]
    exact isToProcess_iff h hRoot hBase
  · simp only [List.mem_mergeSort]
    exact forall_isToProcess_iff h hRoot hBase

/-- A directory with a page in it and with a link to the directory itself, under the name of a
page. -/
def linkedDisk : Disk :=
  ⟨[(["src"], .directory), (["src", "a.html"], .file .empty), (["src", "x.html"], .link ⟨"/src"⟩)],
    []⟩

theorem outcome_linkedDisk : linkedDisk.IsLinkedTree ∧ linkedDisk.locate ⟨"src"⟩ = .ok ["src"] ∧
    linkedDisk.node? ["src"] = some .directory ∧
    linkedDisk.discover ⟨"src"⟩ {} = .ok [⟨"src/a.html"⟩, ⟨"src/x.html"⟩] ∧
    linkedDisk.isFile ⟨"src/a.html"⟩ = true ∧ linkedDisk.isFile ⟨"src/x.html"⟩ = false := by
  have hRoot : linkedDisk.locate ⟨"src"⟩ = .ok ["src"] := by decide +kernel
  have hDiscover : linkedDisk.discover ⟨"src"⟩ {} = .ok [⟨"src/a.html"⟩, ⟨"src/x.html"⟩] :=
    discover_eq hRoot (by decide +kernel) (by decide +kernel) (by decide +kernel)
  exact ⟨by decide +kernel, hRoot, by decide +kernel, hDiscover, by decide +kernel,
    by decide +kernel⟩

theorem discover_linkedDisk : linkedDisk.IsLinkedTree ∧
    linkedDisk.locate ⟨"src"⟩ = .ok ["src"] ∧ linkedDisk.node? ["src"] = some .directory ∧
    linkedDisk.height = 2 ∧ ∃ files, linkedDisk.discover ⟨"src"⟩ {} = .ok files ∧
      (∃ found, walkWithin linkedDisk.entries {} 3 ⟨"src"⟩ ["src"] = some found ∧
        found.mergeSort Path.before = files) ∧
      linkedDisk.IsToProcess {} ⟨"src"⟩ ["src"] ⟨"src/a.html"⟩ ∧
      ⟨"src/x.html"⟩ ∈ files ∧ ¬ linkedDisk.IsToProcess {} ⟨"src"⟩ ["src"] ⟨"src/x.html"⟩ := by
  obtain ⟨hTree, hRoot, hBase, hFiles, hPage, hLink⟩ := outcome_linkedDisk
  obtain ⟨files, hDiscover, _, _, hWalks, hToProcess, _⟩ := exists_discover_eq hTree hRoot hBase {}
  obtain rfl := Except.ok.inj (hFiles.symm.trans hDiscover)
  refine ⟨hTree, hRoot, hBase, rfl, _, hDiscover, ?_, ?_, by simp, ?_⟩
  · exact hWalks linkedDisk.entries (fun _ => .rfl) 3 (by decide)
  · exact (hToProcess _).mpr ⟨by simp, hPage⟩
  · intro hThere
    rw [((hToProcess _).mp hThere).2] at hLink
    cases hLink

/-- A link to a directory is discovered like a file. -/
theorem not_forall_mem_discover_iff : ¬ ∀ (d : Disk) (root : Path) (base : Place)
    (scan : ScanConfig) (files : List Path), d.IsLinkedTree → d.locate root = .ok base →
      d.node? base = some .directory → d.discover root scan = .ok files →
      ∀ p, p ∈ files ↔ d.IsToProcess scan root base p := by
  intro hAll
  obtain ⟨hTree, hRoot, hBase, hFiles, _, hLink⟩ := outcome_linkedDisk
  obtain ⟨_, _, _, _, _, hFile, _⟩ :=
    (hAll linkedDisk ⟨"src"⟩ ["src"] {} _ hTree hRoot hBase hFiles ⟨"src/x.html"⟩).mp (by simp)
  rw [hFile] at hLink
  cases hLink

end Discovered

end ClassCollapse.Disk
