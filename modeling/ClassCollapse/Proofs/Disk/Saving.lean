import ClassCollapse.Proofs.Disk.Locate

/-!
# Saving in a tree

Making directories and writing keep a tree, its directories and its files. A content that was saved
can be read, and saving it again changes nothing at all.
-/

namespace ClassCollapse.Disk

variable {d d' d'' : Disk} {p : Path}

/-! ## Keeping a tree -/

theorem isTree_put (hTree : d.IsTree) {parent : Place} {s : String} {node : Node}
    (hParent : d.node? parent = some .directory) (hName : IsName s)
    (hFree : d.node? (parent ++ [s]) ≠ some .directory) (hLink : ∀ target, node ≠ .link target) :
    (d.put (parent ++ [s]) node).IsTree := by
  have hDirectory : ∀ place, d.node? place = some .directory →
      (d.put (parent ++ [s]) node).node? place = some .directory := by
    intro place hPlace
    rw [node?_put d (by simp), if_neg]
    · exact hPlace
    · rintro rfl
      exact hFree hPlace
  constructor
  · rw [put, List.map_cons, List.nodup_cons]
    constructor
    · intro hMem
      obtain ⟨entry, hEntry, hSame⟩ := List.mem_map.mp hMem
      have hOther := List.of_mem_filter hEntry
      exact of_decide_eq_true hOther hSame
    · exact hTree.nodup.sublist (List.filter_sublist.map _)
  · intro entry hEntry
    rcases List.mem_cons.mp hEntry with rfl | hOld
    · exact ⟨parent, s, rfl, hName, hDirectory parent hParent⟩
    · obtain ⟨front, last, hSame, hLast, hFront⟩ := hTree.stands entry (List.mem_of_mem_filter hOld)
      exact ⟨front, last, hSame, hLast, hDirectory front hFront⟩
  · intro place target hMem
    rcases List.mem_cons.mp hMem with hNew | hOld
    · exact hLink target (Prod.mk.inj hNew).2.symm
    · exact hTree.noLinks place target (List.mem_of_mem_filter hOld)
  · exact hDirectory _ hTree.working

/-- A disk on which what was a directory or a file still is one. -/
structure Keeps (d d' : Disk) : Prop where
  workingDirectory_eq : d'.workingDirectory = d.workingDirectory
  directory : ∀ place, d.node? place = some .directory → d'.node? place = some .directory
  file : ∀ place, d.fileAt? place ≠ none → d'.fileAt? place ≠ none

theorem Keeps.refl (d : Disk) : Keeps d d :=
  ⟨rfl, fun _ h => h, fun _ h => h⟩

theorem Keeps.trans (h : Keeps d d') (h' : Keeps d' d'') : Keeps d d'' where
  workingDirectory_eq := h'.workingDirectory_eq.trans h.workingDirectory_eq
  directory place hPlace := h'.directory place (h.directory place hPlace)
  file place hPlace := h'.file place (h.file place hPlace)

theorem Grown.keeps (h : Grown d d') : Keeps d d' where
  workingDirectory_eq := h.workingDirectory_eq
  directory place hPlace := by
    rcases h.node?_eq place with hSame | ⟨hNone, _⟩
    · rw [hSame, hPlace]
    · rw [hPlace] at hNone
      cases hNone
  file place hPlace := by rwa [h.fileAt?_eq place]

theorem keeps_put_file {place : Place} (hPlace : place ≠ [])
    (hFree : d.node? place ≠ some .directory) (content : ByteArray) :
    Keeps d (d.put place (.file content)) where
  workingDirectory_eq := rfl
  directory other hOther := by
    rw [node?_put d hPlace, if_neg]
    · exact hOther
    · rintro rfl
      exact hFree hOther
  file other hOther := by
    rw [fileAt?, node?_put d hPlace]
    by_cases hSame : other = place
    · rw [if_pos hSame]
      exact Option.some_ne_none _
    · rw [if_neg hSame]
      exact hOther

theorem Keeps.walk?_eq (h : Keeps d d') {place target : Place} {steps : List Path.Step}
    (hWalk : d.walk? place steps = some target) : d'.walk? place steps = some target := by
  induction steps generalizing place with
  | nil => exact hWalk
  | cons step steps ih =>
    cases step with
    | name s =>
      rw [walk?] at hWalk
      split at hWalk
      next hNode =>
        rw [walk?, h.directory _ hNode]
        exact ih hWalk
      next => cases hWalk
    | _ => exact ih hWalk

theorem Keeps.names (h : Keeps d d') {place : Place} (hNames : d.Names p place) :
    d'.Names p place := by
  obtain ⟨init, parent, s, hWay, hWalk, hPlace⟩ := hNames
  refine ⟨init, parent, s, hWay, ?_, hPlace⟩
  rw [h.workingDirectory_eq]
  exact h.walk?_eq hWalk

theorem Keeps.leadsTo (h : Keeps d d') {place : Place} (hLeads : d.LeadsTo p place) :
    d'.LeadsTo p place := by
  refine ⟨hLeads.text_ne, ?_⟩
  rw [h.workingDirectory_eq]
  exact h.walk?_eq hLeads.walk?_eq

theorem Keeps.isDirectory (h : Keeps d d') (hTree : d.IsTree) (hTree' : d'.IsTree)
    (hDirectory : d.isDirectory p = true) : d'.isDirectory p = true := by
  obtain ⟨place, hLeads⟩ := (isDirectory_iff hTree).mp hDirectory
  exact (isDirectory_iff hTree').mpr ⟨place, h.leadsTo hLeads⟩

/-! ## Making directories -/

/-- A path led nowhere and leads to a new directory, which is all that is new. -/
structure Made (d : Disk) (p : Path) (d' : Disk) (parent : Place) (s : String) : Prop where
  missing : d.walk? d.workingDirectory p.way = none
  parent_eq : d.node? parent = some .directory
  isName : IsName s
  free : d.node? (parent ++ [s]) = none
  disk_eq : d' = d.put (parent ++ [s]) .directory
  leadsTo : d'.LeadsTo p (parent ++ [s])

theorem made_of_makeDirectory (hTree : d.IsTree) (h : d.makeDirectory p = .ok d') :
    ∃ parent s, d.Made p d' parent s := by
  rw [makeDirectory] at h
  split at h
  · cases h
  next last hLast =>
  split at h
  · cases h
  next parent hFollow =>
  split at h
  next s =>
    split at h
    · cases h
    next hFree =>
      cases h
      have hNone : d.node? (parent ++ [s]) = none := by simpa using hFree
      have hSteps : p.way.filter (· ≠ .slash) =
          (p.way.filter (· ≠ .slash)).dropLast ++ [.name s] := by
        obtain ⟨front, hFront⟩ := List.getLast?_eq_some_iff.mp hLast
        rw [hFront, List.dropLast_concat]
      have hName : IsName s := by
        apply Path.isName_of_mem_way (p := p)
        exact List.mem_of_mem_filter (List.mem_of_getLast? hLast)
      generalize (p.way.filter (· ≠ .slash)).dropLast = init at hFollow hSteps
      -- The way above the new directory ends in a step that is no name.
      obtain ⟨onLink, hOnLink⟩ := d.follow_eq_advance false maxLinks
      have hWalk : d.walk? d.workingDirectory init = some parent := by
        rw [hOnLink] at hFollow
        rcases advance_eq_ok hTree hFollow with hAll | ⟨front, last, _, hWay, _⟩
        · rw [walk?_append] at hAll
          obtain ⟨place, hInit, hHere⟩ := Option.bind_eq_some_iff.mp hAll
          rw [hInit]
          exact hHere
        · have hEnd := congrArg List.getLast? hWay
          simp at hEnd
      have hParent := hTree.directory_of_walk? hTree.working hWalk
      have hGrown := grown_put hNone
      have hText : p.text ≠ "" := by
        apply text_ne_of_way
        intro hNil
        simp [hNil] at hSteps
      refine ⟨parent, s, ?_, hParent, hName, hNone, rfl, hText, ?_⟩
      · rw [← walk?_filter_slash, hSteps, walk?_append, hWalk, Option.bind_some, walk?, hNone]
      · rw [← walk?_filter_slash, hSteps, walk?_append, hGrown.workingDirectory_eq,
          hGrown.keeps.walk?_eq hWalk, Option.bind_some, walk?, node?_put d (by simp),
          if_pos rfl]
        rfl
  next => cases h

theorem isTree_makeDirectory (hTree : d.IsTree) (h : d.makeDirectory p = .ok d') :
    d'.IsTree := by
  obtain ⟨parent, s, hMade⟩ := made_of_makeDirectory hTree h
  rw [hMade.disk_eq]
  exact isTree_put hTree hMade.parent_eq hMade.isName (by simp [hMade.free]) (by simp)

theorem isTree_ensureDirectory (hTree : d.IsTree) (p : Path) : (d.ensureDirectory p).2.IsTree :=
  ensureDirectory_induction (R := fun d d' => d.IsTree → d'.IsTree) (fun _ h => h)
    (fun hMake h => isTree_makeDirectory h hMake) d p hTree

theorem isTree_makeWithin (hTree : d.IsTree) (p : Path) (depth : Nat) :
    (makeWithin p depth d).2.IsTree :=
  makeWithin_induction (R := fun d d' => d.IsTree → d'.IsTree) (fun _ h => h)
    (fun h h' hd => h' (h hd)) (fun hMake h => isTree_makeDirectory h hMake) p depth d hTree

theorem isTree_makeParent (hTree : d.IsTree) (p : Path) : (d.makeParent p).2.IsTree :=
  makeParent_induction (R := fun d d' => d.IsTree → d'.IsTree) (fun _ h => h)
    (fun h h' hd => h' (h hd)) (fun hMake h => isTree_makeDirectory h hMake) d p hTree

theorem isDirectory_ensureDirectory (hTree : d.IsTree) (h : (d.ensureDirectory p).1 = .ok ()) :
    (d.ensureDirectory p).2.isDirectory p = true := by
  have hTree' := isTree_ensureDirectory hTree p
  revert h hTree'
  rw [ensureDirectory]
  split
  next made hMade =>
    intro _ hTree'
    obtain ⟨parent, s, hNew⟩ := made_of_makeDirectory hTree hMade
    exact (isDirectory_iff hTree').mpr ⟨_, hNew.leadsTo⟩
  next =>
    intro h _
    dsimp only at h ⊢
    split at h
    next hDirectory => exact hDirectory
    next => cases h

theorem ensureDirectory_of_isDirectory (hTree : d.IsTree) (h : d.isDirectory p = true) :
    d.ensureDirectory p = (.ok (), d) := by
  rw [ensureDirectory]
  split
  next made hMade =>
    obtain ⟨parent, s, hNew⟩ := made_of_makeDirectory hTree hMade
    obtain ⟨place, hLeads⟩ := (isDirectory_iff hTree).mp h
    have hNone := hNew.missing
    rw [hLeads.walk?_eq] at hNone
    cases hNone
  next => rw [if_pos h]

theorem isDirectory_makeWithin (hTree : d.IsTree) (depth : Nat)
    (h : (makeWithin p depth d).1 = .ok ()) :
    p.text = "" ∨ (makeWithin p depth d).2.isDirectory p = true := by
  cases depth with
  | zero => exact .inr (isDirectory_ensureDirectory hTree h)
  | succ depth =>
    by_cases hText : p.text = ""
    · exact .inl hText
    right
    have hEnsure := isDirectory_ensureDirectory (p := p) hTree
    have hTree₁ := isTree_ensureDirectory hTree p
    revert h
    rw [makeWithin, if_neg (by simpa using hText)]
    split
    next d₁ hMissing =>
      rw [hMissing] at hTree₁
      split
      · intro h
        cases h
      next parent hParent =>
        have hTree₂ := isTree_makeWithin hTree₁ parent depth
        split
        · intro h
          cases h
        next d₂ hMade =>
          rw [hMade] at hTree₂
          intro h
          exact isDirectory_ensureDirectory hTree₂ h
    next => exact hEnsure

/-- A directory that a file is in need not be made again. -/
theorem makeParent_of_makeParent (hTree : d.IsTree) (h : d.makeParent p = (.ok (), d'))
    (hKeeps : Keeps d' d'') (hTree'' : d''.IsTree) : d''.makeParent p = (.ok (), d'') := by
  have hTree' := isTree_makeParent hTree p
  rw [h] at hTree'
  rw [makeParent] at h ⊢
  cases hParent : p.parent? with
  | none => rfl
  | some parent =>
    simp only [hParent] at h
    have hMade : d.makeDirectories parent = (.ok (), d') := by
      cases hMake : d.makeDirectories parent with
      | mk result made =>
      rw [hMake] at h
      cases result with
      | error cause => cases h
      | ok _ =>
        cases h
        rfl
    have hThere := isDirectory_makeWithin (p := parent) hTree (parent.components.length + 1)
    rw [makeDirectories] at hMade
    rw [hMade] at hThere
    have hAgain : d''.makeDirectories parent = (.ok (), d'') := by
      rw [makeDirectories, makeWithin]
      by_cases hText : parent.text = ""
      · rw [if_pos (by simpa using hText)]
      · have hDirectory := hKeeps.isDirectory hTree' hTree'' ((hThere rfl).resolve_left hText)
        rw [if_neg (by simpa using hText), ensureDirectory_of_isDirectory hTree'' hDirectory]
    dsimp only
    rw [hAgain]
    rfl

/-! ## Saving -/

/-- A path names a file that a content was saved to, and no other file is different. -/
structure Saved (d : Disk) (p : Path) (content : ByteArray) (d' : Disk) (place : Place) : Prop where
  isTree : d'.IsTree
  keeps : Keeps d d'
  names : d'.Names p place
  node?_eq : d'.node? place = some (.file content)
  fileAt?_eq : ∀ other, d'.fileAt? other = if other = place then some content else d.fileAt? other
  again : d'.save p content = (.ok (), d')

theorem write_eq_ok_of_isTree (hTree : d.IsTree) {content : ByteArray}
    (h : d.write p content = .ok d') :
    ∃ place, d.Names p place ∧ d.node? place ≠ some .directory ∧
      d' = d.put place (.file content) := by
  rw [write] at h
  split at h
  · cases h
  next place hPlace =>
    have hFollow : d.follow true maxLinks d.workingDirectory p.way = .ok place := by
      rw [locateTarget] at hPlace
      split at hPlace
      · cases hPlace
      next => exact hPlace
    split at h
    · cases h
    next hNode =>
      cases h
      exact ⟨place, names_of_follow hTree hFollow hNode, hNode, rfl⟩

theorem put_put (d : Disk) (place : Place) (node : Node) :
    (d.put place node).put place node = d.put place node := by
  have hFilter : ((place, node) :: d.nodes.filter (·.1 ≠ place)).filter (·.1 ≠ place) =
      d.nodes.filter (·.1 ≠ place) := by
    rw [List.filter_cons_of_neg (by simp), List.filter_filter]
    simp
  rw [put, put]
  dsimp only
  rw [hFilter]

theorem saved_of_save (hTree : d.IsTree) {content : ByteArray}
    (h : d.save p content = (.ok (), d')) : ∃ place, d.Saved p content d' place := by
  have hGrown := grown_makeParent d p
  have hTree₁ := isTree_makeParent hTree p
  rw [save] at h
  cases hMake : d.makeParent p with
  | mk result d₁ =>
  rw [hMake] at h hGrown hTree₁
  cases result with
  | error e => cases h
  | ok _ =>
    dsimp only at h hGrown hTree₁
    cases hWrite : d₁.write p content with
    | error cause =>
      rw [hWrite] at h
      cases h
    | ok written =>
      rw [hWrite] at h
      cases h
      obtain ⟨place, hNames, hFree, hPut⟩ := write_eq_ok_of_isTree hTree₁ hWrite
      have hKeeps : Keeps d₁ d' := hPut ▸ keeps_put_file hNames.place_ne_nil hFree content
      have hNode : d'.node? place = some (.file content) := by
        rw [hPut, node?_put d₁ hNames.place_ne_nil, if_pos rfl]
      have hTree' : d'.IsTree := by
        obtain ⟨parent, s, rfl, hName, hParent⟩ := hNames.exists_parent hTree₁
        rw [hPut]
        exact isTree_put hTree₁ hParent hName hFree (by simp)
      refine ⟨place, hTree', hGrown.keeps.trans hKeeps, hKeeps.names hNames, hNode, ?_, ?_⟩
      · intro other
        rw [← hGrown.fileAt?_eq other, fileAt?, hPut, node?_put d₁ hNames.place_ne_nil]
        by_cases hSame : other = place
        · rw [if_pos hSame, if_pos hSame]
        · rw [if_neg hSame, if_neg hSame]
          rfl
      · have hTarget := (hKeeps.names hNames).locateTarget_eq hTree' (by simp [hNode])
        rw [save, makeParent_of_makeParent hTree hMake hKeeps hTree']
        dsimp only
        rw [write, hTarget]
        dsimp only
        rw [hNode]
        dsimp only
        rw [hPut, put_put]

end ClassCollapse.Disk
