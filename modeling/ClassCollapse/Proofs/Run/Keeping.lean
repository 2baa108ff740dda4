import ClassCollapse.Proofs.Run.Recording
import ClassCollapse.Proofs.Run.Sharing

/-!
# Sheets keep their rules

After a run in a tree a companion sheet starts with what it was before, up to blanks at its end, and
holds the rules of every file that the run has rewritten beside it. Different sheets of discovered
files stand at different places, so no sheet is written over another one.
-/

namespace ClassCollapse

namespace Disk

variable {d : Disk} {root : Path} {scan : ScanConfig} {base names names' : Place}

theorem eq_of_ofPart {part s : String} (h : Path.Step.ofPart part = .name s) : part = s := by
  rw [Path.Step.ofPart] at h
  split at h
  · cases h
  · split at h
    · cases h
    · exact Path.Step.name.inj h

/-- The companion of a file below a root has a name of its own in the folder of the file, both as a
path and as a place. -/
theorem exists_companion_below (hTree : d.IsTree) (hRoot : d.LeadsTo root base)
    (hSource : d.IsSourceAt scan base names) {placement : Placement}
    (hPlacement : Placement.forPath? (pathBelow root names) = some placement) :
    ∃ last, Placement.companionPath (pathBelow root names) =
        .ofParts root.isAbsolute (root.leadingParts ++ names.dropLast ++ [last]) ∧
      ∀ place, d.Names (Placement.companionPath (pathBelow root names)) place →
        place = base ++ names.dropLast ++ [last] := by
  obtain ⟨front, s, rfl⟩ := (List.eq_nil_or_concat' names).resolve_left hSource.names_ne_nil
  have hName : IsName s := hSource.isName hTree s (by simp)
  obtain ⟨hAbsolute, hParts, _⟩ :=
    Path.parts_join hRoot.text_ne hSource.names_ne_nil (hSource.isName hTree)
  have hFolder : (pathBelow root (front ++ [s])).trimmedParts.dropLast =
      root.leadingParts ++ front := by
    rw [Path.trimmedParts, pathBelow, hParts, ← List.append_assoc,
      Path.trimParts_concat _ _ hName.isStep, List.dropLast_concat]
  obtain ⟨init, parent, s', hWay, hWalk, hPlace⟩ := hSource.pathBelow_names hTree hRoot
  rw [← List.append_assoc] at hPlace
  obtain ⟨hParent, _⟩ := List.append_inj' hPlace rfl
  obtain ⟨last, hPath, hLast⟩ := Placement.exists_companionPath_eq hPlacement
  have hText : last ≠ "" ∧ '/' ∉ last.toList := by
    rcases hLast with rfl | ⟨hIsName, _⟩
    · decide
    · exact ⟨hIsName.nonempty, hIsName.no_slash⟩
  have hBeside := Path.way_ofParts_concat hWay hText.1 hText.2
  rw [← hPath] at hBeside
  refine ⟨last, ?_, ?_⟩
  · rw [hPath, hFolder, List.dropLast_concat]
    exact congrArg (Path.ofParts · _) hAbsolute
  · rintro place ⟨init', parent', s'', hWay', hWalk', rfl⟩
    obtain ⟨rfl, hStep⟩ := List.append_inj' (hBeside.symm.trans hWay') rfl
    rw [hWalk] at hWalk'
    cases hWalk'
    rw [List.dropLast_concat, ← hParent, eq_of_ofPart (List.cons.inj hStep).1]

/-- Companions of files below a root that stand at one place are one path. -/
theorem companionPath_eq_of_names (hTree : d.IsTree) (hRoot : d.LeadsTo root base)
    (hSource : d.IsSourceAt scan base names) (hSource' : d.IsSourceAt scan base names')
    {placement placement' : Placement}
    (hPlacement : Placement.forPath? (pathBelow root names) = some placement)
    (hPlacement' : Placement.forPath? (pathBelow root names') = some placement') {place : Place}
    (h : d.Names (Placement.companionPath (pathBelow root names)) place)
    (h' : d.Names (Placement.companionPath (pathBelow root names')) place) :
    Placement.companionPath (pathBelow root names) =
      Placement.companionPath (pathBelow root names') := by
  obtain ⟨last, hPath, hPlace⟩ := exists_companion_below hTree hRoot hSource hPlacement
  obtain ⟨last', hPath', hPlace'⟩ := exists_companion_below hTree hRoot hSource' hPlacement'
  have hSame := (hPlace place h).symm.trans (hPlace' place h')
  rw [List.append_assoc, List.append_assoc] at hSame
  obtain ⟨hFolder, hLast⟩ := List.append_inj' (List.append_cancel_left hSame) rfl
  rw [hPath, hPath', hFolder, hLast]

theorem Saved.fileAt?_eq_of_apart {d' : Disk} {p q : Path} {content : ByteArray}
    {place stored : Place} (h : d.Saved q content d' stored) (hNames : d'.Names p place)
    (hApart : d'.locate p ≠ d'.locate q) : d'.fileAt? place = d.fileAt? place := by
  rw [h.fileAt?_eq, if_neg]
  rintro rfl
  have hFile : d'.node? place ≠ some .directory := by simp [h.node?_eq]
  exact hApart ((hNames.locate_eq h.isTree hFile).trans (h.names.locate_eq h.isTree hFile).symm)

end Disk

namespace Engine

open Placement WriteBuffer

theorem puts_of_companion {e : Engine} {file : PendingFile} {text : String} {suffix : Nat}
    (h : (e.injection file text suffix).companion ≠ none) :
    file.placement = .companion ∧ e.css file ≠ "" := by
  refine ⟨placement_of_companion h, ?_⟩
  intro hEmpty
  have hBlank : Text.isBlankText (e.css file) = true := by
    rw [hEmpty]
    rfl
  apply h
  unfold injection inject
  rw [← css, if_pos hBlank]

namespace Prepared

variable {d d₁ : Disk} {root : Path} {scan : ScanConfig} {base : Place} {files : List Path}
  {e : Engine} {done : List (PendingFile × Injection)} {out : RunOutput}
  (h : Prepared d root scan base files e done out)
include h

theorem path_of_pending {file : PendingFile} (hFile : file ∈ e.pending) :
    file.path ∈ files ∧ forPath? file.path = some file.placement := by
  obtain ⟨hVisited, _, hPlacement⟩ := h.tracks.waiting file hFile
  exact ⟨hVisited, hPlacement⟩

theorem names_of_mem_files {p : Path} (hp : p ∈ files) : ∃ place, d.Names p place := by
  obtain ⟨names, hSource, hPath⟩ := (h.discovered.mem_iff p).mp hp
  exact ⟨base ++ names, hPath ▸ hSource.pathBelow_names h.isTree h.discovered.leadsTo⟩

/-- A task without a placement is for the companion of a file that puts rules into it. -/
theorem exists_companion_of_task {t : WriteTask} (ht : t ∈ out.writes.tasks)
    (hNone : forPath? t.path = none) :
    ∃ file ∈ e.sharing t.path, t.path = companionPath file.path := by
  have hTasks : out.writes = (done.foldl (settle e.now) (.empty, e.forgetUnseen.2.cache)).1 := by
    rw [h.output_eq]
    rfl
  obtain ⟨x, hx, hThere | ⟨css, hCompanion⟩⟩ := path_of_mem_settled (hTasks ▸ ht)
  · rw [hThere, (h.proper x hx).placement_eq] at hNone
    cases hNone
  · have hThere : t.path = companionPath x.1.path := (h.proper x hx).sheet_eq _ hCompanion
    obtain ⟨text, suffix, _, hInjection⟩ := h.rewritten x hx
    rw [hInjection] at hCompanion
    obtain ⟨hPlacement, hRules⟩ := puts_of_companion (hCompanion ▸ Option.some_ne_none _)
    refine ⟨x.1, mem_sharing_iff.mpr ⟨?_, hPlacement, hRules, ?_⟩, hThere⟩
    · exact h.done_eq ▸ List.mem_map_of_mem hx
    · rw [hThere]
      exact beq_self_eq_true _

variable {p : Path} {placement : Placement} (hPlacement : forPath? p = some placement)
  {place : Place}
include hPlacement

theorem exists_names_sheet (hp : p ∈ files) (hFound : Snapshots d e)
    (hSome : e.sharing (companionPath p) ≠ []) : ∃ place, d.Names (companionPath p) place := by
  obtain ⟨above, hNames⟩ := h.names_of_mem_files hp
  rcases Disk.names_companionPath hNames hPlacement with hSheet | ⟨above, hLeads⟩
  · exact hSheet
  · obtain ⟨file, hFile⟩ := List.exists_mem_of_ne_nil _ hSome
    obtain ⟨hPending, hCompanion, _, hSame⟩ := mem_sharing_iff.mp hFile
    obtain ⟨hOther, hSnapshot⟩ := hFound file hPending
    rw [hCompanion] at hSnapshot
    have hRead := read_companionPath_of_same hOther hPlacement hSame d
    rw [hLeads.read_eq h.isTree] at hRead
    exact absurd hRead (read_of_existingSheet hSnapshot)

theorem names_of_same {t : WriteTask} (ht : t ∈ out.writes.tasks)
    (hSheet : d₁.Names (companionPath p) place) (hSame : t.path.same (companionPath p) = true) :
    d₁.Names t.path place := by
  have hNone : forPath? t.path = none := by
    rw [forPath?_of_fileName?_eq (Path.fileName?_of_same hSame), forPath?_companionPath hPlacement]
  obtain ⟨file, hFile, hThere⟩ := h.exists_companion_of_task ht hNone
  obtain ⟨_, hOther⟩ := h.path_of_pending (mem_sharing_iff.mp hFile).1
  refine hSheet.of_firmWay (Path.firmWay_of_same hSame) ?_
  rw [hThere]
  exact (endsFirm_companionPath hOther).1

variable (hFlushed : Flushed d out.writes.tasks d₁) (hp : p ∈ files)
include hFlushed hp

/-- A task that names the place of a sheet is for the sheet, and a file puts rules into it. -/
theorem path_of_task {t : WriteTask} (ht : t ∈ out.writes.tasks)
    (hSheet : d₁.Names (companionPath p) place) (hTask : d₁.Names t.path place) :
    t.path = companionPath p ∧ e.sharing (companionPath p) ≠ [] := by
  obtain ⟨names, hSource, hPath⟩ := (h.discovered.mem_iff p).mp hp
  have hNone : forPath? t.path = none := by
    rw [← forPath?_of_fileName?_eq (hSheet.fileName?_eq.trans hTask.fileName?_eq.symm),
      forPath?_companionPath hPlacement]
  obtain ⟨file, hFile, hThere⟩ := h.exists_companion_of_task ht hNone
  obtain ⟨hVisited, hOther⟩ := h.path_of_pending (mem_sharing_iff.mp hFile).1
  obtain ⟨names', hSource', hPath'⟩ := (h.discovered.mem_iff _).mp hVisited
  -- Both files lie below the root, where companions at one place are one path.
  have hKeeps := hFlushed.keeps
  have hSame : t.path = companionPath p := by
    rw [hThere] at hTask ⊢
    rw [hPath'] at hTask hOther ⊢
    rw [hPath] at hSheet hPlacement ⊢
    exact Disk.companionPath_eq_of_names hFlushed.isTree (hKeeps.leadsTo h.discovered.leadsTo)
      (hSource'.keeps hKeeps) (hSource.keeps hKeeps) hOther hPlacement hTask hSheet
  exact ⟨hSame, hSame ▸ List.ne_nil_of_mem hFile⟩

theorem fileAt?_sheet (hSheet : d.Names (companionPath p) place) {content : String}
    (hContent : out.writes.contentAt? (companionPath p) = some content) :
    d₁.fileAt? place = some content.toUTF8 := by
  have hSheet₁ := hFlushed.keeps.names hSheet
  have hApart : out.writes.Apart := by
    rw [h.output_eq]
    exact apart_settleAll _ _ _
  obtain ⟨t, ht, hSame, hText⟩ := exists_of_contentAt? hContent
  rcases hFlushed.fileAt?_eq place with ⟨t', ht', hThere, hFile'⟩ | ⟨hNone, _⟩
  · have hTask := hApart.contentAt?_of_mem ht'
    rw [(h.path_of_task hPlacement hFlushed hp ht' hSheet₁ hThere).1, hContent] at hTask
    rw [hFile', Option.some.inj hTask]
  · exact absurd (h.names_of_same hPlacement ht hSheet₁ hSame) (hNone t ht)

theorem fileAt?_sheet_of_sharing_nil (hSheet : d.Names (companionPath p) place)
    (hNone : e.sharing (companionPath p) = []) : d₁.fileAt? place = d.fileAt? place := by
  rcases hFlushed.fileAt?_eq place with ⟨t, ht, hThere, _⟩ | ⟨_, hSame⟩
  · have hTask := h.path_of_task hPlacement hFlushed hp ht (hFlushed.keeps.names hSheet) hThere
    exact absurd hNone hTask.2
  · exact hSame

end Prepared

theorem Ran.readText_sheet {d d₁ d' : Disk} {root : Path} {scan : ScanConfig} {base stored : Place}
    {files : List Path} {e : Engine} {done : List (PendingFile × Injection)} {out : RunOutput}
    (h : Ran d root scan base files e done out d₁ d' stored) {p : Path} (hp : p ∈ files)
    {placement : Placement} (hPlacement : forPath? p = some placement) (hFound : Snapshots d e)
    (hSome : e.sharing (companionPath p) ≠ []) {content : String}
    (hContent : out.writes.contentAt? (companionPath p) = some content)
    (hApart : d'.locate (companionPath p) ≠ d'.locate out.cache.path) :
    d'.readText (companionPath p) = .ok content := by
  obtain ⟨place, hSheet⟩ := h.exists_names_sheet hPlacement hp hFound hSome
  have hSheet' := h.saved.keeps.names (h.flushed.keeps.names hSheet)
  apply hSheet'.readText_eq h.saved.isTree
  rw [← Disk.fileAt?_eq_some_iff, h.saved.fileAt?_eq_of_apart hSheet' hApart]
  exact h.fileAt?_sheet hPlacement h.flushed hp hSheet hContent

/-- After a run over the discovered files of a tree that has succeeded and is no dry run, for each
rewritten component with rules whose sheet is not the cache: the sheet starts with what it was
before, up to blanks at its end, and holds the rules of every rewritten component beside it. -/
theorem readText_sheet_of_run {d d' : Disk} (hTree : d.IsTree) (root cachePath : Path)
    (scan : ScanConfig) (compile : Compiler) (namePrefix : String) (maxInvocations : Nat)
    (strategy : Option NamingStrategy) (names random : RandomSource) (options : RunOptions)
    (now : UInt64) {files : List Path} {report : RunReport}
    (hFiles : d.discover root scan = .ok files) (hReal : options.dryRun = false)
    (hRun : (new root (.load d cachePath) compile
      (.new namePrefix maxInvocations strategy names) options random now).runFiles files d =
        (.ok report, d')) :
    ∃ e, processAll d files (new root (.load d cachePath) compile
        (.new namePrefix maxInvocations strategy names) options random now) = .ok e ∧
      ∀ file ∈ e.pending, file.placement = .companion → e.css file ≠ "" →
        d'.locate (companionPath file.path) ≠ d'.locate cachePath →
        ∃ text, d'.readText (companionPath file.path) = .ok text ∧
          (∀ before, d.readText (companionPath file.path) = .ok before →
            (Text.trimEnd before).toList <+: text.toList) ∧
          ∀ other ∈ e.pending, other.placement = .companion →
            (companionPath other.path).same (companionPath file.path) = true →
            (e.css other).toList <:+: text.toList := by
  obtain ⟨base, hDiscovered⟩ := Disk.discovered_of_discover hTree hFiles
  have hNew := coherent_new root (.load d cachePath) compile options random now
    (NameResolver.sound_new namePrefix maxInvocations strategy names) rfl
  obtain ⟨e, done, out, d₁, stored, hRan, hPath, hAll, _⟩ :=
    ran_of_runFiles hTree hDiscovered hNew (tracks_new _ _ _ _ _ _ _ _) rfl hReal hRun
  have hThere : out.cache.path = cachePath := hPath
  have hFound : Snapshots d e := snapshots_processAll hAll fun file hFile => nomatch hFile
  have hCoherent : Coherent e := visitAll_of_processAll hAll ▸ coherent_visitAll hNew _
  have hLast : Coherent e.forgetUnseen.2 := hCoherent.setCache _
  refine ⟨e, hAll, ?_⟩
  intro file hFile hCompanion hRules hApart
  have hSharing : file ∈ e.sharing (companionPath file.path) :=
    mem_sharing_iff.mpr ⟨hFile, hCompanion, hRules, beq_self_eq_true _⟩
  have hContent := hLast.contentAt?_output hFound hRan.done_eq hRan.rewritten hSharing
  rw [← hRan.output_eq] at hContent
  obtain ⟨hVisited, hPlacement⟩ := hRan.path_of_pending hFile
  have hText : d'.readText (companionPath file.path) = .ok _ :=
    hRan.readText_sheet hVisited hPlacement hFound (List.ne_nil_of_mem hSharing) hContent
      (hThere ▸ hApart)
  refine ⟨_, hText, ?_, ?_⟩
  · intro before hBefore
    have hSnapshot := (hFound file hFile).2
    rw [hCompanion] at hSnapshot
    rcases existingSheet_eq_ok_iff.mp hSnapshot with ⟨text, hText, hSome⟩ | ⟨hMissing, _⟩
    · rw [hText] at hBefore
      cases hBefore
      rw [hSome]
      exact kept_prefix_mergeApart (some before) fun hNil =>
        List.ne_nil_of_mem hSharing (List.map_eq_nil_iff.mp hNil)
    · rw [hMissing] at hBefore
      cases hBefore
  · intro other hOther hOtherCompanion hSame
    by_cases hNone : e.css other = ""
    · rw [hNone]
      exact List.nil_infix
    · have hMember := mem_sharing_iff.mpr ⟨hOther, hOtherCompanion, hNone, hSame⟩
      exact infix_mergeApart _ (List.mem_map_of_mem hMember)

theorem isTree_sharedDisk : sharedDisk.IsTree := by
  decide

theorem evaluated_sharedDisk :
    sharedDisk.locate ⟨"src"⟩ = .ok ["src"] ∧
      ((sharedDisk.below ["src"]).filter (Disk.isSource {})).map
        (fun entry => Disk.pathBelow ⟨"src"⟩ entry.1) = sharedPaths ∧
      (sharedPaths.Pairwise fun p q => p.before q = true) ∧
      companionPath ⟨"src/B.jsx"⟩ = ⟨"src/B.module.css"⟩ ∧
      sharedDisk.readText ⟨"src/B.module.css"⟩ = .ok ".q \x7b\x7d\n" ∧
      (sharedEngine.runFiles sharedPaths sharedDisk).1.toBool = true ∧
      (sharedEngine.runFiles sharedPaths sharedDisk).2.locate ⟨"src/B.module.css"⟩ ≠
        (sharedEngine.runFiles sharedPaths sharedDisk).2.locate ⟨"classfold.lock"⟩ := by
  decide +kernel

theorem discover_sharedDisk : sharedDisk.discover ⟨"src"⟩ {} = .ok sharedPaths := by
  obtain ⟨hLocate, hFound, hSorted, _⟩ := evaluated_sharedDisk
  exact Disk.discover_eq hLocate rfl hFound hSorted

/-- The sheet of two components starts with what it was and holds the rules of both. -/
theorem readText_sheet_sharedDisk :
    ∃ report d' text, sharedEngine.runFiles sharedPaths sharedDisk = (.ok report, d') ∧
      d'.readText ⟨"src/B.module.css"⟩ = .ok text ∧ ".q \x7b\x7d".toList <+: text.toList ∧
      ∀ css ∈ sharedRules, css.toList <:+: text.toList := by
  obtain ⟨_, _, _, hCompanionPath, hBefore, hSucceeds, hApart⟩ := evaluated_sharedDisk
  have hTrimmed : Text.trimEnd ".q \x7b\x7d\n" = ".q \x7b\x7d" := by decide
  cases hRun : sharedEngine.runFiles sharedPaths sharedDisk with
  | mk result d' =>
  rw [hRun] at hSucceeds hApart
  cases result with
  | error error => cases hSucceeds
  | ok report =>
    obtain ⟨e, hAll, hSheets⟩ := readText_sheet_of_run isTree_sharedDisk ⟨"src"⟩
      ⟨"classfold.lock"⟩ {} twoUtilities.compile "twk-" 0 none (.ofSeed 0) (.ofSeed 0) {} 0
      discover_sharedDisk rfl hRun
    obtain ⟨e', first, second, hAll', hSharing, hRules, hPath, _⟩ := exists_shared_run
    rw [show processAll sharedDisk sharedPaths sharedEngine = .ok e from hAll] at hAll'
    cases hAll'
    have hMember : ∀ file ∈ [first, second], file ∈ e.pending ∧ file.placement = .companion ∧
        e.css file ≠ "" ∧ (companionPath file.path).same ⟨"src/B.module.css"⟩ = true := by
      intro file hFile
      exact mem_sharing_iff.mp (hSharing ▸ hFile)
    obtain ⟨hPending, hCompanion, hSome, hSame⟩ := hMember first (by simp)
    have hSheet : companionPath first.path = ⟨"src/B.module.css"⟩ := by
      rw [hPath]
      exact hCompanionPath
    obtain ⟨text, hText, hStarts, hHolds⟩ :=
      hSheets first hPending hCompanion hSome (by rw [hSheet]; exact hApart)
    rw [hSheet] at hText hStarts hHolds
    refine ⟨report, d', text, rfl, hText, ?_, ?_⟩
    · rw [← hTrimmed]
      exact hStarts _ hBefore
    · intro css hCss
      rw [← hRules] at hCss
      obtain ⟨file, hFile, rfl⟩ := List.mem_map.mp hCss
      obtain ⟨hPending', hCompanion', _, hSame'⟩ := hMember file hFile
      exact hHolds file hPending' hCompanion' hSame'

end Engine

end ClassCollapse
