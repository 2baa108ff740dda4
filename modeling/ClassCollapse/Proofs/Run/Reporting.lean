import ClassCollapse.Proofs.Disk.Keys
import ClassCollapse.Proofs.Run.Accounting
import ClassCollapse.Proofs.Run.History
import ClassCollapse.Proofs.Run.Keeping

/-!
# Reported changes

A run changes the files that its report names and the cache, and nothing else: every write is for a
file that is reported as rewritten or for the sheet in its entry, and the keys in the report lead to
these files. A dry run goes the same way up to the writes and reports the same.
-/

namespace ClassCollapse.Engine

open Placement WriteBuffer

/-! ## Dry runs -/

def RunOutput.dry (out : RunOutput) : RunOutput :=
  { out with report := { out.report with dryRun := true } }

/-- The engine that writes nothing. -/
def dry (e : Engine) : Engine :=
  { e with options := { e.options with dryRun := true } }

def Setup.dry (s : Setup) : Setup :=
  { s with options := { s.options with dryRun := true } }

theorem collect_dry (key : String) (e : Engine) (found : ScannedClass) :
    collect key e.dry found = (collect key e found).dry := by
  have hGenerate : e.dry.book.generate e.dry.compile (e.dry.occurrence key found) e.dry.resolver =
      e.book.generate e.compile (e.occurrence key found) e.resolver := rfl
  rw [collect, collect, hGenerate]
  cases e.book.generate e.compile (e.occurrence key found) e.resolver
  rfl

theorem foldl_collect_dry (key : String) (found : List ScannedClass) (e : Engine) :
    found.foldl (collect key) e.dry = (found.foldl (collect key) e).dry :=
  List.foldl_hom dry (collect_dry key)

theorem processContent_dry (d : Disk) (path : Path) (key content : String) (placement : Placement)
    (e : Engine) :
    processContent d path key content placement e.dry =
      ((processContent d path key content placement e).1,
        (processContent d path key content placement e).2.dry) := by
  have hScan : e.dry.scan content = e.scan content := rfl
  rw [processContent, processContent, hScan]
  cases e.scan content with
  | nil => rfl
  | cons first found =>
    dsimp only
    rw [foldl_collect_dry]
    cases existingSheet d placement path <;> rfl

theorem processFile_dry (d : Disk) (path : Path) (e : Engine) :
    processFile d path e.dry = ((processFile d path e).1, (processFile d path e).2.dry) := by
  have hKey : Path.fileKey e.dry.scanRoot path = Path.fileKey e.scanRoot path := rfl
  have hSeen : e.dry.seen = e.seen := rfl
  have hCache : e.dry.cache = e.cache := rfl
  rw [processFile, processFile, hKey, hSeen, hCache]
  by_cases hMem : Path.fileKey e.scanRoot path ∈ e.seen
  · rw [if_pos hMem, if_pos hMem]
  · rw [if_neg hMem, if_neg hMem]
    cases d.readText path with
    | error cause => rfl
    | ok content =>
      dsimp only
      cases e.cache.isModified (Path.fileKey e.scanRoot path) content with
      | false => rfl
      | true =>
        cases forPath? path with
        | none => rfl
        | some placement =>
          exact processContent_dry d path _ content placement
            { e with seen := Path.fileKey e.scanRoot path :: e.seen }

theorem processAll_dry (d : Disk) (paths : List Path) (e : Engine) :
    processAll d paths e.dry = (processAll d paths e).map dry := by
  induction paths generalizing e with
  | nil => rfl
  | cons path paths ih =>
    rw [processAll, processAll, processFile_dry]
    cases processFile d path e with
    | mk result next =>
    cases result with
    | error error => rfl
    | ok _ => exact ih next

theorem finish_dry (e : Engine) : e.dry.finish = e.finish.map RunOutput.dry := by
  have hRewriter : Rewriter.new e.dry.index e.dry.resolver.names e.dry.compile =
      Rewriter.new e.index e.resolver.names e.compile := rfl
  have hPending : e.dry.pending = e.pending := rfl
  have hRandom : e.dry.random = e.random := rfl
  rw [finish, finish, hRewriter, hPending, hRandom]
  cases e.random.drawMany 100 e.pending.length with
  | mk suffixes random =>
  have hAll : ∀ w files, e.dry.rewriteAll w files = e.rewriteAll w files :=
    rewriteAll_congr rfl rfl
  dsimp only
  rw [hAll]
  cases e.rewriteAll (Rewriter.new e.index e.resolver.names e.compile)
    (e.pending.zip suffixes) with
  | error error => rfl
  | ok done =>
    have hReport : e.dry.report done = { e.report done with dryRun := true } := rfl
    dsimp only
    rw [hReport]
    rfl

/-- A dry run leaves the disk alone and reports what the run wants to write. -/
theorem runFiles_dry (e : Engine) (paths : List Path) (d : Disk) :
    e.dry.runFiles paths d =
      ((e.outcome paths d).map fun out => { out.report with dryRun := true }, d) := by
  rw [runFiles, outcome, processAll_dry]
  cases processAll d paths e with
  | error error => rfl
  | ok last =>
    have hFinish : last.dry.forgetUnseen.2.finish = last.forgetUnseen.2.finish.map RunOutput.dry :=
      finish_dry last.forgetUnseen.2
    dsimp only [Except.map] at hFinish ⊢
    rw [hFinish]
    cases last.forgetUnseen.2.finish <;> rfl

/-! ## What waits -/

/-- The files that wait are files of the run, under their keys. -/
structure Gathered (root : Path) (paths : List Path) (e : Engine) : Prop where
  scanRoot_eq : e.scanRoot = root
  waiting : ∀ file ∈ e.pending, file.path ∈ paths ∧ file.key = Path.fileKey root file.path ∧
    forPath? file.path = some file.placement

theorem Listed.gathered {cache : ChangeCache} {root : Path} {visits : List (Disk × Path)}
    {e : Engine} (h : Listed cache root visits e) : Gathered root (visits.map Prod.snd) e where
  scanRoot_eq := h.scanRoot_eq
  waiting := by
    intro file hFile
    obtain ⟨d, p, hFirst, hFor⟩ := h.processedFor _ (mem_pending_iff.mp hFile)
    cases hFor with
    | waiting hKey hPath hPlacement =>
      subst hPath
      exact ⟨List.mem_map_of_mem (mem_of_firstVisit? hFirst).1, hKey, hPlacement⟩

theorem Setup.listed_of_processAll {s : Setup} {root cachePath : Path} {d : Disk}
    {paths : List Path} {e : Engine}
    (hAll : processAll d paths (s.engine root cachePath d) = .ok e) :
    Listed (.load d cachePath) root (paths.map fun p => (d, p)) e :=
  have hNew := visited_new root (.load d cachePath) s.compile s.namePrefix s.maxInvocations
    s.strategy s.names s.random s.options s.now
  (hNew.processEach ((processEach_map d paths _).trans hAll)).toListed

theorem Setup.gathered_of_processAll {s : Setup} {root cachePath : Path} {d : Disk}
    {paths : List Path} {e : Engine}
    (hAll : processAll d paths (s.engine root cachePath d) = .ok e) : Gathered root paths e := by
  have hGathered := (listed_of_processAll hAll).gathered
  rw [List.map_map, List.map_id''] at hGathered
  · exact hGathered
  · exact fun _ => rfl

/-! ## What is written -/

/-- A file of the run is reported as rewritten, and a path is that of the file or of the sheet in
the entry. -/
def Reports (root : Path) (report : RunReport) (file path : Path) : Prop :=
  ∃ occurrences sheet, (Path.fileKey root file, .rewritten occurrences sheet) ∈ report.files ∧
    (path = file ∨ path = companionPath file ∧ sheet = some (Path.fileKey root path))

/-- What a run from a new engine wants to write is reported. -/
theorem reports_of_outcome {d : Disk} {s : Setup} {root cachePath : Path} {paths : List Path}
    {out : RunOutput} (h : (s.engine root cachePath d).outcome paths d = .ok out) :
    out.cache.path = cachePath ∧ ∀ t ∈ out.writes.tasks, ∃ file ∈ paths,
      forPath? file ≠ none ∧ Reports root out.report file t.path := by
  rw [outcome] at h
  cases hAll : processAll d paths (s.engine root cachePath d) with
  | error error =>
    rw [hAll] at h
    cases h
  | ok last =>
  rw [hAll] at h
  have hSettings : SameSettings (s.engine root cachePath d) last :=
    visitAll_of_processAll hAll ▸ sameSettings_visitAll _ _
  have hListed := (Setup.listed_of_processAll hAll).forgetUnseen
  obtain ⟨out', hFinish, hAccounts⟩ := hListed.accounts
  cases hFinish.symm.trans h
  constructor
  · rw [path_of_finish h]
    exact (ChangeCache.path_forgetAll _ _).trans hSettings.cachePath_eq
  · intro t ht
    obtain ⟨key, occurrences, sheet, d₁, p, hEntry, hFirst, hPath⟩ := hAccounts.task t ht
    obtain ⟨d₂, p', hFirst', hDecides, _⟩ := hAccounts.decided _ hEntry
    cases hFirst.symm.trans hFirst'
    obtain ⟨hVisit, rfl⟩ := mem_of_firstVisit? hFirst
    obtain ⟨file, hFile, hSame⟩ := List.mem_map.mp hVisit
    cases hSame
    refine ⟨p, hFile, ?_, occurrences, sheet, hEntry, hPath.imp_right fun h => ⟨h.1, h.2.1⟩⟩
    cases hDecides with
    | rewritten _ _ hPlacement => exact hPlacement

/-- The place of a file that a run has changed is that of the cache or of a path that is reported. -/
theorem reports_of_fileAt?_ne {d d' : Disk} (hTree : d.IsTree) {s : Setup} {root cachePath : Path}
    {paths : List Path} {out : RunOutput} {report : RunReport}
    (h : (s.engine root cachePath d).outcome paths d = .ok out)
    (hApply : RunOutput.apply out d = (.ok report, d')) {place : Place}
    (hChanged : d'.fileAt? place ≠ d.fileAt? place) :
    d'.IsTree ∧ d'.node? place ≠ some .directory ∧ (d'.Names cachePath place ∨
      ∃ file ∈ paths, forPath? file ≠ none ∧ ∃ path, Reports root report file path ∧
        d'.Names path place) := by
  obtain ⟨hCache, hTasks⟩ := reports_of_outcome h
  obtain ⟨d₁, hFlush, hSave, rfl⟩ := exists_of_apply_ok hApply
  have hFlushed := flushed_of_flushTasks hTree hFlush
  obtain ⟨stored, hSaved⟩ := Disk.saved_of_save hFlushed.isTree hSave
  by_cases hStored : place = stored
  · rw [hStored, ← hCache]
    exact ⟨hSaved.isTree, by simp [hSaved.node?_eq], .inl hSaved.names⟩
  · rw [hSaved.fileAt?_eq, if_neg hStored] at hChanged
    rcases hFlushed.fileAt?_eq place with ⟨t, ht, hNames, hFile⟩ | ⟨_, hSame⟩
    · obtain ⟨file, hMem, hPlacement, hReports⟩ := hTasks t ht
      have hFile' : d'.fileAt? place = some t.content.toUTF8 := by
        rw [hSaved.fileAt?_eq, if_neg hStored, hFile]
      exact ⟨hSaved.isTree, by simp [Disk.fileAt?_eq_some_iff.mp hFile'],
        .inr ⟨file, hMem, hPlacement, t.path, hReports, hSaved.keeps.names hNames⟩⟩
    · exact absurd hSame hChanged

/-- A dry run leaves the disk alone, whatever it answers. Where a run over files below a root
succeeds from the same beginnings, the dry run reports the same, and a file that the run has changed
is the cache or is reported: a key of a rewritten file or of the sheet in its entry, taken from the
root, leads to it. -/
theorem reported_of_fileAt?_ne {d : Disk} (hTree : d.IsTree) (s : Setup) {root : Path}
    (cachePath : Path) {paths : List Path} (hBelow : ∀ p ∈ paths, root.IsUnder p) :
    let dry := (s.dry.engine root cachePath d).runFiles paths d
    dry.2 = d ∧ ∀ report d', (s.engine root cachePath d).runFiles paths d = (.ok report, d') →
      dry.1 = .ok { report with dryRun := true } ∧
      ∀ place, d'.fileAt? place ≠ d.fileAt? place → d'.locate cachePath = .ok place ∨
        ∃ key occurrences sheet, (key, .rewritten occurrences sheet) ∈ report.files ∧
          (d'.locate (root.join ⟨key⟩) = .ok place ∨
            ∃ name, sheet = some name ∧ d'.locate (root.join ⟨name⟩) = .ok place) := by
  intro dry
  have hDry : dry = (((s.engine root cachePath d).outcome paths d).map fun out =>
      { out.report with dryRun := true }, d) := runFiles_dry (s.engine root cachePath d) paths d
  rw [hDry]
  refine ⟨rfl, ?_⟩
  intro report d' hRun
  cases hOutcome : (s.engine root cachePath d).outcome paths d with
  | error error =>
    rw [runFiles_of_outcome_error hOutcome] at hRun
    cases hRun
  | ok out =>
  rcases runFiles_of_outcome_ok hOutcome with hDone | hApplied
  · rw [hDone] at hRun
    cases hRun
    exact ⟨rfl, fun place hChanged => absurd rfl hChanged⟩
  · rw [hApplied] at hRun
    obtain ⟨_, _, _, hReport⟩ := exists_of_apply_ok hRun
    refine ⟨by rw [← hReport]; rfl, ?_⟩
    intro place hChanged
    obtain ⟨hTree', hNode, hCache | ⟨file, hFile, hPlacement, path, hEntry, hNames⟩⟩ :=
      reports_of_fileAt?_ne hTree hOutcome hRun hChanged
    · exact .inl (hCache.locate_eq hTree' hNode)
    obtain ⟨occurrences, sheet, hMem, rfl | ⟨rfl, hSheet⟩⟩ := hEntry
    · obtain ⟨placement, hSome⟩ := Option.ne_none_iff_exists'.mp hPlacement
      have hKey := hNames.join_fileKey (hBelow path hFile) (endsWithStep_of_forPath? hSome)
      exact .inr ⟨_, occurrences, sheet, hMem, .inl (hKey.locate_eq hTree' hNode)⟩
    · obtain ⟨placement, hSome⟩ := Option.ne_none_iff_exists'.mp hPlacement
      have hKey := hNames.join_fileKey (isUnder_companionPath (hBelow file hFile) hSome)
        (endsWithStep_companionPath hSome)
      exact .inr ⟨_, occurrences, sheet, hMem, .inr ⟨_, hSheet, hKey.locate_eq hTree' hNode⟩⟩

def sharedSetup : Setup :=
  ⟨{}, twoUtilities.compile, "twk-", 0, none, .ofSeed 0, {}, .ofSeed 0, 0⟩

def sharedRun (s : Setup) : Except RunError RunReport × Disk :=
  (s.engine ⟨"src"⟩ ⟨"classfold.lock"⟩ sharedDisk).runFiles sharedPaths sharedDisk

theorem isUnder_sharedPaths : ∀ p ∈ sharedPaths, Path.IsUnder ⟨"src"⟩ p := by
  intro p hp
  simp only [sharedPaths, List.mem_cons, List.not_mem_nil, or_false] at hp
  rcases hp with rfl | rfl
  · exact ⟨[.name "B.jsx"], by decide, by decide⟩
  · exact ⟨[.name "B.tsx"], by decide, by decide⟩

/-- The sheet of two components is changed by a run, and by no dry run, and is reported. -/
theorem reported_sharedDisk :
    (sharedRun sharedSetup.dry).2 = sharedDisk ∧
      ∃ report d', sharedRun sharedSetup = (.ok report, d') ∧
        (sharedRun sharedSetup.dry).1 = .ok { report with dryRun := true } ∧
        d'.fileAt? ["src", "B.module.css"] ≠ sharedDisk.fileAt? ["src", "B.module.css"] ∧
        ∃ key occurrences sheet, (key, .rewritten occurrences sheet) ∈ report.files ∧
          (d'.locate (Path.join ⟨"src"⟩ ⟨key⟩) = .ok ["src", "B.module.css"] ∨
            ∃ name, sheet = some name ∧
              d'.locate (Path.join ⟨"src"⟩ ⟨name⟩) = .ok ["src", "B.module.css"]) := by
  obtain ⟨hSucceeds, hChanged, hApart⟩ : (sharedRun sharedSetup).1.toBool = true ∧
      (sharedRun sharedSetup).2.fileAt? ["src", "B.module.css"] ≠
        sharedDisk.fileAt? ["src", "B.module.css"] ∧
      (sharedRun sharedSetup).2.locate ⟨"classfold.lock"⟩ ≠ .ok ["src", "B.module.css"] := by
    decide +kernel
  obtain ⟨hDisk, hReports⟩ :=
    reported_of_fileAt?_ne isTree_sharedDisk sharedSetup ⟨"classfold.lock"⟩ isUnder_sharedPaths
  refine ⟨hDisk, ?_⟩
  cases hRun : sharedRun sharedSetup with
  | mk result d' =>
  rw [hRun] at hSucceeds hChanged hApart
  cases result with
  | error error => cases hSucceeds
  | ok report =>
    obtain ⟨hDry, hPlaces⟩ := hReports report d' hRun
    exact ⟨report, d', rfl, hDry, hChanged, (hPlaces _ hChanged).resolve_left hApart⟩

end ClassCollapse.Engine
