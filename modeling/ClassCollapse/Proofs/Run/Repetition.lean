import ClassCollapse.Proofs.Disk.Discovery
import ClassCollapse.Proofs.Run.Failure
import ClassCollapse.Proofs.Run.Flushing
import ClassCollapse.Proofs.Run.Gate
import ClassCollapse.Proofs.Run.Tracking

/-!
# A run is not repeated

After a run that succeeded every discovered file is up to date: it has no placement, or its text is
the one whose digest the saved cache holds. So the same run over the resulting disk passes over all
files and writes the cache as it is.
-/

namespace ClassCollapse.Engine

/-! ## Nothing to do -/

theorem forgetUnseen_of_known {e : Engine}
    (h : ∀ key, e.cache.manifest.find? key ≠ none → key ∈ e.seen) : e.forgetUnseen.2 = e := by
  have hNone : e.unseen = [] := by
    rw [List.eq_nil_iff_forall_not_mem]
    intro key hMem
    obtain ⟨hFound, hNew⟩ := (mem_unseen_iff e key).mp hMem
    exact hNew (h key hFound)
  rw [forgetUnseen, hNone]
  rfl

theorem finish_of_pending_nil {e : Engine} (h : e.pending = []) :
    e.finish = .ok ⟨.empty, e.cache, e.report []⟩ := by
  rw [finish, h]
  rfl

theorem log_done (e : Engine) (log : List (String × Action))
    (done : List (PendingFile × Injection)) :
    e.log (log.map fun f => .done f.1 f.2) done = log := by
  induction log with
  | nil => rfl
  | cons f log ih => exact congrArg (f :: ·) ih

theorem processed_passed (e : Engine) (paths : List Path) (log : List (String × Action)) :
    (e.passed paths log).processed = e.processed ++ log.map fun f => .done f.1 f.2 := by
  have hFold : ∀ w : Worklist, (log.foldl (fun w f => w.conclude f.1 f.2) w).processed =
      w.processed ++ log.map fun f => .done f.1 f.2 := by
    induction log with
    | nil => exact fun w => (List.append_nil _).symm
    | cons f log ih =>
      intro w
      rw [List.foldl_cons, ih, Worklist.processed_conclude, List.append_assoc]
      rfl
  exact hFold e.worklist

theorem outcome_of_upToDate {d : Disk} {paths : List Path} {e : Engine} (hStart : e.processed = [])
    (hSeen : e.seen = []) (hUp : ∀ p ∈ paths, UpToDate d e p) (hKeys : (paths.map e.keyOf).Nodup)
    (hCache : ∀ key, e.cache.manifest.find? key ≠ none → key ∈ paths.map e.keyOf) :
    ∃ log : List (String × Action), processAll d paths e = .ok (e.passed paths log) ∧
      e.outcome paths d = .ok ⟨.empty, e.cache,
        ⟨log, e.resolver.names.length, e.resolver.invocations, e.options.dryRun⟩⟩ ∧
      log.map Prod.fst = paths.map e.keyOf ∧ ∀ f ∈ log, Idle f.2 := by
  obtain ⟨log, hAll, hLog, hIdle⟩ := processAll_of_upToDate hUp hKeys (by simp [hSeen])
  refine ⟨log, hAll, ?_, hLog, hIdle⟩
  have hForget : (e.passed paths log).forgetUnseen.2 = e.passed paths log := by
    apply forgetUnseen_of_known
    intro key hKey
    have hMem := hCache key hKey
    simp [passed, hMem]
  have hProcessed : (e.passed paths log).processed = log.map fun f => .done f.1 f.2 := by
    rw [processed_passed, hStart, List.nil_append]
  have hPending : (e.passed paths log).pending = [] := by
    rw [← filterMap_processed, hProcessed, List.filterMap_map, List.filterMap_eq_nil_iff]
    exact fun f _ => rfl
  have hReport : (e.passed paths log).report [] =
      ⟨log, e.resolver.names.length, e.resolver.invocations, e.options.dryRun⟩ := by
    rw [report_eq, hProcessed, log_done]
    rfl
  rw [outcome, hAll]
  dsimp only
  rw [hForget, finish_of_pending_nil hPending, hReport]
  rfl

/-! ## What a run leaves behind -/

/-- An engine has processed the files below a root and made an output of those that waited. -/
structure Prepared (d : Disk) (root : Path) (scan : ScanConfig) (base : Place) (files : List Path)
    (e : Engine) (done : List (PendingFile × Injection)) (out : RunOutput) : Prop where
  isTree : d.IsTree
  discovered : d.Discovered root scan base files
  tracks : Tracks d files e
  scanRoot_eq : e.scanRoot = root
  done_eq : done.map Prod.fst = e.pending
  keys_nodup : (done.map (·.1.key)).Nodup
  rewritten : ∀ x ∈ done, e.forgetUnseen.2.Rewritten x
  proper : ∀ x ∈ done, Proper root x
  settled : Settled e.now done e.forgetUnseen.2.cache (out.writes, out.cache)
  output_eq : out = e.forgetUnseen.2.output done

/-- The output of an engine was put on a disk, with its cache at a place. -/
structure Ran (d : Disk) (root : Path) (scan : ScanConfig) (base : Place) (files : List Path)
    (e : Engine) (done : List (PendingFile × Injection)) (out : RunOutput) (d₁ d' : Disk)
    (kept : Place) : Prop extends Prepared d root scan base files e done out where
  flushed : WriteBuffer.Flushed d out.writes.tasks d₁
  saved : d₁.Saved out.cache.path out.cache.manifest.toText.toUTF8 d' kept

theorem Prepared.path_mem {d : Disk} {root : Path} {scan : ScanConfig} {base : Place}
    {files : List Path} {e : Engine} {done : List (PendingFile × Injection)} {out : RunOutput}
    (h : Prepared d root scan base files e done out) {x : PendingFile × Injection} (hx : x ∈ done) :
    x.1.path ∈ files := by
  have hPending : x.1 ∈ e.pending := h.done_eq ▸ List.mem_map_of_mem hx
  exact (h.tracks.waiting x.1 hPending).1

namespace Ran

variable {d d₁ d' : Disk} {root : Path} {scan : ScanConfig} {base kept names : Place}
  {files : List Path} {e e' : Engine} {done : List (PendingFile × Injection)} {out : RunOutput}
  (h : Ran d root scan base files e done out d₁ d' kept)
include h

theorem keeps : Disk.Keeps d d' :=
  h.flushed.keeps.trans h.saved.keeps

theorem leadsTo : d'.LeadsTo root base :=
  h.keeps.leadsTo h.discovered.leadsTo

theorem names_of_mem (hSource : d.IsSourceAt scan base names) :
    d₁.Names (Disk.pathBelow root names) (base ++ names) :=
  h.flushed.keeps.names (hSource.pathBelow_names h.isTree h.discovered.leadsTo)

/-- The file that a task was made for is the one at the place that the task names. -/
theorem path_eq_of_names {x : PendingFile × Injection} (hx : x ∈ done)
    (hNames : d₁.Names x.1.path (base ++ names)) : x.1.path = Disk.pathBelow root names := by
  obtain ⟨names', hSource, hPath⟩ := (h.discovered.mem_iff _).mp (h.path_mem hx)
  rw [hPath] at hNames ⊢
  rw [List.append_cancel_left (hNames.unique (h.names_of_mem hSource))]

/-- A file that a task was written to has no placement, or the cache accepts what was written. -/
theorem upToDate_of_task {t : WriteTask} (ht : t ∈ out.writes.tasks) {p : Path}
    (hp : p = Disk.pathBelow root names) (hNames : d'.Names p (base ++ names))
    (hTask : d₁.Names t.path (base ++ names)) :
    Placement.forPath? p = none ∨
      out.cache.isModified (Path.fileKey root p) t.content = false := by
  rcases h.settled.task_eq t ht with ⟨x, hx, rfl⟩ | hNone
  · right
    have hThere : x.1.path = p := by rw [hp, h.path_eq_of_names hx hTask]
    have hContent : (taskOf x).content = x.2.content := by
      simp [taskOf, WriteTask.content, String.join]
    rw [hContent, ← hThere, ← (h.proper x hx).key_eq]
    exact ChangeCache.isModified_of_find? (h.settled.find?_eq x hx)
  · left
    rw [← hNone]
    apply Placement.forPath?_of_fileName?_eq
    rw [hNames.fileName?_eq, hTask.fileName?_eq]

/-- The entry of a file that was not rewritten is the one from the first phase. -/
theorem find?_eq_of_not_done {p : Path} (hp : p ∈ files)
    (hNot : Path.fileKey root p ∉ done.map (·.1.key)) :
    out.cache.manifest.find? (Path.fileKey root p) =
      e.cache.manifest.find? (Path.fileKey root p) := by
  have hSeen : Path.fileKey root p ∈ e.seen := by
    rw [h.tracks.seen_iff, keyOf_of_scanRoot h.scanRoot_eq]
    exact List.mem_map_of_mem hp
  rw [h.settled.find?_other _ hNot, find?_forgetUnseen, if_pos hSeen]

theorem find?_eq_of_untouched {p : Path} (hp : p ∈ files) {place : Place}
    (hNames : d₁.Names p place) (hUntouched : ∀ t ∈ out.writes.tasks, ¬d₁.Names t.path place) :
    out.cache.manifest.find? (Path.fileKey root p) =
      e.cache.manifest.find? (Path.fileKey root p) := by
  apply h.find?_eq_of_not_done hp
  intro hMem
  obtain ⟨x, hx, hKey⟩ := List.mem_map.mp hMem
  have hSame : x.1.path = p := by
    apply List.inj_on_of_nodup_map h.discovered.keys_nodup (h.path_mem hx) hp
    rw [← (h.proper x hx).key_eq, hKey]
  apply hUntouched _ (h.settled.mem_tasks x hx)
  rw [taskOf, hSame]
  exact hNames

theorem upToDate_of_untouched {p : Path} (hp : p ∈ files) {place : Place}
    (hNames : d₁.Names p place) (hUntouched : ∀ t ∈ out.writes.tasks, ¬d₁.Names t.path place) :
    ∃ content, d.readText p = .ok content ∧ (Placement.forPath? p = none ∨
      out.cache.isModified (Path.fileKey root p) content = false) := by
  rcases h.tracks.known p hp with ⟨content, hRead, hNothing⟩ | ⟨file, hFile, hPath⟩
  · refine ⟨content, hRead, hNothing.imp_right ?_⟩
    intro hAccepted
    have hSame := h.find?_eq_of_untouched hp hNames hUntouched
    rw [keyOf_of_scanRoot h.scanRoot_eq] at hAccepted
    rw [ChangeCache.isModified_congr hSame, hAccepted]
  · rw [← h.done_eq] at hFile
    obtain ⟨x, hx, rfl⟩ := List.mem_map.mp hFile
    refine absurd ?_ (hUntouched _ (h.settled.mem_tasks x hx))
    rw [taskOf, hPath]
    exact hNames

/-- After a run each source file but the cache is up to date. -/
theorem upToDate (hSource : d'.IsSourceAt scan base names) (hOther : base ++ names ≠ kept)
    (hRoot : e'.scanRoot = root) (hCache : e'.cache = out.cache) :
    UpToDate d' e' (Disk.pathBelow root names) := by
  have hNames := hSource.pathBelow_names h.saved.isTree h.leadsTo
  obtain ⟨content, hFile, hIs⟩ := hSource
  have hBefore : d₁.fileAt? (base ++ names) = some content := by
    rw [← hFile, h.saved.fileAt?_eq, if_neg hOther]
  have hNode := Disk.fileAt?_eq_some_iff.mp hFile
  rw [UpToDate, keyOf, hRoot, hCache]
  rcases h.flushed.fileAt?_eq (base ++ names) with ⟨t, ht, hTask, hWritten⟩ | ⟨hUntouched, hSame⟩
  · rw [hBefore] at hWritten
    rw [Option.some.inj hWritten] at hNode
    have hText := hNames.readText_eq h.saved.isTree hNode
    exact ⟨t.content, hText, h.upToDate_of_task ht rfl hNames hTask⟩
  · have hOld : d.fileAt? (base ++ names) = some content := by rw [← hSame, hBefore]
    have hSourceOld : d.IsSourceAt scan base names := ⟨content, hOld, hIs⟩
    have hNamesOld := hSourceOld.pathBelow_names h.isTree h.discovered.leadsTo
    have hMem : Disk.pathBelow root names ∈ files :=
      (h.discovered.mem_iff _).mpr ⟨names, hSourceOld, rfl⟩
    have hText : d'.readText (Disk.pathBelow root names) =
        d.readText (Disk.pathBelow root names) := by
      rw [Disk.readText, Disk.readText, hNames.read_eq h.saved.isTree hNode,
        hNamesOld.read_eq h.isTree (Disk.fileAt?_eq_some_iff.mp hOld)]
    rw [hText]
    exact h.upToDate_of_untouched hMem (h.names_of_mem hSourceOld) hUntouched

/-- The saved cache knows the files of the run only. -/
theorem key_mem_files {key : String} (hKey : out.cache.manifest.find? key ≠ none) :
    key ∈ files.map (Path.fileKey root) := by
  by_cases hDone : key ∈ done.map (·.1.key)
  · obtain ⟨x, hx, rfl⟩ := List.mem_map.mp hDone
    rw [(h.proper x hx).key_eq]
    exact List.mem_map_of_mem (h.path_mem hx)
  · rw [h.settled.find?_other key hDone, find?_forgetUnseen] at hKey
    by_cases hSeen : key ∈ e.seen
    · rw [h.tracks.seen_iff, keyOf_of_scanRoot h.scanRoot_eq] at hSeen
      exact hSeen
    · exact absurd (if_neg hSeen) hKey

/-- The saved cache knows discovered files only. -/
theorem key_mem {files' : List Path} (hFiles : d'.Discovered root scan base files') {key : String}
    (hKey : out.cache.manifest.find? key ≠ none) : key ∈ files'.map (Path.fileKey root) := by
  obtain ⟨p, hp, rfl⟩ := List.mem_map.mp (h.key_mem_files hKey)
  apply List.mem_map_of_mem
  obtain ⟨names, hSource, rfl⟩ := (h.discovered.mem_iff p).mp hp
  exact (hFiles.mem_iff _).mpr ⟨names, hSource.keeps h.keeps, rfl⟩

end Ran

/-! ## Running twice -/

theorem exists_of_apply_ok {out : RunOutput} {d d' : Disk} {report : RunReport}
    (h : RunOutput.apply out d = (.ok report, d')) :
    ∃ d₁, WriteBuffer.flushTasks out.writes.tasks d = (.ok (), d₁) ∧
      out.cache.save d₁ = (.ok (), d') ∧ out.report = report := by
  rw [RunOutput.apply, WriteBuffer.flush] at h
  cases hFlush : WriteBuffer.flushTasks out.writes.tasks d with
  | mk result d₁ =>
  rw [hFlush] at h
  cases result with
  | error error => cases h
  | ok _ =>
    dsimp only [Except.map] at h
    cases hSave : out.cache.save d₁ with
    | mk result d₂ =>
    rw [hSave] at h
    cases result with
    | error error => cases h
    | ok _ =>
      cases h
      exact ⟨d₁, rfl, hSave, rfl⟩

theorem proper_of_rewritten {root : Path} {d : Disk} {files : List Path} {e : Engine}
    (hTracks : Tracks d files e) (hRoot : e.scanRoot = root) {x : PendingFile × Injection}
    (hPending : x.1 ∈ e.pending) (hRewritten : e.forgetUnseen.2.Rewritten x) : Proper root x := by
  obtain ⟨_, hKey, hPlacement⟩ := hTracks.waiting x.1 hPending
  refine ⟨?_, hPlacement, hRewritten.sheet_eq⟩
  rw [hKey, keyOf, hRoot]

theorem prepared_of_processAll {d : Disk} {root : Path} {scan : ScanConfig} {base : Place}
    {files : List Path} (hTree : d.IsTree) (hDiscovered : d.Discovered root scan base files)
    {e last : Engine} (hCoherent : Coherent e) (hNew : Tracks d [] e) (hRoot : e.scanRoot = root)
    (hAll : processAll d files e = .ok last) :
    ∃ done out, last.forgetUnseen.2.finish = .ok out ∧
      Prepared d root scan base files last done out ∧ out.cache.path = e.cache.path := by
  have hKeyOf : e.keyOf = Path.fileKey root := keyOf_of_scanRoot hRoot
  have hVisits := visitAll_of_processAll hAll
  have hSettings : SameSettings e last := hVisits ▸ sameSettings_visitAll _ e
  have hLast : Coherent last.forgetUnseen.2 :=
    (hVisits ▸ coherent_visitAll hCoherent _ : Coherent last).setCache _
  have hTracks : Tracks d files last :=
    tracks_processAll hNew (hKeyOf ▸ hDiscovered.keys_nodup) hAll
  have hLastRoot : last.scanRoot = root := hSettings.scanRoot_eq.trans hRoot
  obtain ⟨done, hFinish, hDone, hRewritten⟩ := hLast.finish_eq
  have hProper : ∀ x ∈ done, Proper root x := by
    intro x hx
    have hPending : x.1 ∈ last.pending := hDone ▸ List.mem_map_of_mem hx
    exact proper_of_rewritten hTracks hLastRoot hPending (hRewritten x hx)
  have hKeys : (done.map (·.1.key)).Nodup := hLast.done_keys_nodup hDone
  have hSettled := settled_foldl last.now last.forgetUnseen.2.cache hProper hKeys
  refine ⟨done, _, hFinish, ⟨hTree, hDiscovered, hTracks, hLastRoot, hDone, hKeys, hRewritten,
    hProper, hSettled, rfl⟩, ?_⟩
  have hForget : last.forgetUnseen.2.cache.path = last.cache.path :=
    ChangeCache.path_forgetAll _ _
  exact hSettled.path_eq.trans (hForget.trans hSettings.cachePath_eq)

theorem ran_of_runFiles {d d' : Disk} {root : Path} {scan : ScanConfig} {base : Place}
    {files : List Path} (hTree : d.IsTree) (hDiscovered : d.Discovered root scan base files)
    {e : Engine} (hCoherent : Coherent e) (hNew : Tracks d [] e) (hRoot : e.scanRoot = root)
    (hReal : e.options.dryRun = false) {report : RunReport}
    (hRun : e.runFiles files d = (.ok report, d')) :
    ∃ last done out d₁ kept, Ran d root scan base files last done out d₁ d' kept ∧
      out.cache.path = e.cache.path ∧ processAll d files e = .ok last ∧ out.report = report := by
  unfold runFiles at hRun
  cases hAll : processAll d files e with
  | error error =>
    rw [hAll] at hRun
    cases hRun
  | ok last =>
    obtain ⟨done, out, hFinish, hPrepared, hPath⟩ :=
      prepared_of_processAll hTree hDiscovered hCoherent hNew hRoot hAll
    have hSettings : SameSettings e last :=
      visitAll_of_processAll hAll ▸ sameSettings_visitAll _ e
    have hDryRun : last.options.dryRun = false := by rw [hSettings.options_eq, hReal]
    rw [hAll] at hRun
    dsimp only at hRun
    rw [hFinish] at hRun
    dsimp only at hRun
    rw [hDryRun, if_neg Bool.false_ne_true] at hRun
    obtain ⟨d₁, hFlush, hSave, hReport⟩ := exists_of_apply_ok hRun
    have hFlushed := WriteBuffer.flushed_of_flushTasks hTree hFlush
    obtain ⟨kept, hSaved⟩ := Disk.saved_of_save hFlushed.isTree hSave
    exact ⟨last, done, out, d₁, kept, ⟨hPrepared, hFlushed, hSaved⟩, hPath, rfl, hReport⟩

theorem apply_of_empty {cache : ChangeCache} {report : RunReport} {d : Disk}
    (h : cache.save d = (.ok (), d)) :
    RunOutput.apply ⟨.empty, cache, report⟩ d = (.ok report, d) := by
  have hFlush : WriteBuffer.empty.flush d = (.ok 0, d) := rfl
  rw [RunOutput.apply, hFlush]
  dsimp only
  rw [h]

/-- A run that has succeeded on a tree can be repeated, with any table, strategy, names and
switches: it then succeeds, finds every file unchanged or unsupported, buffers no write, gives no
name, asks for none, and leaves the disk as it is. The cache must not be one of the files that are
processed. -/
theorem runFiles_runFiles {d d' : Disk} (hTree : d.IsTree) (root cachePath : Path)
    (scan : ScanConfig) (compile compile' : Compiler) (namePrefix namePrefix' : String)
    (maxInvocations maxInvocations' : Nat) (strategy strategy' : Option NamingStrategy)
    (names names' random random' : RandomSource) (options options' : RunOptions)
    (now now' : UInt64) {files : List Path} {report : RunReport}
    (hFiles : d.discover root scan = .ok files) (hReal : options.dryRun = false)
    (hRun : (new root (.load d cachePath) compile
      (.new namePrefix maxInvocations strategy names) options random now).runFiles files d =
        (.ok report, d'))
    (hCache : ∀ files', d'.discover root scan = .ok files' →
      ∀ p ∈ files', d'.locate p ≠ d'.locate cachePath) :
    let again := new root (.load d' cachePath) compile'
      (.new namePrefix' maxInvocations' strategy' names') options' random' now'
    ∃ files' report', d'.discover root scan = .ok files' ∧
      again.runFiles files' d' = (.ok report', d') ∧
      report'.files.map Prod.fst = files'.map (Path.fileKey root) ∧
      (∀ f ∈ report'.files, f.2 = .unchanged ∨ f.2 = .unsupported) ∧
      report'.namesAssigned = 0 ∧ report'.strategyInvocations = 0 ∧
      (∃ out, again.outcome files' d' = .ok out ∧ out.writes = .empty) ∧
      ∃ e, again.processAll d' files' = .ok e ∧ e.resolver = again.resolver := by
  intro again
  obtain ⟨base, hDiscovered⟩ := Disk.discovered_of_discover hTree hFiles
  have hNew := coherent_new root (.load d cachePath) compile options random now
    (NameResolver.sound_new namePrefix maxInvocations strategy names) rfl
  obtain ⟨last, done, out, d₁, kept, hRan, hPath, _⟩ :=
    ran_of_runFiles hTree hDiscovered hNew (tracks_new _ _ _ _ _ _ _ _) rfl hReal hRun
  have hTree' := hRan.saved.isTree
  obtain ⟨files', hFiles', hDiscovered'⟩ := Disk.exists_discover hTree' hRan.leadsTo scan
  have hThere : out.cache.path = cachePath := hPath
  have hLoad : ChangeCache.load d' cachePath = out.cache := by
    rw [← hThere]
    exact hRan.saved.load_eq
  have hUp : ∀ p ∈ files', UpToDate d' again p := by
    intro p hp
    obtain ⟨place, hSource, rfl⟩ := (hDiscovered'.mem_iff p).mp hp
    refine hRan.upToDate hSource ?_ rfl hLoad
    intro hKept
    apply hCache files' hFiles' _ hp
    have hNames := hSource.pathBelow_names hTree' hRan.leadsTo
    obtain ⟨content, hFile, _⟩ := hSource
    have hNode := Disk.fileAt?_eq_some_iff.mp hFile
    have hKeptNames : d'.Names cachePath kept := hThere ▸ hRan.saved.names
    rw [hNames.locate_eq hTree' (by simp [hNode]),
      hKeptNames.locate_eq hTree' (by simp [hRan.saved.node?_eq]), hKept]
  have hKnown : ∀ key, again.cache.manifest.find? key ≠ none → key ∈ files'.map again.keyOf := by
    intro key hKey
    have hOut : again.cache = out.cache := hLoad
    rw [hOut] at hKey
    exact hRan.key_mem hDiscovered' hKey
  have hAgainSave : again.cache.save d' = (.ok (), d') := by
    have hOut : again.cache = out.cache := hLoad
    rw [hOut]
    exact hRan.saved.again
  obtain ⟨log, hAll, hOutcome, hKeys, hIdle⟩ :=
    outcome_of_upToDate rfl rfl hUp hDiscovered'.keys_nodup hKnown
  refine ⟨files', ⟨log, 0, 0, options'.dryRun⟩, hFiles', ?_, hKeys, hIdle, rfl, rfl,
    ⟨_, hOutcome, rfl⟩, _, hAll, rfl⟩
  rcases runFiles_of_outcome_ok hOutcome with hDone | hApplied
  · exact hDone
  · rw [hApplied]
    exact apply_of_empty hAgainSave

def plainDisk : Disk :=
  ⟨[(["src"], .directory), (["src", "a.html"], .file "<p class=\" x\">".toUTF8)], []⟩

def plainEngine (d : Disk) : Engine :=
  new ⟨"src"⟩ (.load d ⟨"classfold.lock"⟩) (UtilityTable.compile ⟨.empty⟩)
    (.new "twk-" 0 none (.ofSeed 0)) {} (.ofSeed 0) 0

theorem isTree_plainDisk : plainDisk.IsTree := by
  decide

theorem eq_ok_of_toOption {ε α : Type} {result : Except ε α} {a : α}
    (h : result.toOption = some a) : result = .ok a := by
  cases result with
  | error error => cases h
  | ok other =>
    cases h
    rfl

theorem discover_plainDisk : plainDisk.discover ⟨"src"⟩ {} = .ok [⟨"src/a.html"⟩] :=
  eq_ok_of_toOption (by decide +kernel)

/-- A file is rewritten, and the run is repeated. -/
theorem runFiles_runFiles_plainDisk :
    ∃ report d' files' report',
      (plainEngine plainDisk).runFiles [⟨"src/a.html"⟩] plainDisk = (.ok report, d') ∧
      report.rewritten = 1 ∧ d'.discover ⟨"src"⟩ {} = .ok files' ∧
      (plainEngine d').runFiles files' d' = (.ok report', d') ∧
      ∀ f ∈ report'.files, f.2 = .unchanged ∨ f.2 = .unsupported := by
  have hReport : ((plainEngine plainDisk).runFiles [⟨"src/a.html"⟩] plainDisk).1.toOption.map
      RunReport.rewritten = some 1 := by
    decide +kernel
  have hApart : let d' := ((plainEngine plainDisk).runFiles [⟨"src/a.html"⟩] plainDisk).2
      (d'.discover ⟨"src"⟩ {}).toOption.all fun files => files.all fun p =>
        (d'.locate p).toOption ≠ (d'.locate ⟨"classfold.lock"⟩).toOption := by
    decide +kernel
  cases hRun : (plainEngine plainDisk).runFiles [⟨"src/a.html"⟩] plainDisk with
  | mk result d' =>
  rw [hRun] at hReport hApart
  cases result with
  | error error => cases hReport
  | ok report =>
    have hCache : ∀ files', d'.discover ⟨"src"⟩ {} = .ok files' →
        ∀ p ∈ files', d'.locate p ≠ d'.locate ⟨"classfold.lock"⟩ := by
      intro files' hFiles' p hp hSame
      dsimp only at hApart
      rw [hFiles'] at hApart
      have hOther := of_decide_eq_true (List.all_eq_true.mp hApart p hp)
      exact hOther (congrArg Except.toOption hSame)
    obtain ⟨files', report', hFiles', hAgain, _, hIdle, _⟩ :=
      runFiles_runFiles isTree_plainDisk ⟨"src"⟩ ⟨"classfold.lock"⟩ {}
        (UtilityTable.compile ⟨.empty⟩) (UtilityTable.compile ⟨.empty⟩) "twk-" "twk-" 0 0 none none
        (.ofSeed 0) (.ofSeed 0) (.ofSeed 0) (.ofSeed 0) {} {} 0 0 discover_plainDisk rfl hRun hCache
    exact ⟨report, d', files', report', rfl, Option.some.inj hReport, hFiles', hAgain, hIdle⟩

end ClassCollapse.Engine
