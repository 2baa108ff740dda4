import ClassCollapse.Proofs.Disk.Refusal
import ClassCollapse.Proofs.Run.Repetition

/-!
# What a run records of a file

A run in a tree can put everything that it made on the disk, unless it is the cache that is refused.
A run that has succeeded reports each file once. The cache remembers the texts of the files that were
processed, as they were before and after the run, and what it knew of the others.
-/

namespace ClassCollapse

/-- Whether a file was scanned, so that the cache remembers it anew. -/
def Action.isProcessed : Action → Bool
  | .unchanged => false
  | .unsupported => false
  | .noClasses => true
  | .rewritten _ _ => true

namespace Engine

open WriteBuffer

/-! ## Nothing is refused -/

theorem exists_flushTasks {d : Disk} (hTree : d.IsTree) {tasks : List WriteTask}
    (h : ∀ t ∈ tasks, ∃ place, d.Names t.path place ∧ d.node? place ≠ some .directory) :
    ∃ d', flushTasks tasks d = (.ok (), d') := by
  induction tasks generalizing d with
  | nil => exact ⟨d, rfl⟩
  | cons t tasks ih =>
    obtain ⟨place, hNames, hNode⟩ := h t List.mem_cons_self
    have hSave := Disk.save_of_names hTree hNames hNode t.content.toUTF8
    obtain ⟨_, hSaved⟩ := Disk.saved_of_save hTree hSave
    obtain ⟨d', hRest⟩ := ih hSaved.isTree (by
      intro t' ht'
      obtain ⟨place', hNames', hNode'⟩ := h t' (List.mem_cons_of_mem t ht')
      refine ⟨place', hSaved.keeps.names hNames', ?_⟩
      rw [Disk.node?_put d hNames.place_ne_nil]
      split
      · simp
      · exact hNode')
    refine ⟨d', ?_⟩
    rw [flushTasks, hSave]
    exact hRest

/-- A task is for a rewritten file or for the sheet beside it. -/
theorem path_of_mem_settled {now : UInt64} {cache : ChangeCache}
    {done : List (PendingFile × Injection)} {t : WriteTask}
    (h : t ∈ (done.foldl (settle now) (.empty, cache)).1.tasks) :
    ∃ x ∈ done, t.path = x.1.path ∨ ∃ css, x.2.companion = some (t.path, css) := by
  induction done using List.reverseRecOn generalizing t with
  | nil => cases h
  | append_singleton done last ih =>
    rw [List.foldl_append] at h
    have hOld : ∀ t' ∈ (done.foldl (settle now) (.empty, cache)).1.tasks, t'.path = t.path →
        ∃ x ∈ done ++ [last], t.path = x.1.path ∨ ∃ css, x.2.companion = some (t.path, css) := by
      intro t' ht' hSame
      obtain ⟨x, hx, hPath⟩ := ih ht'
      exact ⟨x, List.mem_append_left _ hx, hSame ▸ hPath⟩
    rw [List.foldl_cons, List.foldl_nil, settle_eq, tasks_add] at h
    rcases path_of_mem_addTo h with hPath | ⟨t', ht', hSame⟩
    · exact ⟨last, by simp, .inl hPath⟩
    · rw [addSheet] at ht'
      split at ht'
      · exact hOld t' ht' hSame
      next sheet css hSheet =>
        rw [tasks_add] at ht'
        rcases path_of_mem_addTo ht' with hPath | ⟨t'', ht'', hSame'⟩
        · exact ⟨last, by simp, .inr ⟨css, by rw [hSheet, ← hPath, hSame]⟩⟩
        · exact hOld t'' ht'' (hSame'.trans hSame)

theorem placement_of_companion {placement : Placement} {path : Path} {content css : String}
    {existing : Option String} {suffix : Nat}
    (h : (placement.inject path content css existing suffix).companion ≠ none) :
    placement = .companion := by
  cases placement with
  | companion => rfl
  | inline =>
    unfold Placement.inject at h
    split at h <;> exact absurd rfl h

theorem read_of_existingSheet {d : Disk} {p : Path} {sheet : Option String}
    (h : existingSheet d .companion p = .ok sheet) :
    d.read (Placement.companionPath p) ≠ .error .isADirectory := by
  intro hRead
  have hText : d.readText (Placement.companionPath p) = .error .isADirectory := by
    rw [Disk.readText, hRead]
  unfold existingSheet at h
  simp only [hText] at h
  cases h

/-- Every task of a run names what is no directory. -/
theorem Prepared.names_task {d : Disk} {root : Path} {scan : ScanConfig} {base : Place}
    {files : List Path} {e : Engine} {done : List (PendingFile × Injection)} {out : RunOutput}
    (h : Prepared d root scan base files e done out)
    (hSheets : ∀ x ∈ done,
      existingSheet d x.1.placement x.1.path = .ok x.1.existingSheet)
    {t : WriteTask} (ht : t ∈ out.writes.tasks) :
    ∃ place, d.Names t.path place ∧ d.node? place ≠ some .directory := by
  have hTasks : out.writes = (done.foldl (settle e.now) (.empty, e.forgetUnseen.2.cache)).1 := by
    rw [h.output_eq]
    rfl
  rw [hTasks] at ht
  obtain ⟨x, hx, hPath⟩ := path_of_mem_settled ht
  obtain ⟨names, hSource, hFile⟩ := (h.discovered.mem_iff _).mp (h.path_mem hx)
  have hNames := hSource.pathBelow_names h.isTree h.discovered.leadsTo
  rw [← hFile] at hNames
  rcases hPath with hPath | ⟨css, hSheet⟩
  · obtain ⟨content, hContent, _⟩ := hSource
    refine ⟨base ++ names, hPath ▸ hNames, ?_⟩
    rw [Disk.fileAt?_eq_some_iff.mp hContent]
    simp
  · have hPlacement : x.1.placement = .companion := by
      obtain ⟨text, suffix, _, hInjection⟩ := h.rewritten x hx
      apply placement_of_companion
      rw [← injection, ← hInjection, hSheet]
      simp
    have hRead := hSheets x hx
    rw [hPlacement] at hRead
    have hThere : t.path = Placement.companionPath x.1.path :=
      (h.proper x hx).sheet_eq _ hSheet
    rw [hThere]
    rcases Disk.names_companionPath hNames (h.proper x hx).placement_eq with
      ⟨sheet, hSheetNames⟩ | ⟨above, hLeads⟩
    · refine ⟨sheet, hSheetNames, ?_⟩
      intro hDirectory
      exact read_of_existingSheet hRead ((hSheetNames.leadsTo hDirectory).read_eq h.isTree)
    · exact absurd (hLeads.read_eq h.isTree) (read_of_existingSheet hRead)

/-! ## The report -/

/-- What is done is reported as it is, and what waited as rewritten. -/
inductive Reported : Processed → String × Action → Prop
  | done (key : String) (action : Action) : Reported (.done key action) (key, action)
  | waiting (file : PendingFile) (companion : Option String) :
    Reported (.pending file) (file.key, .rewritten file.occurrences companion)

theorem reported_log (e : Engine) {processed : List Processed}
    {done : List (PendingFile × Injection)}
    (h : done.map Prod.fst = processed.filterMap Processed.pending?) :
    List.Forall₂ Reported processed (e.log processed done) := by
  induction processed generalizing done with
  | nil => exact .nil
  | cons x processed ih =>
    cases x with
    | done key action => exact .cons (.done key action) (ih h)
    | pending file =>
      cases done with
      | nil => cases h
      | cons x done =>
        obtain ⟨rfl, hRest⟩ := List.cons.inj h
        exact .cons (.waiting x.1 _) (ih hRest)

/-! ## What the cache remembers -/

/-- What a run with an action for a file makes of its entry: it holds the texts before and after the
run, or it is as it was. -/
inductive Recorded (d d' : Disk) (cache cache' : ChangeCache) (key : String) (p : Path) :
    Action → Prop
  | anew {action : Action} {read written : String} {now : UInt64}
    (hAction : action.isProcessed = true) (hRead : d.readText p = .ok read)
    (hWritten : d'.readText p = .ok written)
    (hEntry : cache'.manifest.find? key = some (ChangeCache.newEntry now read written)) :
    Recorded d d' cache cache' key p action
  | kept {action : Action} (hAction : action.isProcessed = false)
    (hEntry : cache'.manifest.find? key = cache.manifest.find? key) :
    Recorded d d' cache cache' key p action

namespace Ran

variable {d d₁ d' : Disk} {root : Path} {scan : ScanConfig} {base kept names : Place}
  {files : List Path} {e : Engine} {done : List (PendingFile × Injection)} {out : RunOutput}
  (h : Ran d root scan base files e done out d₁ d' kept)
include h

theorem ne_kept (hSource : d.IsSourceAt scan base names)
    (hApart : d'.locate (Disk.pathBelow root names) ≠ d'.locate out.cache.path) :
    base ++ names ≠ kept := by
  intro hKept
  apply hApart
  have hThere := hSource.keeps h.keeps
  have hNames := hThere.pathBelow_names h.saved.isTree h.leadsTo
  obtain ⟨content, hFile, _⟩ := hThere
  rw [hNames.locate_eq h.saved.isTree (by simp [Disk.fileAt?_eq_some_iff.mp hFile]),
    h.saved.names.locate_eq h.saved.isTree (by simp [h.saved.node?_eq]), hKept]

/-- A file at another place than the cache has the text that was put there before the cache. -/
theorem readText_eq (hSource : d.IsSourceAt scan base names) (hOther : base ++ names ≠ kept)
    {text : String} (hFile : d₁.fileAt? (base ++ names) = some text.toUTF8) :
    d'.readText (Disk.pathBelow root names) = .ok text := by
  have hNames := (hSource.keeps h.keeps).pathBelow_names h.saved.isTree h.leadsTo
  apply hNames.readText_eq h.saved.isTree
  rw [← Disk.fileAt?_eq_some_iff, h.saved.fileAt?_eq, if_neg hOther, hFile]

theorem readText_of_done {x : PendingFile × Injection} (hx : x ∈ done)
    (hApart : d'.locate x.1.path ≠ d'.locate out.cache.path) :
    d'.readText x.1.path = .ok x.2.content := by
  obtain ⟨names, hSource, hPath⟩ := (h.discovered.mem_iff _).mp (h.path_mem hx)
  have hNames : d₁.Names x.1.path (base ++ names) := by
    rw [hPath]
    exact h.names_of_mem hSource
  have hMem := h.settled.mem_tasks x hx
  rw [hPath] at hApart ⊢
  apply h.readText_eq hSource (h.ne_kept hSource hApart)
  rcases h.flushed.fileAt?_eq (base ++ names) with ⟨t, ht, hTask, hWritten⟩ | ⟨hNone, _⟩
  · rcases h.settled.task_eq t ht with ⟨x', hx', rfl⟩ | hNone
    · have hSame : x'.1.path = x.1.path := by rw [h.path_eq_of_names hx' hTask, hPath]
      have hKeys : x'.1.key = x.1.key := by
        rw [(h.proper x' hx').key_eq, (h.proper x hx).key_eq, hSame]
      rw [List.inj_on_of_nodup_map h.keys_nodup hx' hx hKeys] at hWritten
      rw [hWritten]
      simp [taskOf, WriteTask.content, String.join]
    · have hPlacement := (h.proper x hx).placement_eq
      rw [← Placement.forPath?_of_fileName?_eq (hTask.fileName?_eq.trans hNames.fileName?_eq.symm),
        hNone] at hPlacement
      cases hPlacement
  · have hTask : d₁.Names (taskOf x).path (base ++ names) := hNames
    exact absurd hTask (hNone _ hMem)

theorem readText_of_untouched {p : Path} (hp : p ∈ files)
    (hPlacement : Placement.forPath? p ≠ none)
    (hNot : Path.fileKey root p ∉ done.map (·.1.key))
    (hApart : d'.locate p ≠ d'.locate out.cache.path) {text : String}
    (hRead : d.readText p = .ok text) : d'.readText p = .ok text := by
  obtain ⟨names, hSource, rfl⟩ := (h.discovered.mem_iff p).mp hp
  apply h.readText_eq hSource (h.ne_kept hSource hApart)
  have hNames := hSource.pathBelow_names h.isTree h.discovered.leadsTo
  have hSame : d₁.fileAt? (base ++ names) = d.fileAt? (base ++ names) := by
    rcases h.flushed.fileAt?_eq (base ++ names) with ⟨t, ht, hTask, _⟩ | ⟨_, hSame⟩
    · rcases h.settled.task_eq t ht with ⟨x, hx, rfl⟩ | hNone
      · refine absurd (List.mem_map.mpr ⟨x, hx, ?_⟩) hNot
        rw [(h.proper x hx).key_eq, h.path_eq_of_names hx hTask]
      · refine absurd ?_ hPlacement
        rw [← hNone]
        apply Placement.forPath?_of_fileName?_eq
        rw [hNames.fileName?_eq, hTask.fileName?_eq]
    · exact hSame
  obtain ⟨content, hFile, _⟩ := hSource
  rw [Disk.readText_eq_ok_iff,
    hNames.read_eq h.isTree (Disk.fileAt?_eq_some_iff.mp hFile)] at hRead
  rw [hSame, hFile, Except.ok.inj hRead]

/-- A file that is done with is not there for the second phase. -/
theorem key_notMem_done (hKeys : (e.processed.map Processed.key).Nodup) {y : Processed}
    (hy : y ∈ e.processed) (hDone : y.pending? = none) : y.key ∉ done.map (·.1.key) := by
  intro hMem
  obtain ⟨x, hx, hKey⟩ := List.mem_map.mp hMem
  have hPending : x.1 ∈ e.pending := h.done_eq ▸ List.mem_map_of_mem hx
  have hEqual : .pending x.1 = y :=
    List.inj_on_of_nodup_map hKeys (mem_pending_iff.mp hPending) hy hKey
  rw [← hEqual] at hDone
  cases hDone

/-- A run reports its files in their order, and its cache records of each what the report says. -/
theorem recorded {cache : ChangeCache} {compile : Compiler} {resolver : NameResolver}
    {options : RunOptions} {random : RandomSource} {now : UInt64}
    (hAll : processAll d files (new root cache compile resolver options random now) = .ok e)
    (hApart : ∀ p ∈ files, d'.locate p ≠ d'.locate out.cache.path) :
    out.report.files.map Prod.fst = files.map (Path.fileKey root) ∧
      ∀ p ∈ files, ∃ action, (Path.fileKey root p, action) ∈ out.report.files ∧
        Recorded d d' cache out.cache (Path.fileKey root p) p action := by
  have hKeys := h.discovered.keys_nodup
  obtain ⟨processed, hProcessed, _, _, hGated⟩ := gated_processAll root cache hAll rfl hKeys
    (fun _ _ => List.not_mem_nil) (fun _ _ => rfl)
  have hSame : e.processed = processed := hProcessed
  have hReported : List.Forall₂ Reported processed out.report.files := by
    rw [h.output_eq, output, report_eq, ← hSame]
    exact reported_log e.forgetUnseen.2 (h.done_eq.trans e.filterMap_processed.symm)
  have hOwnKeys : files.map (Path.fileKey root) = processed.map Processed.key :=
    map_eq_of_forall₂ hGated fun _ _ hIs => hIs.key_eq.symm
  have hReportKeys : processed.map Processed.key = out.report.files.map Prod.fst :=
    map_eq_of_forall₂ hReported fun _ _ hEntry => by cases hEntry <;> rfl
  refine ⟨(hOwnKeys.trans hReportKeys).symm, ?_⟩
  intro p hp
  obtain ⟨y, hy, hIs⟩ := (exists_of_forall₂ hGated).1 p hp
  obtain ⟨⟨key, action⟩, hEntry, hSays⟩ := (exists_of_forall₂ hReported).1 y hy
  have hNot : y.pending? = none → Path.fileKey root p ∉ done.map (·.1.key) := by
    intro hDone
    rw [← hIs.key_eq]
    refine h.key_notMem_done ?_ (hSame ▸ hy) hDone
    rw [hSame, ← hOwnKeys]
    exact hKeys
  generalize hFound : e.cache.manifest.find? (Path.fileKey root p) = entry at hIs
  cases hIs with
  | unchanged hRead hKnown =>
    cases hSays
    refine ⟨.unchanged, hEntry, .kept rfl ?_⟩
    rw [h.find?_eq_of_not_done hp (hNot rfl), hFound]
  | unsupported hRead hModified =>
    cases hSays
    refine ⟨.unsupported, hEntry, .kept rfl ?_⟩
    rw [h.find?_eq_of_not_done hp (hNot rfl), hFound]
  | noClasses hRead hModified hPlacement =>
    cases hSays
    have hWritten := h.readText_of_untouched hp hPlacement (hNot rfl) (hApart p hp) hRead
    have hKept := (h.find?_eq_of_not_done hp (hNot rfl)).trans hFound
    exact ⟨.noClasses, hEntry, .anew rfl hRead hWritten hKept⟩
  | @waiting file hKey hPath hRead hModified hSheet =>
    cases hSays with
    | waiting _ companion =>
      have hPending : file ∈ e.pending := mem_pending_iff.mpr (hSame ▸ hy)
      rw [← h.done_eq] at hPending
      obtain ⟨x, hx, rfl⟩ := List.mem_map.mp hPending
      rw [← hKey]
      refine ⟨_, hEntry, .anew rfl hRead ?_ (h.settled.find?_eq x hx)⟩
      rw [← hPath]
      exact h.readText_of_done hx (hPath ▸ hApart p hp)

end Ran

/-! ## Runs -/

/-- A tree is left in which the same can be read of a cache as before. -/
structure CacheKept (cachePath : Path) (d d' : Disk) : Prop where
  isTree : d'.IsTree
  read_iff : ∀ content, d'.read cachePath = .ok content ↔ d.read cachePath = .ok content

theorem CacheKept.refl {cachePath : Path} {d : Disk} (h : d.IsTree) : CacheKept cachePath d d :=
  ⟨h, fun _ => Iff.rfl⟩

/-- Saving elsewhere keeps a cache that there is. -/
theorem cacheKept_of_save {d d' : Disk} {p cachePath : Path} {content known : ByteArray}
    (hTree : d.IsTree) (h : d.save p content = (.ok (), d')) (hCache : d.read cachePath = .ok known)
    (hApart : d'.locate p ≠ d'.locate cachePath) : CacheKept cachePath d d' := by
  obtain ⟨place, hSaved⟩ := Disk.saved_of_save hTree h
  obtain ⟨kept, hNames, hNode⟩ := (Disk.read_eq_ok_iff hTree).mp hCache
  have hNames' := hSaved.keeps.names hNames
  have hOther : kept ≠ place := by
    rintro rfl
    have hFile : d'.node? kept ≠ some .directory := by simp [hSaved.node?_eq]
    exact hApart ((hSaved.names.locate_eq hSaved.isTree hFile).trans
      (hNames'.locate_eq hSaved.isTree hFile).symm)
  have hKept : d'.read cachePath = .ok known := by
    apply hNames'.read_eq hSaved.isTree
    rw [← Disk.fileAt?_eq_some_iff, hSaved.fileAt?_eq, if_neg hOther]
    exact Disk.fileAt?_eq_some_iff.mpr hNode
  refine ⟨hSaved.isTree, fun other => ?_⟩
  rw [hKept, hCache]

/-- A cache that is refused could not be read before either. -/
theorem cacheKept_of_save_error {d d₁ d' : Disk} {cache : ChangeCache} {error : IoError}
    (hTree : d.IsTree) (hTree₁ : d₁.IsTree) (hKeeps : Disk.Keeps d d₁)
    (h : cache.save d₁ = (.error error, d')) : CacheKept cache.path d d' := by
  have hTree' := Disk.isTree_of_save_error hTree₁ h
  have hNone := Disk.read_ne_ok_of_save_error hTree₁ h
  refine ⟨hTree', fun content => iff_of_false (hNone content) ?_⟩
  intro hRead
  have hAll := hKeeps.trans (Disk.grown_of_save_error h).keeps
  obtain ⟨content', hRead'⟩ := hAll.exists_read hTree hTree' hRead
  exact hNone content' hRead'

theorem Prepared.existingSheet_eq {d : Disk} {root : Path} {scan : ScanConfig} {base : Place}
    {files : List Path} {e last : Engine} {done : List (PendingFile × Injection)} {out : RunOutput}
    (h : Prepared d root scan base files last done out) (hStart : e.processed = [])
    (hSeen : e.seen = []) (hRoot : e.scanRoot = root) (hAll : processAll d files e = .ok last)
    {x : PendingFile × Injection} (hx : x ∈ done) :
    existingSheet d x.1.placement x.1.path = .ok x.1.existingSheet := by
  obtain ⟨processed, hLast, _, _, hGated⟩ := gated_processAll root e.cache hAll hRoot
    h.discovered.keys_nodup (by simp [hSeen]) (fun _ _ => rfl)
  rw [hStart, List.nil_append] at hLast
  have hPending : x.1 ∈ last.pending := h.done_eq ▸ List.mem_map_of_mem hx
  obtain ⟨p, _, hIs⟩ := (exists_of_forall₂ hGated).2 _ (hLast ▸ mem_pending_iff.mp hPending)
  generalize last.cache.manifest.find? (Path.fileKey root p) = entry at hIs
  cases hIs with
  | waiting _ hPath _ _ hSheet => rwa [hPath]

/-- A run over discovered files fails in its first phase, is a dry run, or writes the files. Then it
saves the cache, or the cache is refused. -/
inductive Ended (d : Disk) (root : Path) (scan : ScanConfig) (base : Place) (files : List Path)
    (e : Engine) : Except RunError RunReport → Disk → Prop
  | failed {error : RunError} (hAll : processAll d files e = .error error) :
    Ended d root scan base files e (.error error) d
  | dry {last : Engine} {done : List (PendingFile × Injection)} {out : RunOutput}
    (hAll : processAll d files e = .ok last)
    (hPrepared : Prepared d root scan base files last done out)
    (hDry : last.options.dryRun = true) : Ended d root scan base files e (.ok out.report) d
  | refused {last : Engine} {done : List (PendingFile × Injection)} {out : RunOutput}
    {d₁ d' : Disk} {cause : IoError} {error : RunError} (hAll : processAll d files e = .ok last)
    (hPrepared : Prepared d root scan base files last done out)
    (hPath : out.cache.path = e.cache.path) (hReal : last.options.dryRun = false)
    (hFlushed : WriteBuffer.Flushed d out.writes.tasks d₁)
    (hSave : out.cache.save d₁ = (.error cause, d')) :
    Ended d root scan base files e (.error error) d'
  | saved {last : Engine} {done : List (PendingFile × Injection)} {out : RunOutput}
    {d₁ d' : Disk} {kept : Place} (hAll : processAll d files e = .ok last)
    (hOutcome : e.outcome files d = .ok out) (hPath : out.cache.path = e.cache.path)
    (hReal : last.options.dryRun = false)
    (hRan : Ran d root scan base files last done out d₁ d' kept) :
    Ended d root scan base files e (.ok out.report) d'

theorem Prepared.dryRun_report {d : Disk} {root : Path} {scan : ScanConfig} {base : Place}
    {files : List Path} {last : Engine} {done : List (PendingFile × Injection)} {out : RunOutput}
    (h : Prepared d root scan base files last done out) :
    out.report.dryRun = last.options.dryRun := by
  rw [h.output_eq]
  rfl

theorem ended_of_runFiles {d d' : Disk} {root : Path} {scan : ScanConfig} {base : Place}
    {files : List Path} (hTree : d.IsTree) (hDiscovered : d.Discovered root scan base files)
    {e : Engine} (hCoherent : Coherent e) (hNew : Tracks d [] e) (hStart : e.processed = [])
    (hSeen : e.seen = []) (hRoot : e.scanRoot = root) {result : Except RunError RunReport}
    (hRun : e.runFiles files d = (result, d')) : Ended d root scan base files e result d' := by
  cases hAll : processAll d files e with
  | error error =>
    rw [runFiles, hAll] at hRun
    cases hRun
    exact .failed hAll
  | ok last =>
    obtain ⟨done, out, hFinish, hPrepared, hPath⟩ :=
      prepared_of_processAll hTree hDiscovered hCoherent hNew hRoot hAll
    have hOutcome : e.outcome files d = .ok out := by
      rw [outcome, hAll]
      exact hFinish
    rw [runFiles, hAll] at hRun
    dsimp only at hRun
    rw [hFinish] at hRun
    dsimp only at hRun
    cases hDry : last.options.dryRun with
    | true =>
      rw [hDry, if_pos rfl] at hRun
      cases hRun
      exact .dry hAll hPrepared hDry
    | false =>
      obtain ⟨d₁, hFlush⟩ := exists_flushTasks hTree fun t ht =>
        hPrepared.names_task (fun x => hPrepared.existingSheet_eq hStart hSeen hRoot hAll) ht
      have hFlushed := flushed_of_flushTasks hTree hFlush
      rw [hDry, if_neg Bool.false_ne_true, RunOutput.apply, flush, hFlush] at hRun
      dsimp only [Except.map] at hRun
      cases hSave : out.cache.save d₁ with
      | mk saved d₂ =>
      rw [hSave] at hRun
      cases saved with
      | error error =>
        cases hRun
        exact .refused hAll hPrepared hPath hDry hFlushed hSave
      | ok _ =>
        cases hRun
        obtain ⟨kept, hSaved⟩ := Disk.saved_of_save hFlushed.isTree hSave
        exact .saved hAll hOutcome hPath hDry ⟨hPrepared, hFlushed, hSaved⟩

theorem Ended.keeps {d d' : Disk} {root : Path} {scan : ScanConfig} {base : Place}
    {files : List Path} {e : Engine} {result : Except RunError RunReport} (hTree : d.IsTree)
    (h : Ended d root scan base files e result d') : d'.IsTree ∧ Disk.Keeps d d' := by
  cases h with
  | failed hAll => exact ⟨hTree, .refl d⟩
  | dry hAll hPrepared hDry => exact ⟨hTree, .refl d⟩
  | refused hAll hPrepared hPath hReal hFlushed hSave =>
    exact ⟨Disk.isTree_of_save_error hFlushed.isTree hSave,
      hFlushed.keeps.trans (Disk.grown_of_save_error hSave).keeps⟩
  | saved hAll hOutcome hPath hReal hRan => exact ⟨hRan.saved.isTree, hRan.keeps⟩

/-- A run over the files that are discovered in a tree saves its cache, or it is a dry run or fails
and keeps the cache. -/
theorem ran_or_cacheKept {d d' : Disk} {root : Path} {scan : ScanConfig} {base : Place}
    {files : List Path} (hTree : d.IsTree) (hDiscovered : d.Discovered root scan base files)
    {e : Engine} (hCoherent : Coherent e) (hNew : Tracks d [] e) (hStart : e.processed = [])
    (hSeen : e.seen = []) (hRoot : e.scanRoot = root) {result : Except RunError RunReport}
    (hRun : e.runFiles files d = (result, d')) :
    (∃ report last done out d₁ kept, result = .ok report ∧ report.dryRun = false ∧
      Ran d root scan base files last done out d₁ d' kept ∧ out.cache.path = e.cache.path ∧
        processAll d files e = .ok last ∧ out.report = report) ∨
    ((∀ report, result = .ok report → report.dryRun = true) ∧
      CacheKept e.cache.path d d') := by
  cases ended_of_runFiles hTree hDiscovered hCoherent hNew hStart hSeen hRoot hRun with
  | failed hAll =>
    refine .inr ⟨?_, .refl hTree⟩
    rintro report ⟨⟩
  | dry hAll hPrepared hDry =>
    refine .inr ⟨?_, .refl hTree⟩
    rintro report ⟨⟩
    rw [hPrepared.dryRun_report, hDry]
  | refused hAll hPrepared hPath hReal hFlushed hSave =>
    refine .inr ⟨?_, ?_⟩
    · rintro report ⟨⟩
    rw [← hPath]
    exact cacheKept_of_save_error hTree hFlushed.isTree hFlushed.keeps hSave
  | saved hAll hOutcome hPath hReal hRan =>
    exact .inl ⟨_, _, _, _, _, _, rfl, hRan.dryRun_report.trans hReal, hRan, hPath, hAll, rfl⟩

end Engine

end ClassCollapse
