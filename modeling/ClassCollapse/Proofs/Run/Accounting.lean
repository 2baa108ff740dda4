import ClassCollapse.Proofs.Disk.Discovery
import ClassCollapse.Proofs.Distinct
import ClassCollapse.Proofs.Run.Buffering
import ClassCollapse.Proofs.Run.Recording

/-!
# The account of a run

Visits without an error, of whatever files and on whatever disks, are all accounted for: the report
lists the files once, in the order of their first visits, with what was decided at these visits. A
file that is reported as rewritten has one task, with the text whose digest is remembered. All other
tasks are for companion sheets, and a sheet may itself be a file of the run.
-/

namespace ClassCollapse

theorem RunReport.counts_eq (r : RunReport) :
    r.rewritten + r.unchanged + r.noClasses + r.unsupported = r.files.length := by
  obtain ⟨files, assigned, invocations, dryRun⟩ := r
  simp only [rewritten, unchanged, noClasses, unsupported, count]
  induction files with
  | nil => rfl
  | cons entry files ih =>
    obtain ⟨key, action⟩ := entry
    cases action <;> simp [Action.isRewritten] at ih ⊢ <;> omega

namespace Engine

open Placement WriteBuffer

def keysOf (root : Path) (visits : List (Disk × Path)) : List String :=
  visits.map fun visit => Path.fileKey root visit.2

def firstVisit? (root : Path) (visits : List (Disk × Path)) (key : String) :
    Option (Disk × Path) :=
  visits.find? fun visit => Path.fileKey root visit.2 == key

/-- What a run that started with a cache does with a file, by what it finds at its visit. -/
inductive Decides (cache : ChangeCache) (root : Path) (d : Disk) (p : Path) : Action → Prop
  | unchanged {content : String} (hRead : d.readText p = .ok content)
    (hKnown : cache.isModified (Path.fileKey root p) content = false) :
    Decides cache root d p .unchanged
  | unsupported {content : String} (hRead : d.readText p = .ok content)
    (hModified : cache.isModified (Path.fileKey root p) content = true)
    (hPlacement : forPath? p = none) : Decides cache root d p .unsupported
  | noClasses {content : String} (hRead : d.readText p = .ok content)
    (hModified : cache.isModified (Path.fileKey root p) content = true)
    (hPlacement : forPath? p ≠ none) (hScan : Markup.scan content = []) :
    Decides cache root d p .noClasses
  | rewritten {content : String} {sheet : Option String} (hRead : d.readText p = .ok content)
    (hModified : cache.isModified (Path.fileKey root p) content = true)
    (hPlacement : forPath? p ≠ none) (hScan : Markup.scan content ≠ [])
    (hSheet : ∀ key ∈ sheet, key = Path.fileKey root (companionPath p)) :
    Decides cache root d p (.rewritten (Markup.scan content).length sheet)

/-- A file has one task, for one text, and the cache remembers the digest of this text. -/
def WrittenOnce (out : RunOutput) (key : String) (p : Path) : Prop :=
  ∃ text entry, (out.writes.tasks.filter fun t => t.path.same p) = [⟨p, [text]⟩] ∧
    out.cache.manifest.find? key = some entry ∧ entry.hashModified = Digest.ofText text

/-- A path is that of a file that is reported as rewritten, or else that of the sheet in its
entry, which is no path of a file that could be rewritten. -/
def IsOutput (root : Path) (visits : List (Disk × Path)) (report : RunReport) (path : Path) : Prop :=
  ∃ key occurrences sheet d p, (key, .rewritten occurrences sheet) ∈ report.files ∧
    firstVisit? root visits key = some (d, p) ∧
    (path = p ∨ path = companionPath p ∧ sheet = some (Path.fileKey root path) ∧
      forPath? path = none)

/-- A result accounts for visits from a start with a cache. -/
structure Accounts (cache : ChangeCache) (root : Path) (visits : List (Disk × Path))
    (out : RunOutput) : Prop where
  keys_eq : out.report.files.map Prod.fst = (keysOf root visits).eraseDups
  decided : ∀ entry ∈ out.report.files, ∃ d p, firstVisit? root visits entry.1 = some (d, p) ∧
    Decides cache root d p entry.2 ∧
    (entry.2.isRewritten = true → WrittenOnce out entry.1 p)
  task : ∀ t ∈ out.writes.tasks, IsOutput root visits out.report t.path
  counts_eq : out.report.rewritten + out.report.unchanged + out.report.noClasses +
    out.report.unsupported = out.report.files.length

/-- A report has exactly the files that are discovered below a root, each under a key of its own. -/
structure Covers (d : Disk) (root : Path) (scan : ScanConfig) (files : List Path)
    (report : RunReport) : Prop where
  keys_eq : report.files.map Prod.fst = files.map (Path.fileKey root)
  keys_nodup : (files.map (Path.fileKey root)).Nodup
  mem_keys_iff : ∃ base, d.locate root = .ok base ∧ ∀ key, key ∈ report.files.map Prod.fst ↔
    ∃ entry ∈ d.below base, Disk.isSource scan entry = true ∧ key = Text.join "/" entry.1

/-! ## What visits process -/

/-- What a file is processed as, by what is found at its visit. -/
inductive ProcessedFor (cache : ChangeCache) (root : Path) (d : Disk) (p : Path) : Processed → Prop
  | done {action : Action} (hDecides : Decides cache root d p action)
    (hKept : action.isRewritten = false) :
    ProcessedFor cache root d p (.done (Path.fileKey root p) action)
  | waiting {file : PendingFile} (hKey : file.key = Path.fileKey root p) (hPath : file.path = p)
    (hPlacement : forPath? p = some file.placement) (hRead : d.readText p = .ok file.content)
    (hModified : cache.isModified (Path.fileKey root p) file.content = true)
    (hScan : Markup.scan file.content ≠ [])
    (hOccurrences : file.occurrences = (Markup.scan file.content).length) :
    ProcessedFor cache root d p (.pending file)

theorem ProcessedFor.key_eq {cache : ChangeCache} {root : Path} {d : Disk} {p : Path} {x : Processed}
    (h : ProcessedFor cache root d p x) : x.key = Path.fileKey root p := by
  cases h with
  | done => rfl
  | waiting hKey => exact hKey

theorem ProcessedFor.decides {cache : ChangeCache} {root : Path} {d : Disk} {p : Path} {key : String}
    {action : Action} (h : ProcessedFor cache root d p (.done key action)) :
    Decides cache root d p action ∧ action.isRewritten = false := by
  cases h with
  | done hDecides hKept => exact ⟨hDecides, hKept⟩

theorem ProcessedFor.path_eq {cache : ChangeCache} {root : Path} {d : Disk} {p : Path}
    {file : PendingFile} (h : ProcessedFor cache root d p (.pending file)) : file.path = p := by
  cases h with
  | waiting _ hPath => exact hPath

theorem ProcessedFor.proper {cache : ChangeCache} {root : Path} {d : Disk} {p : Path} {e : Engine}
    {x : PendingFile × Injection} (h : ProcessedFor cache root d p (.pending x.1))
    (hRewritten : e.Rewritten x) : Proper root x := by
  cases h with
  | waiting hKey hPath hPlacement => exact ⟨hPath ▸ hKey, hPath ▸ hPlacement, hRewritten.sheet_eq⟩

theorem ProcessedFor.decides_rewritten {cache : ChangeCache} {d : Disk} {p : Path} {e : Engine}
    {x : PendingFile × Injection} (h : ProcessedFor cache e.scanRoot d p (.pending x.1))
    (hRewritten : e.Rewritten x) : Decides cache e.scanRoot d p (e.rewrittenAction x) := by
  cases h with
  | waiting _ hPath hPlacement hRead hModified hScan hOccurrences =>
    rw [rewrittenAction, hOccurrences]
    refine .rewritten hRead hModified (by simp [hPlacement]) hScan ?_
    intro key hSheet
    obtain ⟨⟨sheet, css⟩, hMem, rfl⟩ := Option.mem_map.mp hSheet
    have hThere : sheet = companionPath x.1.path := hRewritten.sheet_eq (sheet, css) hMem
    rw [← hPath, ← hThere]

theorem Visit.processedFor {d : Disk} {p : Path} {cache : ChangeCache} {e e' : Engine}
    (h : Visit d p e (.ok ()) e') (hNew : e.keyOf p ∉ e.seen) (hScan : e.scan = Markup.scan)
    (hUnseen : KeepsUnseen cache e) : ∃ x, ProcessedFor cache e.scanRoot d p x ∧
      e'.worklist = e.worklist.push x ∧ e'.seen = e.keyOf p :: e.seen := by
  have hGate : ∀ content, cache.isModified (Path.fileKey e.scanRoot p) content =
      e.cache.isModified (e.keyOf p) content :=
    fun content => (ChangeCache.isModified_congr (hUnseen _ hNew) content).symm
  cases h with
  | again hSeen => exact absurd hSeen hNew
  | unchanged content _ hRead hKnown =>
    exact ⟨_, .done (.unchanged hRead ((hGate content).trans hKnown)) rfl, rfl, rfl⟩
  | unsupported content _ hRead hModified hPlacement =>
    exact ⟨_, .done (.unsupported hRead ((hGate content).trans hModified) hPlacement) rfl, rfl, rfl⟩
  | noClasses content placement _ hRead hModified hPlacement hNothing =>
    rw [hScan] at hNothing
    refine ⟨_, .done (.noClasses hRead ((hGate content).trans hModified) ?_ hNothing) rfl, rfl, rfl⟩
    simp [hPlacement]
  | waiting content placement sheet _ hRead hModified hPlacement hFound hSheet =>
    rw [hScan] at hFound
    refine ⟨.pending ⟨e.keyOf p, p, content, placement, (e.scan content).length, sheet⟩,
      .waiting rfl rfl hPlacement hRead ((hGate content).trans hModified) hFound ?_, ?_,
      seen_collectAll _ _ _⟩
    · rw [hScan]
    · rw [push, worklist_collectAll]
      rfl

structure Listed (cache : ChangeCache) (root : Path) (visits : List (Disk × Path)) (e : Engine) :
    Prop where
  coherent : Coherent e
  scanRoot_eq : e.scanRoot = root
  keys_eq : e.processed.map Processed.key = (keysOf root visits).eraseDups
  processedFor : ∀ x ∈ e.processed, ∃ d p, firstVisit? root visits x.key = some (d, p) ∧
    ProcessedFor cache root d p x

theorem Listed.forgetUnseen {cache : ChangeCache} {root : Path} {visits : List (Disk × Path)}
    {e : Engine} (h : Listed cache root visits e) : Listed cache root visits e.forgetUnseen.2 :=
  ⟨h.coherent.setCache _, h.scanRoot_eq, h.keys_eq, h.processedFor⟩

/-- An engine has visited files without an error. -/
structure Visited (cache : ChangeCache) (root : Path) (visits : List (Disk × Path)) (e : Engine) :
    Prop extends Listed cache root visits e where
  keepsUnseen : KeepsUnseen cache e
  mem_seen_iff : ∀ key, key ∈ e.seen ↔ key ∈ keysOf root visits

theorem visited_new (scanRoot : Path) (cache : ChangeCache) (compile : Compiler)
    (namePrefix : String) (maxInvocations : Nat) (strategy : Option NamingStrategy)
    (names random : RandomSource) (options : RunOptions) (now : UInt64) :
    Visited cache scanRoot [] (new scanRoot cache compile
      (.new namePrefix maxInvocations strategy names) options random now) where
  coherent := coherent_new scanRoot cache compile options random now
    (NameResolver.sound_new namePrefix maxInvocations strategy names) rfl
  scanRoot_eq := rfl
  keys_eq := rfl
  processedFor := fun _ hx => absurd hx List.not_mem_nil
  keepsUnseen := fun _ _ => rfl
  mem_seen_iff := fun _ => Iff.rfl

theorem mem_of_firstVisit? {root : Path} {visits : List (Disk × Path)} {key : String}
    {first : Disk × Path} (h : firstVisit? root visits key = some first) :
    first ∈ visits ∧ Path.fileKey root first.2 = key := by
  rw [firstVisit?] at h
  have hKey := List.find?_some h
  exact ⟨List.mem_of_find?_eq_some h, beq_iff_eq.mp hKey⟩

theorem firstVisit?_concat {root : Path} {visits : List (Disk × Path)} {key : String}
    {first : Disk × Path} (h : firstVisit? root visits key = some first) (last : Disk × Path) :
    firstVisit? root (visits ++ [last]) key = some first := by
  rw [firstVisit?, List.find?_append, ← firstVisit?, h, Option.some_or]

theorem firstVisit?_of_notMem {root : Path} {visits : List (Disk × Path)} {last : Disk × Path}
    (h : Path.fileKey root last.2 ∉ keysOf root visits) :
    firstVisit? root (visits ++ [last]) (Path.fileKey root last.2) = some last := by
  have hNone : firstVisit? root visits (Path.fileKey root last.2) = none := by
    rw [firstVisit?, List.find?_eq_none]
    intro visit hVisit hSame
    exact h (List.mem_map.mpr ⟨visit, hVisit, beq_iff_eq.mp hSame⟩)
  rw [firstVisit?, List.find?_append, ← firstVisit?, hNone, Option.none_or, List.find?_singleton]
  simp

theorem Visited.visit {cache : ChangeCache} {root : Path} {visits : List (Disk × Path)} {d : Disk}
    {p : Path} {e e' : Engine} (hVisit : Visit d p e (.ok ()) e')
    (h : Visited cache root visits e) : Visited cache root (visits ++ [(d, p)]) e' := by
  have hRoot := hVisit.sameSettings.scanRoot_eq.trans h.scanRoot_eq
  have hCoherent := h.coherent.visit hVisit
  have hUnseen := h.keepsUnseen.visit hVisit
  have hKeyOf : e.keyOf p = Path.fileKey root p := congrFun (keyOf_of_scanRoot h.scanRoot_eq) p
  have hKeys : keysOf root (visits ++ [(d, p)]) = keysOf root visits ++ [Path.fileKey root p] :=
    List.map_append
  have hSeenKey := h.mem_seen_iff (Path.fileKey root p)
  by_cases hSeen : e.keyOf p ∈ e.seen
  · obtain rfl := hVisit.eq_of_seen hSeen
    rw [hKeyOf, hSeenKey] at hSeen
    refine ⟨⟨hCoherent, hRoot, ?_, ?_⟩, hUnseen, ?_⟩
    · rw [h.keys_eq, hKeys, eraseDups_concat, if_pos hSeen]
    · intro x hx
      -- What was visited first stays so, since visits are added at the end.
      obtain ⟨d', p', hFirst, hFor⟩ := h.processedFor x hx
      exact ⟨d', p', firstVisit?_concat hFirst _, hFor⟩
    · intro key
      rw [h.mem_seen_iff, hKeys, List.mem_append, List.mem_singleton]
      refine ⟨.inl, ?_⟩
      rintro (hOld | rfl)
      · exact hOld
      · exact hSeen
  · obtain ⟨x, hFor, hPushed, hSees⟩ :=
      hVisit.processedFor hSeen h.coherent.scan_eq h.keepsUnseen
    have hProcessed := processed_of_worklist_eq hPushed
    rw [h.scanRoot_eq] at hFor
    rw [hKeyOf] at hSeen hSees
    have hNew : Path.fileKey root p ∉ keysOf root visits := mt hSeenKey.mpr hSeen
    refine ⟨⟨hCoherent, hRoot, ?_, ?_⟩, hUnseen, ?_⟩
    · rw [hProcessed, List.map_append, h.keys_eq, hKeys, eraseDups_concat, if_neg hNew,
        List.map_singleton, hFor.key_eq]
    · intro other hOther
      rw [hProcessed, List.mem_append, List.mem_singleton] at hOther
      rcases hOther with hOld | rfl
      · obtain ⟨d', p', hFirst, hFor'⟩ := h.processedFor other hOld
        exact ⟨d', p', firstVisit?_concat hFirst _, hFor'⟩
      · rw [hFor.key_eq]
        have hFirst : firstVisit? root (visits ++ [(d, p)]) (Path.fileKey root p) = some (d, p) :=
          firstVisit?_of_notMem hNew
        exact ⟨d, p, hFirst, hFor⟩
    · intro key
      rw [hSees, hKeys, List.mem_cons, List.mem_append, List.mem_singleton, h.mem_seen_iff, or_comm]

theorem Visited.processEach {cache : ChangeCache} {root : Path} {before visits : List (Disk × Path)}
    {e e' : Engine} (hAll : processEach visits e = .ok e') (h : Visited cache root before e) :
    Visited cache root (before ++ visits) e' := by
  induction visits generalizing before e with
  | nil =>
    cases hAll
    rw [List.append_nil]
    exact h
  | cons visit visits ih =>
    obtain ⟨d, p⟩ := visit
    have hVisit := visit_processFile d p e
    rw [Engine.processEach] at hAll
    cases hFile : processFile d p e with
    | mk result next =>
    rw [hFile] at hAll hVisit
    cases result with
    | error error => cases hAll
    | ok _ =>
      rw [List.append_cons]
      exact ih hAll (h.visit hVisit)

/-! ## The result -/

theorem mem_log_of_mem_done (e : Engine) {processed : List Processed}
    {done : List (PendingFile × Injection)}
    (h : done.map Prod.fst = processed.filterMap Processed.pending?) {x : PendingFile × Injection}
    (hx : x ∈ done) : (x.1.key, e.rewrittenAction x) ∈ e.log processed done := by
  induction processed generalizing done with
  | nil =>
    rw [List.map_eq_nil_iff.mp h] at hx
    cases hx
  | cons y processed ih =>
    cases y with
    | done key action => exact List.mem_cons_of_mem _ (ih h hx)
    | pending file =>
      cases done with
      | nil => cases h
      | cons first done =>
        obtain ⟨rfl, hRest⟩ := List.cons.inj h
        rcases List.mem_cons.mp hx with rfl | hMore
        · exact List.mem_cons_self
        · exact List.mem_cons_of_mem _ (ih hRest hMore)

theorem mem_log {e : Engine} {processed : List Processed} {done : List (PendingFile × Injection)}
    (hDone : done.map Prod.fst = processed.filterMap Processed.pending?) {entry : String × Action}
    (h : entry ∈ e.log processed done) :
    .done entry.1 entry.2 ∈ processed ∨ ∃ x ∈ done, entry = (x.1.key, e.rewrittenAction x) := by
  induction processed generalizing done with
  | nil => cases h
  | cons y processed ih =>
    cases y with
    | done key action =>
      rcases List.mem_cons.mp h with rfl | hMore
      · exact .inl List.mem_cons_self
      · exact (ih hDone hMore).imp_left (List.mem_cons_of_mem _)
    | pending file =>
      cases done with
      | nil => cases hDone
      | cons x done =>
        obtain ⟨rfl, hRest⟩ := List.cons.inj hDone
        rcases List.mem_cons.mp h with rfl | hMore
        · exact .inr ⟨x, List.mem_cons_self, rfl⟩
        · refine (ih hRest hMore).imp (List.mem_cons_of_mem _) ?_
          rintro ⟨other, hOther, hEntry⟩
          exact ⟨other, List.mem_cons_of_mem x hOther, hEntry⟩

theorem Settled.filter_same {now : UInt64} {root : Path} {done : List (PendingFile × Injection)}
    {cache : ChangeCache} {state : WriteBuffer × ChangeCache} (h : Settled now done cache state)
    (hApart : state.1.Apart) (hProper : ∀ x ∈ done, Proper root x)
    (hKeys : (done.map (·.1.key)).Nodup) {x : PendingFile × Injection} (hx : x ∈ done) :
    (state.1.tasks.filter fun t => t.path.same x.1.path) = [taskOf x] := by
  have hNodup : (state.1.tasks.filter fun t => t.path.same x.1.path).Nodup := by
    refine List.Pairwise.filter _ (hApart.imp ?_)
    rintro t _ hOther rfl
    rw [Path.same, beq_self_eq_true] at hOther
    cases hOther
  rw [← List.perm_singleton, List.perm_ext_iff_of_nodup hNodup (List.nodup_singleton _)]
  intro t
  rw [List.mem_filter, List.mem_singleton]
  constructor
  · rintro ⟨ht, hSame⟩
    -- A task for the same path is that of a file with the same key, or it is for a sheet.
    rcases h.task_eq t ht with ⟨x', hx', rfl⟩ | hNone
    · have hComponents : x'.1.path.components = x.1.path.components := beq_iff_eq.mp hSame
      have hKey : x'.1.key = x.1.key := by
        rw [(hProper x' hx').key_eq, (hProper x hx).key_eq, Path.fileKey, Path.fileKey, hComponents]
      rw [List.inj_on_of_nodup_map hKeys hx' hx hKey]
    · rw [(same_eq_false_of_placement hNone (hProper x hx).placement_eq).1] at hSame
      cases hSame
  · rintro rfl
    exact ⟨h.mem_tasks x hx, beq_self_eq_true _⟩

theorem Listed.accounts {cache : ChangeCache} {root : Path} {visits : List (Disk × Path)}
    {e : Engine} (h : Listed cache root visits e) :
    ∃ out, e.finish = .ok out ∧ Accounts cache root visits out := by
  obtain rfl := h.scanRoot_eq
  obtain ⟨done, hFinish, hDone, hRewritten⟩ := h.coherent.finish_eq
  refine ⟨_, hFinish, ?_⟩
  have hFor : ∀ x ∈ done, ∃ d p, firstVisit? e.scanRoot visits x.1.key = some (d, p) ∧
      ProcessedFor cache e.scanRoot d p (.pending x.1) :=
    fun x hx => h.processedFor _ (mem_pending_iff.mp (hDone ▸ List.mem_map_of_mem hx))
  have hProper : ∀ x ∈ done, Proper e.scanRoot x := by
    intro x hx
    obtain ⟨d, p, _, hThis⟩ := hFor x hx
    exact hThis.proper (hRewritten x hx)
  have hKeys := h.coherent.done_keys_nodup hDone
  have hSettled := settled_foldl e.now e.cache hProper hKeys
  have hWaiting := hDone.trans e.filterMap_processed.symm
  have hLog : (e.output done).report.files = e.log e.processed done := by rw [output, report_eq]
  constructor
  · rw [← h.keys_eq, hLog]
    refine (map_eq_of_forall₂ (reported_log e hWaiting) ?_).symm
    intro x entry hReported
    cases hReported with
    | _ => rfl
  · rintro ⟨key, action⟩ hEntry
    rw [hLog] at hEntry
    rcases mem_log hWaiting hEntry with hKept | ⟨x, hx, hSame⟩
    · obtain ⟨d, p, hFirst, hThis⟩ := h.processedFor _ hKept
      refine ⟨d, p, hFirst, hThis.decides.1, ?_⟩
      intro hAction
      rw [hThis.decides.2] at hAction
      cases hAction
    · cases hSame
      obtain ⟨d, p, hFirst, hThis⟩ := hFor x hx
      refine ⟨d, p, hFirst, hThis.decides_rewritten (hRewritten x hx), ?_⟩
      intro _
      have hOnce := hSettled.filter_same (apart_settleAll e.now e.cache done) hProper hKeys hx
      rw [taskOf, hThis.path_eq] at hOnce
      exact ⟨x.2.content, _, hOnce, hSettled.find?_eq x hx, rfl⟩
  · intro t ht
    obtain ⟨x, hx, hPath⟩ := path_of_mem_settled ht
    obtain ⟨d, p, hFirst, hThis⟩ := hFor x hx
    refine ⟨_, _, _, d, p, hLog ▸ mem_log_of_mem_done e hWaiting hx, hFirst, ?_⟩
    rw [← hThis.path_eq]
    refine hPath.imp_right ?_
    rintro ⟨css, hCompanion⟩
    refine ⟨(hProper x hx).sheet_eq _ hCompanion, ?_, (hProper x hx).forPath?_sheet hCompanion⟩
    rw [hCompanion]
    rfl
  · exact RunReport.counts_eq _

theorem Accounts.covers {cache : ChangeCache} {root : Path} {visits : List (Disk × Path)}
    {out : RunOutput} (h : Accounts cache root visits out) {d : Disk} (hNamed : d.IsNamed)
    {scan : ScanConfig} (hFiles : d.discover root scan = .ok (visits.map Prod.snd)) :
    Covers d root scan (visits.map Prod.snd) out.report := by
  obtain ⟨base, hBase, hNodup, hMem⟩ := Disk.keys_of_discover hNamed hFiles
  have hKeys : out.report.files.map Prod.fst = (visits.map Prod.snd).map (Path.fileKey root) := by
    rw [← eraseDups_of_nodup hNodup, List.map_map]
    exact h.keys_eq
  exact ⟨hKeys, hNodup, base, hBase, fun key => hKeys ▸ hMem key⟩

/-- Visits that do not fail are accounted for, whether or not the files that were not visited are
forgotten. If the files are those that were discovered below the root, the report has all of them. -/
theorem accounts_of_processEach (scanRoot : Path) (cache : ChangeCache) (compile : Compiler)
    (namePrefix : String) (maxInvocations : Nat) (strategy : Option NamingStrategy)
    (names random : RandomSource) (options : RunOptions) (now : UInt64)
    {visits : List (Disk × Path)} {e : Engine}
    (hAll : processEach visits (new scanRoot cache compile
      (.new namePrefix maxInvocations strategy names) options random now) = .ok e) :
    ∀ last, last = e ∨ last = e.forgetUnseen.2 →
      ∃ out, last.finish = .ok out ∧ Accounts cache scanRoot visits out ∧
        ∀ d scan, d.IsNamed → d.discover scanRoot scan = .ok (visits.map Prod.snd) →
          Covers d scanRoot scan (visits.map Prod.snd) out.report := by
  have hVisited := (visited_new scanRoot cache compile namePrefix maxInvocations strategy names
    random options now).processEach hAll
  rw [List.nil_append] at hVisited
  have hListed : ∀ last, last = e ∨ last = e.forgetUnseen.2 → Listed cache scanRoot visits last := by
    rintro last (rfl | rfl)
    · exact hVisited.toListed
    · exact hVisited.toListed.forgetUnseen
  intro last hLast
  obtain ⟨out, hFinish, hAccounts⟩ := (hListed last hLast).accounts
  exact ⟨out, hFinish, hAccounts, fun d scan hNamed hFiles => hAccounts.covers hNamed hFiles⟩

/-- A component with its sheet, where sheets are files of the run too. -/
def sheetDisk : Disk :=
  ⟨[(["src"], .directory), (["src", "B.module.css"], .file ".q \x7b\x7d\n".toUTF8),
    (["src", "B.tsx"], .file "<p className=\"a\">".toUTF8)], []⟩

def sheetScan : ScanConfig :=
  { fileTypes := [".tsx", ".css"] }

def sheetVisits : List (Disk × Path) :=
  [(sheetDisk, ⟨"src/B.module.css"⟩), (sheetDisk, ⟨"src/B.tsx"⟩)]

def sheetStart : Engine :=
  new ⟨"src"⟩ ⟨⟨"classfold.lock"⟩, .ofList []⟩
    (UtilityTable.compile ⟨.ofList [("a", "x: 1;")]⟩) (.new "twk-" 0 none (.ofSeed 0)) {}
    (.ofSeed 0) 0

theorem isTree_sheetDisk : sheetDisk.IsTree := by
  decide +kernel

theorem discover_sheetDisk :
    sheetDisk.discover ⟨"src"⟩ sheetScan = .ok (sheetVisits.map Prod.snd) := by
  obtain ⟨hLocate, hFound, hSorted⟩ : sheetDisk.locate ⟨"src"⟩ = .ok ["src"] ∧
      ((sheetDisk.below ["src"]).filter (Disk.isSource sheetScan)).map
        (fun entry => Disk.pathBelow ⟨"src"⟩ entry.1) = sheetVisits.map Prod.snd ∧
      (sheetVisits.map Prod.snd).Pairwise fun p q => p.before q = true := by
    decide +kernel
  exact Disk.discover_eq hLocate rfl hFound hSorted

/-- The sheet is reported as unsupported and has a task all the same. -/
theorem evaluated_sheetVisits : ∃ e out, processEach sheetVisits sheetStart = .ok e ∧
    e.finish = .ok out ∧ out.report.files = [("B.module.css", .unsupported),
      ("B.tsx", .rewritten 1 (some "B.module.css"))] ∧
    out.writes.tasks.map WriteTask.path = [⟨"src/B.module.css"⟩, ⟨"src/B.tsx"⟩] := by
  have hOut : ((processEach sheetVisits sheetStart).bind finish).map
      (fun out => (out.report.files, out.writes.tasks.map WriteTask.path)) =
      .ok ([("B.module.css", .unsupported), ("B.tsx", .rewritten 1 (some "B.module.css"))],
        [⟨"src/B.module.css"⟩, ⟨"src/B.tsx"⟩]) := by
    decide +kernel
  cases hAll : processEach sheetVisits sheetStart with
  | error error =>
    rw [hAll] at hOut
    cases hOut
  | ok e =>
  rw [hAll] at hOut
  cases hFinish : e.finish with
  | error error =>
    simp only [Except.bind, hFinish] at hOut
    cases hOut
  | ok out =>
    simp only [Except.bind, Except.map, hFinish, Except.ok.injEq, Prod.mk.injEq] at hOut
    exact ⟨e, out, rfl, hFinish, hOut⟩

/-- Of a component and its sheet, which is unsupported, both are reported, and the component is
written once. -/
theorem accounts_sheetVisits : sheetDisk.IsNamed ∧
    sheetDisk.discover ⟨"src"⟩ sheetScan = .ok (sheetVisits.map Prod.snd) ∧
    ∃ e out, processEach sheetVisits sheetStart = .ok e ∧ e.finish = .ok out ∧
      out.report.files.map Prod.fst = ["B.module.css", "B.tsx"] ∧
      Decides ⟨⟨"classfold.lock"⟩, .ofList []⟩ ⟨"src"⟩ sheetDisk ⟨"src/B.tsx"⟩
        (.rewritten 1 (some "B.module.css")) ∧
      WrittenOnce out "B.tsx" ⟨"src/B.tsx"⟩ ∧
      "B.module.css" ∈ out.report.files.map Prod.fst := by
  obtain ⟨e, out, hAll, hFinish, hFiles, _⟩ := evaluated_sheetVisits
  have hNamed := isTree_sheetDisk.isNamed
  refine ⟨hNamed, discover_sheetDisk, e, out, hAll, hFinish, ?_⟩
  obtain ⟨out', hFinish', hAccounts, hCovers⟩ := accounts_of_processEach _ _ _ _ _ _ _ _ _ _ hAll e
    (.inl rfl)
  cases hFinish.symm.trans hFinish'
  obtain ⟨hKeys, _, base, hBase, hMem⟩ := hCovers sheetDisk sheetScan hNamed discover_sheetDisk
  have hEntry : ("B.tsx", .rewritten 1 (some "B.module.css")) ∈ out.report.files := by
    rw [hFiles]
    exact List.mem_cons_of_mem _ List.mem_cons_self
  obtain ⟨d, p, hFirst, hDecides, hOnce⟩ := hAccounts.decided _ hEntry
  have hVisit : firstVisit? ⟨"src"⟩ sheetVisits "B.tsx" = some (sheetDisk, ⟨"src/B.tsx"⟩) := rfl
  cases hVisit.symm.trans hFirst
  refine ⟨by rw [hFiles]; rfl, hDecides, hOnce rfl, ?_⟩
  cases (show sheetDisk.locate ⟨"src"⟩ = .ok ["src"] by decide +kernel).symm.trans hBase
  refine (hMem _).mpr ⟨(["B.module.css"], .file ".q \x7b\x7d\n".toUTF8), ?_, by decide +kernel, rfl⟩
  exact List.mem_cons_self

/-- A visited path that is not rewritten may have a task. -/
theorem not_forall_same_eq_false : ¬∀ (scanRoot : Path) (cache : ChangeCache) (compile : Compiler)
    (namePrefix : String) (maxInvocations : Nat) (strategy : Option NamingStrategy)
    (names random : RandomSource) (options : RunOptions) (now : UInt64)
    (visits : List (Disk × Path)) (e : Engine) (out : RunOutput),
    processEach visits (new scanRoot cache compile
      (.new namePrefix maxInvocations strategy names) options random now) = .ok e →
    e.finish = .ok out → ∀ visit ∈ visits,
      (∀ entry ∈ out.report.files, entry.1 = Path.fileKey scanRoot visit.2 →
        entry.2.isRewritten = false) →
      ∀ t ∈ out.writes.tasks, t.path.same visit.2 = false := by
  intro hEvery
  obtain ⟨e, out, hAll, hFinish, hFiles, hTasks⟩ := evaluated_sheetVisits
  have hFirst : ⟨"src/B.module.css"⟩ ∈ out.writes.tasks.map WriteTask.path := by
    rw [hTasks]
    exact List.mem_cons_self
  obtain ⟨t, ht, hPath⟩ := List.mem_map.mp hFirst
  have hApart := hEvery _ _ _ _ _ _ _ _ _ _ sheetVisits e out hAll hFinish
    (sheetDisk, ⟨"src/B.module.css"⟩) List.mem_cons_self (by
      rw [hFiles]
      decide +kernel) t ht
  rw [hPath] at hApart
  exact absurd hApart (by decide +kernel)

end Engine

end ClassCollapse
