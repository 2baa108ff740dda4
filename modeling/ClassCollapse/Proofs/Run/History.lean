import ClassCollapse.Proofs.Run.Recording

/-!
# Histories of runs

Runs follow one another on a disk that is edited between them. The cache that is found then holds
for each file what the last run that processed it has read and produced, provided that every run that
saved its cache since has visited the file. Runs that failed and dry runs do not count. So a file is
passed over exactly if its text is one of these two.
-/

namespace ClassCollapse.Engine

/-- What a run is started with, apart from the disk. -/
structure Setup where
  scan : ScanConfig
  compile : Compiler
  namePrefix : String
  maxInvocations : Nat
  strategy : Option NamingStrategy
  names : RandomSource
  options : RunOptions
  random : RandomSource
  now : UInt64

def Setup.engine (s : Setup) (root cachePath : Path) (d : Disk) : Engine :=
  new root (.load d cachePath) s.compile
    (.new s.namePrefix s.maxInvocations s.strategy s.names) s.options s.random s.now

theorem Setup.coherent_engine (s : Setup) (root cachePath : Path) (d : Disk) :
    Coherent (s.engine root cachePath d) :=
  coherent_new root (.load d cachePath) s.compile s.options s.random s.now
    (NameResolver.sound_new s.namePrefix s.maxInvocations s.strategy s.names) rfl

theorem Setup.ended_of_runFiles (s : Setup) {d d' : Disk} (hTree : d.IsTree) {root cachePath : Path}
    {files : List Path} (hFiles : d.discover root s.scan = .ok files)
    {result : Except RunError RunReport}
    (hRun : (s.engine root cachePath d).runFiles files d = (result, d')) :
    Coherent (s.engine root cachePath d) ∧
      ∃ base, Ended d root s.scan base files (s.engine root cachePath d) result d' := by
  obtain ⟨base, hDiscovered⟩ := Disk.discovered_of_discover hTree hFiles
  have hNew := s.coherent_engine root cachePath d
  exact ⟨hNew, base, Engine.ended_of_runFiles hTree hDiscovered hNew
    (tracks_new _ _ _ _ _ _ _ _) rfl rfl rfl hRun⟩

structure PastRun where
  before : Disk
  result : Except RunError RunReport
  after : Disk

namespace PastRun

/-- A run saves its cache if it succeeds and is no dry run. -/
def Saved (r : PastRun) : Prop :=
  ∃ report, r.result = .ok report ∧ report.dryRun = false

def Visited (r : PastRun) (key : String) : Prop :=
  ∃ report, r.result = .ok report ∧ key ∈ report.files.map Prod.fst

def Processed (r : PastRun) (key : String) : Prop :=
  ∃ report action, r.result = .ok report ∧ (key, action) ∈ report.files ∧
    action.isProcessed = true

/-- A text is one that the run read or produced. -/
def Held (r : PastRun) (p : Path) (text : String) : Prop :=
  r.before.readText p = .ok text ∨ r.after.readText p = .ok text

end PastRun

/-- The runs on a disk, the last one first. The disk may be edited between them, but only runs write
the cache, and the cache is none of the files of a run. -/
inductive History (root cachePath : Path) : List PastRun → Disk → Prop
  | start {d : Disk} (hTree : d.IsTree) (hNone : ∀ content, d.read cachePath ≠ .ok content) :
    History root cachePath [] d
  | edit {runs : List PastRun} {d d' : Disk} (h : History root cachePath runs d)
    (hKept : CacheKept cachePath d d') : History root cachePath runs d'
  | run {runs : List PastRun} {d d' : Disk} {files : List Path}
    {result : Except RunError RunReport} (h : History root cachePath runs d) (s : Setup)
    (hFiles : d.discover root s.scan = .ok files)
    (hRun : (s.engine root cachePath d).runFiles files d = (result, d'))
    (hApart : ∀ p ∈ files, d'.locate p ≠ d'.locate cachePath) :
    History root cachePath (⟨d, result, d'⟩ :: runs) d'

/-! ## What is remembered -/

/-- The entry that runs leave for a file. -/
inductive Remembered (p : Path) (key : String) : List PastRun → Option CacheEntry → Prop
  | never : Remembered p key [] none
  | unsaved {r : PastRun} {runs : List PastRun} {entry : Option CacheEntry} (hSaved : ¬r.Saved)
    (h : Remembered p key runs entry) : Remembered p key (r :: runs) entry
  | processed {r : PastRun} {runs : List PastRun} {read written : String} {now : UInt64}
    (hSaved : r.Saved) (hProcessed : r.Processed key) (hRead : r.before.readText p = .ok read)
    (hWritten : r.after.readText p = .ok written) :
    Remembered p key (r :: runs) (some (ChangeCache.newEntry now read written))
  | passed {r : PastRun} {runs : List PastRun} {entry : Option CacheEntry} (hSaved : r.Saved)
    (hVisited : r.Visited key) (hNot : ¬r.Processed key) (h : Remembered p key runs entry) :
    Remembered p key (r :: runs) entry
  | missing {r : PastRun} {runs : List PastRun} (hSaved : r.Saved) (hNot : ¬r.Visited key) :
    Remembered p key (r :: runs) none

/-- The last run that saved its cache and processed a file read or produced a text, and every run
that saved its cache since then visited the file. -/
def LastHeld (p : Path) (key text : String) (runs : List PastRun) : Prop :=
  ∃ later run earlier, runs = later ++ run :: earlier ∧ run.Saved ∧ run.Processed key ∧
    run.Held p text ∧ ∀ r ∈ later, r.Saved → r.Visited key ∧ ¬r.Processed key

theorem lastHeld_cons_iff {p : Path} {key text : String} {r : PastRun} {runs : List PastRun} :
    LastHeld p key text (r :: runs) ↔
      (r.Saved ∧ r.Processed key ∧ r.Held p text) ∨
        ((r.Saved → r.Visited key ∧ ¬r.Processed key) ∧ LastHeld p key text runs) := by
  constructor
  · rintro ⟨later, run, earlier, hRuns, hSaved, hProcessed, hHeld, hLater⟩
    cases later with
    | nil =>
      cases hRuns
      exact .inl ⟨hSaved, hProcessed, hHeld⟩
    | cons first later =>
      cases hRuns
      refine .inr ⟨hLater r List.mem_cons_self, later, run, earlier, rfl, hSaved, hProcessed,
        hHeld, ?_⟩
      exact fun r' hr' => hLater r' (List.mem_cons_of_mem r hr')
  · rintro (⟨hSaved, hProcessed, hHeld⟩ |
      ⟨hFirst, later, run, earlier, rfl, hSaved, hProcessed, hHeld, hLater⟩)
    · exact ⟨[], r, runs, rfl, hSaved, hProcessed, hHeld, fun r' hr' => nomatch hr'⟩
    · refine ⟨r :: later, run, earlier, rfl, hSaved, hProcessed, hHeld, ?_⟩
      intro r' hr'
      rcases List.mem_cons.mp hr' with rfl | hOld
      · exact hFirst
      · exact hLater r' hOld

/-- Where no other text that was held has its digest, a text is accepted exactly if it was the last
one that was held. -/
theorem Remembered.accepts_iff {p : Path} {key text : String} {runs : List PastRun}
    {entry : Option CacheEntry} (h : Remembered p key runs entry)
    (hDigest : ∀ r ∈ runs, ∀ other, r.Held p other → Digest.ofText other = Digest.ofText text →
      other = text) :
    (∃ known, entry = some known ∧ known.accepts (Digest.ofText text) = true) ↔
      LastHeld p key text runs := by
  induction h with
  | never =>
    constructor
    · rintro ⟨known, hNone, _⟩
      cases hNone
    · rintro ⟨later, run, earlier, hRuns, _⟩
      simp at hRuns
  | unsaved hSaved _ ih =>
    rw [ih fun r hr => hDigest r (List.mem_cons_of_mem _ hr), lastHeld_cons_iff]
    simp [hSaved]
  | @processed r runs read written now hSaved hProcessed hRead hWritten =>
    have hOnly : ∀ other, r.Held p other → Digest.ofText other = Digest.ofText text →
        other = text := hDigest r List.mem_cons_self
    have hAccepts : (ChangeCache.newEntry now read written).accepts (Digest.ofText text) = true ↔
        r.Held p text := by
      rw [CacheEntry.accepts, Bool.or_eq_true, beq_iff_eq, beq_iff_eq, PastRun.Held, hRead,
        hWritten, Except.ok.injEq, Except.ok.injEq]
      constructor
      · exact Or.imp (hOnly read (.inl hRead)) (hOnly written (.inr hWritten))
      · exact Or.imp (congrArg Digest.ofText) (congrArg Digest.ofText)
    rw [lastHeld_cons_iff]
    simp [hSaved, hProcessed, hAccepts]
  | passed hSaved hVisited hNot _ ih =>
    rw [ih fun r hr => hDigest r (List.mem_cons_of_mem _ hr), lastHeld_cons_iff]
    simp [hVisited, hNot]
  | @missing r runs hSaved hNot =>
    rw [lastHeld_cons_iff]
    have hNever : ¬r.Processed key := by
      rintro ⟨report, action, hReport, hMem, _⟩
      exact hNot ⟨report, hReport, List.mem_map_of_mem hMem⟩
    simp [hSaved, hNot, hNever]

/-! ## What the cache holds -/

def IsBelow (root p : Path) : Prop :=
  ∃ names, root.text ≠ "" ∧ names ≠ [] ∧ (∀ s ∈ names, IsName s) ∧ p = Disk.pathBelow root names

theorem IsBelow.eq_of_key {root p q : Path} (hp : IsBelow root p) (hq : IsBelow root q)
    (h : Path.fileKey root p = Path.fileKey root q) : p = q := by
  obtain ⟨names, hRoot, hne, hNames, rfl⟩ := hp
  obtain ⟨names', _, hne', hNames', rfl⟩ := hq
  have hKey := Path.fileKey_join hRoot hne hNames
  have hKey' := Path.fileKey_join hRoot hne' hNames'
  rw [Path.join_injective hne hne' hNames hNames' (hKey.symm.trans (h.trans hKey'))]

theorem isBelow_of_discovered {d : Disk} {root : Path} {scan : ScanConfig} {base : Place}
    {files : List Path} (hTree : d.IsTree) (h : d.Discovered root scan base files) {p : Path}
    (hp : p ∈ files) : IsBelow root p := by
  obtain ⟨names, hSource, rfl⟩ := (h.mem_iff p).mp hp
  exact ⟨names, h.leadsTo.text_ne, hSource.names_ne_nil, hSource.isName hTree, rfl⟩

theorem CacheKept.load_eq {cachePath : Path} {d d' : Disk} (h : CacheKept cachePath d d') :
    ChangeCache.load d' cachePath = ChangeCache.load d cachePath := by
  have hAt : ChangeCache.manifestAt? d' cachePath = ChangeCache.manifestAt? d cachePath := by
    rw [ChangeCache.manifestAt?, ChangeCache.manifestAt?, Disk.readText, Disk.readText]
    cases hRead : d.read cachePath with
    | ok content => rw [(h.read_iff content).mpr hRead]
    | error cause =>
      cases hRead' : d'.read cachePath with
      | error cause' => rfl
      | ok content =>
        rw [(h.read_iff content).mp hRead'] at hRead
        cases hRead
  rw [ChangeCache.load, ChangeCache.load, hAt]

theorem find?_load_of_none {d : Disk} {cachePath : Path}
    (h : ∀ content, d.read cachePath ≠ .ok content) (key : String) :
    (ChangeCache.load d cachePath).manifest.find? key = none := by
  have hAt : ChangeCache.manifestAt? d cachePath = none := by
    rw [ChangeCache.manifestAt?, Disk.readText]
    cases hRead : d.read cachePath with
    | ok content => exact absurd hRead (h content)
    | error cause => rfl
  rw [ChangeCache.load, hAt]
  rfl

/-- The entry of a file after a run that has saved its cache. -/
theorem remembered_of_ran {d d₁ d' : Disk} {root : Path} {s : Setup} {cachePath : Path}
    {base kept : Place} {files : List Path} {last : Engine}
    {done : List (PendingFile × Injection)} {out : RunOutput} {runs : List PastRun} {p : Path}
    (hRan : Ran d root s.scan base files last done out d₁ d' kept)
    (hAll : processAll d files (s.engine root cachePath d) = .ok last)
    (hReal : out.report.dryRun = false) (hApart : ∀ q ∈ files, d'.locate q ≠ d'.locate out.cache.path)
    (hp : IsBelow root p) (h : Remembered p (Path.fileKey root p) runs
      ((ChangeCache.load d cachePath).manifest.find? (Path.fileKey root p))) :
    Remembered p (Path.fileKey root p) (⟨d, .ok out.report, d'⟩ :: runs)
      (out.cache.manifest.find? (Path.fileKey root p)) := by
  obtain ⟨hReport, hRecorded⟩ := hRan.recorded hAll hApart
  have hSaved : PastRun.Saved ⟨d, .ok out.report, d'⟩ := ⟨out.report, rfl, hReal⟩
  have hKeys : (out.report.files.map Prod.fst).Nodup := by
    rw [hReport]
    exact hRan.discovered.keys_nodup
  by_cases hMem : p ∈ files
  · obtain ⟨action, hEntry, hIs⟩ := hRecorded p hMem
    cases hIs with
    | anew hAction hRead hWritten hFound =>
      rw [hFound]
      exact .processed hSaved ⟨out.report, action, rfl, hEntry, hAction⟩ hRead hWritten
    | kept hAction hFound =>
      rw [hFound]
      refine .passed hSaved ⟨out.report, rfl, List.mem_map_of_mem hEntry⟩ ?_ h
      rintro ⟨report, other, hSame, hOther, hProcessed⟩
      cases hSame
      -- The report has one action for the key, and that one is not processed.
      have hOne := congrArg Prod.snd (List.inj_on_of_nodup_map hKeys hOther hEntry rfl)
      dsimp only at hOne
      rw [hOne, hAction] at hProcessed
      cases hProcessed
  · -- No other file has the key, so nothing keeps its entry.
    have hNot : Path.fileKey root p ∉ files.map (Path.fileKey root) := by
      intro hKey
      obtain ⟨q, hq, hSame⟩ := List.mem_map.mp hKey
      apply hMem
      rwa [← (isBelow_of_discovered hRan.isTree hRan.discovered hq).eq_of_key hp hSame]
    have hNone : out.cache.manifest.find? (Path.fileKey root p) = none := by
      by_contra hFound
      exact hNot (hRan.key_mem_files hFound)
    rw [hNone]
    refine .missing hSaved ?_
    rintro ⟨report, hSame, hVisited⟩
    cases hSame
    rw [hReport] at hVisited
    exact hNot hVisited

/-- In every history the disk is a tree, and the cache holds what the runs have left. -/
theorem History.remembered {root cachePath : Path} {runs : List PastRun} {d : Disk}
    (h : History root cachePath runs d) :
    d.IsTree ∧ ∀ p, IsBelow root p → Remembered p (Path.fileKey root p) runs
      ((ChangeCache.load d cachePath).manifest.find? (Path.fileKey root p)) := by
  induction h with
  | start hTree hNone =>
    refine ⟨hTree, fun p _ => ?_⟩
    rw [find?_load_of_none hNone]
    exact .never
  | edit _ hKept ih =>
    rw [hKept.load_eq]
    exact ⟨hKept.isTree, ih.2⟩
  | @run runs d d' files result _ s hFiles hRun hApart ih =>
    obtain ⟨hTree, hAll⟩ := ih
    obtain ⟨base, hDiscovered⟩ := Disk.discovered_of_discover hTree hFiles
    have hCoherent := s.coherent_engine root cachePath d
    rcases ran_or_cacheKept hTree hDiscovered hCoherent (tracks_new _ _ _ _ _ _ _ _) rfl rfl rfl
      hRun with ⟨report, last, done, out, d₁, kept, rfl, hReal, hRan, hPath, hLast, rfl⟩ |
        ⟨hDry, hKept⟩
    · have hThere : out.cache.path = cachePath := hPath
      have hLoad : ChangeCache.load d' cachePath = out.cache := by
        rw [← hThere]
        exact hRan.saved.load_eq
      rw [hLoad]
      refine ⟨hRan.saved.isTree, fun p hp => ?_⟩
      exact remembered_of_ran hRan hLast hReal (hThere ▸ hApart) hp (hAll p hp)
    · have hSame : CacheKept cachePath d d' := hKept
      rw [hSame.load_eq]
      refine ⟨hSame.isTree, fun p hp => .unsaved ?_ (hAll p hp)⟩
      rintro ⟨report, hReport, hReal⟩
      rw [hDry report hReport] at hReal
      cases hReal

/-! ## The gate -/

/-- In every history, a run passes over a file exactly if the last run that saved its cache and
processed the file has read or produced the text that the file has now, and every run that saved its
cache since then has visited the file. The files before it may have been processed already. -/
theorem slots_processFile_eq_iff_lastHeld {root cachePath : Path} {runs : List PastRun} {d : Disk}
    (h : History root cachePath runs d) (s : Setup) (before after : List Path) {p : Path}
    (hFiles : d.discover root s.scan = .ok (before ++ p :: after)) {e : Engine}
    (hBefore : processAll d before (s.engine root cachePath d) = .ok e) {text : String}
    (hRead : d.readText p = .ok text)
    (hDigest : ∀ r ∈ runs, ∀ other, r.Held p other → Digest.ofText other = Digest.ofText text →
      other = text) :
    (processFile d p e).2.slots = e.slots ++ [.done (Path.fileKey root p) .unchanged] ↔
      LastHeld p (Path.fileKey root p) text runs := by
  obtain ⟨hTree, hAll⟩ := h.remembered
  obtain ⟨base, hDiscovered⟩ := Disk.discovered_of_discover hTree hFiles
  have hBelow := isBelow_of_discovered hTree hDiscovered
    (List.mem_append_right before (List.mem_cons_self (a := p) (l := after)))
  have hKeys := hDiscovered.keys_nodup
  rw [List.map_append, List.map_cons, List.nodup_append] at hKeys
  obtain ⟨hFirst, _, hDisjoint⟩ := hKeys
  have hNot : Path.fileKey root p ∉ before.map (Path.fileKey root) :=
    fun hMem => hDisjoint _ hMem _ List.mem_cons_self rfl
  obtain ⟨slots, _, hSeen, hCache, _⟩ := gated_processAll root
    (ChangeCache.load d cachePath) hBefore rfl hFirst (fun _ _ => List.not_mem_nil)
    (fun _ _ => rfl)
  have hRoot : e.scanRoot = root :=
    (visitAll_of_processAll hBefore ▸ sameSettings_visitAll _ _ : SameSettings _ e).scanRoot_eq
  have hKeyOf : e.keyOf p = Path.fileKey root p := by rw [keyOf, hRoot]
  have hNew : e.keyOf p ∉ e.seen := by
    rw [hKeyOf, hSeen]
    exact not_or.mpr ⟨List.not_mem_nil, hNot⟩
  have hGate := slots_processFile_eq_iff hNew hRead
  rw [hKeyOf] at hGate
  rw [hGate, ← (hAll p hBelow).accepts_iff hDigest, ChangeCache.isModified, hCache _ hNot]
  have hLoaded : (s.engine root cachePath d).cache = ChangeCache.load d cachePath := rfl
  rw [hLoaded]
  cases (ChangeCache.load d cachePath).manifest.find? (Path.fileKey root p) with
  | none => simp
  | some known => simp

def plainSetup : Setup :=
  ⟨{}, UtilityTable.compile ⟨.empty⟩, "twk-", 0, none, .ofSeed 0, {}, .ofSeed 0, 0⟩

def plainRun : PastRun :=
  let outcome := (plainEngine plainDisk).runFiles [⟨"src/a.html"⟩] plainDisk
  ⟨plainDisk, outcome.1, outcome.2⟩

/-- The plain disk after the run, with the file put back as it was. -/
def restoredDisk : Disk :=
  (plainRun.after.save ⟨"src/a.html"⟩ "<p class=\" x\">".toUTF8).2

theorem outcome_plainRun :
    (plainDisk.read ⟨"classfold.lock"⟩).toBool = false ∧
      plainRun.before.readText ⟨"src/a.html"⟩ = .ok "<p class=\" x\">" ∧
      plainRun.result = .ok ⟨[("a.html", .rewritten 1 none)], 0, 0, false⟩ ∧
      plainRun.after.readText ⟨"src/a.html"⟩ = .ok "<p class=\"x\">" ∧
      (plainRun.after.read ⟨"classfold.lock"⟩).toBool = true ∧
      plainRun.after.locate ⟨"src/a.html"⟩ ≠ plainRun.after.locate ⟨"classfold.lock"⟩ := by
  decide +kernel

theorem outcome_restoredDisk :
    (plainRun.after.save ⟨"src/a.html"⟩ "<p class=\" x\">".toUTF8).1 = .ok () ∧
      restoredDisk.discover ⟨"src"⟩ {} = .ok [⟨"src/a.html"⟩] ∧
      restoredDisk.readText ⟨"src/a.html"⟩ = .ok "<p class=\" x\">" ∧
      restoredDisk.locate ⟨"src/a.html"⟩ ≠ restoredDisk.locate ⟨"classfold.lock"⟩ ∧
      Digest.ofText "<p class=\"x\">" ≠ Digest.ofText "<p class=\" x\">" := by
  decide +kernel

theorem history_plainRun :
    History ⟨"src"⟩ ⟨"classfold.lock"⟩ [plainRun] plainRun.after := by
  obtain ⟨hNone, _, _, _, _, hApart⟩ := outcome_plainRun
  refine .run (.start isTree_plainDisk ?_) plainSetup discover_plainDisk rfl ?_
  · intro content hRead
    rw [hRead] at hNone
    cases hNone
  · intro p hp
    rw [List.mem_singleton.mp hp]
    exact hApart

theorem history_restoredDisk :
    History ⟨"src"⟩ ⟨"classfold.lock"⟩ [plainRun] restoredDisk := by
  obtain ⟨_, _, _, _, hRead, _⟩ := outcome_plainRun
  obtain ⟨hSaved, _, _, hApart, _⟩ := outcome_restoredDisk
  refine .edit history_plainRun ?_
  cases hCache : plainRun.after.read ⟨"classfold.lock"⟩ with
  | error cause =>
    rw [hCache] at hRead
    cases hRead
  | ok known =>
    exact cacheKept_of_save history_plainRun.remembered.1 (Prod.ext hSaved rfl) hCache hApart

/-- The run has rewritten the file, and the text that it read is accepted too. -/
theorem slots_processFile_restoredDisk :
    History ⟨"src"⟩ ⟨"classfold.lock"⟩ [plainRun] restoredDisk ∧
      restoredDisk.discover ⟨"src"⟩ {} = .ok [⟨"src/a.html"⟩] ∧
      plainRun.Processed "a.html" ∧
      let e := plainSetup.engine ⟨"src"⟩ ⟨"classfold.lock"⟩ restoredDisk
      (processFile restoredDisk ⟨"src/a.html"⟩ e).2.slots = [.done "a.html" .unchanged] := by
  obtain ⟨_, hBefore, hResult, hAfter, _⟩ := outcome_plainRun
  obtain ⟨_, hFiles, hRead, _, hApart⟩ := outcome_restoredDisk
  have hProcessed : plainRun.Processed "a.html" := ⟨_, _, hResult, List.mem_cons_self, rfl⟩
  have hDigest : ∀ r ∈ [plainRun], ∀ other, r.Held ⟨"src/a.html"⟩ other →
      Digest.ofText other = Digest.ofText "<p class=\" x\">" → other = "<p class=\" x\">" := by
    intro r hr other hHeld hSame
    rw [List.mem_singleton.mp hr] at hHeld
    rcases hHeld with hOld | hNew
    · exact Except.ok.inj (hOld.symm.trans hBefore)
    · rw [Except.ok.inj (hNew.symm.trans hAfter)] at hSame
      exact absurd hSame hApart
  refine ⟨history_restoredDisk, hFiles, hProcessed, ?_⟩
  refine (slots_processFile_eq_iff_lastHeld history_restoredDisk plainSetup [] [] hFiles rfl
    hRead hDigest).mpr ?_
  exact ⟨[], plainRun, [], rfl, ⟨_, hResult, rfl⟩, hProcessed, .inl hBefore,
    fun r hr => nomatch hr⟩

end ClassCollapse.Engine
