import ClassCollapse.Proofs.Run.Gate
import ClassCollapse.Proofs.Run.Rewriting

/-!
# Files that are passed over

A run passes over a file that it need not rewrite: the cache accepts its text, its rules have no
placement, or it has no class lists. Further files of this kind, anywhere between the files of a
run, change nothing for these files: the engine goes the same way, passing over the others.
-/

namespace ClassCollapse

/-- A list with further members anywhere, all of which have a property. -/
inductive Inserted {α : Type} (P : α → Prop) : List α → List α → Prop
  | nil : Inserted P [] []
  | keep {l l' : List α} (a : α) (h : Inserted P l l') : Inserted P (a :: l) (a :: l')
  | insert {l l' : List α} (a : α) (ha : P a) (h : Inserted P l l') : Inserted P l (a :: l')

namespace Inserted

variable {α β : Type} {P : α → Prop} {l l' : List α}

theorem concat (h : Inserted P l l') (a : α) : Inserted P (l ++ [a]) (l' ++ [a]) := by
  induction h with
  | nil => exact .keep a .nil
  | keep b _ ih => exact .keep b ih
  | insert b hb _ ih => exact .insert b hb ih

theorem concat_insert (h : Inserted P l l') {a : α} (ha : P a) : Inserted P l (l' ++ [a]) := by
  induction h with
  | nil => exact .insert a ha .nil
  | keep b _ ih => exact .keep b ih
  | insert b hb _ ih => exact .insert b hb ih

theorem filterMap_eq {f : α → Option β} (h : Inserted P l l') (hNone : ∀ a, P a → f a = none) :
    l'.filterMap f = l.filterMap f := by
  induction h with
  | nil => rfl
  | keep a _ ih => rw [List.filterMap_cons, List.filterMap_cons, ih]
  | insert a ha _ ih => rw [List.filterMap_cons_none (hNone a ha), ih]

end Inserted

namespace Engine

/-- An entry of a report says that a file with another key was passed over. -/
def PassesOver (keys : List String) (entry : String × Action) : Prop :=
  entry.1 ∉ keys ∧ entry.2.isRewritten = false

def ProcessedOver (keys : List String) (x : Processed) : Prop :=
  ∃ entry, PassesOver keys entry ∧ x = .done entry.1 entry.2

/-- The gate of a run that starts with a cache passes over a file. -/
def PassedOver (d : Disk) (root : Path) (cache : ChangeCache) (p : Path) : Prop :=
  ∃ content, d.readText p = .ok content ∧
    (cache.isModified (Path.fileKey root p) content = false ∨ Placement.forPath? p = none ∨
      Markup.scan content = [])

/-- Two results of a run, where the run that has the second one passed over further files, whose
keys are none of the given ones. -/
structure SameFor (keys : List String) (out out' : RunOutput) : Prop where
  writes_eq : out'.writes = out.writes
  report_eq : out'.report = { out.report with files := out'.report.files }
  files : Inserted (PassesOver keys) out.report.files out'.report.files
  untimed?_eq : ∀ key ∈ keys, out'.cache.untimed? key = out.cache.untimed? key

/-! ## Engines side by side -/

/-- The engine with another record of what was done, at another time. -/
def withRecord (e : Engine) (now : UInt64) (cache : ChangeCache) (worklist : Worklist)
    (seen : List String) : Engine :=
  { e with now, cache, worklist, seen }

theorem collect_withRecord (e : Engine) (now : UInt64) (cache : ChangeCache) (worklist : Worklist)
    (seen : List String) (key : String) (found : ScannedClass) :
    collect key (e.withRecord now cache worklist seen) found =
      (collect key e found).withRecord now cache worklist seen := by
  have hGenerate : (e.withRecord now cache worklist seen).book.generate
      (e.withRecord now cache worklist seen).compile
      ((e.withRecord now cache worklist seen).occurrence key found)
      (e.withRecord now cache worklist seen).resolver =
      e.book.generate e.compile (e.occurrence key found) e.resolver := rfl
  rw [collect, collect, hGenerate]
  cases e.book.generate e.compile (e.occurrence key found) e.resolver
  rfl

theorem collectAll_withRecord (e : Engine) (now : UInt64) (cache : ChangeCache)
    (worklist : Worklist) (seen : List String) (key : String) (found : List ScannedClass) :
    (e.withRecord now cache worklist seen).collectAll key found =
      (e.collectAll key found).withRecord now cache worklist seen :=
  List.foldl_hom (withRecord · now cache worklist seen)
    fun e found => collect_withRecord e now cache worklist seen key found

/-- An engine that has gone the way of another one and has passed over further files, whose keys are
none of the given ones. -/
structure Alongside (keys : List String) (e e' : Engine) : Prop where
  frame : e' = e.withRecord e'.now e'.cache e'.worklist e'.seen
  processed : Inserted (ProcessedOver keys) e.processed e'.processed
  seen_iff : ∀ key ∈ keys, (key ∈ e'.seen ↔ key ∈ e.seen)
  untimed?_eq : ∀ key ∈ keys, e'.cache.untimed? key = e.cache.untimed? key

namespace Alongside

variable {keys : List String} {e e' : Engine} (h : Alongside keys e e')
include h

theorem scanRoot_eq : e'.scanRoot = e.scanRoot := by
  rw [h.frame]
  rfl

theorem keyOf_eq : e'.keyOf = e.keyOf := by
  rw [h.frame]
  rfl

theorem scan_eq : e'.scan = e.scan := by
  rw [h.frame]
  rfl

theorem book_eq : e'.book = e.book := by
  rw [h.frame]
  rfl

theorem index_eq : e'.index = e.index := by
  rw [h.frame]
  rfl

theorem resolver_eq : e'.resolver = e.resolver := by
  rw [h.frame]
  rfl

theorem isModified_eq {key : String} (hKey : key ∈ keys) (content : String) :
    e'.cache.isModified key content = e.cache.isModified key content :=
  ChangeCache.isModified_of_untimed? (h.untimed?_eq key hKey) content

/-! ### The same file on both sides -/

theorem see (key : String) : Alongside keys (e.see key) (e'.see key) where
  frame := by
    rw [h.frame]
    rfl
  processed := h.processed
  seen_iff other hOther := by
    rw [Engine.see, Engine.see, List.mem_cons, List.mem_cons, h.seen_iff other hOther]
  untimed?_eq := h.untimed?_eq

theorem push (x : Processed) : Alongside keys (e.push x) (e'.push x) where
  frame := by
    rw [h.frame]
    rfl
  processed := by
    rw [processed_push, processed_push]
    exact h.processed.concat x
  seen_iff := h.seen_iff
  untimed?_eq := h.untimed?_eq

theorem remember (key content : String) :
    Alongside keys (e.remember key content) (e'.remember key content) where
  frame := by
    rw [h.frame]
    rfl
  processed := h.processed
  seen_iff := h.seen_iff
  untimed?_eq other hOther := by
    rw [Engine.remember, Engine.remember, ChangeCache.untimed?_record,
      ChangeCache.untimed?_record, h.untimed?_eq other hOther]

theorem collectAll (key : String) (found : List ScannedClass) :
    Alongside keys (e.collectAll key found) (e'.collectAll key found) := by
  have hCollected : e'.collectAll key found =
      (e.collectAll key found).withRecord e'.now e'.cache e'.worklist e'.seen := by
    rw [h.frame]
    exact collectAll_withRecord _ _ _ _ _ _ _
  rw [hCollected]
  refine ⟨rfl, ?_, ?_, ?_⟩
  · rw [processed_collectAll]
    exact h.processed
  · rw [seen_collectAll]
    exact h.seen_iff
  · rw [cache_collectAll]
    exact h.untimed?_eq

/-! ### A further file on one side -/

theorem see_other {key : String} (hKey : key ∉ keys) : Alongside keys e (e'.see key) where
  frame := by
    rw [h.frame]
    rfl
  processed := h.processed
  seen_iff other hOther := by
    have hne : other ≠ key := fun hSame => hKey (hSame ▸ hOther)
    rw [Engine.see, List.mem_cons, or_iff_right hne, h.seen_iff other hOther]
  untimed?_eq := h.untimed?_eq

theorem push_other {x : Processed} (hx : ProcessedOver keys x) :
    Alongside keys e (e'.push x) where
  frame := by
    rw [h.frame]
    rfl
  processed := by
    rw [processed_push]
    exact h.processed.concat_insert hx
  seen_iff := h.seen_iff
  untimed?_eq := h.untimed?_eq

theorem remember_other {key : String} (hKey : key ∉ keys) (content : String) :
    Alongside keys e (e'.remember key content) where
  frame := by
    rw [h.frame]
    rfl
  processed := h.processed
  seen_iff := h.seen_iff
  untimed?_eq other hOther := by
    have hne : key ≠ other := fun hSame => hKey (hSame ▸ hOther)
    rw [Engine.remember, ChangeCache.untimed?_record, if_neg hne, h.untimed?_eq other hOther]

/-! ### Visits -/

/-- A file of the run is visited in the same way on both sides. -/
theorem visit {d : Disk} {p : Path} {e₁ : Engine} {result : Except RunError Unit}
    (hKey : e.keyOf p ∈ keys) (hVisit : Visit d p e result e₁) :
    ∃ e₁', Visit d p e' result e₁' ∧ Alongside keys e₁ e₁' := by
  have hNewOf : e.keyOf p ∉ e.seen → e'.keyOf p ∉ e'.seen := by
    rw [h.keyOf_eq, h.seen_iff _ hKey]
    exact id
  have hGate : ∀ content, e'.cache.isModified (e'.keyOf p) content =
      e.cache.isModified (e.keyOf p) content := by
    rw [h.keyOf_eq]
    exact h.isModified_eq hKey
  have hSees : Alongside keys (e.see (e.keyOf p)) (e'.see (e'.keyOf p)) := by
    rw [h.keyOf_eq]
    exact h.see _
  have hCollects : ∀ content, Alongside keys
      ((e.see (e.keyOf p)).collectAll (e.keyOf p) (e.scan content))
      ((e'.see (e'.keyOf p)).collectAll (e'.keyOf p) (e'.scan content)) := by
    rw [h.keyOf_eq, h.scan_eq]
    exact fun content => (h.see _).collectAll _ _
  cases hVisit with
  | again hSeen =>
    refine ⟨e', .again ?_, h⟩
    rwa [h.keyOf_eq, h.seen_iff _ hKey]
  | unreadable cause hNew hRead => exact ⟨_, .unreadable cause (hNewOf hNew) hRead, hSees⟩
  | unchanged content hNew hRead hKnown =>
    refine ⟨_, .unchanged content (hNewOf hNew) hRead ((hGate content).trans hKnown), ?_⟩
    rw [h.keyOf_eq]
    exact (h.see _).push _
  | unsupported content hNew hRead hModified hPlacement =>
    refine ⟨_, .unsupported content (hNewOf hNew) hRead ((hGate content).trans hModified)
      hPlacement, ?_⟩
    rw [h.keyOf_eq]
    exact (h.see _).push _
  | noClasses content placement hNew hRead hModified hPlacement hScan =>
    refine ⟨_, .noClasses content placement (hNewOf hNew) hRead
      ((hGate content).trans hModified) hPlacement (h.scan_eq ▸ hScan), ?_⟩
    rw [h.keyOf_eq]
    exact ((h.see _).remember _ content).push _
  | sheetError content placement error hNew hRead hModified hPlacement hSheet hScan =>
    exact ⟨_, .sheetError content placement error (hNewOf hNew) hRead
      ((hGate content).trans hModified) hPlacement hSheet (h.scan_eq ▸ hScan), hCollects content⟩
  | waiting content placement sheet hNew hRead hModified hPlacement hScan hSheet =>
    refine ⟨_, .waiting content placement sheet (hNewOf hNew) hRead
      ((hGate content).trans hModified) hPlacement (h.scan_eq ▸ hScan) hSheet, ?_⟩
    rw [h.keyOf_eq, h.scan_eq]
    exact ((h.see _).collectAll _ _).push _

/-- A visit of a further file is one that the other engine does not see. -/
theorem visit_other {d : Disk} {p : Path} {cache : ChangeCache} (hKey : e'.keyOf p ∉ keys)
    (hScan : e'.scan = Markup.scan) (hUnseen : KeepsUnseen cache e')
    (hPasses : PassedOver d e'.scanRoot cache p) :
    ∃ e₁', Visit d p e' (.ok ()) e₁' ∧ Alongside keys e e₁' := by
  obtain ⟨content, hRead, hWhy⟩ := hPasses
  by_cases hSeen : e'.keyOf p ∈ e'.seen
  · exact ⟨e', .again hSeen, h⟩
  have hGate : cache.isModified (Path.fileKey e'.scanRoot p) content =
      e'.cache.isModified (e'.keyOf p) content :=
    (ChangeCache.isModified_congr (hUnseen _ hSeen) content).symm
  have hPushed : ∀ action : Action, action.isRewritten = false →
      ProcessedOver keys (.done (e'.keyOf p) action) :=
    fun action hAction => ⟨(e'.keyOf p, action), ⟨hKey, hAction⟩, rfl⟩
  rw [hGate] at hWhy
  cases hModified : e'.cache.isModified (e'.keyOf p) content with
  | false =>
    exact ⟨_, .unchanged content hSeen hRead hModified,
      (h.see_other hKey).push_other (hPushed _ rfl)⟩
  | true =>
    cases hPlacement : Placement.forPath? p with
    | none =>
      exact ⟨_, .unsupported content hSeen hRead hModified hPlacement,
        (h.see_other hKey).push_other (hPushed _ rfl)⟩
    | some placement =>
      have hNothing : e'.scan content = [] := by
        rw [hModified, hPlacement] at hWhy
        rw [hScan]
        simpa using hWhy
      exact ⟨_, .noClasses content placement hSeen hRead hModified hPlacement hNothing,
        ((h.see_other hKey).remember_other hKey content).push_other (hPushed _ rfl)⟩

end Alongside

/-! ## Runs -/

theorem processAll_cons {d : Disk} {p : Path} {paths : List Path} {e e' : Engine}
    (h : Visit d p e (.ok ()) e') : processAll d (p :: paths) e = processAll d paths e' := by
  rw [processAll, h.processFile_eq]

theorem processAll_cons_error {d : Disk} {p : Path} {paths : List Path} {e e' : Engine}
    {error : RunError} (h : Visit d p e (.error error) e') :
    processAll d (p :: paths) e = .error error := by
  rw [processAll, h.processFile_eq]

theorem Alongside.processAll {d : Disk} {root : Path} {cache : ChangeCache} {keys : List String}
    {paths all : List Path} {e e' : Engine}
    (hAll : Inserted (fun p => Path.fileKey root p ∉ keys ∧ PassedOver d root cache p) paths all)
    (hOwn : ∀ p ∈ paths, Path.fileKey root p ∈ keys) (h : Alongside keys e e')
    (hRoot : e'.scanRoot = root) (hCoherent : Coherent e') (hUnseen : KeepsUnseen cache e') :
    (∀ error, processAll d paths e = .error error → processAll d all e' = .error error) ∧
      ∀ last, processAll d paths e = .ok last →
        ∃ last', processAll d all e' = .ok last' ∧ Alongside keys last last' := by
  induction hAll generalizing e e' with
  | nil =>
    constructor
    · intro error hError
      cases hError
    · intro last hLast
      cases hLast
      exact ⟨e', rfl, h⟩
  | @keep paths all p _ ih =>
    have hKey : e.keyOf p ∈ keys := by
      rw [← h.keyOf_eq, keyOf_of_scanRoot hRoot]
      exact hOwn p List.mem_cons_self
    have hVisit := visit_processFile d p e
    cases hFile : processFile d p e with
    | mk result next =>
    rw [hFile] at hVisit
    obtain ⟨next', hVisit', hNext⟩ := h.visit hKey hVisit
    cases result with
    | error error =>
      rw [processAll_cons_error hVisit, processAll_cons_error hVisit']
      exact ⟨fun _ => id, fun last hLast => (nomatch hLast)⟩
    | ok _ =>
      rw [processAll_cons hVisit, processAll_cons hVisit']
      exact ih (fun q hq => hOwn q (List.mem_cons_of_mem p hq)) hNext
        (hVisit'.sameSettings.scanRoot_eq.trans hRoot) (hCoherent.visit hVisit')
        (hUnseen.visit hVisit')
  | @insert paths all p hp _ ih =>
    obtain ⟨next', hVisit', hNext⟩ := h.visit_other
      (by rw [keyOf_of_scanRoot hRoot]; exact hp.1) hCoherent.scan_eq hUnseen (hRoot ▸ hp.2)
    rw [processAll_cons hVisit']
    exact ih hOwn hNext (hVisit'.sameSettings.scanRoot_eq.trans hRoot) (hCoherent.visit hVisit')
      (hUnseen.visit hVisit')

theorem Alongside.forgetUnseen {keys : List String} {e e' : Engine} (h : Alongside keys e e') :
    Alongside keys e.forgetUnseen.2 e'.forgetUnseen.2 where
  frame := by
    rw [h.frame]
    rfl
  processed := h.processed
  seen_iff := h.seen_iff
  untimed?_eq key hKey := by
    have hKept := h.untimed?_eq key hKey
    rw [ChangeCache.untimed?, ChangeCache.untimed?] at hKept
    rw [ChangeCache.untimed?, ChangeCache.untimed?, find?_forgetUnseen, find?_forgetUnseen]
    by_cases hSeen : key ∈ e.seen
    · rw [if_pos hSeen, if_pos ((h.seen_iff key hKey).mpr hSeen), hKept]
    · rw [if_neg hSeen, if_neg (mt (h.seen_iff key hKey).mp hSeen)]

theorem inserted_log (e : Engine) {keys : List String} {processed processed' : List Processed}
    (h : Inserted (ProcessedOver keys) processed processed')
    (done : List (PendingFile × Injection)) :
    Inserted (PassesOver keys) (e.log processed done) (e.log processed' done) := by
  induction h generalizing done with
  | nil => exact .nil
  | keep x _ ih =>
    cases x with
    | done key action => exact .keep _ (ih done)
    | pending file =>
      cases done with
      | nil => exact ih []
      | cons d done => exact .keep _ (ih done)
  | insert x hx _ ih =>
    obtain ⟨entry, hEntry, rfl⟩ := hx
    exact .insert entry hEntry (ih done)

/-- The second phase gives the same, but for the entries of the further files. -/
theorem Alongside.finish {keys : List String} {e e' : Engine} (h : Alongside keys e e')
    (hCoherent : Coherent e) : ∃ out out', e.finish = .ok out ∧ e'.finish = .ok out' ∧
      SameFor keys out out' := by
  obtain ⟨done, hDone, _⟩ := hCoherent.exists_rewriteAll
  have hPending : e'.pending = e.pending := by
    rw [← filterMap_processed, ← filterMap_processed]
    refine h.processed.filterMap_eq fun x hx => ?_
    obtain ⟨entry, _, rfl⟩ := hx
    rfl
  have hJobs : e'.jobs = e.jobs := by
    rw [jobs, jobs, hPending, h.frame]
    rfl
  have hRewriter : e'.rewriter = e.rewriter := by
    rw [h.frame]
    rfl
  have hDone' : e'.rewriteAll e'.rewriter e'.jobs = .ok done := by
    rw [rewriteAll_congr h.book_eq h.index_eq, hRewriter, hJobs, hDone]
  refine ⟨_, _, finish_of_rewriteAll hDone, finish_of_rewriteAll hDone', ?_, ?_, ?_, ?_⟩
  · exact writes_settleAll _ _ _ _ _ _
  · rw [h.frame]
    rfl
  · have hLog : e'.log e'.processed done = e.log e'.processed done := log_congr h.scanRoot_eq _ _
    dsimp only [output]
    rw [report_eq, report_eq, hLog]
    exact inserted_log e h.processed done
  · exact fun key hKey => untimed?_settleAll _ _ _ (h.untimed?_eq key hKey) done

/-- However many files that are passed over are put between the files of a run, and at whatever
times the files are processed, the run of more files fails as the other one does, and else it has
the same rules, names and calls, buffers the same writes, and says and remembers the same of the
files of the other one. -/
theorem processAll_of_inserted (scanRoot : Path) (cache : ChangeCache) (compile : Compiler)
    (namePrefix : String) (maxInvocations : Nat) (strategy : Option NamingStrategy)
    (names random : RandomSource) (options : RunOptions) (now now' : UInt64) {d : Disk}
    {paths all : List Path}
    (hAll : Inserted (fun p => Path.fileKey scanRoot p ∉ paths.map (Path.fileKey scanRoot) ∧
      PassedOver d scanRoot cache p) paths all) :
    let keys := paths.map (Path.fileKey scanRoot)
    let start := new scanRoot cache compile (.new namePrefix maxInvocations strategy names) options
      random
    (∀ error, processAll d paths (start now) = .error error →
      processAll d all (start now') = .error error) ∧
    ∀ e, processAll d paths (start now) = .ok e → ∃ e', processAll d all (start now') = .ok e' ∧
      e'.resolver = e.resolver ∧ e'.book = e.book ∧ e'.index = e.index ∧
      (∃ out out', e.finish = .ok out ∧ e'.finish = .ok out' ∧ SameFor keys out out') ∧
      ∃ out out', e.forgetUnseen.2.finish = .ok out ∧ e'.forgetUnseen.2.finish = .ok out' ∧
        SameFor keys out out' := by
  intro keys start
  have hCoherent : ∀ time, Coherent (start time) := fun time =>
    coherent_new scanRoot cache compile options random time
      (NameResolver.sound_new namePrefix maxInvocations strategy names) rfl
  have hStart : Alongside keys (start now) (start now') :=
    ⟨rfl, .nil, fun _ _ => Iff.rfl, fun _ _ => rfl⟩
  obtain ⟨hError, hOk⟩ := hStart.processAll hAll (fun p hp => List.mem_map_of_mem hp) rfl
    (hCoherent now') (fun _ _ => rfl)
  refine ⟨hError, ?_⟩
  intro e hPaths
  obtain ⟨e', hMore, hEnd⟩ := hOk e hPaths
  have hLast : Coherent e := visitAll_of_processAll hPaths ▸ coherent_visitAll (hCoherent now) _
  exact ⟨e', hMore, hEnd.resolver_eq, hEnd.book_eq, hEnd.index_eq, hEnd.finish hLast,
    hEnd.forgetUnseen.finish (hLast.setCache _)⟩

def startOver (now : UInt64) : Engine :=
  new ⟨"src"⟩ mixedCache (UtilityTable.compile ⟨.ofList [("y", "margin: 0;")]⟩)
    (.new "twk-" 0 none (.ofSeed 0)) {} (.ofSeed 0) now

theorem inserted_mixedPaths :
    Inserted (fun p => Path.fileKey ⟨"src"⟩ p ∉ [⟨"src/b.tsx"⟩].map (Path.fileKey ⟨"src"⟩) ∧
      PassedOver mixedDisk ⟨"src"⟩ mixedCache p) [⟨"src/b.tsx"⟩] mixedPaths := by
  have hNew : PassedOver mixedDisk ⟨"src"⟩ mixedCache ⟨"src/c.html"⟩ :=
    ⟨"<i>", by decide +kernel, .inr (.inr (by decide +kernel))⟩
  have hKnown : PassedOver mixedDisk ⟨"src"⟩ mixedCache ⟨"src/a.html"⟩ :=
    ⟨"<p class=\"x\">", by decide +kernel, .inl (by decide +kernel)⟩
  refine .insert _ ⟨by decide +kernel, hNew⟩ (.keep _ (.insert _ ⟨by decide +kernel, hKnown⟩ .nil))

/-- A component keeps its name between a page without classes and a page that is known. -/
theorem processAll_mixedPaths :
    Inserted (fun p => Path.fileKey ⟨"src"⟩ p ∉ [⟨"src/b.tsx"⟩].map (Path.fileKey ⟨"src"⟩) ∧
      PassedOver mixedDisk ⟨"src"⟩ mixedCache p) [⟨"src/b.tsx"⟩] mixedPaths ∧
    ∃ e e' out out', processAll mixedDisk [⟨"src/b.tsx"⟩] (startOver 0) = .ok e ∧
      processAll mixedDisk mixedPaths (startOver 7) = .ok e' ∧ e.resolver.names.length = 1 ∧
      e'.resolver = e.resolver ∧ e.finish = .ok out ∧ e'.finish = .ok out' ∧
      out'.writes = out.writes := by
  have hNames : (processAll mixedDisk [⟨"src/b.tsx"⟩] (startOver 0)).toOption.map
      (fun e => e.resolver.names.length) = some 1 := by
    decide +kernel
  obtain ⟨_, hOk⟩ := processAll_of_inserted ⟨"src"⟩ mixedCache
    (UtilityTable.compile ⟨.ofList [("y", "margin: 0;")]⟩) "twk-" 0 none (.ofSeed 0) (.ofSeed 0) {}
    0 7 inserted_mixedPaths
  obtain ⟨e, hSome, hLength⟩ := Option.map_eq_some_iff.mp hNames
  have hPaths : processAll mixedDisk [⟨"src/b.tsx"⟩] (startOver 0) = .ok e := by
    cases hResult : processAll mixedDisk [⟨"src/b.tsx"⟩] (startOver 0) with
    | error error =>
      rw [hResult] at hSome
      cases hSome
    | ok last =>
      rw [hResult] at hSome
      cases hSome
      rfl
  obtain ⟨e', hMore, hResolver, _, _, ⟨out, out', hOut, hOut', hSame⟩, _⟩ := hOk e hPaths
  exact ⟨inserted_mixedPaths, e, e', out, out', hPaths, hMore, hLength, hResolver, hOut, hOut',
    hSame.writes_eq⟩

end Engine

end ClassCollapse
