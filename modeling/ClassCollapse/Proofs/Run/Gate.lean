import ClassCollapse.Proofs.Cache.ChangeSet
import ClassCollapse.Proofs.Related
import ClassCollapse.Proofs.Run.Visit

/-!
# The gate of a run

The first phase of a run processes each file by what the cache knows of it. What the status says
of files is what a run over them does: it passes over the unchanged ones, and it forgets the deleted
ones.
-/

namespace ClassCollapse

namespace Engine

/-! ## Forgetting -/

theorem mem_unseen_iff (e : Engine) (key : String) :
    key ∈ e.unseen ↔ e.cache.manifest.find? key ≠ none ∧ key ∉ e.seen := by
  rw [unseen, List.mem_filter, Table.mem_keys_iff]
  simp

theorem find?_forgetUnseen (e : Engine) (key : String) :
    e.forgetUnseen.2.cache.manifest.find? key =
      if key ∈ e.seen then e.cache.manifest.find? key else none := by
  have hForget : e.forgetUnseen.2.cache = e.unseen.foldl ChangeCache.forget e.cache := rfl
  rw [hForget, ChangeCache.find?_forgetAll]
  by_cases hSeen : key ∈ e.seen
  · rw [if_pos hSeen, if_neg]
    exact fun hMem => ((mem_unseen_iff e key).mp hMem).2 hSeen
  · rw [if_neg hSeen]
    split
    next => rfl
    next hKept =>
      by_contra hFound
      exact hKept ((mem_unseen_iff e key).mpr ⟨hFound, hSeen⟩)

/-! ## Processing -/

/-- What a file is processed as in a run that started with a cache, and the entry that its key then
has. -/
inductive Gated (d : Disk) (now : UInt64) (cache : ChangeCache) (key : String) (p : Path) :
    Processed → Option CacheEntry → Prop
  | unchanged {content : String} (hRead : d.readText p = .ok content)
    (hKnown : cache.isModified key content = false) :
    Gated d now cache key p (.done key .unchanged) (cache.manifest.find? key)
  | unsupported {content : String} (hRead : d.readText p = .ok content)
    (hModified : cache.isModified key content = true) :
    Gated d now cache key p (.done key .unsupported) (cache.manifest.find? key)
  | noClasses {content : String} (hRead : d.readText p = .ok content)
    (hModified : cache.isModified key content = true) (hPlacement : Placement.forPath? p ≠ none) :
    Gated d now cache key p (.done key .noClasses)
      (some (ChangeCache.newEntry now content content))
  | waiting {file : PendingFile} (hKey : file.key = key) (hPath : file.path = p)
    (hRead : d.readText p = .ok file.content)
    (hModified : cache.isModified key file.content = true)
    (hSheet : existingSheet d file.placement p = .ok file.existingSheet) :
    Gated d now cache key p (.pending file) (cache.manifest.find? key)

theorem Gated.key_eq {d : Disk} {now : UInt64} {cache : ChangeCache} {key : String} {p : Path}
    {x : Processed} {entry : Option CacheEntry} (h : Gated d now cache key p x entry) :
    x.key = key := by
  cases h with
  | waiting hKey => exact hKey
  | _ => rfl

theorem Gated.unchanged_iff {d : Disk} {now : UInt64} {cache : ChangeCache} {key : String}
    {p : Path} {x : Processed} {entry : Option CacheEntry} (h : Gated d now cache key p x entry)
    {content : String} (hRead : d.readText p = .ok content) :
    x = .done key .unchanged ↔ cache.isModified key content = false := by
  cases h with
  | unchanged hRead' hKnown =>
    rw [hRead] at hRead'
    cases hRead'
    simp [hKnown]
  | unsupported hRead' hModified =>
    rw [hRead] at hRead'
    cases hRead'
    simp [hModified]
  | noClasses hRead' hModified _ =>
    rw [hRead] at hRead'
    cases hRead'
    simp [hModified]
  | waiting _ _ hRead' hModified _ =>
    rw [hRead] at hRead'
    cases hRead'
    simp [hModified]

theorem Gated.congr {d : Disk} {now : UInt64} {cache cache' : ChangeCache} {key : String}
    {p : Path} {x : Processed} {entry : Option CacheEntry} (h : Gated d now cache key p x entry)
    (hSame : cache.manifest.find? key = cache'.manifest.find? key) :
    Gated d now cache' key p x entry := by
  have hModified := ChangeCache.isModified_congr hSame
  cases h with
  | unchanged hRead hKnown =>
    rw [hSame]
    exact .unchanged hRead (hModified _ ▸ hKnown)
  | unsupported hRead hNew =>
    rw [hSame]
    exact .unsupported hRead (hModified _ ▸ hNew)
  | noClasses hRead hNew hPlacement => exact .noClasses hRead (hModified _ ▸ hNew) hPlacement
  | waiting hKey hPath hRead hNew hSheet =>
    rw [hSame]
    exact .waiting hKey hPath hRead (hModified _ ▸ hNew) hSheet

/-- A visit of a new key processes its file and changes at most its entry. -/
theorem Visit.gated {d : Disk} {p : Path} {e e' : Engine} (h : Visit d p e (.ok ()) e')
    (hNew : e.keyOf p ∉ e.seen) :
    ∃ x, e'.worklist = e.worklist.push x ∧ e'.seen = e.keyOf p :: e.seen ∧
      Gated d e.now e.cache (e.keyOf p) p x (e'.cache.manifest.find? (e.keyOf p)) ∧
      ∀ key, key ≠ e.keyOf p → e'.cache.manifest.find? key = e.cache.manifest.find? key := by
  cases h with
  | again hSeen => exact absurd hSeen hNew
  | unchanged content _ hRead hKnown =>
    exact ⟨_, rfl, rfl, .unchanged hRead hKnown, fun _ _ => rfl⟩
  | unsupported content _ hRead hModified _ =>
    exact ⟨_, rfl, rfl, .unsupported hRead hModified, fun _ _ => rfl⟩
  | noClasses content placement _ hRead hModified hPlacement _ =>
    refine ⟨.done (e.keyOf p) .noClasses, rfl, rfl, ?_, ?_⟩
    · have hGated : Gated d e.now e.cache (e.keyOf p) p (.done (e.keyOf p) .noClasses) _ :=
        .noClasses hRead hModified (by simp [hPlacement])
      rw [← ChangeCache.find?_record_self e.cache e.now (e.keyOf p) content content] at hGated
      exact hGated
    · intro key hOther
      exact ChangeCache.find?_record_other e.cache e.now hOther content content
  | waiting content placement sheet _ hRead hModified _ _ hSheet =>
    have hCache := cache_collectAll (e.see (e.keyOf p)) (e.keyOf p) (e.scan content)
    refine ⟨.pending ⟨e.keyOf p, p, content, placement, (e.scan content).length, sheet⟩, ?_,
      seen_collectAll _ _ _, ?_, ?_⟩
    · rw [push, worklist_collectAll]
      rfl
    · rw [push, hCache]
      exact .waiting rfl rfl hRead hModified hSheet
    · intro key _
      rw [push, hCache]
      rfl

/-- What the cache holds of keys that were not visited is what it held at the start. -/
def KeepsUnseen (cache : ChangeCache) (e : Engine) : Prop :=
  ∀ key, key ∉ e.seen → e.cache.manifest.find? key = cache.manifest.find? key

theorem KeepsUnseen.visit {d : Disk} {p : Path} {cache : ChangeCache} {e e' : Engine}
    (hVisit : Visit d p e (.ok ()) e') (h : KeepsUnseen cache e) : KeepsUnseen cache e' := by
  by_cases hSeen : e.keyOf p ∈ e.seen
  · rw [hVisit.eq_of_seen hSeen]
    exact h
  · obtain ⟨x, _, hSees, _, hOther⟩ := hVisit.gated hSeen
    intro key hNew
    rw [hSees, List.mem_cons, not_or] at hNew
    rw [hOther key hNew.1, h key hNew.2]

/-- The first phase over files with different keys processes each of them, in their order. -/
theorem gated_processAll {d : Disk} {paths : List Path} {e e' : Engine} (root : Path)
    (cache : ChangeCache) (hAll : processAll d paths e = .ok e') (hRoot : e.scanRoot = root)
    (hKeys : (paths.map (Path.fileKey root)).Nodup)
    (hNew : ∀ p ∈ paths, Path.fileKey root p ∉ e.seen)
    (hCache : ∀ p ∈ paths, e.cache.manifest.find? (Path.fileKey root p) =
      cache.manifest.find? (Path.fileKey root p)) :
    ∃ processed, e'.processed = e.processed ++ processed ∧
      (∀ key, key ∈ e'.seen ↔ key ∈ e.seen ∨ key ∈ paths.map (Path.fileKey root)) ∧
      (∀ key, key ∉ paths.map (Path.fileKey root) →
        e'.cache.manifest.find? key = e.cache.manifest.find? key) ∧
      List.Forall₂ (fun p x => Gated d e.now cache (Path.fileKey root p) p x
        (e'.cache.manifest.find? (Path.fileKey root p))) paths processed := by
  induction paths generalizing e with
  | nil =>
    cases hAll
    exact ⟨[], by simp, by simp, fun _ _ => rfl, .nil⟩
  | cons p paths ih =>
    have hVisit := visit_processFile d p e
    rw [processAll] at hAll
    cases hFile : processFile d p e with
    | mk result next =>
    rw [hFile] at hAll hVisit
    cases result with
    | error cause => cases hAll
    | ok _ =>
      have hKeyOf : e.keyOf p = Path.fileKey root p := by rw [keyOf, hRoot]
      have hSettings := hVisit.sameSettings
      obtain ⟨hFirst, hRest⟩ := List.nodup_cons.mp hKeys
      obtain ⟨x, hPushed, hSeen, hGated, hOther⟩ :=
        hVisit.gated (hKeyOf ▸ hNew p List.mem_cons_self)
      rw [hKeyOf] at hSeen hGated hOther
      have hDifferent : ∀ q ∈ paths, Path.fileKey root q ≠ Path.fileKey root p := by
        intro q hq hSame
        exact hFirst (hSame ▸ List.mem_map_of_mem hq)
      -- The first file has changed the cache, but at no key of the others.
      obtain ⟨processed, hProcessed, hSeen', hOther', hAllGated⟩ :=
        ih hAll (hSettings.scanRoot_eq.trans hRoot) hRest (by
          intro q hq hMem
          rw [hSeen] at hMem
          rcases List.mem_cons.mp hMem with hSame | hOld
          · exact hDifferent q hq hSame
          · exact hNew q (List.mem_cons_of_mem p hq) hOld) (by
          intro q hq
          rw [hOther _ (hDifferent q hq)]
          exact hCache q (List.mem_cons_of_mem p hq))
      refine ⟨x :: processed, ?_, ?_, ?_, ?_⟩
      · rw [hProcessed, processed_of_worklist_eq hPushed, List.append_assoc]
        rfl
      · intro key
        rw [hSeen', hSeen, List.mem_cons, List.map_cons, List.mem_cons, or_assoc, or_left_comm]
      · intro key hKey
        rw [List.map_cons, List.mem_cons, not_or] at hKey
        rw [hOther' key hKey.2, hOther key hKey.1]
      · rw [hSettings.now_eq] at hAllGated
        refine .cons ?_ hAllGated
        rw [hOther' _ hFirst]
        exact hGated.congr (hCache p List.mem_cons_self)

/-- A file is passed over exactly if the cache that the run started with accepts its text. -/
theorem mem_processed_unchanged_iff {d : Disk} {now : UInt64} {cache : ChangeCache} {root : Path}
    {paths : List Path} {processed : List Processed} {entry : Path → Option CacheEntry}
    (h : List.Forall₂ (fun p x => Gated d now cache (Path.fileKey root p) p x (entry p))
      paths processed)
    (hKeys : (paths.map (Path.fileKey root)).Nodup) {p : Path} (hp : p ∈ paths)
    {content : String} (hRead : d.readText p = .ok content) :
    .done (Path.fileKey root p) .unchanged ∈ processed ↔
      cache.isModified (Path.fileKey root p) content = false := by
  obtain ⟨hProcessed, hPaths⟩ := exists_of_forall₂ h
  constructor
  · intro hMem
    obtain ⟨q, hq, hGated⟩ := hPaths _ hMem
    have hSame : p = q := List.inj_on_of_nodup_map hKeys hp hq hGated.key_eq
    subst hSame
    exact (hGated.unchanged_iff hRead).mp rfl
  · intro hKnown
    obtain ⟨x, hMem, hGated⟩ := hProcessed p hp
    rwa [(hGated.unchanged_iff hRead).mpr hKnown] at hMem

/-- A visit of a new file passes over it exactly if the cache accepts its text. -/
theorem slots_processFile_eq_iff {d : Disk} {p : Path} {e : Engine} (hNew : e.keyOf p ∉ e.seen)
    {content : String} (hRead : d.readText p = .ok content) :
    (processFile d p e).2.slots = e.slots ++ [.done (e.keyOf p) .unchanged] ↔
      e.cache.isModified (e.keyOf p) content = false := by
  have hVisit := visit_processFile d p e
  cases hFile : processFile d p e with
  | mk result e' =>
  rw [hFile] at hVisit
  dsimp only at hVisit ⊢
  cases result with
  | ok _ =>
    obtain ⟨x, hPushed, _, hGated, _⟩ := hVisit.gated hNew
    rw [slots, hPushed]
    exact Worklist.slots_push_eq_iff.trans (hGated.unchanged_iff hRead)
  | error error =>
    cases hVisit with
    | unreadable cause _ hUnread =>
      rw [hRead] at hUnread
      cases hUnread
    | sheetError content' placement _ _ hRead' hModified =>
      rw [hRead] at hRead'
      cases hRead'
      rw [slots, worklist_collectAll, hModified]
      simp [see, slots]

/-! ## Status -/

/-- A file can be read, and so can the companion sheet that it has. -/
structure Readable (d : Disk) (p : Path) : Prop where
  text : ∃ content, d.readText p = .ok content
  sheet : Placement.forPath? p = some .companion →
    ∀ cause, d.readText (Placement.companionPath p) = .error cause → cause = .notFound

theorem Readable.existingSheet_ne_error {d : Disk} {p : Path} (h : Readable d p)
    {placement : Placement} (hPlacement : Placement.forPath? p = some placement)
    (error : RunError) : existingSheet d placement p ≠ .error error := by
  intro hError
  cases placement with
  | inline =>
    have hInline : existingSheet d .inline p = .ok none := rfl
    rw [hInline] at hError
    cases hError
  | companion =>
    unfold existingSheet at hError
    cases hRead : d.readText (Placement.companionPath p) with
    | ok text =>
      simp only [hRead] at hError
      cases hError
    | error cause =>
      have hCause := h.sheet hPlacement cause hRead
      simp only [hRead, hCause] at hError
      cases hError

theorem exists_processAll {d : Disk} {paths : List Path} (h : ∀ p ∈ paths, Readable d p)
    (e : Engine) : ∃ e', processAll d paths e = .ok e' := by
  induction paths generalizing e with
  | nil => exact ⟨e, rfl⟩
  | cons p paths ih =>
    have hVisit := visit_processFile d p e
    have hReadable := h p List.mem_cons_self
    rw [processAll]
    cases hFile : processFile d p e with
    | mk result next =>
    rw [hFile] at hVisit
    cases result with
    | ok _ => exact ih (fun q hq => h q (List.mem_cons_of_mem p hq)) next
    | error error =>
      exfalso
      cases hVisit with
      | unreadable cause _ hRead =>
        obtain ⟨content, hContent⟩ := hReadable.text
        rw [hRead] at hContent
        cases hContent
      | sheetError _ _ _ _ _ _ hPlacement hSheet =>
        exact hReadable.existingSheet_ne_error hPlacement error hSheet

section Hashed

variable {d : Disk} {root : Path} {paths : List Path}
  (hKeys : (paths.map (Path.fileKey root)).Nodup)
include hKeys

/-- The digest of a file is that of the text that a run reads. -/
theorem find?_hashFiles_of_mem {p : Path} (hp : p ∈ paths) {content : String}
    (hRead : d.readText p = .ok content) :
    (ChangeCache.hashFiles d (paths.map fun p => (Path.fileKey root p, p))).find?
      (Path.fileKey root p) = some (Digest.ofText content) := by
  rw [ChangeCache.find?_hashFiles_eq_some_iff]
  · exact ⟨p, List.mem_map_of_mem hp, ChangeCache.hashFile_of_readText hRead⟩
  · rw [List.map_map]
    exact hKeys

theorem find?_hashFiles_eq_none_iff (hReadable : ∀ p ∈ paths, Readable d p) (key : String) :
    (ChangeCache.hashFiles d (paths.map fun p => (Path.fileKey root p, p))).find? key = none ↔
      key ∉ paths.map (Path.fileKey root) := by
  rw [← not_iff_not, not_not, ← ne_eq, Option.ne_none_iff_exists']
  constructor
  · rintro ⟨digest, hFound⟩
    rw [ChangeCache.find?_hashFiles_eq_some_iff] at hFound
    · obtain ⟨p, hMem, _⟩ := hFound
      obtain ⟨q, hq, hSame⟩ := List.mem_map.mp hMem
      cases hSame
      exact List.mem_map_of_mem hq
    · rw [List.map_map]
      exact hKeys
  · intro hMem
    obtain ⟨p, hp, rfl⟩ := List.mem_map.mp hMem
    obtain ⟨content, hRead⟩ := (hReadable p hp).text
    exact ⟨_, find?_hashFiles_of_mem hKeys hp hRead⟩

theorem mem_withStatus_hashFiles_iff (manifest : Manifest) {p : Path} (hp : p ∈ paths)
    {content : String} (hRead : d.readText p = .ok content) (status : ChangeSet.Status) :
    Path.fileKey root p ∈ ChangeSet.withStatus manifest
        (ChangeCache.hashFiles d (paths.map fun p => (Path.fileKey root p, p))) status ↔
      ChangeSet.statusOf manifest (Path.fileKey root p) (Digest.ofText content) = status := by
  rw [ChangeSet.mem_withStatus_iff, find?_hashFiles_of_mem hKeys hp hRead]
  simp

end Hashed

/-- What the status says of files and what a run does with them agree, for any cache, table,
strategy and switches. -/
theorem detectChanges_processAll {d : Disk} {root : Path} {paths : List Path}
    (hKeys : (paths.map (Path.fileKey root)).Nodup) (hReadable : ∀ p ∈ paths, Readable d p)
    (cache : ChangeCache) (compile : Compiler) (resolver : NameResolver) (options : RunOptions)
    (random : RandomSource) (now : UInt64) :
    let keyed := paths.map fun p => (Path.fileKey root p, p)
    let changes := cache.detectChanges d keyed
    ∃ e, processAll d paths (new root cache compile resolver options random now) = .ok e ∧
      (∀ p ∈ paths, let key := Path.fileKey root p
        (key ∈ changes.unchangedFiles ↔ .done key .unchanged ∈ e.slots) ∧
        (key ∈ changes.newFiles ↔ cache.manifest.find? key = none) ∧
        (key ∈ changes.modifiedFiles ↔
          key ∉ changes.newFiles ∧ key ∉ changes.unchangedFiles)) ∧
      (changes.newFiles ++ changes.modifiedFiles ++ changes.unchangedFiles).Perm
        (paths.map (Path.fileKey root)) ∧
      changes.deletedFiles = e.forgetUnseen.1 ∧
      changes.newFiles.Pairwise (· < ·) ∧ changes.modifiedFiles.Pairwise (· < ·) ∧
      changes.unchangedFiles.Pairwise (· < ·) ∧ changes.deletedFiles.Pairwise (· < ·) := by
  intro keyed changes
  obtain ⟨e, hAll⟩ := exists_processAll hReadable
    (new root cache compile resolver options random now)
  obtain ⟨processed, hProcessed, hSeen, hCache, hGated⟩ :=
    gated_processAll root cache hAll rfl hKeys (fun _ _ => List.not_mem_nil) (fun _ _ => rfl)
  obtain ⟨hNewSorted, hModifiedSorted, hUnchangedSorted, hDeletedSorted⟩ :=
    ChangeSet.ascending_detect cache.manifest (ChangeCache.hashFiles d keyed)
  refine ⟨e, hAll, ?_, ?_, ?_, hNewSorted, hModifiedSorted, hUnchangedSorted, hDeletedSorted⟩
  · intro p hp key
    obtain ⟨content, hRead⟩ := (hReadable p hp).text
    have hStatus := mem_withStatus_hashFiles_iff hKeys cache.manifest hp hRead
    refine ⟨?_, ?_, ?_⟩
    · have hSame : e.worklist.processed = processed := hProcessed
      rw [slots, Worklist.done_mem_slots_iff, hSame,
        mem_processed_unchanged_iff hGated hKeys hp hRead, ← ChangeSet.statusOf_eq_unchanged_iff]
      exact hStatus .unchanged
    · rw [← ChangeSet.statusOf_eq_new_iff cache.manifest key (Digest.ofText content)]
      exact hStatus .new
    · have hNew : key ∈ changes.newFiles ↔ _ := hStatus .new
      have hUnchanged : key ∈ changes.unchangedFiles ↔ _ := hStatus .unchanged
      rw [hNew, hUnchanged]
      refine (hStatus .modified).trans ?_
      cases ChangeSet.statusOf cache.manifest key (Digest.ofText content) <;> simp
  · refine (ChangeSet.perm_keys_detect cache.manifest (ChangeCache.hashFiles d keyed)).trans ?_
    refine (List.perm_ext_iff_of_nodup (Table.nodup_keys _) hKeys).mpr fun key => ?_
    rw [Table.mem_keys_iff, ne_eq, find?_hashFiles_eq_none_iff hKeys hReadable, not_not]
  · refine hDeletedSorted.eq_of_mem_iff (e.cache.manifest.ascending_keys.filter _) fun key => ?_
    rw [ChangeSet.mem_deletedFiles_iff, find?_hashFiles_eq_none_iff hKeys hReadable]
    refine Iff.trans ?_ (mem_unseen_iff e key).symm
    have hSeenKey : key ∈ e.seen ↔ key ∈ paths.map (Path.fileKey root) := by
      rw [hSeen]
      simp [new]
    rw [hSeenKey]
    refine and_congr_left fun hOther => ?_
    rw [hCache key hOther, new]

/-- A page as it was written, a component that was edited, and a new page. -/
def mixedDisk : Disk :=
  ⟨[(["src"], .directory), (["src", "a.html"], .file "<p class=\"x\">".toUTF8),
    (["src", "b.tsx"], .file "<b className=\"y\">".toUTF8),
    (["src", "c.html"], .file "<i>".toUTF8)], []⟩

def mixedPaths : List Path := [⟨"src/c.html"⟩, ⟨"src/b.tsx"⟩, ⟨"src/a.html"⟩]

def mixedCache : ChangeCache :=
  ⟨⟨"classfold.lock"⟩, .ofList [("b.tsx", ChangeCache.newEntry 0 "<b>" "<b>"),
    ("gone.html", ChangeCache.newEntry 0 "<u>" "<u>"),
    ("a.html", ChangeCache.newEntry 0 "<p class=\" x\">" "<p class=\"x\">")]⟩

theorem readable_mixedPaths : ∀ p ∈ mixedPaths, Readable mixedDisk p := by
  have hRead : ∀ p ∈ mixedPaths, (mixedDisk.readText p).toBool = true := by decide +kernel
  have hNoSheet : ∀ p ∈ mixedPaths,
      mixedDisk.readText (Placement.companionPath p) = .error .notFound := by decide +kernel
  intro p hp
  have hText := hRead p hp
  constructor
  · cases hContent : mixedDisk.readText p with
    | ok content => exact ⟨content, rfl⟩
    | error cause =>
      rw [hContent] at hText
      cases hText
  · intro _ cause hCause
    rw [hNoSheet p hp] at hCause
    exact (Except.error.inj hCause).symm

theorem detectChanges_processAll_mixedDisk :
    (mixedPaths.map (Path.fileKey ⟨"src"⟩)).Nodup ∧ (∀ p ∈ mixedPaths, Readable mixedDisk p) ∧
      ∃ e, processAll mixedDisk mixedPaths (new ⟨"src"⟩ mixedCache (UtilityTable.compile ⟨.empty⟩)
        (.new "twk-" 0 none (.ofSeed 0)) {} (.ofSeed 0) 0) = .ok e ∧
        .done "a.html" .unchanged ∈ e.slots ∧ .done "b.tsx" .unchanged ∉ e.slots ∧
        e.forgetUnseen.1 = ["gone.html"] := by
  have hKeys : (mixedPaths.map (Path.fileKey ⟨"src"⟩)).Nodup := by decide +kernel
  obtain ⟨e, hAll, hFiles, _, hDeleted, _⟩ :=
    detectChanges_processAll hKeys readable_mixedPaths mixedCache (UtilityTable.compile ⟨.empty⟩)
      (.new "twk-" 0 none (.ofSeed 0)) {} (.ofSeed 0) 0
  refine ⟨hKeys, readable_mixedPaths, e, hAll, ?_, ?_, ?_⟩
  · refine (hFiles ⟨"src/a.html"⟩ (by decide)).1.mp ?_
    decide +kernel
  · refine mt (hFiles ⟨"src/b.tsx"⟩ (by decide)).1.mpr ?_
    decide +kernel
  · rw [← hDeleted]
    decide +kernel

end Engine

end ClassCollapse
