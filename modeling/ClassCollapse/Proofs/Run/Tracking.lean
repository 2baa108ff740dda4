import ClassCollapse.Proofs.Cache.Basic
import ClassCollapse.Proofs.Run.Coherence

/-!
# Files that are up to date

Every file that a run has visited waits to be rewritten unless it is up to date: its rules have no
placement, or the cache accepts its text. A run over files that are up to date does nothing.
-/

namespace ClassCollapse

namespace Engine

/-- A file has a text that a run leaves as it is. -/
def UpToDate (d : Disk) (e : Engine) (p : Path) : Prop :=
  ∃ content, d.readText p = .ok content ∧
    (Placement.forPath? p = none ∨ e.cache.isModified (e.keyOf p) content = false)

/-! ## The first run -/

/-- What an engine knows of the paths that it has visited. -/
structure Tracks (d : Disk) (visited : List Path) (e : Engine) : Prop where
  seen_iff : ∀ key, key ∈ e.seen ↔ key ∈ visited.map e.keyOf
  known : ∀ p ∈ visited, UpToDate d e p ∨ ∃ file ∈ e.pending, file.path = p
  waiting : ∀ file ∈ e.pending, file.path ∈ visited ∧ file.key = e.keyOf file.path ∧
    Placement.forPath? file.path = some file.placement

theorem tracks_new (d : Disk) (scanRoot : Path) (cache : ChangeCache) (compile : Compiler)
    (resolver : NameResolver) (options : RunOptions) (random : RandomSource) (now : UInt64) :
    Tracks d [] (new scanRoot cache compile resolver options random now) where
  seen_iff _ := Iff.rfl
  known _ hp := nomatch hp
  waiting _ hFile := nomatch hFile

theorem Tracks.extend {d : Disk} {visited : List Path} {e e' : Engine} (h : Tracks d visited e)
    {p : Path} (hNew : e.keyOf p ∉ e.seen)
    (hRoot : e'.scanRoot = e.scanRoot) (hSeen : e'.seen = e.keyOf p :: e.seen)
    (hCache : ∀ key, key ≠ e.keyOf p →
      e'.cache.manifest.find? key = e.cache.manifest.find? key)
    (hPending : ∃ files, e'.pending = e.pending ++ files ∧ ∀ file ∈ files,
      file.path = p ∧ file.key = e.keyOf p ∧ Placement.forPath? p = some file.placement)
    (hKnown : UpToDate d e' p ∨ ∃ file ∈ e'.pending, file.path = p) :
    Tracks d (visited ++ [p]) e' := by
  have hKey : e'.keyOf = e.keyOf := keyOf_of_scanRoot hRoot
  obtain ⟨files, hFiles, hWaiting⟩ := hPending
  constructor
  · intro key
    rw [hSeen, List.mem_cons, h.seen_iff, hKey, List.map_append, List.mem_append,
      List.map_singleton, List.mem_singleton, or_comm]
  · intro other hOther
    rcases List.mem_append.mp hOther with hOld | hLast
    · rcases h.known other hOld with ⟨text, hText, hNothing⟩ | ⟨file, hFile, hPath⟩
      · have hDifferent : e.keyOf other ≠ e.keyOf p := by
          intro hSame
          apply hNew
          rw [← hSame, h.seen_iff]
          exact List.mem_map_of_mem hOld
        refine .inl ⟨text, hText, hNothing.imp_right ?_⟩
        intro hAccepted
        rw [hKey, ChangeCache.isModified_congr (hCache _ hDifferent), hAccepted]
      · refine .inr ⟨file, ?_, hPath⟩
        rw [hFiles]
        exact List.mem_append_left _ hFile
    · rw [List.mem_singleton.mp hLast]
      exact hKnown
  · intro file hFile
    rw [hFiles] at hFile
    rw [hKey]
    rcases List.mem_append.mp hFile with hOld | hMore
    · obtain ⟨hPath, hRest⟩ := h.waiting file hOld
      exact ⟨List.mem_append_left _ hPath, hRest⟩
    · obtain ⟨hPath, hFileKey, hPlacement⟩ := hWaiting file hMore
      rw [hPath]
      exact ⟨List.mem_append_right _ List.mem_cons_self, hFileKey, hPlacement⟩

theorem Tracks.visit {d : Disk} {visited : List Path} {e e' : Engine} {p : Path}
    (hVisit : Visit d p e (.ok ()) e') (h : Tracks d visited e)
    (hNew : e.keyOf p ∉ visited.map e.keyOf) : Tracks d (visited ++ [p]) e' := by
  rw [← h.seen_iff] at hNew
  cases hVisit with
  | again hSeen => exact absurd hSeen hNew
  | unchanged content _ hRead hKnown =>
    refine h.extend hNew rfl rfl (fun _ _ => rfl) ⟨[], pending_push _ _, ?_⟩ ?_
    · exact fun file hFile => nomatch hFile
    · exact .inl ⟨content, hRead, .inr hKnown⟩
  | unsupported content _ hRead hModified hPlacement =>
    refine h.extend hNew rfl rfl (fun _ _ => rfl) ⟨[], pending_push _ _, ?_⟩ ?_
    · exact fun file hFile => nomatch hFile
    · exact .inl ⟨content, hRead, .inl hPlacement⟩
  | noClasses content placement _ hRead hModified hPlacement hScan =>
    refine h.extend hNew rfl rfl ?_ ⟨[], pending_push _ _, ?_⟩ ?_
    · intro key hOther
      exact ChangeCache.find?_record_other e.cache e.now hOther content content
    · exact fun file hFile => nomatch hFile
    · refine .inl ⟨content, hRead, .inr ?_⟩
      exact ChangeCache.isModified_of_find? (ChangeCache.find?_record_self e.cache e.now _ _ _)
  | waiting content placement sheet _ hRead hModified hPlacement hScan hSheet =>
    have hPending : (((e.see (e.keyOf p)).collectAll (e.keyOf p) (e.scan content)).push
        (.pending ⟨e.keyOf p, p, content, placement, (e.scan content).length, sheet⟩)).pending =
        e.pending ++ [⟨e.keyOf p, p, content, placement, (e.scan content).length, sheet⟩] := by
      rw [pending_push, pending_collectAll]
      rfl
    refine h.extend hNew ?_ ?_ ?_ ⟨_, hPending, ?_⟩ (.inr ?_)
    · exact scanRoot_collectAll _ _ _
    · exact seen_collectAll _ _ _
    · intro key _
      exact congrArg (fun cache : ChangeCache => cache.manifest.find? key)
        (cache_collectAll (e.see (e.keyOf p)) _ _)
    · intro file hFile
      rw [List.mem_singleton.mp hFile]
      exact ⟨rfl, rfl, hPlacement⟩
    · rw [hPending]
      exact ⟨_, List.mem_append_right _ List.mem_cons_self, rfl⟩

theorem tracks_processAll {d : Disk} {paths visited : List Path} {e e' : Engine}
    (h : Tracks d visited e) (hKeys : ((visited ++ paths).map e.keyOf).Nodup)
    (hAll : processAll d paths e = .ok e') : Tracks d (visited ++ paths) e' := by
  induction paths generalizing visited e with
  | nil =>
    cases hAll
    rwa [List.append_nil]
  | cons p paths ih =>
    have hVisit := visit_processFile d p e
    rw [processAll] at hAll
    cases hFile : processFile d p e with
    | mk result next =>
    rw [hFile] at hAll hVisit
    cases result with
    | error cause => cases hAll
    | ok _ =>
      have hKey : next.keyOf = e.keyOf := keyOf_of_scanRoot hVisit.sameSettings.scanRoot_eq
      have hNew : e.keyOf p ∉ visited.map e.keyOf := by
        rw [List.map_append, List.map_cons, List.nodup_append] at hKeys
        exact fun hOld => hKeys.2.2 _ hOld _ List.mem_cons_self rfl
      rw [List.append_cons] at hKeys ⊢
      exact ih (h.visit hVisit hNew) (hKey ▸ hKeys) hAll

/-! ## A run over files that are up to date -/

def Idle (action : Action) : Prop :=
  action = .unchanged ∨ action = .unsupported

/-- The engine after it passed over files, with a log of what was done. -/
def passed (e : Engine) (paths : List Path) (log : List (String × Action)) : Engine :=
  { e with
    seen := (paths.map e.keyOf).reverse ++ e.seen
    worklist := log.foldl (fun w f => w.conclude f.1 f.2) e.worklist }

theorem Visit.of_upToDate {d : Disk} {p : Path} {e e' : Engine} {result : Except RunError Unit}
    (h : Visit d p e result e') (hUp : UpToDate d e p) (hNew : e.keyOf p ∉ e.seen) :
    result = .ok () ∧ ∃ action, Idle action ∧ e' = e.passed [p] [(e.keyOf p, action)] := by
  obtain ⟨text, hText, hNothing⟩ := hUp
  -- A visit that goes on found a placement and a text that the cache does not accept.
  have hStops : ∀ {content placement}, d.readText p = .ok content →
      e.cache.isModified (e.keyOf p) content = true →
      Placement.forPath? p = some placement → False := by
    intro content placement hRead hModified hPlacement
    rw [hText] at hRead
    cases hRead
    rcases hNothing with hNone | hAccepted
    · rw [hPlacement] at hNone
      cases hNone
    · rw [hModified] at hAccepted
      cases hAccepted
  cases h with
  | again hSeen => exact absurd hSeen hNew
  | unreadable cause _ hRead =>
    rw [hText] at hRead
    cases hRead
  | unchanged => exact ⟨rfl, .unchanged, .inl rfl, rfl⟩
  | unsupported => exact ⟨rfl, .unsupported, .inr rfl, rfl⟩
  | noClasses _ _ _ hRead hModified hPlacement => exact (hStops hRead hModified hPlacement).elim
  | sheetError _ _ _ _ hRead hModified hPlacement => exact (hStops hRead hModified hPlacement).elim
  | waiting _ _ _ _ hRead hModified hPlacement => exact (hStops hRead hModified hPlacement).elim

theorem processAll_of_upToDate {d : Disk} {paths : List Path} {e : Engine}
    (hUp : ∀ p ∈ paths, UpToDate d e p) (hKeys : (paths.map e.keyOf).Nodup)
    (hNew : ∀ p ∈ paths, e.keyOf p ∉ e.seen) :
    ∃ log : List (String × Action), processAll d paths e = .ok (e.passed paths log) ∧
      log.map Prod.fst = paths.map e.keyOf ∧ ∀ f ∈ log, Idle f.2 := by
  induction paths generalizing e with
  | nil =>
    refine ⟨[], ?_, rfl, fun f hf => nomatch hf⟩
    simp [processAll, passed]
  | cons p paths ih =>
    obtain ⟨hFirst, hRest⟩ := List.nodup_cons.mp hKeys
    have hVisit := visit_processFile d p e
    cases hFile : processFile d p e with
    | mk result next =>
    rw [hFile] at hVisit
    obtain ⟨hOk, action, hIdle, hPassed⟩ :=
      hVisit.of_upToDate (hUp p List.mem_cons_self) (hNew p List.mem_cons_self)
    dsimp only at hOk hPassed
    subst hPassed
    obtain ⟨log, hLog, hSame, hAll⟩ := ih (e := e.passed [p] [(e.keyOf p, action)])
      (fun q hq => hUp q (List.mem_cons_of_mem p hq)) hRest (by
        intro q hq hSeen
        rcases List.mem_cons.mp hSeen with hSame | hOld
        · exact hFirst (hSame ▸ List.mem_map_of_mem hq)
        · exact hNew q (List.mem_cons_of_mem p hq) hOld)
    refine ⟨(e.keyOf p, action) :: log, ?_, ?_, ?_⟩
    · rw [processAll, hFile, hOk]
      dsimp only
      rw [hLog]
      simp [passed, keyOf]
    · rw [List.map_cons, List.map_cons, hSame]
      rfl
    · intro f hf
      rcases List.mem_cons.mp hf with rfl | hOld
      · exact hIdle
      · exact hAll f hOld

end Engine

end ClassCollapse
