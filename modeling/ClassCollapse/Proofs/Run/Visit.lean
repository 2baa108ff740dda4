import ClassCollapse.Proofs.Run.Worklist

/-!
# Visits

A visit processes one file. It ends in one of seven ways, and the engine afterwards is the engine
before it with what that way adds. Properties of runs are proved from these ways, without the
definition of the visit.
-/

namespace ClassCollapse

namespace Engine

def keyOf (e : Engine) (path : Path) : String :=
  Path.fileKey e.scanRoot path

theorem keyOf_of_scanRoot {e : Engine} {root : Path} (h : e.scanRoot = root) :
    e.keyOf = Path.fileKey root := by
  funext path
  rw [keyOf, h]

def see (e : Engine) (key : String) : Engine :=
  { e with seen := key :: e.seen }

def collectAll (e : Engine) (key : String) (found : List ScannedClass) : Engine :=
  found.foldl (collect key) e

def remember (e : Engine) (key content : String) : Engine :=
  { e with cache := e.cache.record e.now key content content }

/-- Collecting changes the occurrences, the rules and the names only. -/
theorem collectAll_eq (e : Engine) (key : String) (found : List ScannedClass) :
    e.collectAll key found =
      { e with
        index := (e.collectAll key found).index
        book := (e.collectAll key found).book
        resolver := (e.collectAll key found).resolver } := by
  induction found generalizing e with
  | nil => rfl
  | cons first found ih => exact ih (collect key e first)

@[simp] theorem worklist_collectAll (e : Engine) (key : String) (found : List ScannedClass) :
    (e.collectAll key found).worklist = e.worklist := by
  rw [collectAll_eq]

@[simp] theorem processed_collectAll (e : Engine) (key : String) (found : List ScannedClass) :
    (e.collectAll key found).processed = e.processed := by
  rw [processed, worklist_collectAll, processed]

@[simp] theorem pending_collectAll (e : Engine) (key : String) (found : List ScannedClass) :
    (e.collectAll key found).pending = e.pending := by
  rw [pending, worklist_collectAll, pending]

@[simp] theorem seen_collectAll (e : Engine) (key : String) (found : List ScannedClass) :
    (e.collectAll key found).seen = e.seen := by
  rw [collectAll_eq]

@[simp] theorem scan_collectAll (e : Engine) (key : String) (found : List ScannedClass) :
    (e.collectAll key found).scan = e.scan := by
  rw [collectAll_eq]

@[simp] theorem compile_collectAll (e : Engine) (key : String) (found : List ScannedClass) :
    (e.collectAll key found).compile = e.compile := by
  rw [collectAll_eq]

@[simp] theorem options_collectAll (e : Engine) (key : String) (found : List ScannedClass) :
    (e.collectAll key found).options = e.options := by
  rw [collectAll_eq]

@[simp] theorem cache_collectAll (e : Engine) (key : String) (found : List ScannedClass) :
    (e.collectAll key found).cache = e.cache := by
  rw [collectAll_eq]

@[simp] theorem scanRoot_collectAll (e : Engine) (key : String) (found : List ScannedClass) :
    (e.collectAll key found).scanRoot = e.scanRoot := by
  rw [collectAll_eq]

/-- What a visit of a path answers and leaves behind. -/
inductive Visit (d : Disk) (path : Path) (e : Engine) : Except RunError Unit → Engine → Prop
  | again (hSeen : e.keyOf path ∈ e.seen) : Visit d path e (.ok ()) e
  | unreadable (cause : IoCause) (hNew : e.keyOf path ∉ e.seen)
    (hRead : d.readText path = .error cause) :
    Visit d path e (.error (.io ⟨path, cause⟩)) (e.see (e.keyOf path))
  | unchanged (content : String) (hNew : e.keyOf path ∉ e.seen)
    (hRead : d.readText path = .ok content)
    (hKnown : e.cache.isModified (e.keyOf path) content = false) :
    Visit d path e (.ok ()) ((e.see (e.keyOf path)).push (.done (e.keyOf path) .unchanged))
  | unsupported (content : String) (hNew : e.keyOf path ∉ e.seen)
    (hRead : d.readText path = .ok content)
    (hModified : e.cache.isModified (e.keyOf path) content = true)
    (hPlacement : Placement.forPath? path = none) :
    Visit d path e (.ok ()) ((e.see (e.keyOf path)).push (.done (e.keyOf path) .unsupported))
  | noClasses (content : String) (placement : Placement) (hNew : e.keyOf path ∉ e.seen)
    (hRead : d.readText path = .ok content)
    (hModified : e.cache.isModified (e.keyOf path) content = true)
    (hPlacement : Placement.forPath? path = some placement) (hScan : e.scan content = []) :
    Visit d path e (.ok ())
      (((e.see (e.keyOf path)).remember (e.keyOf path) content).push
        (.done (e.keyOf path) .noClasses))
  | sheetError (content : String) (placement : Placement) (error : RunError)
    (hNew : e.keyOf path ∉ e.seen) (hRead : d.readText path = .ok content)
    (hModified : e.cache.isModified (e.keyOf path) content = true)
    (hPlacement : Placement.forPath? path = some placement)
    (hSheet : existingSheet d placement path = .error error) (hScan : e.scan content ≠ []) :
    Visit d path e (.error error)
      ((e.see (e.keyOf path)).collectAll (e.keyOf path) (e.scan content))
  | waiting (content : String) (placement : Placement) (sheet : Option String)
    (hNew : e.keyOf path ∉ e.seen) (hRead : d.readText path = .ok content)
    (hModified : e.cache.isModified (e.keyOf path) content = true)
    (hPlacement : Placement.forPath? path = some placement) (hScan : e.scan content ≠ [])
    (hSheet : existingSheet d placement path = .ok sheet) :
    Visit d path e (.ok ())
      (((e.see (e.keyOf path)).collectAll (e.keyOf path) (e.scan content)).push
        (.pending ⟨e.keyOf path, path, content, placement, (e.scan content).length, sheet⟩))

theorem visit_processFile (d : Disk) (path : Path) (e : Engine) :
    Visit d path e (processFile d path e).1 (processFile d path e).2 := by
  have hKey : Path.fileKey e.scanRoot path = e.keyOf path := rfl
  rw [processFile, hKey]
  split
  next hSeen => exact .again hSeen
  next hNew =>
    split
    next cause hRead => exact .unreadable cause hNew hRead
    next content hRead =>
      cases hModified : e.cache.isModified (e.keyOf path) content with
      | false =>
        simp only [hModified, Bool.not_false, if_true]
        exact .unchanged content hNew hRead hModified
      | true =>
        simp only [hModified, Bool.not_true, Bool.false_eq_true, if_false]
        split
        next hPlacement => exact .unsupported content hNew hRead hModified hPlacement
        next placement hPlacement =>
          rw [processContent]
          split
          next hScan => exact .noClasses content placement hNew hRead hModified hPlacement hScan
          next found hScan =>
            dsimp only
            split
            next error hSheet =>
              exact .sheetError content placement error hNew hRead hModified hPlacement hSheet
                (fun hNil => hScan hNil)
            next sheet hSheet =>
              exact .waiting content placement sheet hNew hRead hModified hPlacement
                (fun hNil => hScan hNil) hSheet

theorem processFile_of_modified {d : Disk} {path : Path} {e : Engine} {content : String}
    {placement : Placement} (hNew : e.keyOf path ∉ e.seen) (hRead : d.readText path = .ok content)
    (hModified : e.cache.isModified (e.keyOf path) content = true)
    (hPlacement : Placement.forPath? path = some placement) :
    processFile d path e =
      processContent d path (e.keyOf path) content placement (e.see (e.keyOf path)) := by
  have hKey : Path.fileKey e.scanRoot path = e.keyOf path := rfl
  rw [processFile, hKey, if_neg hNew, hRead]
  dsimp only
  rw [hModified, hPlacement]
  rfl

theorem processContent_of_found {d : Disk} {path : Path} {key content : String}
    {placement : Placement} {e : Engine} (hScan : e.scan content ≠ []) :
    processContent d path key content placement e =
      match existingSheet d placement path with
      | .error error => (.error error, e.collectAll key (e.scan content))
      | .ok sheet => (.ok (), (e.collectAll key (e.scan content)).push
          (.pending ⟨key, path, content, placement, (e.scan content).length, sheet⟩)) := by
  obtain ⟨first, found, hFound⟩ := List.exists_cons_of_ne_nil hScan
  rw [processContent, hFound]
  rfl

/-- A visit ends in one way only. -/
theorem Visit.processFile_eq {d : Disk} {path : Path} {e e' : Engine}
    {result : Except RunError Unit} (h : Visit d path e result e') :
    processFile d path e = (result, e') := by
  have hKey : Path.fileKey e.scanRoot path = e.keyOf path := rfl
  cases h with
  | again hSeen => rw [processFile, hKey, if_pos hSeen]
  | unreadable cause hNew hRead =>
    rw [processFile, hKey, if_neg hNew, hRead]
    rfl
  | unchanged content hNew hRead hKnown =>
    rw [processFile, hKey, if_neg hNew, hRead]
    dsimp only
    rw [hKnown]
    rfl
  | unsupported content hNew hRead hModified hPlacement =>
    rw [processFile, hKey, if_neg hNew, hRead]
    dsimp only
    rw [hModified, hPlacement]
    rfl
  | noClasses content placement hNew hRead hModified hPlacement hScan =>
    have hNone : (e.see (e.keyOf path)).scan content = [] := hScan
    rw [processFile_of_modified hNew hRead hModified hPlacement, processContent, hNone]
    rfl
  | sheetError content placement error hNew hRead hModified hPlacement hSheet hScan =>
    rw [processFile_of_modified hNew hRead hModified hPlacement,
      processContent_of_found (e := e.see (e.keyOf path)) hScan, hSheet]
    rfl
  | waiting content placement sheet hNew hRead hModified hPlacement hScan hSheet =>
    rw [processFile_of_modified hNew hRead hModified hPlacement,
      processContent_of_found (e := e.see (e.keyOf path)) hScan, hSheet]
    rfl

theorem Visit.eq_of_seen {d : Disk} {path : Path} {e e' : Engine} {result : Except RunError Unit}
    (h : Visit d path e result e') (hSeen : e.keyOf path ∈ e.seen) : e' = e :=
  congrArg Prod.snd (h.processFile_eq.symm.trans (Visit.again hSeen).processFile_eq)

/-- What a run starts with, a visit leaves as it is. -/
structure SameSettings (e e' : Engine) : Prop where
  scanRoot_eq : e'.scanRoot = e.scanRoot
  options_eq : e'.options = e.options
  compile_eq : e'.compile = e.compile
  now_eq : e'.now = e.now
  cachePath_eq : e'.cache.path = e.cache.path

theorem SameSettings.trans {e e' e'' : Engine} (h : SameSettings e e') (h' : SameSettings e' e'') :
    SameSettings e e'' where
  scanRoot_eq := h'.scanRoot_eq.trans h.scanRoot_eq
  options_eq := h'.options_eq.trans h.options_eq
  compile_eq := h'.compile_eq.trans h.compile_eq
  now_eq := h'.now_eq.trans h.now_eq
  cachePath_eq := h'.cachePath_eq.trans h.cachePath_eq

theorem sameSettings_collectAll (e : Engine) (key : String) (found : List ScannedClass) :
    SameSettings e (e.collectAll key found) := by
  rw [collectAll_eq]
  exact ⟨rfl, rfl, rfl, rfl, rfl⟩

theorem Visit.sameSettings {d : Disk} {path : Path} {e e' : Engine}
    {result : Except RunError Unit} (h : Visit d path e result e') : SameSettings e e' := by
  cases h with
  | sheetError content placement error hNew hRead hModified hPlacement hSheet =>
    obtain ⟨hRoot, hOptions, hCompile, hNow, hPath⟩ :=
      sameSettings_collectAll (e.see (e.keyOf path)) (e.keyOf path) (e.scan content)
    exact ⟨hRoot, hOptions, hCompile, hNow, hPath⟩
  | waiting content placement sheet hNew hRead hModified hPlacement hScan hSheet =>
    obtain ⟨hRoot, hOptions, hCompile, hNow, hPath⟩ :=
      sameSettings_collectAll (e.see (e.keyOf path)) (e.keyOf path) (e.scan content)
    exact ⟨hRoot, hOptions, hCompile, hNow, hPath⟩
  | _ => exact ⟨rfl, rfl, rfl, rfl, rfl⟩

/-- The engine after visits of paths, where the disk may change between them. -/
def visitAll (visits : List (Disk × Path)) (e : Engine) : Engine :=
  visits.foldl (fun e visit => (processFile visit.1 visit.2 e).2) e

/-- What a visit keeps, visits keep. -/
theorem visitAll_induction {P : Engine → Prop}
    (hStep : ∀ d path e result e', Visit d path e result e' → P e → P e')
    (visits : List (Disk × Path)) {e : Engine} (h : P e) : P (visitAll visits e) := by
  induction visits generalizing e with
  | nil => exact h
  | cons visit visits ih => exact ih (hStep _ _ _ _ _ (visit_processFile visit.1 visit.2 e) h)

theorem sameSettings_visitAll (visits : List (Disk × Path)) (e : Engine) :
    SameSettings e (visitAll visits e) :=
  visitAll_induction (fun _ _ _ _ _ hVisit h => h.trans hVisit.sameSettings) visits
    ⟨rfl, rfl, rfl, rfl, rfl⟩

/-- What visits of a disk without an error keep, processing keeps. -/
theorem processAll_induction {d : Disk} {P : Engine → Prop}
    (hStep : ∀ path e e', Visit d path e (.ok ()) e' → P e → P e') {paths : List Path}
    {e e' : Engine} (hAll : processAll d paths e = .ok e') (h : P e) : P e' := by
  induction paths generalizing e with
  | nil =>
    cases hAll
    exact h
  | cons path paths ih =>
    have hVisit := visit_processFile d path e
    rw [processAll] at hAll
    split at hAll
    · cases hAll
    next next hFile =>
      rw [hFile] at hVisit
      exact ih hAll (hStep path e next hVisit h)

/-- Processes files one after the other, where the disk may change between them. -/
def processEach : List (Disk × Path) → Engine → Except RunError Engine
  | [], e => .ok e
  | (d, path) :: visits, e =>
    match processFile d path e with
    | (.error error, _) => .error error
    | (.ok _, e) => processEach visits e

theorem processEach_map (d : Disk) (paths : List Path) (e : Engine) :
    processEach (paths.map fun path => (d, path)) e = processAll d paths e := by
  induction paths generalizing e with
  | nil => rfl
  | cons path paths ih =>
    rw [List.map_cons, processEach, processAll]
    cases processFile d path e with
    | mk result next =>
    cases result with
    | error error => rfl
    | ok _ => exact ih next

theorem visitAll_of_processEach {visits : List (Disk × Path)} {e e' : Engine}
    (h : processEach visits e = .ok e') : visitAll visits e = e' := by
  induction visits generalizing e with
  | nil =>
    cases h
    rfl
  | cons visit visits ih =>
    rw [processEach] at h
    split at h
    · cases h
    next next hFile =>
      rw [visitAll, List.foldl_cons, hFile]
      exact ih h

theorem visitAll_of_processAll {d : Disk} {paths : List Path} {e e' : Engine}
    (h : processAll d paths e = .ok e') : visitAll (paths.map fun path => (d, path)) e = e' :=
  visitAll_of_processEach ((processEach_map d paths e).trans h)

end Engine

end ClassCollapse
