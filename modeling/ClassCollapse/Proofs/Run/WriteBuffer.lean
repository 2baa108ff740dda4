import ClassCollapse.Proofs.Cache.Basic
import ClassCollapse.Proofs.Disk.Discovery
import ClassCollapse.Proofs.Disk.Lexical
import ClassCollapse.Proofs.Run.Buffering
import Mathlib.Data.List.Pairwise

/-!
# The buffer as an ordered map

A buffer that was filled by additions has one task for each distinct path, in the order and with the
spelling of its first addition, which holds all that was added to the path. Where different paths do
not lead to the same place, a flush of the buffer puts just these contents into a tree.
-/

namespace ClassCollapse

/-! ## Distinct paths -/

namespace Path

/-- The paths without those that another spelling of them stands before. -/
def firstSpellings : List Path → List Path
  | [] => []
  | p :: paths => p :: (firstSpellings paths).filter fun q => !p.same q

theorem pairwise_firstSpellings (paths : List Path) :
    (firstSpellings paths).Pairwise fun p q => p.same q = false := by
  induction paths with
  | nil => exact .nil
  | cons p paths ih =>
    rw [firstSpellings, List.pairwise_cons]
    refine ⟨fun q hq => ?_, ih.filter _⟩
    simpa using (List.mem_filter.mp hq).2

theorem any_firstSpellings (paths : List Path) (q : Path) :
    (firstSpellings paths).any (·.same q) = paths.any (·.same q) := by
  induction paths with
  | nil => rfl
  | cons p paths ih =>
    rw [firstSpellings, List.any_cons, List.any_cons, ← ih]
    by_cases hFirst : p.same q = true
    · rw [hFirst, Bool.true_or, Bool.true_or]
    · -- What was left out for `p` is another spelling of `p`, so it is none of `q`.
      rw [List.any_filter]
      congr 2
      funext r
      by_cases hRest : r.same q = true
      · have hApart : p.same r = false := by
          rw [same_comm, same_congr hRest, same_comm]
          simpa using hFirst
        rw [hRest, hApart]
        rfl
      · rw [Bool.not_eq_true] at hRest
        rw [hRest, Bool.and_false]

theorem firstSpellings_concat (paths : List Path) (q : Path) :
    firstSpellings (paths ++ [q]) =
      if paths.any (·.same q) then firstSpellings paths else firstSpellings paths ++ [q] := by
  induction paths with
  | nil => rfl
  | cons p paths ih =>
    rw [List.cons_append, firstSpellings, ih, firstSpellings, List.any_cons]
    by_cases hRest : paths.any (·.same q) = true
    · rw [if_pos hRest, hRest, Bool.or_true, if_pos rfl]
    · rw [if_neg hRest, List.filter_append]
      rw [Bool.not_eq_true] at hRest
      rw [hRest, Bool.or_false]
      by_cases hFirst : p.same q = true
      · simp [hFirst]
      · simp [hFirst]

end Path

namespace WriteBuffer

/-! ## Additions -/

/-- The buffer after additions to an empty one. -/
def ofAdditions (additions : List (Path × String)) : WriteBuffer :=
  additions.foldl (fun b addition => b.add addition.1 addition.2) empty

/-- What is added to a path in any spelling, in the order of the additions. -/
def blobsFor (additions : List (Path × String)) (path : Path) : List String :=
  (additions.filter fun addition => addition.1.same path).map Prod.snd

def taskFor (additions : List (Path × String)) (path : Path) : WriteTask :=
  ⟨path, blobsFor additions path⟩

@[simp]
theorem path_taskFor (additions : List (Path × String)) (path : Path) :
    (taskFor additions path).path = path :=
  rfl

theorem blobsFor_concat (additions : List (Path × String)) (path : Path) (blob : String)
    (other : Path) : blobsFor (additions ++ [(path, blob)]) other =
      blobsFor additions other ++ if path.same other then [blob] else [] := by
  rw [blobsFor, List.filter_append, List.map_append]
  by_cases hSame : path.same other = true
  · simp [blobsFor, hSame]
  · simp [blobsFor, hSame]

theorem blobsFor_eq_nil {additions : List (Path × String)} {path : Path}
    (h : (additions.map Prod.fst).any (·.same path) = false) : blobsFor additions path = [] := by
  rw [blobsFor, List.map_eq_nil_iff, List.filter_eq_nil_iff]
  intro addition hMem
  rw [List.any_map, List.any_eq_false] at h
  exact h addition hMem

/-- One more addition extends the task of its path or makes a new one at the end. -/
theorem addTo_taskFor {additions : List (Path × String)} {path : Path} (blob : String)
    {paths : List Path} (hApart : paths.Pairwise fun p q => p.same q = false)
    (hFresh : paths.any (·.same path) = false → blobsFor additions path = []) :
    addTo path blob (paths.map (taskFor additions)) =
      (if paths.any (·.same path) then paths else paths ++ [path]).map
        (taskFor (additions ++ [(path, blob)])) := by
  have hSelf : path.same path = true := beq_self_eq_true _
  induction paths with
  | nil =>
    rw [List.any_nil, if_neg Bool.false_ne_true, List.nil_append, List.map_singleton, taskFor,
      blobsFor_concat, if_pos hSelf, hFresh rfl]
    rfl
  | cons p paths ih =>
    obtain ⟨hFirst, hRest⟩ := List.pairwise_cons.mp hApart
    have hTask : ∀ q, path.same q = false →
        taskFor (additions ++ [(path, blob)]) q = taskFor additions q := by
      intro q hOther
      rw [taskFor, blobsFor_concat, hOther, if_neg Bool.false_ne_true, List.append_nil, taskFor]
    rw [List.map_cons, addTo, path_taskFor, List.any_cons]
    by_cases hHere : p.same path = true
    · have hTasks : paths.map (taskFor (additions ++ [(path, blob)])) =
          paths.map (taskFor additions) := by
        refine List.map_congr_left fun q hq => hTask q ?_
        rw [← Path.same_congr hHere]
        exact hFirst q hq
      rw [if_pos hHere, hHere, Bool.true_or, if_pos rfl, List.map_cons, hTasks]
      rw [taskFor, taskFor, WriteTask.append, blobsFor_concat, Path.same_comm, hHere, if_pos rfl]
    · have hOther : p.same path = false := by simpa using hHere
      have hLater : paths.any (·.same path) = false → blobsFor additions path = [] := by
        intro hNone
        exact hFresh (by rw [List.any_cons, hOther, hNone, Bool.false_or])
      rw [if_neg hHere, hOther, Bool.false_or, ih hRest hLater]
      have hFirstTask := hTask p (by rw [Path.same_comm, hOther])
      split
      · rw [List.map_cons, hFirstTask]
      · rw [List.cons_append, List.map_cons, hFirstTask]

theorem tasks_ofAdditions (additions : List (Path × String)) :
    (ofAdditions additions).tasks =
      (Path.firstSpellings (additions.map Prod.fst)).map (taskFor additions) := by
  induction additions using List.reverseRecOn with
  | nil => rfl
  | append_singleton additions addition ih =>
    obtain ⟨path, blob⟩ := addition
    have hAdd : (ofAdditions (additions ++ [(path, blob)])).tasks =
        addTo path blob (ofAdditions additions).tasks := by
      rw [ofAdditions, List.foldl_append]
      exact tasks_add _ path blob
    rw [hAdd, ih, addTo_taskFor blob (Path.pairwise_firstSpellings _)]
    · rw [Path.any_firstSpellings, List.map_append, List.map_singleton, Path.firstSpellings_concat]
    · intro hNone
      rw [Path.any_firstSpellings] at hNone
      exact blobsFor_eq_nil hNone

/-! ## One task for each path -/

theorem Apart.eq_of_same {b : WriteBuffer} (h : b.Apart) {t t' : WriteTask} (ht : t ∈ b.tasks)
    (ht' : t' ∈ b.tasks) (hSame : t.path.same t'.path = true) : t = t' := by
  by_contra hne
  have hSymm : Std.Symm fun t t' : WriteTask => t.path.same t'.path = false :=
    ⟨fun t t' hApart => by rwa [Path.same_comm]⟩
  have hOther : t.path.same t'.path = false := List.Pairwise.forall h ht ht' hne
  rw [hOther] at hSame
  cases hSame

theorem Apart.get?_eq_some_iff {b : WriteBuffer} (h : b.Apart) (path : Path) (t : WriteTask) :
    b.get? path = some t ↔ t ∈ b.tasks ∧ t.path.same path = true := by
  have hGet : ∀ t, b.get? path = some t → t ∈ b.tasks ∧ t.path.same path = true := by
    intro t hFound
    rw [get?_eq_find?] at hFound
    have hSame := List.find?_some hFound
    exact ⟨List.mem_of_find?_eq_some hFound, hSame⟩
  refine ⟨hGet t, ?_⟩
  rintro ⟨ht, hSame⟩
  cases hFound : b.get? path with
  | none =>
    rw [get?_eq_find?] at hFound
    exact absurd hSame (List.find?_eq_none.mp hFound t ht)
  | some t' =>
    obtain ⟨ht', hSame'⟩ := hGet t' hFound
    have hBoth : t'.path.same t.path = true := by
      rw [Path.same_congr hSame', Path.same_comm, hSame]
    rw [h.eq_of_same ht' ht hBoth]

/-- The position that is kept for a path, in any spelling, is that of the task for the path. -/
theorem Apart.position?_eq_some_iff {b : WriteBuffer} (h : b.Apart) (path : Path) (i : Nat) :
    b.position? path = some i ↔ ∃ t, b.tasks[i]? = some t ∧ t.path.same path = true := by
  have hFirst : ∀ i, b.position? path = some i →
      ∃ t, b.tasks[i]? = some t ∧ t.path.same path = true := by
    intro i hFound
    rw [position?, b.position_eq, List.findIdx?_map, List.findIdx?_eq_some_iff_getElem] at hFound
    obtain ⟨hBound, hSame, _⟩ := hFound
    exact ⟨_, List.getElem?_eq_getElem hBound, hSame⟩
  refine ⟨hFirst i, ?_⟩
  rintro ⟨t, ht, hSame⟩
  cases hFound : b.position? path with
  | none =>
    rw [position?, b.position_eq, List.findIdx?_map, List.findIdx?_eq_none_iff] at hFound
    have hNone := hFound t (List.mem_of_getElem? ht)
    exact absurd hSame (Bool.eq_false_iff.mp hNone)
  | some j =>
    -- Two positions of tasks for the same path would be two tasks that are not apart.
    obtain ⟨t', ht', hSame'⟩ := hFirst j hFound
    have hBoth : t'.path.same t.path = true := by
      rw [Path.same_congr hSame', Path.same_comm, hSame]
    obtain ⟨hi, rfl⟩ := List.getElem?_eq_some_iff.mp ht
    obtain ⟨hj, rfl⟩ := List.getElem?_eq_some_iff.mp ht'
    rcases Nat.lt_trichotomy i j with hBefore | rfl | hAfter
    · rw [Path.same_comm, List.pairwise_iff_getElem.mp h i j hi hj hBefore] at hBoth
      cases hBoth
    · rfl
    · rw [List.pairwise_iff_getElem.mp h j i hj hi hAfter] at hBoth
      cases hBoth

/-- What a buffer holds as a map from paths in any spelling to texts: the positions that it keeps are
those of its tasks, and what it returns for a path is the task there. -/
structure Holds (b : WriteBuffer) (additions : List (Path × String)) : Prop where
  paths_eq : b.tasks.map WriteTask.path = Path.firstSpellings (additions.map Prod.fst)
  apart : b.Apart
  exists_task : ∀ addition ∈ additions, ∃ t ∈ b.tasks, t.path.same addition.1 = true
  content_eq : ∀ t ∈ b.tasks, t.content = String.join (blobsFor additions t.path)
  position?_eq_some_iff : ∀ path i, b.position? path = some i ↔
    ∃ t, b.tasks[i]? = some t ∧ t.path.same path = true
  get?_eq_some_iff : ∀ path t, b.get? path = some t ↔ t ∈ b.tasks ∧ t.path.same path = true

theorem holds_ofAdditions (additions : List (Path × String)) :
    (ofAdditions additions).Holds additions := by
  have hTasks := tasks_ofAdditions additions
  have hApart : (ofAdditions additions).Apart := by
    rw [Apart, hTasks, List.pairwise_map]
    exact Path.pairwise_firstSpellings _
  refine ⟨?_, hApart, ?_, ?_, hApart.position?_eq_some_iff, hApart.get?_eq_some_iff⟩
  · rw [hTasks, List.map_map]
    exact List.map_id _
  · intro addition hMem
    have hAny : (additions.map Prod.fst).any (·.same addition.1) = true :=
      List.any_eq_true.mpr ⟨_, List.mem_map_of_mem hMem, beq_self_eq_true _⟩
    rw [← Path.any_firstSpellings] at hAny
    obtain ⟨p, hp, hSame⟩ := List.any_eq_true.mp hAny
    rw [hTasks]
    exact ⟨_, List.mem_map_of_mem hp, hSame⟩
  · intro t ht
    rw [hTasks] at ht
    obtain ⟨p, _, rfl⟩ := List.mem_map.mp ht
    rfl

/-! ## Flushing -/

/-- Different paths of a buffer lead to different places. -/
def Unaliased (b : WriteBuffer) (start : Place) : Prop :=
  ∀ t ∈ b.tasks, ∀ t' ∈ b.tasks,
    Disk.placeFrom start t.path = Disk.placeFrom start t'.path → t.path.same t'.path = true

theorem exists_names_of_flushTasks {tasks : List WriteTask} {d d' : Disk} (hTree : d.IsTree)
    (h : flushTasks tasks d = (.ok (), d')) {t : WriteTask} (ht : t ∈ tasks) :
    ∃ place, d'.Names t.path place := by
  induction tasks generalizing d with
  | nil => cases ht
  | cons first tasks ih =>
    rw [flushTasks] at h
    cases hSave : d.save first.path first.content.toUTF8 with
    | mk result d₁ =>
    rw [hSave] at h
    cases result with
    | error e => cases h
    | ok _ =>
      obtain ⟨target, hSaved⟩ := Disk.saved_of_save hTree hSave
      rcases List.mem_cons.mp ht with rfl | hRest
      · exact ⟨target, (flushed_of_flushTasks hSaved.isTree h).keeps.names hSaved.names⟩
      · exact ih hSaved.isTree h hRest

/-- What is left when the contents of a buffer were put into the files that its paths lead to. -/
structure Realized (b : WriteBuffer) (d d' : Disk) : Prop where
  readText_eq : ∀ t ∈ b.tasks, d'.readText t.path = .ok t.content
  fileAt?_eq : ∀ t ∈ b.tasks,
    d'.fileAt? (Disk.placeFrom d.workingDirectory t.path) = some t.content.toUTF8
  fileAt?_other : ∀ place, (∀ t ∈ b.tasks, place ≠ Disk.placeFrom d.workingDirectory t.path) →
    d'.fileAt? place = d.fileAt? place

theorem realized_of_flushTasks {b : WriteBuffer} {d d' : Disk} (hApart : b.Apart)
    (hTree : d.IsTree) (hUnaliased : b.Unaliased d.workingDirectory)
    (h : flushTasks b.tasks d = (.ok (), d')) : b.Realized d d' := by
  have hFlushed := flushed_of_flushTasks hTree h
  have hPlace : ∀ t ∈ b.tasks, ∀ place, d'.Names t.path place →
      place = Disk.placeFrom d.workingDirectory t.path := by
    intro t ht place hNames
    rw [← hFlushed.keeps.workingDirectory_eq]
    exact hNames.eq_placeFrom
  have hNamed : ∀ t ∈ b.tasks, d'.Names t.path (Disk.placeFrom d.workingDirectory t.path) := by
    intro t ht
    obtain ⟨place, hNames⟩ := exists_names_of_flushTasks hTree h ht
    rwa [← hPlace t ht place hNames]
  have hFile : ∀ t ∈ b.tasks,
      d'.fileAt? (Disk.placeFrom d.workingDirectory t.path) = some t.content.toUTF8 := by
    intro t ht
    rcases hFlushed.fileAt?_eq (Disk.placeFrom d.workingDirectory t.path) with
      ⟨t', ht', hNames, hContent⟩ | ⟨hNone, _⟩
    · -- The task that was written last to this place leads there, so it is the same task.
      have hSame := hUnaliased t ht t' ht' (hPlace t' ht' _ hNames)
      rwa [hApart.eq_of_same ht ht' hSame] at hContent ⊢
    · exact absurd (hNamed t ht) (hNone t ht)
  refine ⟨?_, hFile, ?_⟩
  · intro t ht
    rw [Disk.readText_eq_ok_iff]
    exact (hNamed t ht).read_eq hFlushed.isTree (Disk.fileAt?_eq_some_iff.mp (hFile t ht))
  · intro place hOther
    rcases hFlushed.fileAt?_eq place with ⟨t, ht, hNames, _⟩ | ⟨_, hSame⟩
    · exact absurd (hPlace t ht place hNames) (hOther t ht)
    · exact hSame

/-- Paths of names do not alias if all of them start at the root or none does. -/
theorem unaliased_of_names {b : WriteBuffer} {absolute : Bool}
    (h : ∀ t ∈ b.tasks, t.path.isAbsolute = absolute ∧ ∀ c ∈ t.path.components, c ≠ .here ∧ c ≠ .up)
    (start : Place) : b.Unaliased start := by
  intro t ht t' ht' hPlace
  obtain ⟨hRoot, hNames⟩ := h t ht
  obtain ⟨hRoot', hNames'⟩ := h t' ht'
  exact Disk.same_of_placeFrom_eq hNames hNames' (hRoot.trans hRoot'.symm) hPlace

/-- A buffer that was filled by additions is the map from their distinct paths to what was added to
them, in the order of the first additions. Where different paths of it lead to different places of a
tree, as different paths of names do that all start at the root or all where they are taken from, a
flush that succeeds leaves the tree with the content of each task where the path of the task leads,
leaves all other files as they were, and counts the distinct paths. -/
theorem realized_of_flush (additions : List (Path × String)) :
    (ofAdditions additions).Holds additions ∧
    (∀ (start : Place) (absolute : Bool),
      (∀ t ∈ (ofAdditions additions).tasks, t.path.isAbsolute = absolute ∧
        ∀ c ∈ t.path.components, c ≠ .here ∧ c ≠ .up) →
      (ofAdditions additions).Unaliased start) ∧
    ∀ (d d' : Disk) (n : Nat), d.IsTree → (ofAdditions additions).Unaliased d.workingDirectory →
      (ofAdditions additions).flush d = (.ok n, d') →
      (ofAdditions additions).Realized d d' ∧
        n = (Path.firstSpellings (additions.map Prod.fst)).length := by
  have hHolds := holds_ofAdditions additions
  refine ⟨hHolds, fun start absolute h => unaliased_of_names h start, ?_⟩
  intro d d' n hTree hUnaliased h
  rw [flush] at h
  cases hFlush : flushTasks (ofAdditions additions).tasks d with
  | mk result flushed =>
  rw [hFlush] at h
  cases result with
  | error e => cases h
  | ok _ =>
    cases h
    refine ⟨realized_of_flushTasks hHolds.apart hTree hUnaliased hFlush, ?_⟩
    rw [← hHolds.paths_eq, List.length_map]

/-- A sheet in a folder that is missing, added in two spellings, and one that is written over. -/
def spelledAdditions : List (Path × String) :=
  [(⟨"out//b.css"⟩, "x"), (⟨"a.css"⟩, "1"), (⟨"out/./b.css"⟩, "y")]

def twoSheets : Disk :=
  ⟨[(["w"], .directory), (["w", "a.css"], .file "old".toUTF8), (["w", "c.css"], .file "c".toUTF8)],
    ["w"]⟩

theorem evaluated_twoSheets :
    twoSheets.IsTree ∧
      (∀ t ∈ (ofAdditions spelledAdditions).tasks, t.path.isAbsolute = false ∧
        ∀ c ∈ t.path.components, c ≠ .here ∧ c ≠ .up) ∧
      (ofAdditions spelledAdditions).tasks =
        [⟨⟨"out//b.css"⟩, ["x", "y"]⟩, ⟨⟨"a.css"⟩, ["1"]⟩] ∧
      ((ofAdditions spelledAdditions).flush twoSheets).1.toOption = some 2 ∧
      Disk.placeFrom ["w"] ⟨"out//b.css"⟩ = ["w", "out", "b.css"] ∧
      Disk.placeFrom ["w"] ⟨"a.css"⟩ = ["w", "a.css"] := by
  decide +kernel

/-- Both spellings of a sheet are one task, and a sheet that is not buffered stays. -/
theorem realized_twoSheets :
    ∃ d', (ofAdditions spelledAdditions).flush twoSheets = (.ok 2, d') ∧
      d'.readText ⟨"out//b.css"⟩ = .ok "xy" ∧ d'.readText ⟨"a.css"⟩ = .ok "1" ∧
      d'.fileAt? ["w", "c.css"] = some "c".toUTF8 := by
  obtain ⟨hTree, hNames, hTasks, hCount, hOut, hHere⟩ := evaluated_twoSheets
  obtain ⟨_, hUnaliased, hFlush⟩ := realized_of_flush spelledAdditions
  cases hRun : (ofAdditions spelledAdditions).flush twoSheets with
  | mk result d' =>
  rw [hRun] at hCount
  cases result with
  | error e => cases hCount
  | ok n =>
    cases hCount
    obtain ⟨hRealized, _⟩ := hFlush twoSheets d' 2 hTree (hUnaliased ["w"] false hNames) hRun
    have hText := hRealized.readText_eq
    have hOther := hRealized.fileAt?_other ["w", "c.css"]
    rw [hTasks] at hText hOther
    have hBoth := hText ⟨⟨"out//b.css"⟩, ["x", "y"]⟩ (by simp)
    have hOne := hText ⟨⟨"a.css"⟩, ["1"]⟩ (by simp)
    refine ⟨d', rfl, hBoth, hOne, hOther ?_⟩
    intro t ht
    simp only [List.mem_cons, List.not_mem_nil, or_false] at ht
    rcases ht with rfl | rfl
    · exact hOut ▸ (by decide)
    · exact hHere ▸ (by decide)

end WriteBuffer

end ClassCollapse
