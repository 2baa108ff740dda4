import ClassCollapse.Proofs.Disk.Saving
import ClassCollapse.Proofs.Run.Rewriting
import ClassCollapse.Proofs.Run.Tasks
import ClassCollapse.Proofs.Style.Placement

/-!
# What a flush leaves in a tree

After all tasks of a buffer were written, a file that a task names holds the content of a task that
names it, and every other file is as it was. The buffer of a run holds one task for each rewritten
file, with the text whose digest is remembered, and otherwise companion sheets.
-/

namespace ClassCollapse

namespace WriteBuffer

/-- What all tasks leave behind when they are written to a tree. -/
structure Flushed (d : Disk) (tasks : List WriteTask) (d' : Disk) : Prop where
  isTree : d'.IsTree
  keeps : Disk.Keeps d d'
  fileAt?_eq : ∀ place,
    (∃ t ∈ tasks, d'.Names t.path place ∧ d'.fileAt? place = some t.content.toUTF8) ∨
      ((∀ t ∈ tasks, ¬d'.Names t.path place) ∧ d'.fileAt? place = d.fileAt? place)

theorem flushed_of_flushTasks {tasks : List WriteTask} {d d' : Disk} (hTree : d.IsTree)
    (h : flushTasks tasks d = (.ok (), d')) : Flushed d tasks d' := by
  induction tasks generalizing d with
  | nil =>
    cases h
    refine ⟨hTree, .refl _, ?_⟩
    intro place
    exact .inr ⟨fun t ht => (nomatch ht), rfl⟩
  | cons t tasks ih =>
    rw [flushTasks] at h
    cases hSave : d.save t.path t.content.toUTF8 with
    | mk result d₁ =>
    rw [hSave] at h
    cases result with
    | error e => cases h
    | ok _ =>
      obtain ⟨target, hSaved⟩ := Disk.saved_of_save hTree hSave
      have hRest := ih hSaved.isTree h
      have hNames := hRest.keeps.names hSaved.names
      refine ⟨hRest.isTree, hSaved.keeps.trans hRest.keeps, ?_⟩
      intro place
      rcases hRest.fileAt?_eq place with ⟨t', ht', hThere, hFile⟩ | ⟨hOthers, hFile⟩
      · exact .inl ⟨t', List.mem_cons_of_mem t ht', hThere, hFile⟩
      · rw [hSaved.fileAt?_eq] at hFile
        by_cases hPlace : place = target
        · rw [if_pos hPlace] at hFile
          exact .inl ⟨t, List.mem_cons_self, hPlace ▸ hNames, hFile⟩
        · rw [if_neg hPlace] at hFile
          refine .inr ⟨?_, hFile⟩
          intro t' ht'
          rcases List.mem_cons.mp ht' with rfl | hOld
          · exact fun hNames' => hPlace (hNames'.unique hNames)
          · exact hOthers t' hOld

end WriteBuffer

namespace Engine

open WriteBuffer

def taskOf (done : PendingFile × Injection) : WriteTask :=
  ⟨done.1.path, [done.2.content]⟩

/-- A rewritten file belongs to a root: its key is that of its path, its rules have a placement, and
the sheet that is written beside it is its companion. -/
structure Proper (root : Path) (done : PendingFile × Injection) : Prop where
  key_eq : done.1.key = Path.fileKey root done.1.path
  placement_eq : Placement.forPath? done.1.path = some done.1.placement
  sheet_eq : ∀ sheet ∈ done.2.companion, sheet.1 = Placement.companionPath done.1.path

theorem Proper.forPath?_sheet {root : Path} {done : PendingFile × Injection} (h : Proper root done)
    {sheet : Path} {css : String} (hSheet : done.2.companion = some (sheet, css)) :
    Placement.forPath? sheet = none := by
  have hCompanion : sheet = Placement.companionPath done.1.path := h.sheet_eq (sheet, css) hSheet
  rw [hCompanion, Placement.forPath?_companionPath h.placement_eq]

theorem companion_inject {placement : Placement} {path : Path} {content css : String}
    {existing : Option String} {suffix : Nat} :
    ∀ sheet ∈ (placement.inject path content css existing suffix).companion,
      sheet.1 = Placement.companionPath path := by
  intro sheet hSheet
  unfold Placement.inject at hSheet
  split at hSheet
  · cases hSheet
  · cases placement with
    | inline => cases hSheet
    | companion =>
      cases hSheet
      rfl

theorem Rewritten.sheet_eq {e : Engine} {done : PendingFile × Injection} (h : e.Rewritten done) :
    ∀ sheet ∈ done.2.companion, sheet.1 = Placement.companionPath done.1.path := by
  obtain ⟨text, suffix, _, hInjection⟩ := h
  rw [hInjection]
  exact companion_inject

/-- What settling rewritten files makes of a buffer and a cache. -/
structure Settled (now : UInt64) (done : List (PendingFile × Injection)) (cache : ChangeCache)
    (state : WriteBuffer × ChangeCache) : Prop where
  mem_tasks : ∀ x ∈ done, taskOf x ∈ state.1.tasks
  task_eq : ∀ t ∈ state.1.tasks,
    (∃ x ∈ done, t = taskOf x) ∨ Placement.forPath? t.path = none
  path_eq : state.2.path = cache.path
  find?_eq : ∀ x ∈ done, state.2.manifest.find? x.1.key =
    some (ChangeCache.newEntry now x.1.content x.2.content)
  find?_other : ∀ key, key ∉ done.map (·.1.key) →
    state.2.manifest.find? key = cache.manifest.find? key

def addSheet (writes : WriteBuffer) (done : PendingFile × Injection) : WriteBuffer :=
  match done.2.companion with
  | none => writes
  | some (sheet, css) => writes.add sheet css

theorem settle_eq (now : UInt64) (state : WriteBuffer × ChangeCache)
    (done : PendingFile × Injection) :
    settle now state done = ((addSheet state.1 done).add done.1.path done.2.content,
      state.2.record now done.1.key done.1.content done.2.content) :=
  rfl

theorem same_eq_false_of_placement {p q : Path} {placement : Placement}
    (hp : Placement.forPath? p = none) (hq : Placement.forPath? q = some placement) :
    p.same q = false ∧ q.same p = false := by
  constructor
  all_goals
    rw [Bool.eq_false_iff]
    intro hSame
    have hPlacement := Placement.forPath?_of_fileName?_eq (Path.fileName?_of_same hSame)
    rw [hp, hq] at hPlacement
    cases hPlacement

theorem mem_addSheet {root : Path} {writes : WriteBuffer} {last : PendingFile × Injection}
    (hLast : Proper root last) {t : WriteTask} (h : t ∈ (addSheet writes last).tasks) :
    t ∈ writes.tasks ∨ Placement.forPath? t.path = none := by
  rw [addSheet] at h
  split at h
  · exact .inl h
  next sheet css hSheet =>
    rw [tasks_add] at h
    refine (mem_addTo h).imp_right ?_
    intro hSame
    rw [Placement.forPath?_of_fileName?_eq (Path.fileName?_of_same hSame),
      hLast.forPath?_sheet hSheet]

theorem mem_addSheet_of_mem {root : Path} {writes : WriteBuffer} {last x : PendingFile × Injection}
    (hLast : Proper root last) (hx : Proper root x) (h : taskOf x ∈ writes.tasks) :
    taskOf x ∈ (addSheet writes last).tasks := by
  rw [addSheet]
  split
  · exact h
  next sheet css hSheet =>
    rw [tasks_add]
    apply mem_addTo_of_mem h
    exact (same_eq_false_of_placement (hLast.forPath?_sheet hSheet) hx.placement_eq).2

theorem settled_settle {now : UInt64} {root : Path} {done : List (PendingFile × Injection)}
    {last : PendingFile × Injection} {cache : ChangeCache} {state : WriteBuffer × ChangeCache}
    (h : Settled now done cache state) (hProper : ∀ x ∈ done ++ [last], Proper root x)
    (hFresh : last.1.key ∉ done.map (·.1.key)) :
    Settled now (done ++ [last]) cache (settle now state last) := by
  have hLast : Proper root last := hProper last (by simp)
  have hDone : ∀ x ∈ done, Proper root x := fun x hx => hProper x (List.mem_append_left _ hx)
  have hKey : ∀ x ∈ done, x.1.key ≠ last.1.key := by
    intro x hx hSame
    exact hFresh (hSame ▸ List.mem_map_of_mem hx)
  have hSheet : ∀ t ∈ (addSheet state.1 last).tasks,
      (∃ x ∈ done, t = taskOf x) ∨ Placement.forPath? t.path = none := by
    intro t ht
    rcases mem_addSheet hLast ht with hOld | hNone
    · exact h.task_eq t hOld
    · exact .inr hNone
  -- No task writes the file of `last` yet: another file has another key, a sheet no placement.
  have hOther : ∀ t ∈ (addSheet state.1 last).tasks, t.path.same last.1.path = false := by
    intro t ht
    rcases hSheet t ht with ⟨x, hx, rfl⟩ | hNone
    · rw [Bool.eq_false_iff]
      intro hSame
      have hComponents : x.1.path.components = last.1.path.components := beq_iff_eq.mp hSame
      apply hKey x hx
      rw [(hDone x hx).key_eq, hLast.key_eq, Path.fileKey, Path.fileKey, hComponents]
    · exact (same_eq_false_of_placement hNone hLast.placement_eq).1
  have hTasks : (settle now state last).1.tasks = (addSheet state.1 last).tasks ++ [taskOf last] := by
    rw [settle_eq, tasks_add, addTo_fresh _ hOther]
    rfl
  constructor
  · intro x hx
    rw [hTasks]
    rcases List.mem_append.mp hx with hOld | hNew
    · have hThere := mem_addSheet_of_mem hLast (hDone x hOld) (h.mem_tasks x hOld)
      exact List.mem_append_left _ hThere
    · rw [List.mem_singleton.mp hNew]
      exact List.mem_append_right _ List.mem_cons_self
  · intro t ht
    rw [hTasks] at ht
    rcases List.mem_append.mp ht with hOld | hNew
    · refine (hSheet t hOld).imp_left ?_
      rintro ⟨x, hx, hTask⟩
      exact ⟨x, List.mem_append_left _ hx, hTask⟩
    · exact .inl ⟨last, by simp, List.mem_singleton.mp hNew⟩
  · exact h.path_eq
  · intro x hx
    dsimp only [settle, ChangeCache.record]
    rw [Table.find?_insert]
    rcases List.mem_append.mp hx with hOld | hNew
    · rw [if_neg (Ne.symm (hKey x hOld)), h.find?_eq x hOld]
    · rw [List.mem_singleton.mp hNew, if_pos rfl]
  · intro key hNot
    rw [List.map_append, List.mem_append, not_or] at hNot
    dsimp only [settle, ChangeCache.record]
    rw [Table.find?_insert, if_neg, h.find?_other key hNot.1]
    rintro rfl
    exact hNot.2 List.mem_cons_self

theorem settled_foldl (now : UInt64) {root : Path} {done : List (PendingFile × Injection)}
    (cache : ChangeCache) (hProper : ∀ x ∈ done, Proper root x)
    (hKeys : (done.map (·.1.key)).Nodup) :
    Settled now done cache (done.foldl (settle now) (.empty, cache)) := by
  induction done using List.reverseRecOn with
  | nil =>
    refine ⟨fun x hx => (nomatch hx), fun t ht => (nomatch ht), rfl, fun x hx => (nomatch hx), ?_⟩
    intro key _
    rfl
  | append_singleton done last ih =>
    rw [List.map_append, List.nodup_append] at hKeys
    obtain ⟨hDone, _, hDisjoint⟩ := hKeys
    rw [List.foldl_append]
    refine settled_settle (ih (fun x hx => hProper x (List.mem_append_left _ hx)) hDone) hProper ?_
    intro hMem
    exact hDisjoint _ hMem _ List.mem_cons_self rfl

end Engine

end ClassCollapse
