import ClassCollapse.Proofs.Disk.Frame
import ClassCollapse.Run.Engine

/-!
# What a failed run leaves behind

A run that fails before its writes leaves the disk as it was. Once the writes have begun there is no
way back: the writes that landed before the failure stay, also where only the cache could not be
saved. So a failed run leaves the files as they were exactly if the writes that landed put into each
file what was there.
-/

namespace ClassCollapse

namespace WriteBuffer

/-- The contents of the tasks that are carried out, with the places of their files, in order. -/
def landed : List WriteTask → Disk → List (Place × ByteArray)
  | [], _ => []
  | t :: tasks, d =>
    match d.save t.path t.content.toUTF8 with
    | (.error _, _) => []
    | (.ok _, d') =>
      ((d.target? t.path).toList.map fun place => (place, t.content.toUTF8)) ++ landed tasks d'

/-- The content that was put into a place last. -/
def lastAt? (writes : List (Place × ByteArray)) (place : Place) : Option ByteArray :=
  writes.reverse.lookup place

theorem lastAt?_cons (place : Place) (content : ByteArray) (writes : List (Place × ByteArray))
    (other : Place) :
    lastAt? ((place, content) :: writes) other =
      (lastAt? writes other).or (if other = place then some content else none) := by
  rw [lastAt?, List.reverse_cons, lookup_append_singleton, lastAt?]
  simp only [beq_iff_eq]

/-- After tasks were written, also if one of them failed, a file has the content that landed last,
or what it had before. -/
theorem fileAt?_flushTasks (tasks : List WriteTask) (d : Disk) (place : Place) :
    (flushTasks tasks d).2.fileAt? place =
      (lastAt? (landed tasks d) place).or (d.fileAt? place) := by
  induction tasks generalizing d with
  | nil => rfl
  | cons t tasks ih =>
    unfold flushTasks landed
    cases hSave : d.save t.path t.content.toUTF8 with
    | mk result d' =>
    cases result with
    | error e =>
      dsimp only
      rw [(Disk.grown_of_save_error hSave).fileAt?_eq]
      rfl
    | ok _ =>
      obtain ⟨target, hTarget, hFile⟩ := Disk.fileAt?_of_save_ok hSave
      dsimp only
      rw [ih, hFile, hTarget, Option.toList_some, List.map_singleton, List.singleton_append,
        lastAt?_cons, Option.or_assoc]
      congr 1
      split <;> rfl

end WriteBuffer

namespace Engine

/-- What a run wants to write, unless it fails before. -/
def outcome (e : Engine) (paths : List Path) (d : Disk) : Except RunError RunOutput :=
  match e.processAll d paths with
  | .error error => .error error
  | .ok e => e.forgetUnseen.2.finish

/-- The writes of a run that are carried out, the cache apart. -/
def landedWrites (e : Engine) (paths : List Path) (d : Disk) : List (Place × ByteArray) :=
  match e.outcome paths d with
  | .error _ => []
  | .ok out => WriteBuffer.landed out.writes.tasks d

theorem runFiles_of_outcome_error {e : Engine} {paths : List Path} {d : Disk} {error : RunError}
    (h : e.outcome paths d = .error error) : e.runFiles paths d = (.error error, d) := by
  unfold outcome at h
  unfold runFiles
  cases hAll : processAll d paths e with
  | error cause =>
    simp only [hAll] at h ⊢
    cases h
    rfl
  | ok e' =>
    simp only [hAll] at h ⊢
    rw [h]

theorem runFiles_of_outcome_ok {e : Engine} {paths : List Path} {d : Disk} {out : RunOutput}
    (h : e.outcome paths d = .ok out) :
    e.runFiles paths d = (.ok out.report, d) ∨ e.runFiles paths d = RunOutput.apply out d := by
  unfold outcome at h
  unfold runFiles
  cases hAll : processAll d paths e with
  | error cause =>
    simp only [hAll] at h
    cases h
  | ok e' =>
    simp only [hAll] at h ⊢
    rw [h]
    dsimp only
    cases e'.options.dryRun with
    | true => exact .inl rfl
    | false => exact .inr rfl

theorem fileAt?_of_apply_error {out : RunOutput} {d d' : Disk} {error : RunError}
    (h : RunOutput.apply out d = (.error error, d')) (place : Place) :
    d'.fileAt? place =
      (WriteBuffer.lastAt? (WriteBuffer.landed out.writes.tasks d) place).or
        (d.fileAt? place) := by
  have hFlush := WriteBuffer.fileAt?_flushTasks out.writes.tasks d place
  rw [RunOutput.apply, WriteBuffer.flush] at h
  cases hTasks : WriteBuffer.flushTasks out.writes.tasks d with
  | mk result d₁ =>
  rw [hTasks] at h hFlush
  cases result with
  | error e =>
    cases h
    exact hFlush
  | ok _ =>
    dsimp only [Except.map] at h
    split at h
    next e d₂ hSave =>
      cases h
      rw [(Disk.grown_of_save_error hSave).fileAt?_eq]
      exact hFlush
    next => cases h

/-- A failed run leaves every file as it was if it fails before the writes, and otherwise exactly if
what landed last in each file is what was there. -/
theorem fileAt?_eq_of_failed_run_iff {e : Engine} {paths : List Path} {d d' : Disk}
    {error : RunError} (h : e.runFiles paths d = (.error error, d')) :
    (∀ cause, e.outcome paths d = .error cause → d' = d) ∧
    ((∀ place, d'.fileAt? place = d.fileAt? place) ↔
      ∀ place content, WriteBuffer.lastAt? (e.landedWrites paths d) place = some content →
        d.fileAt? place = some content) := by
  constructor
  · intro cause hOutcome
    rw [runFiles_of_outcome_error hOutcome] at h
    cases h
    rfl
  have hFiles : ∀ place, d'.fileAt? place =
      (WriteBuffer.lastAt? (e.landedWrites paths d) place).or (d.fileAt? place) := by
    intro place
    rw [landedWrites]
    cases hOutcome : e.outcome paths d with
    | error cause =>
      rw [runFiles_of_outcome_error hOutcome] at h
      cases h
      rfl
    | ok out =>
      rcases runFiles_of_outcome_ok hOutcome with hDone | hApplied
      · rw [hDone] at h
        cases h
      · exact fileAt?_of_apply_error (hApplied ▸ h) place
  constructor
  · intro hSame place content hLast
    rw [← hSame place, hFiles place, hLast]
    rfl
  · intro hLast place
    rw [hFiles place]
    cases hLanded : WriteBuffer.lastAt? (e.landedWrites paths d) place with
    | none => rfl
    | some content => exact (hLast place content hLanded).symm

def blockedDisk : Disk :=
  ⟨[(["src"], .directory), (["src", "a.html"], .file "<p class=\" x\">".toUTF8),
    (["classfold.lock"], .directory)], []⟩

def blockedEngine : Engine :=
  .new ⟨"src"⟩ (.load blockedDisk ⟨"classfold.lock"⟩) (UtilityTable.compile ⟨.empty⟩)
    (.new "twk-" 0 none (.ofSeed 0)) {} (.ofSeed 0) 0

theorem exists_blocked_run :
    ∃ error d', blockedEngine.runFiles [⟨"src/a.html"⟩] blockedDisk = (.error error, d') ∧
      WriteBuffer.lastAt? (blockedEngine.landedWrites [⟨"src/a.html"⟩] blockedDisk)
        ["src", "a.html"] = some "<p class=\"x\">".toUTF8 ∧
      d'.fileAt? ["src", "a.html"] ≠ blockedDisk.fileAt? ["src", "a.html"] := by
  have hFails : (blockedEngine.runFiles [⟨"src/a.html"⟩] blockedDisk).1.toBool = false ∧
      WriteBuffer.lastAt? (blockedEngine.landedWrites [⟨"src/a.html"⟩] blockedDisk)
        ["src", "a.html"] = some "<p class=\"x\">".toUTF8 ∧
      (blockedEngine.runFiles [⟨"src/a.html"⟩] blockedDisk).2.fileAt? ["src", "a.html"] ≠
        blockedDisk.fileAt? ["src", "a.html"] := by
    decide +kernel
  cases hRun : blockedEngine.runFiles [⟨"src/a.html"⟩] blockedDisk with
  | mk result d' =>
  rw [hRun] at hFails
  cases result with
  | error error => exact ⟨error, d', rfl, hFails.2⟩
  | ok report => cases hFails.1

/-- A run that cannot save its cache, seen with the exact condition: the file was rewritten. -/
theorem fileAt?_of_blocked_run :
    ∃ error d', blockedEngine.runFiles [⟨"src/a.html"⟩] blockedDisk = (.error error, d') ∧
      ((∀ place, d'.fileAt? place = blockedDisk.fileAt? place) ↔
        ∀ place content,
          WriteBuffer.lastAt? (blockedEngine.landedWrites [⟨"src/a.html"⟩] blockedDisk) place =
            some content → blockedDisk.fileAt? place = some content) ∧
      WriteBuffer.lastAt? (blockedEngine.landedWrites [⟨"src/a.html"⟩] blockedDisk)
        ["src", "a.html"] = some "<p class=\"x\">".toUTF8 := by
  obtain ⟨error, d', hRun, hLanded, _⟩ := exists_blocked_run
  exact ⟨error, d', hRun, (fileAt?_eq_of_failed_run_iff hRun).2, hLanded⟩

/-- It is not so that a failed run leaves every file as it was. -/
theorem not_forall_failed_run_fileAt?_eq :
    ¬∀ (e : Engine) (paths : List Path) (d d' : Disk) (error : RunError),
      e.runFiles paths d = (.error error, d') → ∀ place, d'.fileAt? place = d.fileAt? place := by
  intro hAll
  obtain ⟨error, d', hRun, _, hChanged⟩ := exists_blocked_run
  exact hChanged (hAll _ _ _ _ _ hRun ["src", "a.html"])

end Engine

end ClassCollapse
