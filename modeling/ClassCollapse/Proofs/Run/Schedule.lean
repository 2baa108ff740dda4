import ClassCollapse.Proofs.Run.Rewriting
import Mathlib.Data.List.Perm.Basic
import Mathlib.Logic.Relation

/-!
# The order of rewriting

The files that wait can be rewritten by several workers, each at its own pace. The workers share the
set of the files that were claimed, and what else they read stays as it is. A file that was claimed
before would stay as it is, but no two waiting files have the same key. So whatever the order of the
steps, no file is left out, and each file gets the injection that it gets in the order of processing.
No work fails, so none has to be given up for the failure of another one.
-/

namespace ClassCollapse.Engine

/-- How far the work on a file has come. -/
inductive Progress
  | waiting
  | claimed (fresh : Bool)
  | ended (result : Except InternalError Injection)

/-- The work on a waiting file, with the number for its import. -/
structure Work where
  job : PendingFile × Nat
  progress : Progress

/-- The works on all files, in the order of processing, and the files that were claimed. -/
structure Workers where
  claimed : List String
  works : List Work

def workers (e : Engine) : Workers :=
  ⟨[], e.jobs.map fun job => ⟨job, .waiting⟩⟩

/-- What comes of a file that was claimed, provided that it was not claimed before. -/
def rewriteClaimed (e : Engine) (fresh : Bool) (job : PendingFile × Nat) :
    Except InternalError Injection :=
  let text := if fresh then e.rewriter.plan job.1.content job.1.key >>= Splice.applyAll job.1.content
    else .ok job.1.content
  text.map fun text => e.injection job.1 text job.2

/-- Some worker takes its next step: it claims its file, or it rewrites the file that it claimed. -/
inductive Step (e : Engine) : Workers → Workers → Prop
  | claim (claimed : List String) (before after : List Work) (job : PendingFile × Nat)
    (fresh : Bool) (w : Rewriter)
    (hClaim : ({ e.rewriter with claimed } : Rewriter).claim job.1.key = (fresh, w)) :
    Step e ⟨claimed, before ++ ⟨job, .waiting⟩ :: after⟩
      ⟨w.claimed, before ++ ⟨job, .claimed fresh⟩ :: after⟩
  | rewrite (claimed : List String) (before after : List Work) (job : PendingFile × Nat)
    (fresh : Bool) :
    Step e ⟨claimed, before ++ ⟨job, .claimed fresh⟩ :: after⟩
      ⟨claimed, before ++ ⟨job, .ended (e.rewriteClaimed fresh job)⟩ :: after⟩

/-- The states that the workers come to from the start, in any order of their steps. -/
def Reachable (e : Engine) (s : Workers) : Prop :=
  Relation.ReflTransGen e.Step e.workers s

def Work.result? (work : Work) : Option (PendingFile × Injection) :=
  match work.progress with
  | .ended (.ok injection) => some (work.job.1, injection)
  | _ => none

/-- The files with their injections, provided that all works have ended without an error. -/
def Workers.collected? (s : Workers) : Option (List (PendingFile × Injection)) :=
  s.works.mapM Work.result?

def Progress.left : Progress → Nat
  | .waiting => 2
  | .claimed _ => 1
  | .ended _ => 0

def stepsLeft : List Work → Nat
  | [] => 0
  | work :: works => work.progress.left + stepsLeft works

/-! ## The steps of one file -/

theorem rewriteFile_eq (e : Engine) (claimed : List String) (job : PendingFile × Nat) :
    e.rewriteFile { e.rewriter with claimed } job.1 job.2 =
      (e.rewriteClaimed (({ e.rewriter with claimed } : Rewriter).claim job.1.key).1 job,
        (({ e.rewriter with claimed } : Rewriter).claim job.1.key).2) := by
  rw [rewriteFile, Rewriter.replace]
  cases hClaim : ({ e.rewriter with claimed } : Rewriter).claim job.1.key with
  | mk fresh w =>
  rw [Rewriter.claim] at hClaim
  split at hClaim
  · cases hClaim
    rfl
  · cases hClaim
    rfl

/-- The two steps of a worker do what rewriting a file does. -/
theorem steps_of_rewriteFile {e : Engine} {claimed : List String} {job : PendingFile × Nat}
    {result : Except InternalError Injection} {w : Rewriter}
    (h : e.rewriteFile { e.rewriter with claimed } job.1 job.2 = (result, w))
    (before after : List Work) :
    Relation.ReflTransGen e.Step ⟨claimed, before ++ ⟨job, .waiting⟩ :: after⟩
      ⟨w.claimed, before ++ ⟨job, .ended result⟩ :: after⟩ := by
  rw [rewriteFile_eq] at h
  cases h
  exact .tail (.single (.claim _ _ _ _ _ _ rfl)) (.rewrite _ _ _ _ _)

theorem stepsLeft_append (before after : List Work) :
    stepsLeft (before ++ after) = stepsLeft before + stepsLeft after := by
  induction before with
  | nil => exact (Nat.zero_add _).symm
  | cons work before ih => rw [List.cons_append, stepsLeft, stepsLeft, ih, Nat.add_assoc]

theorem Step.left_lt {e : Engine} {s s' : Workers} (h : e.Step s s') :
    stepsLeft s'.works < stepsLeft s.works := by
  cases h with
  | claim claimed before after job fresh w hClaim =>
    simp [stepsLeft_append, stepsLeft, Progress.left]
  | rewrite claimed before after job fresh => simp [stepsLeft_append, stepsLeft, Progress.left]

theorem Coherent.rewriteClaimed_eq {e : Engine} (h : Coherent e) {job : PendingFile × Nat}
    (hJob : job ∈ e.jobs) : ∃ done, e.Made job done ∧ e.rewriteClaimed true job = .ok done.2 := by
  obtain ⟨text, hText, hReplace⟩ := h.rewrites (List.of_mem_zip hJob).1
  refine ⟨(job.1, e.injection job.1 text job.2), ⟨text, hText, rfl⟩, ?_⟩
  have hFile : e.rewriteFile { e.rewriter with claimed := [] } job.1 job.2 =
      (.ok (e.injection job.1 text job.2), { e.rewriter with claimed := [job.1.key] }) := by
    rw [rewriteFile, hReplace [] List.not_mem_nil]
    rfl
  rw [rewriteFile_eq] at hFile
  exact congrArg Prod.fst hFile

/-! ## The states of the workers -/

/-- A work with nothing wrong so far. -/
inductive OnTheWay (e : Engine) (claimed : List String) : Work → Prop
  | waiting {job : PendingFile × Nat} (hFresh : job.1.key ∉ claimed) :
    OnTheWay e claimed ⟨job, .waiting⟩
  | claimed {job : PendingFile × Nat} : OnTheWay e claimed ⟨job, .claimed true⟩
  | ended {job : PendingFile × Nat} {done : PendingFile × Injection} (hMade : e.Made job done) :
    OnTheWay e claimed ⟨job, .ended (.ok done.2)⟩

theorem OnTheWay.claim {e : Engine} {claimed : List String} {key : String} {work : Work}
    (h : OnTheWay e claimed work) (hOther : work.job.1.key ≠ key) :
    OnTheWay e (key :: claimed) work := by
  cases h with
  | waiting hFresh =>
    refine .waiting ?_
    rw [List.mem_cons, not_or]
    exact ⟨hOther, hFresh⟩
  | claimed => exact .claimed
  | ended hMade => exact .ended hMade

structure Orderly (e : Engine) (s : Workers) : Prop where
  jobs_eq : s.works.map Work.job = e.jobs
  onTheWay : ∀ work ∈ s.works, OnTheWay e s.claimed work

theorem orderly_workers (e : Engine) : Orderly e e.workers where
  jobs_eq := by
    rw [workers, List.map_map]
    exact List.map_id _
  onTheWay := by
    intro work hWork
    obtain ⟨job, _, rfl⟩ := List.mem_map.mp hWork
    exact .waiting List.not_mem_nil

theorem Orderly.keys_nodup {e : Engine} {s : Workers} (h : Orderly e s) (hCoherent : Coherent e) :
    (s.works.map fun work => work.job.1.key).Nodup := by
  have hKeys : (s.works.map Work.job).map (fun job => job.1.key) = e.pending.map PendingFile.key := by
    rw [h.jobs_eq, ← map_fst_jobs, List.map_map]
    rfl
  rw [List.map_map] at hKeys
  exact hKeys ▸ hCoherent.pending_nodup

theorem Orderly.step {e : Engine} {s s' : Workers} (hStep : e.Step s s') (hCoherent : Coherent e)
    (h : Orderly e s) : Orderly e s' := by
  have hKeys := h.keys_nodup hCoherent
  obtain ⟨hJobs, hWorks⟩ := h
  cases hStep with
  | claim claimed before after job fresh w hClaim =>
    rw [List.forall_mem_append, List.forall_mem_cons] at hWorks
    obtain ⟨hBefore, hThis, hAfter⟩ := hWorks
    cases hThis with
    | waiting hFresh =>
    -- The key that is claimed belongs to no other work, so the waiting ones stay unclaimed.
    rw [List.map_append, List.map_cons, List.nodup_middle, List.nodup_cons, ← List.map_append]
      at hKeys
    have hOther : ∀ work ∈ before ++ after, work.job.1.key ≠ job.1.key := by
      intro work hWork hSame
      exact hKeys.1 (List.mem_map.mpr ⟨work, hWork, hSame⟩)
    rw [List.forall_mem_append] at hOther
    rw [Rewriter.claim, if_neg hFresh] at hClaim
    cases hClaim
    refine ⟨by rw [← hJobs]; simp, ?_⟩
    rw [List.forall_mem_append, List.forall_mem_cons]
    exact ⟨fun work hWork => (hBefore work hWork).claim (hOther.1 work hWork), .claimed,
      fun work hWork => (hAfter work hWork).claim (hOther.2 work hWork)⟩
  | rewrite claimed before after job fresh =>
    rw [List.forall_mem_append, List.forall_mem_cons] at hWorks
    obtain ⟨hBefore, hThis, hAfter⟩ := hWorks
    cases hThis with
    | claimed =>
    have hJob : job ∈ e.jobs := by
      rw [← hJobs]
      simp
    obtain ⟨done, hMade, hResult⟩ := hCoherent.rewriteClaimed_eq hJob
    refine ⟨by rw [← hJobs]; simp, ?_⟩
    rw [List.forall_mem_append, List.forall_mem_cons, hResult]
    exact ⟨hBefore, .ended hMade, hAfter⟩

theorem Orderly.reachable {e : Engine} (hCoherent : Coherent e) {s : Workers} (h : e.Reachable s) :
    Orderly e s := by
  induction h with
  | refl => exact orderly_workers e
  | tail _ hStep ih => exact ih.step hStep hCoherent

theorem exists_step {e : Engine} {s : Workers} {work : Work} (hWork : work ∈ s.works)
    (hLeft : work.progress.left ≠ 0) : ∃ s', e.Step s s' := by
  obtain ⟨claimed, works⟩ := s
  obtain ⟨before, after, rfl⟩ := List.append_of_mem hWork
  obtain ⟨job, progress⟩ := work
  cases progress with
  | waiting => exact ⟨_, .claim claimed before after job _ _ rfl⟩
  | claimed fresh => exact ⟨_, .rewrite claimed before after job fresh⟩
  | ended result => exact absurd rfl hLeft

/-! ## What comes of the files -/

theorem Made.unique {e : Engine} {job : PendingFile × Nat} {done done' : PendingFile × Injection}
    (h : e.Made job done) (h' : e.Made job done') : done = done' := by
  obtain ⟨text, hText, rfl⟩ := h
  obtain ⟨text', hText', rfl⟩ := h'
  cases hText.replace_eq.symm.trans hText'.replace_eq
  rfl

theorem mapM_result?_eq {e : Engine} (claimed : List String) {works : List Work}
    {done : List (PendingFile × Injection)} (hMade : List.Forall₂ e.Made (works.map Work.job) done)
    (hEnded : ∀ work ∈ works, OnTheWay e claimed work ∧ work.progress.left = 0) :
    works.mapM Work.result? = some done := by
  induction works generalizing done with
  | nil =>
    cases hMade
    rfl
  | cons first works ih =>
    cases hMade with
    | cons hFirst hRest =>
    rw [List.forall_mem_cons] at hEnded
    obtain ⟨⟨hWay, hLeft⟩, hOthers⟩ := hEnded
    cases hWay with
    | waiting hFresh => cases hLeft
    | claimed => cases hLeft
    | ended hMade =>
      cases hFirst.unique hMade
      obtain ⟨text, _, rfl⟩ := hMade
      rw [List.mapM_cons, ih hRest hOthers]
      rfl

/-- The second phase gives the same in whatever order its files are rewritten. -/
structure AnyOrder (e : Engine) (done : List (PendingFile × Injection)) : Prop where
  finish_eq : e.finish = .ok (e.output done)
  files_eq : done.map Prod.fst = e.pending
  /-- One file after the other, in any order. -/
  rewriteAll_eq : ∀ order : List (PendingFile × Nat), order.Perm e.jobs →
    ∃ done', e.rewriteAll e.rewriter order = .ok done' ∧ done'.Perm done
  claimed_fresh : ∀ s, e.Reachable s → ∀ work ∈ s.works, work.progress ≠ .claimed false
  ended : ∀ s, e.Reachable s → ∀ work ∈ s.works, ∀ result, work.progress = .ended result →
    ∃ injection, result = .ok injection ∧ (work.job.1, injection) ∈ done
  step_left_lt : ∀ s s', e.Step s s' → stepsLeft s'.works < stepsLeft s.works
  collected?_eq : ∀ s, e.Reachable s → (∀ s', ¬e.Step s s') → s.collected? = some done
  /-- Another time changes the times of the entries only. -/
  output_at : ∀ now, (({ e with now } : Engine).output done).writes = (e.output done).writes ∧
    (({ e with now } : Engine).output done).report = (e.output done).report ∧
    ∀ key, (({ e with now } : Engine).output done).cache.untimed? key =
      (e.output done).cache.untimed? key

theorem Coherent.anyOrder {e : Engine} (h : Coherent e) : ∃ done, AnyOrder e done := by
  obtain ⟨done, hDone, hMade⟩ := h.exists_rewriteAll
  refine ⟨done, ?_⟩
  constructor
  · exact finish_of_rewriteAll hDone
  · rw [← map_fst_jobs, map_eq_of_forall₂ hMade fun _ _ => Made.fst_eq]
  · intro order hOrder
    have hKeys : ((order.map Prod.fst).map PendingFile.key).Nodup := by
      have hPerm := (hOrder.map Prod.fst).map PendingFile.key
      rw [map_fst_jobs] at hPerm
      exact hPerm.nodup_iff.mpr h.pending_nodup
    obtain ⟨done', hDone', hMade'⟩ := h.rewriteAll_eq order []
      (fun job hJob => (List.of_mem_zip (hOrder.mem_iff.mp hJob)).1) hKeys
      (fun _ _ => List.not_mem_nil)
    have hUnique : Relator.RightUnique e.Made := fun _ _ _ hMade hMade' => hMade.unique hMade'
    exact ⟨done', hDone', List.rel_perm_imp hUnique hMade' hMade hOrder⟩
  · intro s hReach work hWork hSkipped
    have hWay := (Orderly.reachable h hReach).onTheWay work hWork
    cases hWay with
    | _ => cases hSkipped
  · intro s hReach work hWork result hResult
    have hOrderly := Orderly.reachable h hReach
    have hWay := hOrderly.onTheWay work hWork
    cases hWay with
    | waiting hFresh => cases hResult
    | claimed => cases hResult
    | @ended job x hMadeHere =>
      cases hResult
      have hJob : job ∈ e.jobs := hOrderly.jobs_eq ▸ List.mem_map_of_mem (f := Work.job) hWork
      obtain ⟨x', hx', hMade'⟩ := (exists_of_forall₂ hMade).1 job hJob
      cases hMadeHere.unique hMade'
      refine ⟨x.2, rfl, ?_⟩
      rw [hMadeHere.fst_eq]
      exact hx'
  · exact fun s s' hStep => hStep.left_lt
  · intro s hReach hStuck
    have hOrderly := Orderly.reachable h hReach
    refine mapM_result?_eq s.claimed (hOrderly.jobs_eq.symm ▸ hMade) ?_
    intro work hWork
    refine ⟨hOrderly.onTheWay work hWork, ?_⟩
    by_contra hLeft
    obtain ⟨s', hStep⟩ := exists_step (e := e) hWork hLeft
    exact hStuck s' hStep
  · intro now
    exact ⟨writes_settleAll _ _ _ _ _ _, rfl, fun key => untimed?_settleAll _ _ _ rfl done⟩

/-- Whatever paths were visited, and whatever the disk answered, the second phase does not depend on
the order in which its files are rewritten, and no waiting file is taken for one that was rewritten
before. -/
theorem anyOrder_visitAll (scanRoot : Path) (cache : ChangeCache) (compile : Compiler)
    (namePrefix : String) (maxInvocations : Nat) (strategy : Option NamingStrategy)
    (names random : RandomSource) (options : RunOptions) (now : UInt64)
    (visits : List (Disk × Path)) :
    let e := visitAll visits (new scanRoot cache compile
      (.new namePrefix maxInvocations strategy names) options random now)
    (∃ done, AnyOrder e done) ∧ ∃ done, AnyOrder e.forgetUnseen.2 done := by
  intro e
  have hNew := coherent_new scanRoot cache compile options random now
    (NameResolver.sound_new namePrefix maxInvocations strategy names) rfl
  have hCoherent : Coherent e := coherent_visitAll hNew visits
  exact ⟨hCoherent.anyOrder, (hCoherent.setCache _).anyOrder⟩

end ClassCollapse.Engine
