import ClassCollapse.Proofs.Cache.Basic
import ClassCollapse.Proofs.Related
import ClassCollapse.Proofs.Rewrite.Planned
import ClassCollapse.Proofs.Run.Coherence

/-!
# Rewriting cannot fail

What an engine collected from a file is what stands in the file, so the splices of a file apply to
its content, and the second phase of a run has a result. The text of a file before its rules are put
in place is its content with each class list replaced and nothing else changed.
-/

namespace ClassCollapse.Engine

open Text

def rewriter (e : Engine) : Rewriter :=
  .new e.index e.resolver.names e.compile

def rendered (e : Engine) (file : PendingFile) (found : ScannedClass) : String :=
  e.rewriter.render (e.occurrence file.key found)

def splices (e : Engine) (file : PendingFile) : List Splice :=
  (Markup.scan file.content).map fun found => ⟨found.offset, found.length, e.rendered file found⟩

/-- The rules of a file put in place in a text. -/
def injection (e : Engine) (file : PendingFile) (text : String) (suffix : Nat) : Injection :=
  file.placement.inject file.path text ((e.book.fileCss? e.index file.key).getD "")
    file.existingSheet suffix

/-- What the second phase makes of rewritten files. -/
def output (e : Engine) (done : List (PendingFile × Injection)) : RunOutput :=
  ⟨(done.foldl (settle e.now) (.empty, e.cache)).1, (done.foldl (settle e.now) (.empty, e.cache)).2,
    e.report done⟩

/-- A text is what rewriting makes of a waiting file: the scanned class lists stand at their places
in the content, and the text has what is rendered in their places and is the same elsewhere. -/
structure Rewrites (e : Engine) (file : PendingFile) (text : String) : Prop where
  replace_eq : (e.rewriter.replace file.content file.key).1 = .ok text
  slice?_eq : ∀ found ∈ Markup.scan file.content,
    slice? found.offset (found.offset + found.length) file.content.toList =
      some found.classList.toList
  spliced : Spliced 0 file.content.toList (e.splices file) text.toList

/-- The occurrences of an engine are those of what was found, under the keys of their lists. -/
theorem occurrence_eq (e : Engine) (file : String) :
    e.occurrence file = ScannedClass.occurrence file fun found =>
      .ofClassList e.options.orderMatters found.classList :=
  rfl

theorem Coherent.forFile_eq {e : Engine} (h : Coherent e) {file : PendingFile}
    (hFile : file ∈ e.pending) :
    e.index.forFile file.key = (Markup.scan file.content).map (e.occurrence file.key) := by
  rw [occurrence_eq]
  exact OccurrenceIndex.forFile_of_inFile (h.inFile_eq file hFile)

theorem Coherent.exists_replace_eq {e : Engine} (h : Coherent e) {file : PendingFile}
    (hFile : file ∈ e.pending) :
    ∃ text, Spliced 0 file.content.toList (e.splices file) text.toList ∧
      ∀ claimed, file.key ∉ claimed →
        ({ e.rewriter with claimed } : Rewriter).replace file.content file.key =
          (.ok text, { e.rewriter with claimed := file.key :: claimed }) := by
  obtain ⟨out, hOut⟩ := (Markup.located_scan file.content).exists_spliced (e.rendered file)
  have hText : Spliced 0 file.content.toList (e.splices file) (String.ofList out).toList := by
    rw [String.toList_ofList]
    exact hOut
  refine ⟨String.ofList out, hText, ?_⟩
  intro claimed hFresh
  exact Rewriter.replace_of_spliced (w := { e.rewriter with claimed }) hFresh (h.forFile_eq hFile)
    hText

theorem Coherent.rewrites {e : Engine} (h : Coherent e) {file : PendingFile}
    (hFile : file ∈ e.pending) :
    ∃ text, e.Rewrites file text ∧ ∀ claimed, file.key ∉ claimed →
      ({ e.rewriter with claimed } : Rewriter).replace file.content file.key =
        (.ok text, { e.rewriter with claimed := file.key :: claimed }) := by
  obtain ⟨text, hSpliced, hReplace⟩ := h.exists_replace_eq hFile
  refine ⟨text, ⟨?_, ?_, hSpliced⟩, hReplace⟩
  · exact congrArg Prod.fst (hReplace [] List.not_mem_nil)
  · exact (Markup.located_scan file.content).slice?_eq

/-- Rewriting depends on the rules and the occurrences only. -/
theorem rewriteAll_congr {e e' : Engine} (hBook : e'.book = e.book) (hIndex : e'.index = e.index)
    (w : Rewriter) (files : List (PendingFile × Nat)) :
    e'.rewriteAll w files = e.rewriteAll w files := by
  induction files generalizing w with
  | nil => rfl
  | cons first files ih =>
    have hFile : e'.rewriteFile w first.1 first.2 = e.rewriteFile w first.1 first.2 := by
      rw [rewriteFile, rewriteFile, hBook, hIndex]
    rw [rewriteAll, rewriteAll, hFile]
    cases e.rewriteFile w first.1 first.2 with
    | mk result w =>
    cases result with
    | error error => rfl
    | ok injection => exact congrArg (Except.map _) (ih w)

/-- The log depends on the root only. -/
theorem log_congr {e e' : Engine} (hRoot : e'.scanRoot = e.scanRoot) (processed : List Processed)
    (done : List (PendingFile × Injection)) : e'.log processed done = e.log processed done := by
  induction processed generalizing done with
  | nil => rfl
  | cons x processed ih =>
    cases x with
    | done key action => exact congrArg _ (ih done)
    | pending file =>
      cases done with
      | nil => exact ih []
      | cons d done =>
        have hAction : e'.rewrittenAction d = e.rewrittenAction d := by
          rw [rewrittenAction, rewrittenAction, hRoot]
        rw [log, log, hAction, ih done]

/-- What is buffered depends neither on the time nor on the cache. -/
theorem writes_settleAll (now now' : UInt64) (writes : WriteBuffer) (cache cache' : ChangeCache)
    (done : List (PendingFile × Injection)) :
    (done.foldl (settle now') (writes, cache')).1 = (done.foldl (settle now) (writes, cache)).1 := by
  induction done generalizing writes cache cache' with
  | nil => rfl
  | cons first done ih => exact ih _ _ _

theorem untimed?_settleAll (now now' : UInt64) (writes : WriteBuffer) {cache cache' : ChangeCache}
    {key : String} (h : cache'.untimed? key = cache.untimed? key)
    (done : List (PendingFile × Injection)) :
    (done.foldl (settle now') (writes, cache')).2.untimed? key =
      (done.foldl (settle now) (writes, cache)).2.untimed? key := by
  induction done generalizing writes cache cache' with
  | nil => exact h
  | cons first done ih =>
    refine ih _ ?_
    rw [ChangeCache.untimed?_record, ChangeCache.untimed?_record, h]

/-- What rewriting makes of a file that waits, with the number for its import. -/
def Made (e : Engine) (job : PendingFile × Nat) (done : PendingFile × Injection) : Prop :=
  ∃ text, e.Rewrites job.1 text ∧ done = (job.1, e.injection job.1 text job.2)

/-- A file with its injection, where the injection is made from what rewriting makes of the file. -/
def Rewritten (e : Engine) (done : PendingFile × Injection) : Prop :=
  ∃ text suffix, e.Rewrites done.1 text ∧ done.2 = e.injection done.1 text suffix

theorem Made.rewritten {e : Engine} {job : PendingFile × Nat} {done : PendingFile × Injection}
    (h : e.Made job done) : e.Rewritten done := by
  obtain ⟨text, hText, rfl⟩ := h
  exact ⟨text, job.2, hText, rfl⟩

theorem Made.fst_eq {e : Engine} {job : PendingFile × Nat} {done : PendingFile × Injection}
    (h : e.Made job done) : job.1 = done.1 := by
  obtain ⟨text, _, rfl⟩ := h
  rfl

/-- In whatever order waiting files are rewritten, each of them gets what is made of it. -/
theorem Coherent.rewriteAll_eq {e : Engine} (h : Coherent e) (files : List (PendingFile × Nat))
    (claimed : List String) (hPending : ∀ p ∈ files, p.1 ∈ e.pending)
    (hNodup : ((files.map Prod.fst).map PendingFile.key).Nodup)
    (hFresh : ∀ p ∈ files, p.1.key ∉ claimed) :
    ∃ done, e.rewriteAll { e.rewriter with claimed } files = .ok done ∧
      List.Forall₂ e.Made files done := by
  induction files generalizing claimed with
  | nil => exact ⟨[], rfl, .nil⟩
  | cons first files ih =>
    obtain ⟨file, suffix⟩ := first
    obtain ⟨text, hText, hReplace⟩ := h.rewrites (hPending _ List.mem_cons_self)
    obtain ⟨hNotIn, hRest⟩ := List.nodup_cons.mp hNodup
    have hFreshRest : ∀ p ∈ files, p.1.key ∉ file.key :: claimed := by
      intro p hp hMem
      rcases List.mem_cons.mp hMem with hSame | hOld
      · exact hNotIn (List.mem_map.mpr ⟨p.1, List.mem_map_of_mem hp, hSame⟩)
      · exact hFresh p (List.mem_cons_of_mem _ hp) hOld
    obtain ⟨done, hDone, hMade⟩ := ih (file.key :: claimed)
      (fun p hp => hPending p (List.mem_cons_of_mem _ hp)) hRest hFreshRest
    refine ⟨(file, e.injection file text suffix) :: done, ?_, .cons ⟨text, hText, rfl⟩ hMade⟩
    rw [rewriteAll, rewriteFile, hReplace claimed (hFresh _ List.mem_cons_self)]
    dsimp only [Except.map]
    rw [hDone]
    rfl

theorem length_drawMany (r : RandomSource) (bound n : Nat) :
    (r.drawMany bound n).1.length = n := by
  induction n generalizing r with
  | zero => rfl
  | succ n ih =>
    rw [RandomSource.drawMany]
    exact congrArg (· + 1) (ih _)

/-- The files that wait, each with the number for its import. -/
def jobs (e : Engine) : List (PendingFile × Nat) :=
  e.pending.zip (e.random.drawMany 100 e.pending.length).1

theorem map_fst_jobs (e : Engine) : e.jobs.map Prod.fst = e.pending :=
  List.map_fst_zip (Nat.le_of_eq (length_drawMany _ _ _).symm)

theorem finish_of_rewriteAll {e : Engine} {done : List (PendingFile × Injection)}
    (h : e.rewriteAll e.rewriter e.jobs = .ok done) : e.finish = .ok (e.output done) := by
  have hAll : e.rewriteAll (Rewriter.new e.index e.resolver.names e.compile)
    (e.pending.zip (e.random.drawMany 100 e.pending.length).1) = .ok done := h
  rw [finish]
  dsimp only
  rw [hAll]
  rfl

theorem Coherent.exists_rewriteAll {e : Engine} (h : Coherent e) :
    ∃ done, e.rewriteAll e.rewriter e.jobs = .ok done ∧ List.Forall₂ e.Made e.jobs done :=
  h.rewriteAll_eq e.jobs [] (fun _ hp => (List.of_mem_zip hp).1)
    (by rw [map_fst_jobs]; exact h.pending_nodup) (fun _ _ => List.not_mem_nil)

theorem path_settleAll (now : UInt64) (writes : WriteBuffer) (cache : ChangeCache)
    (done : List (PendingFile × Injection)) :
    (done.foldl (settle now) (writes, cache)).2.path = cache.path := by
  induction done generalizing writes cache with
  | nil => rfl
  | cons first done ih => exact ih _ _

theorem path_of_finish {e : Engine} {out : RunOutput} (h : e.finish = .ok out) :
    out.cache.path = e.cache.path := by
  rw [finish] at h
  dsimp only at h
  split at h
  · cases h
  · cases h
    exact path_settleAll _ _ _ _

/-- The second phase of a coherent engine has a result, made from all the files that wait. -/
theorem Coherent.finish_eq {e : Engine} (h : Coherent e) :
    ∃ done, e.finish = .ok (e.output done) ∧ done.map Prod.fst = e.pending ∧
      ∀ d ∈ done, e.Rewritten d := by
  obtain ⟨done, hDone, hMade⟩ := h.exists_rewriteAll
  refine ⟨done, finish_of_rewriteAll hDone, ?_, ?_⟩
  · rw [← map_fst_jobs, map_eq_of_forall₂ hMade fun _ _ => Made.fst_eq]
  · intro d hd
    obtain ⟨_, _, hJob⟩ := (exists_of_forall₂ hMade).2 d hd
    exact hJob.rewritten

theorem Coherent.done_keys_nodup {e : Engine} (h : Coherent e)
    {done : List (PendingFile × Injection)} (hDone : done.map Prod.fst = e.pending) :
    (done.map (·.1.key)).Nodup := by
  have hNodup := h.pending_nodup
  rw [← hDone, List.map_map] at hNodup
  exact hNodup

/-- Whatever paths were visited, and whatever the disk answered, the second phase has a result. It
is made from every waiting file, rewritten. -/
theorem finish_visitAll_eq_ok (scanRoot : Path) (cache : ChangeCache) (compile : Compiler)
    (namePrefix : String) (maxInvocations : Nat) (strategy : Option NamingStrategy)
    (names random : RandomSource) (options : RunOptions) (now : UInt64)
    (visits : List (Disk × Path)) :
    let e := visitAll visits (new scanRoot cache compile
      (.new namePrefix maxInvocations strategy names) options random now)
    ∃ done, e.finish = .ok (e.output done) ∧ done.map Prod.fst = e.pending ∧
      ∀ d ∈ done, e.Rewritten d := by
  intro e
  have hNew := coherent_new scanRoot cache compile options random now
    (NameResolver.sound_new namePrefix maxInvocations strategy names) rfl
  exact (coherent_visitAll hNew visits).finish_eq

end ClassCollapse.Engine
