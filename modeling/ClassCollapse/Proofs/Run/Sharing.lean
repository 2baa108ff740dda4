import ClassCollapse.Proofs.Disk.Sameness
import ClassCollapse.Proofs.Run.Buffering
import ClassCollapse.Proofs.Run.Failure
import ClassCollapse.Proofs.Style.Sheet

/-!
# Components with one sheet

Components whose paths differ in the extension only have one companion sheet. Each of them merges its
rules into the sheet that the run has found, and the results are written one after the other. That is
not what processing them one after the other would give.
-/

namespace ClassCollapse

namespace RuleBook

open Placement (IsRules)

theorem isRules_formatBlock (name classList css : String) :
    IsRules (formatBlock name classList css) where
  starts := by
    simp only [formatBlock, String.toList_append, List.append_assoc]
    rfl
  ends := by
    simp only [formatBlock, String.toList_append]
    rw [List.getLast?_append_of_ne_nil _ (by decide)]
    decide

theorem isRules_join {blocks : List String} (hne : blocks ≠ [])
    (h : ∀ block ∈ blocks, IsRules block) : IsRules (Text.join "\n" blocks) := by
  induction blocks with
  | nil => exact absurd rfl hne
  | cons block blocks ih =>
    have hFirst := h block List.mem_cons_self
    cases blocks with
    | nil => exact hFirst
    | cons next blocks =>
      have hRest := ih (List.cons_ne_nil _ _) fun other hOther =>
        h other (List.mem_cons_of_mem block hOther)
      constructor
      · rw [Text.join, String.toList_append, String.toList_append, List.append_assoc,
          List.head?_append, hFirst.starts, Option.some_or]
      · rw [Text.join, String.toList_append, List.getLast?_append, hRest.ends, Option.some_or]

theorem Held.isRules {compile : Compiler} {first : Option Occurrence} {css : KeyCss}
    {name : Option String} (h : Held compile first (some css) name) {block : String}
    (hBlock : css.block? = some block) : IsRules block := by
  cases h with
  | plain o hEmpty => cases hBlock
  | styled o hEmpty name =>
    cases hBlock
    exact isRules_formatBlock _ _ _

/-- The rules of a file, where there are any, are a text of rules. -/
theorem Follows.isRules_fileCss {compile : Compiler} {os : List Occurrence} {book : RuleBook}
    {resolver : NameResolver} (h : Follows compile os book resolver) (index : OccurrenceIndex)
    (file : String) (hne : (book.fileCss? index file).getD "" ≠ "") :
    IsRules ((book.fileCss? index file).getD "") := by
  rw [fileCss?] at hne ⊢
  split at hne
  · exact absurd rfl hne
  next blocks hSome =>
    refine isRules_join (fun hNil => hSome hNil) ?_
    intro block hMem
    obtain ⟨key, _, hBlock⟩ := List.mem_filterMap.mp hMem
    obtain ⟨css, hCss, hText⟩ := Option.bind_eq_some_iff.mp hBlock
    have hHeld := h.held key
    rw [hCss] at hHeld
    exact hHeld.isRules hText

end RuleBook

namespace Engine

open Placement WriteBuffer

/-- The rules that are put in place for a file. -/
def css (e : Engine) (file : PendingFile) : String :=
  (e.book.fileCss? e.index file.key).getD ""

/-- The waiting files that put rules into a sheet, in the order of the run. -/
def sharing (e : Engine) (sheet : Path) : List PendingFile :=
  e.pending.filter fun file =>
    file.placement = .companion ∧ e.css file ≠ "" ∧ (companionPath file.path).same sheet

theorem mem_sharing_iff {e : Engine} {sheet : Path} {file : PendingFile} :
    file ∈ e.sharing sheet ↔ file ∈ e.pending ∧ file.placement = .companion ∧ e.css file ≠ "" ∧
      (companionPath file.path).same sheet = true := by
  rw [sharing, List.mem_filter, decide_eq_true_eq]

/-! ## What the files of a sheet add to it -/

theorem companion_injection {e : Engine} (h : Coherent e) (file : PendingFile) (text : String)
    (suffix : Nat) : (e.injection file text suffix).companion =
      if file.placement = .companion ∧ e.css file ≠ "" then
        some (companionPath file.path, mergeSheet file.existingSheet (e.css file))
      else none := by
  have hBlank : Text.isBlankText (e.css file) = true ↔ e.css file = "" := by
    constructor
    · intro hAll
      by_contra hne
      obtain ⟨rest, hRest⟩ := List.head?_eq_some_iff.mp (h.follows.isRules_fileCss _ _ hne).starts
      have hDot := List.all_eq_true.mp hAll '.' (by rw [css, hRest]; exact List.mem_cons_self)
      cases hDot
    · intro hEmpty
      rw [hEmpty]
      rfl
  unfold injection inject
  rw [← css]
  by_cases hEmpty : e.css file = ""
  · rw [if_pos (hBlank.mpr hEmpty), if_neg (fun hBoth => hBoth.2 hEmpty)]
  · rw [if_neg (mt hBlank.mp hEmpty)]
    cases file.placement with
    | inline => rw [if_neg (by simp)]
    | companion => rw [if_pos ⟨rfl, hEmpty⟩]

theorem filterMap_if {α β : Type} {p : α → Prop} [DecidablePred p] (f : α → β) (l : List α) :
    l.filterMap (fun a => if p a then some (f a) else none) = (l.filter p).map f := by
  induction l with
  | nil => rfl
  | cons a l ih =>
    by_cases ha : p a
    · simp [ha, ih]
    · simp [ha, ih]

theorem filterMap_sheetText? {e : Engine} (h : Coherent e)
    {done : List (PendingFile × Injection)} (hDone : done.map Prod.fst = e.pending)
    (hRewritten : ∀ x ∈ done, e.Rewritten x) (sheet : Path) :
    done.filterMap (sheetText? sheet) =
      (e.sharing sheet).map fun file => mergeSheet file.existingSheet (e.css file) := by
  have hEach : ∀ x ∈ done, sheetText? sheet x =
      if x.1.placement = .companion ∧ e.css x.1 ≠ "" ∧ (companionPath x.1.path).same sheet then
        some (mergeSheet x.1.existingSheet (e.css x.1)) else none := by
    intro x hx
    obtain ⟨text, suffix, _, hInjection⟩ := hRewritten x hx
    rw [sheetText?, hInjection, companion_injection h]
    by_cases hPuts : x.1.placement = .companion ∧ e.css x.1 ≠ ""
    · rw [if_pos hPuts, Option.bind_some]
      by_cases hSame : (companionPath x.1.path).same sheet = true
      · rw [if_pos hSame, if_pos ⟨hPuts.1, hPuts.2, hSame⟩]
      · rw [if_neg hSame, if_neg fun hAll => hSame hAll.2.2]
    · rw [if_neg hPuts, if_neg fun hAll => hPuts ⟨hAll.1, hAll.2.1⟩]
      rfl
  rw [List.filterMap_congr hEach, filterMap_if, sharing, ← hDone, List.filter_map, List.map_map]
  rfl

/-! ## What the files have found -/

/-- Every waiting file has its placement and the sheet that stands on the disk. -/
def Snapshots (d : Disk) (e : Engine) : Prop :=
  ∀ file ∈ e.pending, forPath? file.path = some file.placement ∧
    existingSheet d file.placement file.path = .ok file.existingSheet

theorem snapshots_visit {d : Disk} {path : Path} {e e' : Engine} (h : Visit d path e (.ok ()) e')
    (he : Snapshots d e) : Snapshots d e' := by
  intro file hFile
  cases h with
  | again hSeen => exact he file hFile
  | unchanged content hNew hRead hKnown =>
    rw [pending_push, List.mem_append] at hFile
    exact he file (hFile.resolve_right List.not_mem_nil)
  | unsupported content hNew hRead hModified hPlacement =>
    rw [pending_push, List.mem_append] at hFile
    exact he file (hFile.resolve_right List.not_mem_nil)
  | noClasses content placement hNew hRead hModified hPlacement hScan =>
    rw [pending_push, List.mem_append] at hFile
    exact he file (hFile.resolve_right List.not_mem_nil)
  | waiting content placement sheet hNew hRead hModified hPlacement hScan hSheet =>
    rw [pending_push, List.mem_append] at hFile
    rcases hFile with hOld | hLast
    · rw [pending_collectAll] at hOld
      exact he file hOld
    · cases List.mem_singleton.mp hLast
      exact ⟨hPlacement, hSheet⟩

theorem snapshots_processAll {d : Disk} {paths : List Path} {e e' : Engine}
    (hAll : processAll d paths e = .ok e') (h : Snapshots d e) : Snapshots d e' :=
  processAll_induction (fun _ _ _ hVisit hBefore => snapshots_visit hVisit hBefore) hAll h

theorem existingSheet_eq_ok_iff {d : Disk} {p : Path} {sheet : Option String} :
    existingSheet d .companion p = .ok sheet ↔
      (∃ text, d.readText (companionPath p) = .ok text ∧ sheet = some text) ∨
        (d.readText (companionPath p) = .error .notFound ∧ sheet = none) := by
  unfold existingSheet
  dsimp only
  cases hRead : d.readText (companionPath p) with
  | ok text => simp [eq_comm]
  | error cause => cases cause <;> simp [eq_comm]

/-- Files with one sheet have found the same. -/
theorem Snapshots.eq_of_same {d : Disk} {e : Engine} (h : Snapshots d e) {sheet : Path}
    {file other : PendingFile} (hFile : file ∈ e.sharing sheet) (hOther : other ∈ e.sharing sheet) :
    file.existingSheet = other.existingSheet := by
  obtain ⟨hPending, hCompanion, _, hSame⟩ := mem_sharing_iff.mp hFile
  obtain ⟨hPending', hCompanion', _, hSame'⟩ := mem_sharing_iff.mp hOther
  obtain ⟨hPlacement, hFound⟩ := h file hPending
  obtain ⟨hPlacement', hFound'⟩ := h other hPending'
  have hSheets : (companionPath file.path).same (companionPath other.path) = true := by
    rw [Path.same_congr hSame, Path.same_comm]
    exact hSame'
  have hRead := readText_companionPath_of_same hPlacement hPlacement' hSheets d
  rw [hCompanion] at hFound
  rw [hCompanion'] at hFound'
  rcases existingSheet_eq_ok_iff.mp hFound with ⟨text, hText, hSome⟩ | ⟨hMissing, hNone⟩
  · rcases existingSheet_eq_ok_iff.mp hFound' with ⟨text', hText', hSome'⟩ | ⟨hMissing', _⟩
    · rw [hRead, hText'] at hText
      cases hText
      rw [hSome, hSome']
    · rw [hRead, hMissing'] at hText
      cases hText
  · rcases existingSheet_eq_ok_iff.mp hFound' with ⟨text', hText', _⟩ | ⟨_, hNone'⟩
    · rw [hRead, hText'] at hMissing
      cases hMissing
    · rw [hNone, hNone']

/-! ## The sheet of several files -/

/-- What a coherent engine buffers for a sheet is what its files make of the sheet that they have
found, one after the other. -/
theorem Coherent.contentAt?_output {d : Disk} {e : Engine} (h : Coherent e) (hFound : Snapshots d e)
    {done : List (PendingFile × Injection)} (hDone : done.map Prod.fst = e.pending)
    (hRewritten : ∀ x ∈ done, e.Rewritten x) {sheet : Path} {file : PendingFile}
    (hFile : file ∈ e.sharing sheet) :
    (e.output done).writes.contentAt? sheet =
      some (mergeApart file.existingSheet ((e.sharing sheet).map e.css)) := by
  have hPaths : ∀ x ∈ done, forPath? x.1.path ≠ none := by
    intro x hx
    have hPending : x.1 ∈ e.pending := hDone ▸ List.mem_map_of_mem hx
    rw [(hFound x.1 hPending).1]
    exact Option.some_ne_none _
  obtain ⟨hPending, _, _, hSame⟩ := mem_sharing_iff.mp hFile
  have hSheet : forPath? sheet = none := by
    rw [← forPath?_of_fileName?_eq (Path.fileName?_of_same hSame),
      forPath?_companionPath (hFound file hPending).1]
  have hMerged : (e.sharing sheet).map (fun other => mergeSheet other.existingSheet (e.css other)) =
      ((e.sharing sheet).map e.css).map (mergeSheet file.existingSheet) := by
    rw [List.map_map]
    apply List.map_congr_left
    intro other hOther
    rw [hFound.eq_of_same hOther hFile]
    rfl
  have hTexts := filterMap_sheetText? h hDone hRewritten sheet
  rw [hMerged] at hTexts
  have hSome : ((e.sharing sheet).map e.css).map (mergeSheet file.existingSheet) ≠ [] := by
    simpa using List.ne_nil_of_mem hFile
  have hContent := contentAt?_settleAll e.now e.cache hPaths hSheet
  rw [hTexts, if_neg hSome] at hContent
  exact hContent

/-- What a run from coherent and empty beginnings buffers for a sheet. -/
theorem exists_outcome {d : Disk} {paths : List Path} {start e : Engine} (hNew : Coherent start)
    (hStart : start.processed = []) (hAll : processAll d paths start = .ok e) :
    ∃ out, start.outcome paths d = .ok out ∧
      ∀ sheet first rest, e.sharing sheet = first :: rest →
        ∃ existing, existingSheet d .companion first.path = .ok existing ∧
          (∀ file ∈ first :: rest, file.existingSheet = existing ∧ IsRules (e.css file)) ∧
          out.writes.contentAt? sheet =
            some (mergeApart existing ((first :: rest).map e.css)) := by
  have hCoherent : Coherent e := visitAll_of_processAll hAll ▸ coherent_visitAll hNew _
  have hFound : Snapshots d e := by
    refine snapshots_processAll hAll ?_
    intro file hFile
    rw [← filterMap_processed, hStart] at hFile
    cases hFile
  have hLast : Coherent e.forgetUnseen.2 := hCoherent.setCache _
  obtain ⟨done, hFinish, hDone, hRewritten⟩ := hLast.finish_eq
  refine ⟨e.forgetUnseen.2.output done, ?_, ?_⟩
  · rw [outcome, hAll]
    exact hFinish
  · intro sheet first rest hSharing
    have hFirst : first ∈ e.sharing sheet := hSharing ▸ List.mem_cons_self
    obtain ⟨hPending, hCompanion, _, _⟩ := mem_sharing_iff.mp hFirst
    have hSheet := (hFound first hPending).2
    rw [hCompanion] at hSheet
    have hContent := hLast.contentAt?_output (d := d) hFound hDone hRewritten
      (show first ∈ e.forgetUnseen.2.sharing sheet from hFirst)
    have hForget : e.forgetUnseen.2.sharing sheet = first :: rest := hSharing
    rw [hForget] at hContent
    refine ⟨first.existingSheet, hSheet, ?_, hContent⟩
    intro file hFile
    have hMember : file ∈ e.sharing sheet := hSharing ▸ hFile
    exact ⟨hFound.eq_of_same hMember hFirst,
      hCoherent.follows.isRules_fileCss _ _ (mem_sharing_iff.mp hMember).2.2.1⟩

/-- In every run over a disk, what is buffered for a companion sheet is what its files make of the
sheet that was there before, each on its own and one after the other. This is what merging them into
the sheet one after the other gives exactly if there is one file. -/
theorem contentAt?_eq_mergeAll_iff {d : Disk} {paths : List Path} (scanRoot : Path)
    (cache : ChangeCache) (compile : Compiler) (namePrefix : String) (maxInvocations : Nat)
    (strategy : Option NamingStrategy) (names random : RandomSource) (options : RunOptions)
    (now : UInt64) {e : Engine}
    (hAll : processAll d paths (new scanRoot cache compile
      (.new namePrefix maxInvocations strategy names) options random now) = .ok e) :
    ∃ out, (new scanRoot cache compile (.new namePrefix maxInvocations strategy names) options
        random now).outcome paths d = .ok out ∧
      ∀ sheet first rest, e.sharing sheet = first :: rest →
        ∃ existing, existingSheet d .companion first.path = .ok existing ∧
          (∀ file ∈ first :: rest, file.existingSheet = existing) ∧
          out.writes.contentAt? sheet = some (mergeApart existing ((first :: rest).map e.css)) ∧
          (out.writes.contentAt? sheet = mergeAll existing ((first :: rest).map e.css) ↔
            rest = []) := by
  have hNew := coherent_new scanRoot cache compile options random now
    (NameResolver.sound_new namePrefix maxInvocations strategy names) rfl
  obtain ⟨out, hOutcome, hSheets⟩ := exists_outcome hNew rfl hAll
  refine ⟨out, hOutcome, ?_⟩
  intro sheet first rest hSharing
  obtain ⟨existing, hExisting, hEach, hContent⟩ := hSheets sheet first rest hSharing
  refine ⟨existing, hExisting, fun file hFile => (hEach file hFile).1, hContent, ?_⟩
  have hRules : ∀ text ∈ (first :: rest).map e.css, IsRules text := by
    intro text hText
    obtain ⟨file, hFile, rfl⟩ := List.mem_map.mp hText
    exact (hEach file hFile).2
  rw [hContent]
  refine (mergeApart_eq_iff existing hRules).trans ?_
  exact List.map_eq_nil_iff

/-- Two components beside one sheet. -/
def sharedDisk : Disk :=
  ⟨[(["src"], .directory), (["src", "B.jsx"], .file "<p className=\"a\">".toUTF8),
    (["src", "B.module.css"], .file ".q \x7b\x7d\n".toUTF8),
    (["src", "B.tsx"], .file "<p className=\"b\">".toUTF8)], []⟩

def sharedPaths : List Path := [⟨"src/B.jsx"⟩, ⟨"src/B.tsx"⟩]

def twoUtilities : UtilityTable :=
  ⟨.ofList [("a", "x: 1;"), ("b", "y: 2;")]⟩

def sharedEngine : Engine :=
  .new ⟨"src"⟩ (.load sharedDisk ⟨"classfold.lock"⟩) twoUtilities.compile
    (.new "twk-" 0 none (.ofSeed 0)) {} (.ofSeed 0) 0

def sharedRules : List String :=
  [RuleBook.formatBlock "twk-a" "a" "x: 1;", RuleBook.formatBlock "twk-b" "b" "y: 2;"]

theorem exists_shared_run :
    ∃ e first second, processAll sharedDisk sharedPaths sharedEngine = .ok e ∧
      e.sharing ⟨"src/B.module.css"⟩ = [first, second] ∧ [first, second].map e.css = sharedRules ∧
      first.path = ⟨"src/B.jsx"⟩ ∧
      existingSheet sharedDisk .companion first.path = .ok (some ".q \x7b\x7d\n") := by
  have hSharing : (processAll sharedDisk sharedPaths sharedEngine).toOption.map (fun e =>
      ((e.sharing ⟨"src/B.module.css"⟩).map PendingFile.path,
        (e.sharing ⟨"src/B.module.css"⟩).map e.css)) = some (sharedPaths, sharedRules) := by
    decide +kernel
  have hSheet : existingSheet sharedDisk .companion ⟨"src/B.jsx"⟩ = .ok (some ".q \x7b\x7d\n") := by
    decide +kernel
  cases hAll : processAll sharedDisk sharedPaths sharedEngine with
  | error error =>
    rw [hAll] at hSharing
    cases hSharing
  | ok e =>
    rw [hAll] at hSharing
    obtain ⟨hPaths, hRules⟩ := Prod.mk.inj (Option.some.inj hSharing)
    obtain ⟨first, rest, hFirst, hPath, hRest⟩ := List.map_eq_cons_iff.mp hPaths
    obtain ⟨second, rfl, _⟩ := List.map_eq_singleton_iff.mp hRest
    rw [hFirst] at hRules
    refine ⟨e, first, second, rfl, hFirst, hRules, hPath, ?_⟩
    rw [hPath]
    exact hSheet

/-- The sheet of two components is not what merging their rules one after the other gives. -/
theorem contentAt?_sharedDisk :
    ∃ e out first second, processAll sharedDisk sharedPaths sharedEngine = .ok e ∧
      sharedEngine.outcome sharedPaths sharedDisk = .ok out ∧
      e.sharing ⟨"src/B.module.css"⟩ = [first, second] ∧
      out.writes.contentAt? ⟨"src/B.module.css"⟩ =
        some (mergeApart (some ".q \x7b\x7d\n") sharedRules) ∧
      out.writes.contentAt? ⟨"src/B.module.css"⟩ ≠
        mergeAll (some ".q \x7b\x7d\n") sharedRules := by
  obtain ⟨e, first, second, hAll, hSharing, hRules, _, hSheet⟩ := exists_shared_run
  obtain ⟨out, hOutcome, hSheets⟩ := contentAt?_eq_mergeAll_iff ⟨"src"⟩
    (.load sharedDisk ⟨"classfold.lock"⟩) twoUtilities.compile "twk-" 0 none (.ofSeed 0) (.ofSeed 0)
    {} 0 hAll
  obtain ⟨existing, hExisting, _, hContent, hSame⟩ := hSheets _ _ _ hSharing
  rw [hSheet] at hExisting
  cases hExisting
  rw [hRules] at hContent hSame
  exact ⟨e, out, first, second, hAll, hOutcome, hSharing, hContent, fun h => nomatch hSame.mp h⟩

/-- It is not so that files which share a sheet are merged into it one after the other. -/
theorem not_forall_contentAt?_eq_mergeAll :
    ¬∀ (d : Disk) (paths : List Path) (scanRoot : Path) (cache : ChangeCache) (compile : Compiler)
      (namePrefix : String) (maxInvocations : Nat) (strategy : Option NamingStrategy)
      (names random : RandomSource) (options : RunOptions) (now : UInt64) (e : Engine)
      (out : RunOutput),
      processAll d paths (new scanRoot cache compile
        (.new namePrefix maxInvocations strategy names) options random now) = .ok e →
      (new scanRoot cache compile (.new namePrefix maxInvocations strategy names) options random
        now).outcome paths d = .ok out →
      ∀ sheet first second rest existing, e.sharing sheet = first :: second :: rest →
        existingSheet d .companion first.path = .ok existing →
        out.writes.contentAt? sheet = mergeAll existing ((first :: second :: rest).map e.css) := by
  intro hEvery
  obtain ⟨e, first, second, hAll, hSharing, _, _, hSheet⟩ := exists_shared_run
  have hNew : Coherent sharedEngine := coherent_new _ _ _ _ _ _ (NameResolver.sound_new _ _ _ _) rfl
  obtain ⟨out, hOutcome, hSheets⟩ := exists_outcome hNew rfl hAll
  obtain ⟨existing, hExisting, hEach, hContent⟩ := hSheets _ _ _ hSharing
  rw [hSheet] at hExisting
  cases hExisting
  have hMerged := hEvery _ _ _ _ _ _ _ _ _ _ _ _ _ _ hAll hOutcome _ _ _ _ _ hSharing hSheet
  have hIsRules : ∀ text ∈ [first, second].map e.css, IsRules text := by
    intro text hText
    obtain ⟨file, hFile, rfl⟩ := List.mem_map.mp hText
    exact (hEach file hFile).2
  rw [hContent] at hMerged
  exact nomatch (mergeApart_eq_iff _ hIsRules).mp hMerged

end Engine

end ClassCollapse
