import ClassCollapse.Proofs.Naming.NameTable
import ClassCollapse.Proofs.Rewrite.Rescanned
import ClassCollapse.Proofs.Run.History
import ClassCollapse.Proofs.Run.Styling

/-!
# Rewriting what was rewritten

A pass collects the class lists of one content and rewrites them. What it writes in their places has
single spaces between its words, and no word that the table recognizes unless the table recognizes a
name that was given. Such lists have no rules, so another pass, whatever it starts with, gives no name
and returns the text as it is.
-/

namespace ClassCollapse

open Text

/-- A class list that a pass leaves as it is: single spaces and no recognized words. -/
structure IsPlain (t : UtilityTable) (s : String) : Prop where
  spaced : join " " (words s) = s
  unrecognized : t.recognized s = []

theorem isPlain_join {t : UtilityTable} {parts : List String}
    (hWords : ∀ part ∈ parts, IsWord part.toList)
    (hUnknown : ∀ part ∈ parts, t.recognizes part = false) : IsPlain t (join " " parts) where
  spaced := by rw [words_join hWords]
  unrecognized := by
    rw [UtilityTable.recognized, words_join hWords, List.filter_eq_nil_iff]
    intro part hPart
    simp [hUnknown part hPart]

theorem IsPlain.compile_isEmpty {t : UtilityTable} {s : String} (h : IsPlain t s) :
    (trim (t.compile s)).isEmpty = true := by
  rw [UtilityTable.trim_compile, UtilityTable.compile_isEmpty_iff,
    UtilityTable.declared_eq_nil_iff_recognized]
  exact h.unrecognized

namespace Engine

/-- The rewritten content of a file, and the engine that has collected its class lists. -/
def pass (e : Engine) (file content : String) : Except InternalError String × Engine :=
  let collected := (e.see file).collectAll file (e.scan content)
  ((collected.rewriter.replace content file).1, collected)

/-! ## What a pass collects -/

/-- Class lists that compile to nothing get no rules and no names. -/
theorem collectAll_plain {e : Engine} {file : String} {found : List ScannedClass}
    (hPlain : ∀ f ∈ found, (trim (e.compile f.classList)).isEmpty = true)
    (hBook : ∀ key css, e.book.rules.lookup key = some css → css = .noCss) :
    (e.collectAll file found).resolver = e.resolver ∧
      ∀ key css, (e.collectAll file found).book.rules.lookup key = some css → css = .noCss := by
  induction found generalizing e with
  | nil => exact ⟨rfl, hBook⟩
  | cons first found ih =>
    have hNew := RuleBook.generateNew_noCss (o := e.occurrence file first)
      (hPlain first List.mem_cons_self) e.resolver
    have hRest := fun f hf => hPlain f (List.mem_cons_of_mem first hf)
    cases hKnown : e.book.rules.lookup (e.occurrence file first).key with
    | some css =>
      have hCollect : collect file e first =
          { e with index := e.index.accumulate (e.occurrence file first) } := by
        rw [collect, RuleBook.generate_known hKnown]
      rw [collectAll, List.foldl_cons, hCollect]
      exact ih hRest hBook
    | none =>
      have hCollect : collect file e first =
          { e with
            book := ⟨e.book.rules ++ [((e.occurrence file first).key, .noCss)]⟩
            index := e.index.accumulate (e.occurrence file first) } := by
        rw [collect, RuleBook.generate_new hKnown hNew]
      rw [collectAll, List.foldl_cons, hCollect]
      refine ih hRest ?_
      intro key css hLookup
      dsimp only at hLookup
      rw [lookup_append_singleton, Option.or_eq_some_iff] at hLookup
      rcases hLookup with hOld | ⟨-, hSame⟩
      · exact hBook key css hOld
      · split at hSame
        · cases hSame
          rfl
        · cases hSame

/-- What a pass of a new engine leaves: all that it knows is what stands in the content. -/
structure Passed (e : Engine) (file content : String) : Prop where
  coherent : Coherent e
  inFile_eq : e.index.inFile file = (Markup.scan content).map (e.occurrence file)

theorem passed_pass (s : Setup) (root cachePath : Path) (d : Disk) (file content : String) :
    Passed ((s.engine root cachePath d).pass file content).2 file content := by
  constructor
  · exact ((s.coherent_engine root cachePath d).see file).collectAll List.mem_cons_self
      List.not_mem_nil _
  · refine (inFile_collectAll ((s.engine root cachePath d).see file) file _ rfl file).trans ?_
    rw [if_pos rfl, pass, collectAll_eq]
    rfl

theorem Passed.mem_occurrences {e : Engine} {file content : String} (h : Passed e file content)
    {found : ScannedClass} (hFound : found ∈ Markup.scan content) :
    e.occurrence file found ∈ e.index.occurrences := by
  have hMem : e.occurrence file found ∈ e.index.inFile file := by
    rw [h.inFile_eq]
    exact List.mem_map_of_mem hFound
  rw [h.coherent.index_eq, OccurrenceIndex.inFile_ofList] at hMem
  exact (List.mem_filter.mp hMem).1

theorem Passed.replace_eq {e : Engine} {file content out : String} (h : Passed e file content)
    (hOut : Spliced 0 content.toList ((Markup.scan content).map fun f =>
      ⟨f.offset, f.length, e.rewriter.render (e.occurrence file f)⟩) out.toList) :
    (e.rewriter.replace content file).1 = .ok out := by
  have hInFile := h.inFile_eq
  rw [occurrence_eq] at hInFile
  exact congrArg Prod.fst (Rewriter.replace_of_spliced (w := e.rewriter) List.not_mem_nil
    (OccurrenceIndex.forFile_of_inFile hInFile) hOut)

/-! ## What a pass writes -/

theorem isNameText_pass {config : ProjectConfig} (hValid : config.validate = .ok ()) {s : Setup}
    (hPrefix : s.namePrefix = config.naming.namePrefix) (root cachePath : Path) (d : Disk)
    (file content : String) :
    ∀ entry ∈ ((s.engine root cachePath d).pass file content).2.resolver.names,
      IsNameText entry.2 := by
  have hDone : ((s.engine root cachePath d).pass file content).2.resolver.TabledWith s.namePrefix :=
    resolver_collectAll_induction (fun _ key tag classList h => h.assign key tag classList)
      ((s.engine root cachePath d).see file) file _
      (NameResolver.tabledWith_new s.namePrefix s.maxInvocations s.strategy s.names)
  rw [hPrefix] at hDone
  exact hDone.isNameText hValid

/-- What is rendered is plain where no name is recognized. -/
theorem Coherent.isPlain_render {e : Engine} (h : Coherent e) {t : UtilityTable}
    (hCompile : e.compile = t.compile) (hNames : ∀ entry ∈ e.resolver.names, IsNameText entry.2)
    (hUnknown : ∀ key name, e.resolver.nameFor? key = some name → t.recognizes name = false)
    {o : Occurrence} (ho : o ∈ e.index.occurrences) : IsPlain t (e.rewriter.render o) := by
  by_cases hNone : t.recognized o.classList = []
  · rw [h.render_plain hCompile ho hNone]
    refine isPlain_join (fun word hWord => isWord_of_mem_words hWord) ?_
    intro word hWord
    rw [UtilityTable.recognized, List.filter_eq_nil_iff] at hNone
    exact Bool.eq_false_iff.mpr (hNone word hWord)
  · obtain ⟨name, hName⟩ := Option.isSome_iff_exists.mp ((h.isSome_nameFor? hCompile ho).mpr hNone)
    rw [Rewriter.render_named (w := e.rewriter) hCompile hName hNone]
    have hKept : ∀ word ∈ t.kept o.classList, word ∈ words o.classList ∧
        t.recognizes word = false := by
      intro word hWord
      simpa [UtilityTable.kept] using hWord
    refine isPlain_join ?_ ?_
    · intro part hPart
      rcases List.mem_append.mp hPart with hOld | hLast
      · exact isWord_of_mem_words (hKept part hOld).1
      · rw [List.mem_singleton.mp hLast]
        exact (hNames _ (mem_of_lookup_eq_some hName)).isWord
    · intro part hPart
      rcases List.mem_append.mp hPart with hOld | hLast
      · exact (hKept part hOld).2
      · rw [List.mem_singleton.mp hLast]
        exact hUnknown _ _ hName

/-- A pass over a content whose class lists are all plain. -/
theorem pass_plain {t : UtilityTable} {s : Setup} (hCompile : s.compile = t.compile)
    (root cachePath : Path) (d : Disk) (file : String) {content : String}
    (hPlain : ∀ f ∈ Markup.scan content, IsPlain t f.classList) :
    let start := s.engine root cachePath d
    let done := start.pass file content
    done.1 = .ok content ∧ done.2.resolver = start.resolver ∧
      (∀ f ∈ Markup.scan content,
        done.2.book.rules.lookup (done.2.occurrence file f).key = some .noCss) ∧
      ∀ key css, done.2.book.rules.lookup key = some css → css = .noCss := by
  intro start done
  have hPassed : Passed done.2 file content := passed_pass s root cachePath d file content
  obtain ⟨hResolver, hBook⟩ : done.2.resolver = start.resolver ∧
      ∀ key css, done.2.book.rules.lookup key = some css → css = .noCss := by
    have hEmpty : ∀ f ∈ Markup.scan content,
        (trim ((start.see file).compile f.classList)).isEmpty = true := by
      intro f hf
      have hEmpty := (hPlain f hf).compile_isEmpty
      rw [← hCompile] at hEmpty
      exact hEmpty
    exact collectAll_plain hEmpty fun key css hLookup => (nomatch hLookup)
  refine ⟨hPassed.replace_eq ?_, hResolver, ?_, hBook⟩
  · have hSplices : ((Markup.scan content).map fun f =>
          (⟨f.offset, f.length, done.2.rewriter.render (done.2.occurrence file f)⟩ : Splice)) =
        (Markup.scan content).map fun f => ⟨f.offset, f.length, f.classList⟩ := by
      refine List.map_congr_left fun f hf => ?_
      have hName : done.2.rewriter.names.lookup (done.2.occurrence file f).key = none := by
        rw [rewriter, Rewriter.new, hResolver]
        rfl
      rw [Rewriter.render_unnamed hName]
      exact congrArg _ (hPlain f hf).spaced
    rw [hSplices]
    exact (Markup.located_scan content).spliced_self
  · intro f hf
    have hMem := hPassed.mem_occurrences hf
    have hSeen : (done.2.firstOccurrence? (done.2.occurrence file f).key).isSome = true :=
      List.find?_isSome.mpr ⟨_, hMem, decide_eq_true rfl⟩
    rw [firstOccurrence?, (hPassed.coherent.follows.held _).isSome_eq] at hSeen
    obtain ⟨css, hCss⟩ := Option.isSome_iff_exists.mp hSeen
    rw [hCss, hBook _ css hCss]

/-- A pass has a result. If the table recognizes none of the names that it gave, another pass over
the result, with settings of its own but the same table, returns it unchanged, has no rule for any
key, gives no name and asks for none. -/
theorem pass_pass {config : ProjectConfig} (hValid : config.validate = .ok ()) {t : UtilityTable}
    {s : Setup} (hPrefix : s.namePrefix = config.naming.namePrefix) (hCompile : s.compile = t.compile)
    (root cachePath : Path) (d : Disk) (file content : String)
    (hUnknown : ∀ key name,
      ((s.engine root cachePath d).pass file content).2.resolver.nameFor? key = some name →
        t.recognizes name = false) :
    ∃ out, ((s.engine root cachePath d).pass file content).1 = .ok out ∧
      ∀ (s' : Setup) (root' cachePath' : Path) (d' : Disk) (file' : String),
        s'.compile = t.compile →
        let start := s'.engine root' cachePath' d'
        let again := start.pass file' out
        again.1 = .ok out ∧ again.2.resolver = start.resolver ∧
          (∀ found ∈ Markup.scan out,
            again.2.book.rules.lookup (again.2.occurrence file' found).key = some .noCss) ∧
          ∀ key css, again.2.book.rules.lookup key = some css → css = .noCss := by
  have hPassed := passed_pass s root cachePath d file content
  have hNames := isNameText_pass hValid hPrefix root cachePath d file content
  generalize hPass : (s.engine root cachePath d).pass file content = done at hPassed hNames hUnknown
  have hSame : done.2.compile = t.compile := by
    rw [← hPass, ← hCompile]
    exact compile_collectAll ((s.engine root cachePath d).see file) file _
  obtain ⟨out, hSpliced, hRescanned⟩ := Markup.exists_rescanned
    (r := fun f => done.2.rewriter.render (done.2.occurrence file f)) fun f hf =>
      done.2.rewriter.replaces_render hNames (o := done.2.occurrence file f)
        (Markup.words_ne_nil_of_mem_foundIn f hf)
  refine ⟨out, ?_, ?_⟩
  · rw [← hPassed.replace_eq hSpliced, ← hPass]
    rfl
  · intro s' root' cachePath' d' file' hCompile'
    refine pass_plain hCompile' root' cachePath' d' file' ?_
    intro f' hf'
    obtain ⟨f, hf, hList⟩ := hRescanned.exists_replacement f' hf'
    rw [hList]
    exact hPassed.coherent.isPlain_render hSame hNames hUnknown (hPassed.mem_occurrences hf)

def spacedTable : UtilityTable :=
  ⟨.ofList [("p-4", "padding: 1rem")]⟩

def cardSetup : Setup :=
  ⟨{}, spacedTable.compile, "twk-", 9, some NameResolver.alwaysCard, .ofSeed 0,
    { orderMatters := true }, .ofSeed 0, 0⟩

def spacedPass (content : String) : Except InternalError String × Engine :=
  (cardSetup.engine ⟨"src"⟩ ⟨"classfold.lock"⟩ ⟨[], []⟩).pass "a.html" content

def spacedList : String := "<p class=' x  p-4'>"

/-- The first pass asks for a name, the second pass over its result does not. -/
theorem pass_pass_spacedList :
    let out := "<p class='x twk-card'>"
    (spacedPass spacedList).1 = .ok out ∧ (spacedPass spacedList).2.resolver.invocations = 1 ∧
      (spacedPass out).1 = .ok out ∧ (spacedPass out).2.resolver.invocations = 0 := by
  intro out
  have hValid : ProjectConfig.validate {} = .ok () := rfl
  obtain ⟨hOut, hAsked, hNames⟩ : (spacedPass spacedList).1.toOption = some out ∧
      (spacedPass spacedList).2.resolver.invocations = 1 ∧
      ∀ entry ∈ (spacedPass spacedList).2.resolver.names,
        spacedTable.recognizes entry.2 = false := by decide +kernel
  obtain ⟨written, hWritten, hAgain⟩ := pass_pass hValid (t := spacedTable) (s := cardSetup) rfl rfl
    ⟨"src"⟩ ⟨"classfold.lock"⟩ ⟨[], []⟩ "a.html" spacedList
    fun key name hName => hNames _ (mem_of_lookup_eq_some hName)
  have hFirst : (spacedPass spacedList).1 = .ok written := hWritten
  rw [hFirst] at hOut ⊢
  cases hOut
  obtain ⟨hSame, hResolver, _⟩ := hAgain cardSetup ⟨"src"⟩ ⟨"classfold.lock"⟩ ⟨[], []⟩ "a.html" rfl
  exact ⟨rfl, hAsked, hSame, congrArg NameResolver.invocations hResolver⟩

end Engine

end ClassCollapse
