import ClassCollapse.Proofs.Naming.NameTable
import ClassCollapse.Proofs.Run.Reporting
import ClassCollapse.Proofs.Run.Restyling
import ClassCollapse.Proofs.Style.Blocks

/-!
# Blocks that a sheet repeats

The sheet of a component that shares it with no other file, and that was missing at first, consists
of the blocks that runs have added, one after the other. A run adds its blocks unless all of them
stand in the sheet together. So a block occurs twice in the sheet exactly if some run has added it
although the sheet had it already.
-/

namespace ClassCollapse

open Text Placement

/-! ## Sheets of rules alone -/

/-- Neither the class list nor the declarations of a rule have braces. -/
structure StyleRule.Braceless (rule : StyleRule) : Prop where
  source : ∀ c ∈ rule.source.toList, isBrace c = false
  declarations : ∀ c ∈ (join "\n  " rule.declarations).toList, isBrace c = false

/-- A sheet consists of rules, each on lines of its own. A missing sheet has none. -/
def ConsistsOf (existing : Option String) (rules : List StyleRule) : Prop :=
  existing.getD "" = join "\n" (rules.map StyleRule.text)

theorem isEnded_join_texts {rules : List StyleRule} (hne : rules ≠ []) :
    IsEnded (join "\n" (rules.map StyleRule.text)) :=
  (sheetOf_join hne).isEnded

theorem ConsistsOf.kept_eq {existing : Option String} {rules : List StyleRule}
    (h : ConsistsOf existing rules) : kept existing = join "\n" (rules.map StyleRule.text) := by
  rw [kept, h]
  by_cases hne : rules = []
  · rw [hne]
    decide
  · exact (isEnded_join_texts hne).trimEnd_eq

/-- What a merge makes of a sheet of rules consists of its rules and those that are new. -/
theorem ConsistsOf.mergeSheet {existing : Option String} {rules added : List StyleRule}
    (h : ConsistsOf existing rules) (hne : added ≠ []) :
    ConsistsOf (some (mergeSheet existing (join "\n" (added.map StyleRule.text))))
      (rules ++ newRules existing (join "\n" (added.map StyleRule.text)) added) := by
  have hCss := (isEnded_join_texts hne).ne_empty
  rw [ConsistsOf, Option.getD_some, mergeSheet_eq, newRules, h.kept_eq]
  by_cases hNil : rules = []
  · have hMissing : holds (join "\n" (added.map StyleRule.text)) "" = false := by
      rw [Bool.eq_false_iff, Ne, holds_iff]
      exact fun hInfix => hCss (String.toList_eq_nil_iff.mp (List.infix_nil.mp hInfix))
    have hEmpty : join "\n" (([] : List StyleRule).map StyleRule.text) = "" := rfl
    rw [hNil, hEmpty, if_pos rfl, hMissing, if_neg Bool.false_ne_true, List.nil_append]
  · rw [if_neg (isEnded_join_texts hNil).ne_empty]
    split
    · rw [List.append_nil]
    · rw [List.map_append]
      exact (join_append "\n" (by simpa using hNil) (by simpa using hne)).symm

namespace Engine

open WriteBuffer

/-! ## One run -/

/-- At most one of the waiting files of a run puts rules into a sheet that is the companion of one
file only. -/
theorem Coherent.sharing_eq {e : Engine} (h : Coherent e) {root : Path} {files : List Path}
    (hGathered : Gathered root files e) {p : Path}
    (hAlone : ∀ q ∈ files, forPath? q = some .companion →
      (companionPath q).same (companionPath p) = true → q = p) :
    e.sharing (companionPath p) = [] ∨ ∃ file, e.sharing (companionPath p) = [file] := by
  have hKeys : ((e.sharing (companionPath p)).map PendingFile.key).Nodup :=
    h.pending_nodup.sublist (List.filter_sublist.map _)
  have hSame : ∀ file ∈ e.sharing (companionPath p), file.key = Path.fileKey root p := by
    intro file hFile
    obtain ⟨hPending, hCompanion, _, hSheet⟩ := mem_sharing_iff.mp hFile
    obtain ⟨hPath, hKey, hPlacement⟩ := hGathered.waiting file hPending
    rw [hKey, hAlone file.path hPath (hCompanion ▸ hPlacement) hSheet]
  generalize e.sharing (companionPath p) = sharing at hKeys hSame
  match sharing with
  | [] => exact .inl rfl
  | [file] => exact .inr ⟨file, rfl⟩
  | first :: second :: rest =>
    -- Both are the one file of this sheet, but a file waits only once.
    have hDifferent := (List.nodup_cons.mp hKeys).1
    rw [hSame first (by simp), List.map_cons, hSame second (by simp)] at hDifferent
    exact absurd List.mem_cons_self hDifferent

/-- The only file beside a sheet of rules adds its rules to it. -/
theorem Coherent.consistsOf_sheetAfter {e : Engine} (h : Coherent e) {t : UtilityTable}
    (hCompile : e.compile = t.compile) {sheet : Path}
    (hAlone : e.sharing sheet = [] ∨ ∃ file, e.sharing sheet = [file]) {existing : Option String}
    {rules : List StyleRule} (hBefore : ConsistsOf existing rules) :
    ConsistsOf (e.sheetAfter existing sheet) (rules ++ e.addedRules t existing sheet) := by
  rw [sheetAfter, addedRules]
  rcases hAlone with hNone | ⟨file, hFile⟩
  · rw [if_pos hNone, hNone, List.flatMap_nil, List.append_nil]
    exact hBefore
  · have hSome : e.css file ≠ "" := (mem_sharing_iff.mp (hFile ▸ List.mem_singleton_self file)).2.2.1
    have hCss : e.css file = join "\n" ((e.rules t file.key).map StyleRule.text) :=
      h.fileCss?_eq hCompile file.key
    have hRules : e.rules t file.key ≠ [] := by
      intro hNil
      rw [hCss, hNil] at hSome
      exact hSome rfl
    have hOne : ∀ text, mergeApart existing [text] = mergeSheet existing text := by
      intro text
      simp [mergeApart]
    rw [if_neg (by rw [hFile]; exact List.cons_ne_nil _ _), hFile, List.map_singleton, hOne,
      List.flatMap_singleton, hCss]
    exact hBefore.mergeSheet hRules

/-- What a run makes of a sheet of rules consists of its rules and those of the run. -/
theorem Setup.consistsOf_of_runFiles (s : Setup) {d d' : Disk} (hTree : d.IsTree)
    {root cachePath : Path} {t : UtilityTable} (hTable : s.compile = t.compile) {files : List Path}
    (hFiles : d.discover root s.scan = .ok files) {result : Except RunError RunReport}
    (hRun : (s.engine root cachePath d).runFiles files d = (result, d')) {p : Path} (hp : p ∈ files)
    (hPlacement : forPath? p = some .companion)
    (hAlone : ∀ q ∈ files, forPath? q = some .companion →
      (companionPath q).same (companionPath p) = true → q = p)
    (hApart : d'.locate (companionPath p) ≠ d'.locate cachePath) {rules : List StyleRule}
    (hBefore : ConsistsOf (d.readText (companionPath p)).toOption rules) :
    ConsistsOf (d'.readText (companionPath p)).toOption
      (rules ++ (s.engine root cachePath d).rulesOfRun t files d (companionPath p)) := by
  obtain ⟨hNew, base, hEnded⟩ := s.ended_of_runFiles hTree hFiles hRun
  rw [hEnded.toOption_readText_sheet hNew rfl hp hPlacement hApart, sheetAfterRun, rulesOfRun]
  cases hAll : processAll d files (s.engine root cachePath d) with
  | error error =>
    rw [List.append_nil]
    exact hBefore
  | ok last =>
    have hVisits := visitAll_of_processAll hAll
    have hSettings : SameSettings (s.engine root cachePath d) last :=
      hVisits ▸ sameSettings_visitAll _ _
    have hLast : Coherent last := hVisits ▸ coherent_visitAll hNew _
    have hGathered := Setup.gathered_of_processAll hAll
    dsimp only
    split
    · rw [List.append_nil]
      exact hBefore
    · exact hLast.consistsOf_sheetAfter (hSettings.compile_eq.trans hTable)
        (hLast.sharing_eq hGathered hAlone) hBefore

theorem Coherent.rules_named {e : Engine} (h : Coherent e)
    (hNames : ∀ entry ∈ e.resolver.names, IsNameText entry.2) (t : UtilityTable) (file : String) :
    (∀ rule ∈ e.rules t file, IsNameText rule.name) ∧
      ((e.rules t file).map StyleRule.text).Nodup := by
  have hSpelled : ∀ key rule, e.rule? t key = some rule → IsNameText rule.name :=
    fun key rule => isNameText_of_rule? hNames
  constructor
  · intro rule hMem
    obtain ⟨key, _, hRule⟩ := mem_rules_iff.mp hMem
    exact hSpelled key rule hRule
  · rw [rules, List.map_filterMap]
    refine (nodup_eraseDups _).filterMap ?_
    intro key key' text hText hText'
    obtain ⟨rule, hRule, rfl⟩ := Option.map_eq_some_iff.mp hText
    obtain ⟨rule', hRule', hSame⟩ := Option.map_eq_some_iff.mp hText'
    -- Blocks with one text have one name, which has one key.
    have hName : rule'.name = rule.name :=
      name_eq_of_formatBlock_eq (hSpelled key' rule' hRule') (hSpelled key rule hRule) hSame
    refine h.follows.sound.nameFor?_injective (nameFor?_of_rule? hRule) ?_
    rw [← hName]
    exact nameFor?_of_rule? hRule'

theorem Setup.isNameText_processAll {s : Setup} {config : ProjectConfig}
    (hValid : config.validate = .ok ()) (hPrefix : s.namePrefix = config.naming.namePrefix)
    {root cachePath : Path} {files : List Path} {d : Disk} {last : Engine}
    (hAll : processAll d files (s.engine root cachePath d) = .ok last) :
    ∀ entry ∈ last.resolver.names, IsNameText entry.2 := by
  have hNew : (s.engine root cachePath d).resolver.TabledWith s.namePrefix :=
    NameResolver.tabledWith_new s.namePrefix s.maxInvocations s.strategy s.names
  rw [hPrefix] at hNew
  have hLast := isNameText_visitAll hValid (files.map fun path => (d, path)) hNew
  rwa [visitAll_of_processAll hAll] at hLast

/-- The rules that a run with a valid prefix adds have names that are spelled like names, and no two
of them have the same text. -/
theorem Setup.rulesOfRun_named (s : Setup) {config : ProjectConfig}
    (hValid : config.validate = .ok ()) (hPrefix : s.namePrefix = config.naming.namePrefix)
    (root cachePath : Path) (t : UtilityTable) (files : List Path) (d : Disk) {p : Path}
    (hAlone : ∀ q ∈ files, forPath? q = some .companion →
      (companionPath q).same (companionPath p) = true → q = p) :
    let added := (s.engine root cachePath d).rulesOfRun t files d (companionPath p)
    (∀ rule ∈ added, IsNameText rule.name) ∧ (added.map StyleRule.text).Nodup := by
  have hNone : (∀ rule ∈ ([] : List StyleRule), IsNameText rule.name) ∧
      (([] : List StyleRule).map StyleRule.text).Nodup :=
    ⟨fun _ hRule => absurd hRule List.not_mem_nil, List.nodup_nil⟩
  dsimp only
  rw [rulesOfRun]
  cases hAll : processAll d files (s.engine root cachePath d) with
  | error error => exact hNone
  | ok last =>
    have hLast : Coherent last :=
      visitAll_of_processAll hAll ▸ coherent_visitAll (s.coherent_engine root cachePath d) _
    have hGathered := Setup.gathered_of_processAll hAll
    have hNamed := hLast.rules_named (s.isNameText_processAll hValid hPrefix hAll) t
    dsimp only
    split
    · exact hNone
    · rw [addedRules]
      rcases hLast.sharing_eq hGathered hAlone with hNil | ⟨file, hFile⟩
      · rw [hNil]
        exact hNone
      · rw [hFile, List.flatMap_singleton, newRules]
        split
        · exact hNone
        · exact hNamed file.key

/-! ## Histories of a sheet -/

/-- The sheet that a run found and the rules that it added. -/
structure SheetRun where
  found : Option String
  added : List StyleRule

/-- The runs over a component, the last one first, that have succeeded with one table on a tree where
the sheet of the component was missing at first. Between the runs anything may be edited but the
sheet. No other file of a run has the sheet as its companion, and the sheet is not the cache. -/
inductive SheetHistory (root cachePath : Path) (t : UtilityTable) (p : Path) :
    List SheetRun → Disk → Prop
  | start {d : Disk} (hTree : d.IsTree)
    (hNone : (d.readText (companionPath p)).toOption = none) :
    SheetHistory root cachePath t p [] d
  | edit {runs : List SheetRun} {d d' : Disk} (h : SheetHistory root cachePath t p runs d)
    (hTree : d'.IsTree) (hKept : (d'.readText (companionPath p)).toOption =
      (d.readText (companionPath p)).toOption) :
    SheetHistory root cachePath t p runs d'
  | run {runs : List SheetRun} {d d' : Disk} {files : List Path} {report : RunReport}
    (h : SheetHistory root cachePath t p runs d) (s : Setup) (config : ProjectConfig)
    (hValid : config.validate = .ok ()) (hPrefix : s.namePrefix = config.naming.namePrefix)
    (hTable : s.compile = t.compile) (hFiles : d.discover root s.scan = .ok files)
    (hp : p ∈ files) (hAlone : ∀ q ∈ files, forPath? q = some .companion →
      (companionPath q).same (companionPath p) = true → q = p)
    (hRun : (s.engine root cachePath d).runFiles files d = (.ok report, d'))
    (hApart : d'.locate (companionPath p) ≠ d'.locate cachePath) :
    SheetHistory root cachePath t p
      (⟨(d.readText (companionPath p)).toOption,
        (s.engine root cachePath d).rulesOfRun t files d (companionPath p)⟩ :: runs) d'

/-- The rules that runs have added, in their order. -/
def rulesOf (runs : List SheetRun) : List StyleRule :=
  runs.reverse.flatMap SheetRun.added

theorem rulesOf_cons (r : SheetRun) (runs : List SheetRun) :
    rulesOf (r :: runs) = rulesOf runs ++ r.added := by
  rw [rulesOf, List.reverse_cons, List.flatMap_append, List.flatMap_singleton, rulesOf]

namespace SheetHistory

variable {root cachePath : Path} {t : UtilityTable} {p : Path} {runs : List SheetRun} {d : Disk}
  (h : SheetHistory root cachePath t p runs d)
include h

/-- The sheet consists of the rules that the runs have added. -/
theorem consistsOf (hPlacement : forPath? p = some .companion) :
    d.IsTree ∧ ConsistsOf (d.readText (companionPath p)).toOption (rulesOf runs) := by
  induction h with
  | start hTree hNone =>
    rw [hNone]
    exact ⟨hTree, rfl⟩
  | edit h hTree hKept ih =>
    rw [hKept]
    exact ⟨hTree, ih.2⟩
  | run h s config hValid hPrefix hTable hFiles hp hAlone hRun hApart ih =>
    obtain ⟨_, base, hEnded⟩ := s.ended_of_runFiles ih.1 hFiles hRun
    rw [rulesOf_cons]
    exact ⟨(hEnded.keeps ih.1).1,
      s.consistsOf_of_runFiles ih.1 hTable hFiles hRun hp hPlacement hAlone hApart ih.2⟩

theorem isNameText : ∀ rule ∈ rulesOf runs, IsNameText rule.name := by
  induction h with
  | start hTree hNone => intro rule hRule; cases hRule
  | edit h hTree hKept ih => exact ih
  | run h s config hValid hPrefix hTable hFiles hp hAlone hRun hApart ih =>
    intro rule hRule
    rw [rulesOf_cons] at hRule
    rcases List.mem_append.mp hRule with hOld | hNew
    · exact ih rule hOld
    · exact (s.rulesOfRun_named hValid hPrefix root cachePath t _ _ hAlone).1 rule hNew

end SheetHistory

/-- A text of a list with new texts, each of them once, is twice in the whole list if it was before
or is new and was there. -/
theorem duplicate_append_iff {old new : List String} (hNew : new.Nodup) (text : String) :
    (old ++ new).Duplicate text ↔ old.Duplicate text ∨ (text ∈ new ∧ text ∈ old) := by
  have hOnce := List.nodup_iff_count_le_one.mp hNew text
  rw [List.duplicate_iff_two_le_count, List.duplicate_iff_two_le_count, List.count_append,
    ← List.count_pos_iff, ← List.count_pos_iff]
  omega

theorem isBlockText_texts {rules : List StyleRule} (hNames : ∀ rule ∈ rules, IsNameText rule.name)
    (hBraces : ∀ rule ∈ rules, rule.Braceless) :
    ∀ block ∈ (rules.map StyleRule.text).map String.toList, IsBlockText block := by
  intro block hBlock
  obtain ⟨text, hText, rfl⟩ := List.mem_map.mp hBlock
  obtain ⟨rule, hRule, rfl⟩ := List.mem_map.mp hText
  exact ⟨_, _, isBlock_formatBlock (hNames rule hRule) (hBraces rule hRule).source
    (hBraces rule hRule).declarations⟩

theorem toList_getD_of_consistsOf {existing : Option String} {rules : List StyleRule}
    (h : ConsistsOf existing rules) :
    (existing.getD "").toList = onLines ((rules.map StyleRule.text).map String.toList) := by
  rw [h, toList_join]
  rfl

theorem toList_injective : Function.Injective String.toList :=
  fun _ _ h => String.toList_inj.mp h

theorem duplicate_map_toList_iff {text : String} {texts : List String} :
    (texts.map String.toList).Duplicate text.toList ↔ texts.Duplicate text := by
  induction texts with
  | nil => exact ⟨fun h => (nomatch h), fun h => (nomatch h)⟩
  | cons first texts ih =>
    rw [List.map_cons, List.duplicate_cons_iff, List.duplicate_cons_iff, ih, String.toList_inj,
      List.mem_map_of_injective toList_injective]

namespace SheetHistory

variable {root cachePath : Path} {t : UtilityTable} {p : Path} {runs : List SheetRun} {d : Disk}

/-- A text is twice among the blocks that runs have added exactly if one of them has added it to a
sheet that had it. -/
theorem duplicate_iff (h : SheetHistory root cachePath t p runs d)
    (hPlacement : forPath? p = some .companion)
    (hBraces : ∀ rule ∈ rulesOf runs, rule.Braceless) {block : String}
    (hBlock : IsBlockText block.toList) :
    ((rulesOf runs).map StyleRule.text).Duplicate block ↔
      ∃ r ∈ runs, block ∈ r.added.map StyleRule.text ∧ holds block (r.found.getD "") = true := by
  induction h with
  | start hTree hNone =>
    constructor
    · intro hTwice
      cases hTwice
    · rintro ⟨r, hr, _⟩
      cases hr
  | edit h hTree hKept ih => exact ih hBraces
  | @run runs d d' files report h s config hValid hPrefix hTable hFiles hp hAlone hRun hApart ih =>
    rw [rulesOf_cons] at hBraces ⊢
    have hBefore : ∀ rule ∈ rulesOf runs, rule.Braceless :=
      fun rule hRule => hBraces rule (List.mem_append_left _ hRule)
    have hNew := (s.rulesOfRun_named hValid hPrefix root cachePath t files d hAlone).2
    have hFound := toList_getD_of_consistsOf (h.consistsOf hPlacement).2
    have hHeld := infix_onLines_iff hBlock (isBlockText_texts h.isNameText hBefore)
    -- The sheet that the run found holds a block exactly if an earlier run has added it.
    rw [← hFound, List.mem_map_of_injective toList_injective, ← holds_iff] at hHeld
    rw [List.map_append, duplicate_append_iff hNew, ih hBefore, ← hHeld]
    simp only [List.mem_cons, exists_eq_or_imp]
    exact or_comm

end SheetHistory

theorem braceless_rulesOf {runs : List SheetRun}
    (hBraces : ∀ r ∈ runs, ∀ rule ∈ r.added, rule.Braceless) :
    ∀ rule ∈ rulesOf runs, rule.Braceless := by
  intro rule hRule
  obtain ⟨r, hr, hAdded⟩ := List.mem_flatMap.mp hRule
  exact hBraces r (List.mem_reverse.mp hr) rule hAdded

theorem SheetHistory.occursTwice_iff {root cachePath : Path} {t : UtilityTable} {p : Path}
    {runs : List SheetRun} {d : Disk} (h : SheetHistory root cachePath t p runs d)
    (hPlacement : forPath? p = some .companion)
    (hBraces : ∀ r ∈ runs, ∀ rule ∈ r.added, rule.Braceless) {block : String}
    (hBlock : IsBlockText block.toList) :
    OccursTwice block.toList ((d.readText (companionPath p)).toOption.getD "").toList ↔
      ((rulesOf runs).map StyleRule.text).Duplicate block := by
  rw [toList_getD_of_consistsOf (h.consistsOf hPlacement).2,
    occursTwice_onLines_iff hBlock (isBlockText_texts h.isNameText (braceless_rulesOf hBraces)),
    duplicate_map_toList_iff]

/-- Where class lists and declarations have no braces, a block occurs twice in the sheet of a
component after any edits and runs exactly if one of the runs has added it although it stood in the
sheet that the run found. A run adds all its blocks unless they stand in the sheet together. -/
theorem occursTwice_iff_added_again {root cachePath : Path} {t : UtilityTable} {p : Path}
    (hPlacement : forPath? p = some .companion) {runs : List SheetRun} {d : Disk}
    (h : SheetHistory root cachePath t p runs d)
    (hBraces : ∀ r ∈ runs, ∀ rule ∈ r.added, rule.Braceless) {rule : StyleRule}
    (hName : IsNameText rule.name) (hRule : rule.Braceless) :
    OccursTwice rule.text.toList ((d.readText (companionPath p)).toOption.getD "").toList ↔
      ∃ r ∈ runs, rule.text ∈ r.added.map StyleRule.text ∧
        holds rule.text (r.found.getD "") = true := by
  have hBlock : IsBlockText rule.text.toList :=
    ⟨_, _, isBlock_formatBlock hName hRule.source hRule.declarations⟩
  rw [h.occursTwice_iff hPlacement hBraces hBlock,
    h.duplicate_iff hPlacement (braceless_rulesOf hBraces) hBlock]

/-! A component with one class gets two more elements, one of them with this class again. Its second
run has two blocks, which do not stand in the sheet together, and adds both. -/

def singleDisk : Disk :=
  ⟨[(["src"], .directory), (["src", "B.tsx"], .file "<p className=\"a\">".toUTF8)], []⟩

def singlePath : Path := ⟨"src/B.tsx"⟩

def singleSheet : Path := ⟨"src/B.module.css"⟩

def singleRun (d : Disk) : Except RunError RunReport × Disk :=
  (sharedSetup.engine ⟨"src"⟩ ⟨"classfold.lock"⟩ d).runFiles [singlePath] d

def ruleOfA : StyleRule := ⟨"twk-a", "a", ["x: 1;"]⟩

def ruleOfB : StyleRule := ⟨"twk-b", "b", ["y: 2;"]⟩

def widenedDisk : Disk :=
  ⟨[(["src"], .directory), (["classfold.lock"], .file "\x7b\x7d".toUTF8),
    (["src", "B.module.css"], .file ruleOfA.text.toUTF8),
    (["src", "B.tsx"], .file ("import styles_generated_80 from \"./B.module.css\";\n" ++
      "<p className=\"twk-a\"><b className=\"a\"><i className=\"b\">").toUTF8)], []⟩

theorem isTree_singleDisk : singleDisk.IsTree := by
  decide

theorem isTree_widenedDisk : widenedDisk.IsTree := by
  decide

theorem evaluated_singleRun :
    (singleDisk.discover ⟨"src"⟩ {} = .ok [singlePath] ∧ forPath? singlePath = some .companion ∧
      companionPath singlePath = singleSheet ∧ (singleDisk.readText singleSheet).toOption = none ∧
      (sharedSetup.engine ⟨"src"⟩ ⟨"classfold.lock"⟩ singleDisk).rulesOfRun twoUtilities [singlePath]
        singleDisk singleSheet = [ruleOfA]) ∧
    ((singleRun singleDisk).1.toBool = true ∧
      ((singleRun singleDisk).2.readText singleSheet).toOption = some ruleOfA.text ∧
      (singleRun singleDisk).2.locate singleSheet ≠
        (singleRun singleDisk).2.locate ⟨"classfold.lock"⟩) ∧
    widenedDisk.discover ⟨"src"⟩ {} = .ok [singlePath] ∧
      (widenedDisk.readText singleSheet).toOption = some ruleOfA.text ∧
      (widenedDisk.read ⟨"classfold.lock"⟩).toBool = true ∧
      widenedDisk.locate singleSheet ≠ widenedDisk.locate ⟨"classfold.lock"⟩ ∧
      (sharedSetup.engine ⟨"src"⟩ ⟨"classfold.lock"⟩ widenedDisk).rulesOfRun twoUtilities
        [singlePath] widenedDisk singleSheet = [ruleOfA, ruleOfB] := by
  decide +kernel

def singleRuns : List SheetRun :=
  [⟨some ruleOfA.text, [ruleOfA, ruleOfB]⟩, ⟨none, [ruleOfA]⟩]

theorem exists_sheetHistory : ∃ d, SheetHistory ⟨"src"⟩ ⟨"classfold.lock"⟩ twoUtilities singlePath
    singleRuns d := by
  obtain ⟨⟨hFiles, hPlacement, hThere, hNone, hRules⟩, ⟨hSucceeds, hSheet, hApart⟩, hFiles', hSheet',
    hCache, hApart', hRules'⟩ := evaluated_singleRun
  have hAlone : ∀ q ∈ [singlePath], forPath? q = some .companion →
      (companionPath q).same (companionPath singlePath) = true → q = singlePath :=
    fun q hq _ _ => List.mem_singleton.mp hq
  have hValid : ProjectConfig.validate {} = .ok () := rfl
  rw [← hThere] at hNone hRules hSheet hApart hSheet' hApart' hRules'
  have hFirst : SheetHistory ⟨"src"⟩ ⟨"classfold.lock"⟩ twoUtilities singlePath [⟨none, [ruleOfA]⟩]
      (singleRun singleDisk).2 := by
    cases hRun : singleRun singleDisk with
    | mk result d₁ =>
    rw [hRun] at hSucceeds hApart
    cases result with
    | error error => cases hSucceeds
    | ok report =>
      rw [← hNone, ← hRules]
      exact .run (.start isTree_singleDisk hNone) sharedSetup {} hValid rfl rfl hFiles
        (List.mem_singleton_self _) hAlone hRun hApart
  -- Other files may change between the runs, so the second one can start from a given disk.
  have hEdited := hFirst.edit isTree_widenedDisk (hSheet'.trans hSheet.symm)
  cases hRun : singleRun widenedDisk with
  | mk result d₃ =>
  obtain ⟨base, hEnded⟩ :=
    (sharedSetup.ended_of_runFiles isTree_widenedDisk hFiles' hRun).2
  obtain ⟨hTree₃, hKeeps⟩ := hEnded.keeps isTree_widenedDisk
  cases hLock : widenedDisk.read ⟨"classfold.lock"⟩ with
  | error cause =>
    rw [hLock] at hCache
    cases hCache
  | ok known =>
  obtain ⟨report, rfl⟩ := sharedSetup.exists_report isTree_widenedDisk hFiles' hRun
    (hRules' ▸ List.cons_ne_nil _ _) hLock
  cases hText : widenedDisk.readText (companionPath singlePath) with
  | error cause =>
    rw [hText] at hSheet'
    cases hSheet'
  | ok text =>
  refine ⟨d₃, ?_⟩
  rw [singleRuns, ← hSheet', ← hRules']
  exact .run hEdited sharedSetup {} hValid rfl rfl hFiles' (List.mem_singleton_self _) hAlone hRun
    (hKeeps.locate_ne isTree_widenedDisk hTree₃ (Disk.readText_eq_ok_iff.mp hText) hLock hApart')

theorem braceless_singleRuns : ∀ r ∈ singleRuns, ∀ rule ∈ r.added, rule.Braceless := by
  have hBoth : ∀ rule ∈ [ruleOfA, ruleOfB], rule.Braceless := by
    intro rule hRule
    simp only [List.mem_cons, List.not_mem_nil, or_false] at hRule
    rcases hRule with rfl | rfl <;>
      exact ⟨isBrace_eq_false (by decide), isBrace_eq_false (by decide)⟩
  intro r hr rule hRule
  simp only [singleRuns, List.mem_cons, List.not_mem_nil, or_false] at hr
  rcases hr with rfl | rfl
  · exact hBoth rule hRule
  · exact hBoth rule (List.mem_cons.mpr (.inl (List.mem_singleton.mp hRule)))

theorem isNameText_ruleOfA : IsNameText ruleOfA.name :=
  ⟨by decide, List.all_eq_true.mp (by decide)⟩

/-- The block of the first class is in the sheet twice. -/
theorem occursTwice_singleRuns : ∃ d,
    SheetHistory ⟨"src"⟩ ⟨"classfold.lock"⟩ twoUtilities singlePath singleRuns d ∧
      OccursTwice ruleOfA.text.toList
        ((d.readText (companionPath singlePath)).toOption.getD "").toList := by
  obtain ⟨d, h⟩ := exists_sheetHistory
  have hBraces := braceless_singleRuns
  have hHeld : holds ruleOfA.text ((some ruleOfA.text).getD "") = true := by decide +kernel
  exact ⟨d, h, (occursTwice_iff_added_again evaluated_singleRun.1.2.1 h hBraces isNameText_ruleOfA
    (hBraces _ List.mem_cons_self _ List.mem_cons_self)).mpr
      ⟨_, List.mem_cons_self, List.mem_cons_self, hHeld⟩⟩

/-- A sheet can have a block twice that runs have added. -/
theorem not_forall_not_occursTwice : ¬∀ (root cachePath : Path) (t : UtilityTable) (p : Path)
    (runs : List SheetRun) (d : Disk), SheetHistory root cachePath t p runs d →
      forPath? p = some .companion → ∀ r ∈ runs, ∀ rule ∈ r.added,
        ¬OccursTwice rule.text.toList
          ((d.readText (companionPath p)).toOption.getD "").toList := by
  intro hOnce
  obtain ⟨d, h⟩ := exists_sheetHistory
  have hPlacement := evaluated_singleRun.1.2.1
  have hBraces := braceless_singleRuns
  have hRule := hBraces _ List.mem_cons_self _ List.mem_cons_self
  refine hOnce _ _ _ _ _ d h hPlacement _ List.mem_cons_self _ List.mem_cons_self
    ((h.occursTwice_iff hPlacement hBraces ⟨_, _, isBlock_formatBlock isNameText_ruleOfA
      hRule.source hRule.declarations⟩).mpr ?_)
  exact .cons_mem List.mem_cons_self

end Engine

end ClassCollapse
