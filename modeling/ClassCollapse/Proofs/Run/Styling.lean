import ClassCollapse.Proofs.Rewrite.Rendering
import ClassCollapse.Proofs.Run.Rewriting
import ClassCollapse.Proofs.Style.Reading

/-!
# Rewriting preserves styling

The words of a class list that the table recognizes collapse into one name, and the rules of the
file hold exactly one rule of this name, which has the declarations of these words. The name and the
rule come from the first occurrence of the key in the run. It has the same words, so it recognizes
the same ones, in an order of its own unless order matters. The text of the rules reads as these
rules unless the comment of one lets a part of its class list out.
-/

namespace ClassCollapse

open Text

/-- Where a function into rules keeps names apart, a name picks out one of them. -/
theorem filter_name_eq_singleton {keys : List CanonicalKey} (hNodup : keys.Nodup)
    {rule? : CanonicalKey → Option StyleRule} {key : CanonicalKey} {rule : StyleRule}
    (hKey : key ∈ keys) (hRule : rule? key = some rule)
    (hApart : ∀ other r, rule? other = some r → r.name = rule.name → other = key) :
    (keys.filterMap rule?).filter (fun r => r.name = rule.name) = [rule] := by
  induction keys with
  | nil => cases hKey
  | cons first keys ih =>
    obtain ⟨hNotIn, hRest⟩ := List.nodup_cons.mp hNodup
    by_cases hFirst : first = key
    · subst hFirst
      have hNone : (keys.filterMap rule?).filter (fun r => r.name = rule.name) = [] := by
        rw [List.filter_eq_nil_iff]
        intro r hr hName
        obtain ⟨other, hOther, hSome⟩ := List.mem_filterMap.mp hr
        exact hNotIn (hApart other r hSome (of_decide_eq_true hName) ▸ hOther)
      rw [List.filterMap_cons_some hRule, List.filter_cons, hNone, if_pos (decide_eq_true rfl)]
    · have hMem : key ∈ keys := (List.mem_cons.mp hKey).resolve_left (Ne.symm hFirst)
      cases hSome : rule? first with
      | none =>
        rw [List.filterMap_cons_none hSome]
        exact ih hRest hMem
      | some r =>
        have hOther : ¬decide (r.name = rule.name) = true :=
          fun hName => hFirst (hApart first r hSome (of_decide_eq_true hName))
        rw [List.filterMap_cons_some hSome, List.filter_cons, if_neg hOther]
        exact ih hRest hMem

namespace Engine

def firstOccurrence? (e : Engine) (key : CanonicalKey) : Option Occurrence :=
  e.index.occurrences.find? fun o => o.key = key

theorem key_of_firstOccurrence? {e : Engine} {key : CanonicalKey} {first : Occurrence}
    (h : e.firstOccurrence? key = some first) : first.key = key := by
  have hKey := List.find?_some h
  exact of_decide_eq_true hKey

def rule? (e : Engine) (t : UtilityTable) (key : CanonicalKey) : Option StyleRule :=
  match e.firstOccurrence? key, e.resolver.nameFor? key with
  | some first, some name => some ⟨name, first.classList, t.declared first.classList⟩
  | _, _ => none

/-- A rule has the name of its key, and the class list and declarations of its first occurrence. -/
theorem exists_of_rule? {e : Engine} {t : UtilityTable} {key : CanonicalKey} {rule : StyleRule}
    (h : e.rule? t key = some rule) : ∃ first, e.firstOccurrence? key = some first ∧
      e.resolver.nameFor? key = some rule.name ∧ rule.source = first.classList ∧
      rule.declarations = t.declared first.classList := by
  rw [rule?] at h
  split at h
  next first name hFirst hName =>
    cases h
    exact ⟨first, hFirst, hName, rfl, rfl⟩
  next => cases h

theorem nameFor?_of_rule? {e : Engine} {t : UtilityTable} {key : CanonicalKey} {rule : StyleRule}
    (h : e.rule? t key = some rule) : e.resolver.nameFor? key = some rule.name := by
  obtain ⟨_, _, hName, _⟩ := exists_of_rule? h
  exact hName

/-- The rules for a file, in the order of the first occurrences of their keys in it. -/
def rules (e : Engine) (t : UtilityTable) (file : String) : List StyleRule :=
  (e.index.keysInFile file).filterMap (e.rule? t)

theorem Coherent.text_rule? {e : Engine} (h : Coherent e) {t : UtilityTable}
    (hCompile : e.compile = t.compile) (key : CanonicalKey) :
    (e.rule? t key).map StyleRule.text = e.book.block? key := by
  have hHeld := h.follows.held key
  rw [rule?, firstOccurrence?, RuleBook.block?]
  generalize (e.index.occurrences.find? fun o => o.key = key) = first at hHeld
  generalize e.book.rules.lookup key = css at hHeld
  generalize e.resolver.nameFor? key = name at hHeld
  cases hHeld with
  | unseen => rfl
  | plain o hEmpty => rfl
  | styled o hEmpty name =>
    rw [Option.map_some, StyleRule.text, StyleRule.css, ← UtilityTable.compile_eq_join, hCompile,
      UtilityTable.trim_compile]
    rfl

/-- The rules that are put in place for a file. -/
theorem Coherent.fileCss?_eq {e : Engine} (h : Coherent e) {t : UtilityTable}
    (hCompile : e.compile = t.compile) (file : String) :
    (e.book.fileCss? e.index file).getD "" =
      join "\n" ((e.rules t file).map StyleRule.text) := by
  have hBlocks : (e.rules t file).map StyleRule.text =
      (e.index.keysInFile file).filterMap e.book.block? := by
    rw [rules, List.map_filterMap]
    exact List.filterMap_congr fun key _ => h.text_rule? hCompile key
  rw [RuleBook.fileCss?, hBlocks]
  split
  next hNone => rw [hNone]; rfl
  next => rfl

/-- What takes the place of a class list with recognized words: the other words and the name of the
rule of its key, which no other rule of the file has. The rule is made from the first occurrence of
the key. Its declarations are those of the recognized words, each once, in the order in which the
first occurrence has them. -/
structure Collapses (e : Engine) (t : UtilityTable) (file : String) (o : Occurrence)
    (rule : StyleRule) : Prop where
  render_eq : e.rewriter.render o = join " " (t.kept o.classList ++ [rule.name])
  rule?_eq : e.rule? t o.key = some rule
  alone : (e.rules t file).filter (fun r => r.name = rule.name) = [rule]
  declares : (rule.declarations.map some).Perm
    ((t.recognized o.classList).eraseDups.map t.styleOf?)
  of_first : ∃ first, e.firstOccurrence? o.key = some first ∧ rule.source = first.classList ∧
    (words first.classList).Perm (words o.classList) ∧
    rule.declarations.map some = (t.recognized first.classList).eraseDups.map t.styleOf?
  in_order : e.options.orderMatters = true →
    rule.declarations.map some = (t.recognized o.classList).eraseDups.map t.styleOf?

theorem Coherent.mem_inFile {e : Engine} (h : Coherent e) {file : PendingFile}
    (hFile : file ∈ e.pending) {found : ScannedClass} (hFound : found ∈ Markup.scan file.content) :
    e.occurrence file.key found ∈ e.index.inFile file.key := by
  rw [h.inFile_eq file hFile]
  exact List.mem_map_of_mem hFound

/-- The first occurrence of a key has the words of every other, and the list itself where order
matters. -/
theorem Coherent.exists_firstOccurrence {e : Engine} (h : Coherent e) {o : Occurrence}
    (ho : o ∈ e.index.occurrences) :
    ∃ first, e.firstOccurrence? o.key = some first ∧
      (words first.classList).Perm (words o.classList) ∧
      (e.options.orderMatters = true → first.classList = o.classList) := by
  have hSome : (e.firstOccurrence? o.key).isSome = true :=
    List.find?_isSome.mpr ⟨o, ho, decide_eq_true rfl⟩
  obtain ⟨first, hFirst⟩ := Option.isSome_iff_exists.mp hSome
  have hKey := key_of_firstOccurrence? hFirst
  rw [h.key_eq first (List.mem_of_find?_eq_some hFirst), h.key_eq o ho] at hKey
  refine ⟨first, hFirst, CanonicalKey.words_perm_of_same_key hKey, ?_⟩
  intro hOrder
  rw [hOrder] at hKey
  exact CanonicalKey.eq_of_key_eq hKey

/-- A key has a name exactly if its class lists have recognized words. -/
theorem Coherent.isSome_nameFor? {e : Engine} (h : Coherent e) {t : UtilityTable}
    (hCompile : e.compile = t.compile) {o : Occurrence} (ho : o ∈ e.index.occurrences) :
    (e.resolver.nameFor? o.key).isSome = true ↔ t.recognized o.classList ≠ [] := by
  obtain ⟨first, hFirst, hWords, _⟩ := h.exists_firstOccurrence ho
  have hHeld := h.follows.held o.key
  have hEmpty : (trim (e.compile first.classList)).isEmpty = true ↔
      t.recognized o.classList = [] := by
    rw [hCompile, UtilityTable.trim_compile, UtilityTable.compile_isEmpty_iff,
      UtilityTable.declared_eq_nil_iff_recognized]
    exact ⟨fun hNil => ((t.recognized_perm hWords).symm.trans (hNil ▸ .refl _)).eq_nil,
      fun hNil => ((t.recognized_perm hWords).trans (hNil ▸ .refl _)).eq_nil⟩
  rw [show (e.index.occurrences.find? fun o' => o'.key = o.key) = some first from hFirst] at hHeld
  rw [Ne, ← hEmpty]
  generalize e.resolver.nameFor? o.key = name at hHeld
  generalize e.book.rules.lookup o.key = css at hHeld
  cases hHeld with
  | plain o hBare => simp [hBare]
  | styled o hBare name => simp [hBare]

theorem Coherent.render_plain {e : Engine} (h : Coherent e) {t : UtilityTable}
    (hCompile : e.compile = t.compile) {o : Occurrence} (ho : o ∈ e.index.occurrences)
    (hNone : t.recognized o.classList = []) :
    e.rewriter.render o = join " " (words o.classList) := by
  apply Rewriter.render_unnamed
  have hName := h.isSome_nameFor? hCompile ho
  cases hLookup : e.resolver.nameFor? o.key with
  | none => exact hLookup
  | some name =>
    rw [hLookup] at hName
    exact absurd hNone (hName.mp rfl)

theorem Coherent.collapses {e : Engine} (h : Coherent e) {t : UtilityTable}
    (hCompile : e.compile = t.compile) {o : Occurrence} {file : String}
    (ho : o ∈ e.index.inFile file) (hSome : t.recognized o.classList ≠ []) :
    ∃ rule, e.Collapses t file o rule := by
  have hMem : o ∈ e.index.occurrences := by
    rw [h.index_eq, OccurrenceIndex.inFile_ofList] at ho
    exact (List.mem_filter.mp ho).1
  have hInFile : o.key ∈ e.index.keysInFile file := by
    rw [OccurrenceIndex.keysInFile, List.mem_eraseDups]
    exact List.mem_map_of_mem ho
  obtain ⟨first, hFirst, hWords, hOrder⟩ := h.exists_firstOccurrence hMem
  obtain ⟨name, hName⟩ := Option.isSome_iff_exists.mp ((h.isSome_nameFor? hCompile hMem).mpr hSome)
  have hRule : e.rule? t o.key = some ⟨name, first.classList, t.declared first.classList⟩ := by
    rw [rule?, hFirst, hName]
  have hDeclared : (t.declared first.classList).map some =
      (t.recognized first.classList).eraseDups.map t.styleOf? := t.map_some_declared _
  refine ⟨⟨name, first.classList, t.declared first.classList⟩, ?_, hRule, ?_, ?_, ?_, ?_⟩
  · exact Rewriter.render_named hCompile hName hSome
  · refine filter_name_eq_singleton (nodup_eraseDups _) hInFile hRule ?_
    intro other r hOther hSame
    refine h.follows.sound.nameFor?_injective (nameFor?_of_rule? hOther) ?_
    rw [hSame]
    exact hName
  · rw [hDeclared]
    exact (eraseDups_perm (t.recognized_perm hWords)).map t.styleOf?
  · exact ⟨first, hFirst, rfl, hWords, hDeclared⟩
  · intro hOrderMatters
    rw [hDeclared, hOrder hOrderMatters]

/-! ## Rules that are read -/

theorem mem_rules_iff {e : Engine} {t : UtilityTable} {file : String} {rule : StyleRule} :
    rule ∈ e.rules t file ↔ ∃ key ∈ e.index.keysInFile file, e.rule? t key = some rule :=
  List.mem_filterMap

/-- With a valid prefix the names that visits give are spelled like names. -/
theorem isNameText_visitAll {config : ProjectConfig} (hValid : config.validate = .ok ())
    (visits : List (Disk × Path)) {e : Engine}
    (hNew : e.resolver.TabledWith config.naming.namePrefix) :
    ∀ entry ∈ (visitAll visits e).resolver.names, IsNameText entry.2 := by
  have hLast := resolver_visitAll_induction
    (fun _ key tag classList h => h.assign key tag classList) visits hNew
  exact hLast.isNameText hValid

theorem isNameText_of_rule? {e : Engine}
    (hNames : ∀ entry ∈ e.resolver.names, IsNameText entry.2) {t : UtilityTable}
    {key : CanonicalKey} {rule : StyleRule} (h : e.rule? t key = some rule) :
    IsNameText rule.name :=
  hNames _ (mem_of_lookup_eq_some (nameFor?_of_rule? h))

theorem Coherent.isReadable_rules {e : Engine} (h : Coherent e) {t : UtilityTable}
    (hCompile : e.compile = t.compile) (hNames : ∀ entry ∈ e.resolver.names, IsNameText entry.2)
    {file : String} (hPlain : ∀ rule ∈ e.rules t file, IsPlainCss rule.css) :
    ∀ rule ∈ e.rules t file, rule.IsReadable := by
  intro rule hMem
  obtain ⟨key, _, hRule⟩ := mem_rules_iff.mp hMem
  obtain ⟨first, hFirst, hName, _, hDeclared⟩ := exists_of_rule? hRule
  have hCss : rule.css = t.compile first.classList := by
    rw [StyleRule.css, hDeclared, UtilityTable.compile_eq_join]
  have hSome : t.declared first.classList ≠ [] := by
    rw [Ne, UtilityTable.declared_eq_nil_iff_recognized]
    refine (h.isSome_nameFor? hCompile (List.mem_of_find?_eq_some hFirst)).mp ?_
    rw [key_of_firstOccurrence? hFirst, hName]
    rfl
  refine ⟨isNameText_of_rule? hNames hRule, ?_, ?_, hPlain rule hMem⟩
  · rw [hCss, Ne, String.toList_eq_nil_iff, ← String.isEmpty_iff, UtilityTable.compile_isEmpty_iff]
    exact hSome
  · rw [hCss]
    exact t.isTrimmed_compile first.classList

/-- Whatever paths were visited, the second phase puts the rules of each file in place with the
class lists that it rewrites: a list without recognized words is replaced by its words, and every
other list collapses into a rule of the file. Where the declarations have neither braces nor
comments, the text that is put in place reads as these rules, each once and no other, exactly if the
comments of the rules hold their class lists. They do if no list has the mark that ends a comment.
-/
theorem finish_visitAll_styles (scanRoot : Path) (cache : ChangeCache) (t : UtilityTable)
    (config : ProjectConfig) (maxInvocations : Nat) (strategy : Option NamingStrategy)
    (names random : RandomSource) (options : RunOptions) (now : UInt64)
    (visits : List (Disk × Path)) :
    let e := visitAll visits (new scanRoot cache t.compile
      (.new config.naming.namePrefix maxInvocations strategy names) options random now)
    e.options = options ∧
    ∃ done, e.finish = .ok (e.output done) ∧ done.map Prod.fst = e.pending ∧
      ∀ d ∈ done,
        let rules := e.rules t d.1.key
        let css := join "\n" (rules.map StyleRule.text)
        (∃ text suffix, e.Rewrites d.1 text ∧
          d.2 = d.1.placement.inject d.1.path text css d.1.existingSheet suffix) ∧
        (∀ found ∈ Markup.scan d.1.content,
          (t.recognized found.classList = [] →
            e.rendered d.1 found = join " " (words found.classList)) ∧
          (t.recognized found.classList ≠ [] →
            ∃ rule, e.Collapses t d.1.key (e.occurrence d.1.key found) rule ∧
              (readSheet? css = some (rules.map StyleRule.read) → rule.AloneIn css))) ∧
        (config.validate = .ok () → (∀ rule ∈ rules, IsPlainCss rule.css) →
          (readSheet? css = some (rules.map StyleRule.read) ↔
            ∀ rule ∈ rules, IsEnclosed rule.source) ∧
          ((∀ rule ∈ rules, ¬ "*/".toList <:+: rule.source.toList) →
            readSheet? css = some (rules.map StyleRule.read))) := by
  intro e
  have hSettings := sameSettings_visitAll visits (new scanRoot cache t.compile
    (.new config.naming.namePrefix maxInvocations strategy names) options random now)
  have hCompile : e.compile = t.compile := hSettings.compile_eq
  have h : Coherent e := coherent_visitAll (coherent_new scanRoot cache t.compile options random now
    (NameResolver.sound_new config.naming.namePrefix maxInvocations strategy names) rfl) visits
  obtain ⟨done, hFinish, hFiles, hRewritten⟩ := h.finish_eq
  refine ⟨hSettings.options_eq, done, hFinish, hFiles, ?_⟩
  intro d hd rules css
  have hPending : d.1 ∈ e.pending := hFiles ▸ List.mem_map_of_mem hd
  obtain ⟨text, suffix, hText, hInjection⟩ := hRewritten d hd
  refine ⟨⟨text, suffix, hText, ?_⟩, ?_, ?_⟩
  · rw [hInjection, injection, h.fileCss?_eq hCompile]
  · intro found hFound
    have hInFile := h.mem_inFile hPending hFound
    have hMem : e.occurrence d.1.key found ∈ e.index.occurrences := by
      rw [h.index_eq, OccurrenceIndex.inFile_ofList] at hInFile
      exact (List.mem_filter.mp hInFile).1
    refine ⟨h.render_plain hCompile hMem, ?_⟩
    intro hSome
    obtain ⟨rule, hCollapses⟩ := h.collapses hCompile hInFile hSome
    exact ⟨rule, hCollapses, fun hRead => StyleRule.aloneIn_of_readSheet? hRead hCollapses.alone⟩
  · intro hValid hPlain
    have hNames : ∀ entry ∈ e.resolver.names, IsNameText entry.2 :=
      isNameText_visitAll hValid visits (NameResolver.tabledWith_new _ _ _ _)
    have hRead := readSheet?_join_iff (h.isReadable_rules hCompile hNames hPlain)
    exact ⟨hRead, fun hFree =>
      hRead.mpr fun rule hRule => isEnclosed_of_not_infix (hFree rule hRule)⟩

/-! A class list ends its comment and goes on with a rule of its own, whose name another class list
of the page gets. -/

def breakingPage : String :=
  "<p class=\"a */\x7d .twk-b\x7bz: 0\x7d .twk-c\x7b /*\"><i class=\"b\">"

def breakingDisk : Disk :=
  ⟨[(["src"], .directory), (["src", "a.html"], .file breakingPage.toUTF8)], []⟩

def breakingEngine : Engine :=
  visitAll [(breakingDisk, ⟨"src/a.html"⟩)] (new ⟨"src"⟩ (.load breakingDisk ⟨"classfold.lock"⟩)
    RuleBook.letterTable.compile (.new "twk-" 0 none (.ofSeed 0)) ⟨true, false⟩ (.ofSeed 0) 0)

def breakingRule : StyleRule :=
  ⟨"twk-966262fe801", "a */\x7d .twk-b\x7bz: 0\x7d .twk-c\x7b /*", ["x: 1;"]⟩

def brokenClass : ScannedClass := ⟨some "i", "b", 51, 1⟩

def brokenRule : StyleRule := ⟨"twk-b", "b", ["y: 2;"]⟩

theorem evaluated_breakingEngine :
    (breakingEngine.pending.map fun file => (file.key, file.content)) =
        [("a.html", breakingPage)] ∧
      breakingEngine.rules RuleBook.letterTable "a.html" = [breakingRule, brokenRule] ∧
      breakingEngine.rule? RuleBook.letterTable
        (breakingEngine.occurrence "a.html" brokenClass).key = some brokenRule ∧
      brokenClass ∈ Markup.scan breakingPage ∧
      RuleBook.letterTable.recognized brokenClass.classList ≠ [] ∧
      ¬ brokenRule.AloneIn
        ((breakingEngine.book.fileCss? breakingEngine.index "a.html").getD "") := by
  decide +kernel

/-- A rule is not always the only one of its name in the text that is put in place. -/
theorem not_forall_aloneIn : ¬ ∀ (scanRoot : Path) (cache : ChangeCache) (t : UtilityTable)
    (config : ProjectConfig) (maxInvocations : Nat) (strategy : Option NamingStrategy)
    (names random : RandomSource) (options : RunOptions) (now : UInt64)
    (visits : List (Disk × Path)), config.validate = .ok () →
      let e := visitAll visits (new scanRoot cache t.compile
        (.new config.naming.namePrefix maxInvocations strategy names) options random now)
      ∀ file ∈ e.pending, (∀ rule ∈ e.rules t file.key, IsPlainCss rule.css) →
        ∀ found ∈ Markup.scan file.content, t.recognized found.classList ≠ [] →
          ∃ rule, e.Collapses t file.key (e.occurrence file.key found) rule ∧
            rule.AloneIn ((e.book.fileCss? e.index file.key).getD "") := by
  intro h
  obtain ⟨hPending, hRules, hRule, hFound, hSome, hBroken⟩ := evaluated_breakingEngine
  obtain ⟨file, hFile, hSame⟩ := List.map_eq_singleton_iff.mp hPending
  obtain ⟨hKey, hContent⟩ := Prod.mk.inj hSame
  have hPlain : ∀ rule ∈ [breakingRule, brokenRule], IsPlainCss rule.css := by
    rintro rule (_ | ⟨_, _ | ⟨_, ⟨⟩⟩⟩)
    · exact ⟨isBrace_eq_false (by decide), by decide⟩
    · exact ⟨isBrace_eq_false (by decide), by decide⟩
  obtain ⟨rule, hCollapses, hAlone⟩ := h ⟨"src"⟩ (.load breakingDisk ⟨"classfold.lock"⟩)
    RuleBook.letterTable {} 0 none (.ofSeed 0) (.ofSeed 0) ⟨true, false⟩ 0
    [(breakingDisk, ⟨"src/a.html"⟩)] rfl file (hFile ▸ List.mem_singleton_self file)
    (by rw [hKey]; exact hRules ▸ hPlain) _ (hContent ▸ hFound) hSome
  rw [hKey] at hCollapses hAlone
  have hSameRule : rule = brokenRule := Option.some.inj (hCollapses.rule?_eq.symm.trans hRule)
  exact hBroken (hSameRule ▸ hAlone)

end Engine

end ClassCollapse
