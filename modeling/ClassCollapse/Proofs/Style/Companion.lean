import ClassCollapse.Proofs.Naming.Spelling
import ClassCollapse.Proofs.Style.Placement
import ClassCollapse.Proofs.Style.Sheet

/-!
# Components and their sheets

The line that imports a sheet is recognized as one, whatever the name of the sheet, unless the name
has line feeds. So a component that got rules imports its sheet, and getting rules again changes the
component no more. Merging rules into a sheet that they were merged into changes nothing.
-/

namespace ClassCollapse.Placement

open Text

/-! ## The name of a sheet -/

/-- The name by which a component imports its sheet. -/
def sheetName (path : Path) : String :=
  (companionPath path).fileName?.getD ""

theorem newline_notMem_sheetName {path : Path} {name : String} (hName : path.fileName? = some name)
    (hLine : '\n' ∉ name.toList) : '\n' ∉ (sheetName path).toList := by
  obtain ⟨last, hPath, rfl | ⟨hSheet, hLast⟩⟩ := companionPath_of_fileName? hName
  · rw [sheetName, hPath, Path.fileName?_ofParts _ _ (by decide) (by decide)]
    exact List.not_mem_nil
  · rw [sheetName, hPath, Path.fileName?_ofParts _ _ hLast.no_slash hLast.isStep,
      if_neg (by simp [hLast.ne_here, hLast.ne_up]), Option.getD_some, hSheet]
    have hStem : '\n' ∉ (Path.splitExtension name).1.toList :=
      fun hMem => hLine (subset_splitExtension name hMem)
    simp [hStem]

/-! ## The line of an import -/

/-- The line that imports a sheet, without its end. -/
def importText (suffix : Nat) (sheet : String) : String :=
  "import styles_generated_" ++ toString suffix ++ " from \"./" ++ sheet ++ "\";"

theorem importLine_eq (suffix : Nat) (sheet : String) :
    importLine suffix sheet = importText suffix sheet ++ "\n" := by
  have hEnd : "\";\n" = "\";" ++ "\n" := rfl
  unfold importLine importText
  rw [hEnd, ← String.append_assoc]

theorem lineImports_importText (suffix : Nat) (sheet : String) :
    lineImports sheet (importText suffix sheet) = true := by
  have hText : (importText suffix sheet).toList = "import ".toList ++
      (("styles_generated_" ++ toString suffix ++ " from ").toList ++
        ("\"./" ++ sheet ++ "\"").toList ++ ";".toList) := by
    have hImport : "import styles_generated_" = "import " ++ "styles_generated_" := rfl
    have hFrom : " from \"./" = " from " ++ "\"./" := rfl
    have hEnd : "\";" = "\"" ++ ";" := rfl
    unfold importText
    rw [hImport, hFrom, hEnd]
    simp only [String.toList_append, List.append_assoc]
  have hStart : "import ".toList <+: (importText suffix sheet).toList :=
    ⟨_, hText.symm⟩
  have hName : ("\"./" ++ sheet ++ "\"").toList <:+: (importText suffix sheet).toList := by
    rw [hText]
    exact List.infix_append_of_infix_right (List.infix_append _ _ _)
  have hTrimmed : trimStart (importText suffix sheet) = importText suffix sheet := by
    have hFront : (importText suffix sheet).toList.dropWhile isBlank =
        (importText suffix sheet).toList := by
      rw [hText]
      rfl
    rw [trimStart, hFront, String.ofList_toList]
  rw [lineImports, hTrimmed]
  simp only [Bool.and_eq_true, Bool.or_eq_true]
  exact ⟨List.isPrefixOf_iff_prefix.mpr hStart, .inl (holds_iff.mpr hName)⟩

theorem newline_notMem_toString (n : Nat) : '\n' ∉ (toString n).toList := by
  intro hMem
  exact absurd (isSpelled_toString n _ hMem) (by decide)

theorem newline_notMem_importText {sheet : String} (hSheet : '\n' ∉ sheet.toList) (suffix : Nat) :
    '\n' ∉ (importText suffix sheet).toList := by
  have hDigits := newline_notMem_toString suffix
  unfold importText
  generalize toString suffix = digits at hDigits
  simp [hSheet, hDigits]

/-- After a text got an import in front, its lines are the import and the lines that it had. -/
theorem linesOf_importLine {sheet : String} (hSheet : '\n' ∉ sheet.toList) (suffix : Nat)
    (content : String) : linesOf (importLine suffix sheet ++ content).toList =
      (importText suffix sheet).toList :: linesOf content.toList := by
  have hText : (importLine suffix sheet ++ content).toList =
      (importText suffix sheet).toList ++ '\n' :: content.toList := by
    rw [importLine_eq, String.toList_append, String.toList_append, List.append_assoc]
    rfl
  have hReturn : (importText suffix sheet).toList.getLast? ≠ some '\r' := by
    have hEnd : "\";".toList = ['"', ';'] := rfl
    unfold importText
    rw [String.toList_append, hEnd, List.getLast?_append]
    exact fun hSame => absurd (Option.some.inj hSame) (by decide)
  rw [hText]
  exact linesOf_append (newline_notMem_importText hSheet suffix) hReturn

/-! ## Rules for a component -/

theorem isEnded_of_trimEnd {css : String} (hCss : isBlankText css = false)
    (hEnd : trimEnd css = css) : IsEnded css := by
  have hKept : kept (some css) ≠ "" := by
    rw [kept, Option.getD_some, hEnd]
    rintro rfl
    cases hCss
  have hEnded := isEnded_kept hKept
  rwa [kept, Option.getD_some, hEnd] at hEnded

/-- A component with an import of its sheet. -/
def importing (sheet content : String) (suffix : Nat) : String :=
  if importsSheet content sheet then content else importLine suffix sheet ++ content

theorem inject_companion (path : Path) (content : String) {css : String}
    (hCss : isBlankText css = false) (existing : Option String) (suffix : Nat) :
    inject .companion path content css existing suffix =
      ⟨importing (sheetName path) content suffix,
        some (companionPath path, mergeSheet existing css)⟩ := by
  rw [inject, hCss]
  rfl

/-- The lines of a component that import a sheet. -/
def importCount (sheet content : String) : Nat :=
  (linesOf content.toList).countP fun line => lineImports sheet (String.ofList line)

theorem importsSheet_iff {sheet content : String} :
    importsSheet content sheet = true ↔ 0 < importCount sheet content := by
  rw [importsSheet, importCount, List.any_eq_true, List.countP_pos_iff]

theorem importCount_importing {sheet : String} (hSheet : '\n' ∉ sheet.toList) (content : String)
    (suffix : Nat) : importCount sheet (importing sheet content suffix) =
      max 1 (importCount sheet content) := by
  rw [importing]
  by_cases hThere : importsSheet content sheet = true
  · rw [if_pos hThere]
    have hSome := importsSheet_iff.mp hThere
    omega
  · rw [if_neg hThere]
    have hNone := mt importsSheet_iff.mpr hThere
    have hOne : importCount sheet (importLine suffix sheet ++ content) =
        importCount sheet content + 1 := by
      rw [importCount, linesOf_importLine hSheet, List.countP_cons_of_pos]
      · rfl
      · rw [String.ofList_toList]
        exact lineImports_importText suffix sheet
    omega

theorem importing_importing {sheet : String} (hSheet : '\n' ∉ sheet.toList) (content : String)
    (suffix other : Nat) :
    importing sheet (importing sheet content suffix) other = importing sheet content suffix := by
  have hThere : importsSheet (importing sheet content suffix) sheet = true := by
    rw [importsSheet_iff, importCount_importing hSheet]
    omega
  conv_lhs => rw [importing, if_pos hThere]

theorem suffix_importing (sheet content : String) (suffix : Nat) :
    content.toList <:+ (importing sheet content suffix).toList := by
  rw [importing]
  split
  · exact List.suffix_rfl
  · rw [String.toList_append]
    exact List.suffix_append _ _

theorem mergeSheet_mergeSheet {css : String} (h : IsEnded css) (existing : Option String) :
    mergeSheet (some (mergeSheet existing css)) css = mergeSheet existing css := by
  rw [mergeSheet_of_isEnded (h.mergeSheet existing), if_pos (infix_mergeSheet existing css)]

/-- A component that gets rules imports their sheet, on one new line in front if it did not, and
keeps all of its text. Rules that it gets afterwards leave it as it is, whatever they are. Rules
without blanks at their end are in the sheet after they were merged once. -/
theorem importsSheet_inject {path : Path} {name : String} (hName : path.fileName? = some name)
    (hLine : '\n' ∉ name.toList) (content : String) {css : String}
    (hCss : isBlankText css = false) (existing : Option String) (suffix : Nat) :
    let sheet := sheetName path
    let injected := inject .companion path content css existing suffix
    importsSheet injected.content sheet = true ∧
      content.toList <:+ injected.content.toList ∧
      importCount sheet injected.content = max 1 (importCount sheet content) ∧
      (∀ otherCss otherExisting otherSuffix,
        (inject .companion path injected.content otherCss otherExisting otherSuffix).content =
          injected.content) ∧
      injected.companion = some (companionPath path, mergeSheet existing css) ∧
      (trimEnd css = css →
        mergeSheet (some (mergeSheet existing css)) css = mergeSheet existing css) := by
  intro sheet injected
  have hSheet : '\n' ∉ sheet.toList := newline_notMem_sheetName hName hLine
  have hInjected : injected = ⟨importing sheet content suffix,
      some (companionPath path, mergeSheet existing css)⟩ :=
    inject_companion path content hCss existing suffix
  have hCount : importCount sheet injected.content = max 1 (importCount sheet content) := by
    rw [hInjected]
    exact importCount_importing hSheet content suffix
  refine ⟨importsSheet_iff.mpr (by omega), ?_, hCount, ?_, ?_, ?_⟩
  · rw [hInjected]
    exact suffix_importing sheet content suffix
  · intro otherCss otherExisting otherSuffix
    cases hBlank : isBlankText otherCss with
    | true =>
      rw [inject, hBlank]
      rfl
    | false =>
      rw [inject_companion path _ hBlank, hInjected]
      exact importing_importing hSheet content suffix otherSuffix
  · rw [hInjected]
  · exact fun hEnd => mergeSheet_mergeSheet (isEnded_of_trimEnd hCss hEnd) existing

theorem importsSheet_inject_button :
    let path : Path := ⟨"src/Button.tsx"⟩
    let injected := inject .companion path "<p className=\"twk-a\">" ".twk-a { }" none 7
    path.fileName? = some "Button.tsx" ∧ '\n' ∉ "Button.tsx".toList ∧
      isBlankText ".twk-a { }" = false ∧ trimEnd ".twk-a { }" = ".twk-a { }" ∧
      importsSheet injected.content (sheetName path) = true ∧
      mergeSheet (some (mergeSheet none ".twk-a { }")) ".twk-a { }" =
        mergeSheet none ".twk-a { }" := by
  intro path injected
  have hName : path.fileName? = some "Button.tsx" := by decide
  have hEnd : trimEnd ".twk-a { }" = ".twk-a { }" := by decide
  have hAll := importsSheet_inject hName (by decide) "<p className=\"twk-a\">"
    (show isBlankText ".twk-a { }" = false by decide) none 7
  exact ⟨hName, by decide, by decide, hEnd, hAll.1, hAll.2.2.2.2.2 hEnd⟩

end ClassCollapse.Placement
