import ClassCollapse.Disk.Path
import ClassCollapse.Text.Search

/-!
# Where generated rules go

The rules of a markup file go into a style element of the file itself. Those of a component file go
into a companion sheet beside it, which the component imports. Which of the two applies is decided
by the extension.
-/

namespace ClassCollapse

inductive Placement
  | inline
  | companion
deriving DecidableEq

/-- A file with its rules in place, and the sheet to write beside it. -/
structure Injection where
  content : String
  companion : Option (Path × String)
deriving DecidableEq

namespace Placement

def inlineExtensions : List String := ["astro", "html", "htm", "vue", "svelte"]
def companionExtensions : List String := ["tsx", "jsx"]

/-- A text with the capital letters of ASCII replaced by small ones. -/
def lowercase (s : String) : String :=
  String.ofList (s.toList.map Char.toLower)

def forPath? (path : Path) : Option Placement :=
  match path.extension? with
  | none => none
  | some extension =>
    if lowercase extension ∈ inlineExtensions then some .inline
    else if lowercase extension ∈ companionExtensions then some .companion
    else none

def companionPath (path : Path) : Path :=
  path.withExtension "module.css"

/-- Puts rules after the first `<style>`; without one, in a style element before the first
`</head>`; without that either, in a style element on a line of its own at the end. -/
def injectInline (content css : String) : String :=
  match Text.splitFirst? "<style>".toList content.toList with
  | some (before, after) =>
    String.ofList before ++ "<style>" ++ css ++ String.ofList after
  | none =>
    match Text.splitFirst? "</head>".toList content.toList with
    | some (before, after) =>
      String.ofList before ++ "<style>" ++ css ++ "</style></head>" ++ String.ofList after
    | none => content ++ "\n<style>" ++ css ++ "</style>"

/-- Whether a line imports a sheet of the same directory. -/
def lineImports (sheet line : String) : Bool :=
  let line := Text.trimStart line
  Text.startsWith line "import " &&
    (Text.holds ("\"./" ++ sheet ++ "\"") line || Text.holds ("'./" ++ sheet ++ "'") line)

def importsSheet (content sheet : String) : Bool :=
  (Text.linesOf content.toList).any fun line => lineImports sheet (String.ofList line)

def importLine (suffix : Nat) (sheet : String) : String :=
  "import styles_generated_" ++ toString suffix ++ " from \"./" ++ sheet ++ "\";\n"

/-- Adds rules to a sheet that may exist already. Rules that it has are not added again. -/
def mergeSheet (existing : Option String) (css : String) : String :=
  match existing.map Text.trimEnd with
  | none => css
  | some sheet =>
    if sheet.isEmpty then css
    else if Text.holds css sheet then sheet
    else sheet ++ "\n" ++ css

/-- Puts rules where they are loaded with a file. Blank rules change nothing. The existing sheet is
the companion on disk, and the suffix numbers the import of a sheet. -/
def inject (placement : Placement) (path : Path) (content css : String)
    (existing : Option String) (suffix : Nat) : Injection :=
  if Text.isBlankText css then ⟨content, none⟩
  else match placement with
    | .inline => ⟨injectInline content css, none⟩
    | .companion =>
      let sheet := companionPath path
      let name := sheet.fileName?.getD ""
      let content :=
        if importsSheet content name then content else importLine suffix name ++ content
      ⟨content, some (sheet, mergeSheet existing css)⟩

end Placement

end ClassCollapse
