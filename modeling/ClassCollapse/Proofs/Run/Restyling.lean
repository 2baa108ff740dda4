import ClassCollapse.Proofs.Run.History
import ClassCollapse.Proofs.Run.Keeping
import ClassCollapse.Proofs.Run.Pieces

/-!
# Rules of several runs in one sheet

The names that a run has given are unknown to the next run, which adds its rules to the sheet that it
finds. What the names in the sheet mean is kept exactly if none of the added rules has a name of the
sheet with other declarations.
-/

namespace ClassCollapse

open Placement

/-! ## Reading in a tree -/

namespace Disk

variable {d : Disk} {p : Path} {place : Place}

theorem toOption_readText (d : Disk) (p : Path) :
    (d.readText p).toOption = (d.read p).toOption.bind String.fromUTF8? := by
  rw [readText]
  cases d.read p with
  | error cause => rfl
  | ok content =>
    dsimp only [Except.toOption, Option.bind_some]
    cases String.fromUTF8? content <;> rfl

theorem Names.toOption_readText (h : d.Names p place) (hTree : d.IsTree) :
    (d.readText p).toOption = (d.fileAt? place).bind String.fromUTF8? := by
  have hRead : (d.read p).toOption = d.fileAt? place := by
    apply Option.ext
    intro content
    have hOk : (d.read p).toOption = some content ↔ d.read p = .ok content := by
      cases d.read p <;> simp [Except.toOption]
    rw [hOk, read_eq_ok_iff hTree, fileAt?_eq_some_iff]
    constructor
    · rintro ⟨other, hOther, hNode⟩
      rw [h.unique hOther]
      exact hNode
    · intro hNode
      exact ⟨place, h, hNode⟩
  rw [Disk.toOption_readText, hRead]

theorem LeadsTo.toOption_readText (h : d.LeadsTo p place) (hTree : d.IsTree) :
    (d.readText p).toOption = none := by
  rw [Disk.toOption_readText, h.read_eq hTree]
  rfl

theorem Keeps.locate_ne {d' : Disk} (h : d.Keeps d') (hTree : d.IsTree) (hTree' : d'.IsTree)
    {q : Path} {content known : ByteArray} (hp : d.read p = .ok content) (hq : d.read q = .ok known)
    (hApart : d.locate p ≠ d.locate q) : d'.locate p ≠ d'.locate q := by
  have hLocate : ∀ {path content}, d.read path = .ok content →
      ∃ place, d.locate path = .ok place ∧ d'.locate path = .ok place := by
    intro path content hRead
    obtain ⟨place, hNames, hNode⟩ := (read_eq_ok_iff hTree).mp hRead
    have hFile : d'.fileAt? place ≠ none :=
      h.file place (by simp [fileAt?_eq_some_iff.mpr hNode])
    obtain ⟨content', hFile'⟩ := Option.ne_none_iff_exists'.mp hFile
    exact ⟨place, hNames.locate_eq hTree (by simp [hNode]),
      (h.names hNames).locate_eq hTree' (by simp [fileAt?_eq_some_iff.mp hFile'])⟩
  obtain ⟨place, hPlace, hPlace'⟩ := hLocate hp
  obtain ⟨other, hOther, hOther'⟩ := hLocate hq
  rw [hPlace, hOther] at hApart
  rw [hPlace', hOther']
  exact hApart

end Disk

/-! ## A sheet on a disk -/

namespace Engine

open WriteBuffer

theorem toOption_of_existingSheet {d : Disk} {p : Path} {sheet : Option String}
    (h : existingSheet d .companion p = .ok sheet) :
    (d.readText (companionPath p)).toOption = sheet := by
  rcases existingSheet_eq_ok_iff.mp h with ⟨text, hText, rfl⟩ | ⟨hMissing, rfl⟩
  · rw [hText]
    rfl
  · rw [hMissing]
    rfl

/-- What a run makes of a sheet: nothing if no file puts rules into it. -/
def sheetAfter (e : Engine) (existing : Option String) (sheet : Path) : Option String :=
  if e.sharing sheet = [] then existing
  else some (mergeApart existing ((e.sharing sheet).map e.css))

/-- Where a sheet stays as it is flushed, it is what the files beside it make of it. -/
theorem Prepared.toOption_readText_sheet {d d₁ d' : Disk} {root : Path} {scan : ScanConfig}
    {base : Place} {files : List Path} {e : Engine} {done : List (PendingFile × Injection)}
    {out : RunOutput} (h : Prepared d root scan base files e done out)
    (hFlushed : Flushed d out.writes.tasks d₁) (hTree : d'.IsTree) (hKeeps : Disk.Keeps d₁ d')
    {p : Path} (hp : p ∈ files) {placement : Placement} (hPlacement : forPath? p = some placement)
    (hStays : ∀ place, d'.Names (companionPath p) place → d'.fileAt? place = d₁.fileAt? place)
    (hFound : Snapshots d e) (hCoherent : Coherent e) :
    (d'.readText (companionPath p)).toOption =
      e.sheetAfter (d.readText (companionPath p)).toOption (companionPath p) := by
  have hAll := hFlushed.keeps.trans hKeeps
  rw [sheetAfter]
  -- Without a file that puts rules into the sheet, no task names its place, if it names one at all.
  split
  next hNone =>
    obtain ⟨above, hNames⟩ := h.names_of_mem_files hp
    rcases Disk.names_companionPath hNames hPlacement with ⟨place, hSheet⟩ | ⟨above, hLeads⟩
    · have hSheet' := hAll.names hSheet
      rw [hSheet'.toOption_readText hTree, hSheet.toOption_readText h.isTree, hStays _ hSheet',
        h.fileAt?_sheet_of_sharing_nil hPlacement hFlushed hp hSheet hNone]
    · rw [(hAll.leadsTo hLeads).toOption_readText hTree, hLeads.toOption_readText h.isTree]
  next hSome =>
    obtain ⟨place, hSheet⟩ := h.exists_names_sheet hPlacement hp hFound hSome
    obtain ⟨file, hFile⟩ := List.exists_mem_of_ne_nil _ hSome
    obtain ⟨hPending, hCompanion, _, hSame⟩ := mem_sharing_iff.mp hFile
    obtain ⟨hOther, hSnapshot⟩ := hFound file hPending
    rw [hCompanion] at hSnapshot
    have hExisting : (d.readText (companionPath p)).toOption = file.existingSheet := by
      rw [← readText_companionPath_of_same hOther hPlacement hSame d]
      exact toOption_of_existingSheet hSnapshot
    have hLast : Coherent e.forgetUnseen.2 := hCoherent.setCache _
    have hContent := hLast.contentAt?_output hFound h.done_eq h.rewritten hFile
    rw [← h.output_eq] at hContent
    have hSheet' := hAll.names hSheet
    rw [hSheet'.toOption_readText hTree, hStays _ hSheet',
      h.fileAt?_sheet hPlacement hFlushed hp hSheet hContent, hExisting]
    exact fromUTF8?_toUTF8 _

/-- What a run makes of a sheet, unless it fails in its first phase or is a dry run. -/
def sheetAfterRun (e : Engine) (files : List Path) (d : Disk) (sheet : Path) : Option String :=
  match processAll d files e with
  | .error _ => (d.readText sheet).toOption
  | .ok last =>
    if last.options.dryRun then (d.readText sheet).toOption
    else last.sheetAfter (d.readText sheet).toOption sheet

/-- After a run a sheet that is not the cache is what the run makes of it. -/
theorem Ended.toOption_readText_sheet {d d' : Disk} {root : Path} {scan : ScanConfig} {base : Place}
    {files : List Path} {e : Engine} {result : Except RunError RunReport}
    (h : Ended d root scan base files e result d') (hCoherent : Coherent e)
    (hStart : e.processed = []) {p : Path} (hp : p ∈ files) {placement : Placement}
    (hPlacement : forPath? p = some placement)
    (hApart : d'.locate (companionPath p) ≠ d'.locate e.cache.path) :
    (d'.readText (companionPath p)).toOption = e.sheetAfterRun files d (companionPath p) := by
  have hFound : ∀ last, processAll d files e = .ok last → Snapshots d last := by
    intro last hAll
    refine snapshots_processAll hAll ?_
    intro file hFile
    rw [← filterMap_processed, hStart] at hFile
    cases hFile
  have hEnd : ∀ last, processAll d files e = .ok last → Coherent last :=
    fun last hAll => visitAll_of_processAll hAll ▸ coherent_visitAll hCoherent _
  unfold sheetAfterRun
  cases h with
  | failed hAll => rw [hAll]
  | dry hAll hPrepared hDry =>
    rw [hAll]
    dsimp only
    rw [hDry, if_pos rfl]
  | refused hAll hPrepared hPath hReal hFlushed hSave =>
    have hGrown := Disk.grown_of_save_error hSave
    rw [hAll]
    dsimp only
    rw [hReal, if_neg Bool.false_ne_true]
    exact hPrepared.toOption_readText_sheet hFlushed
      (Disk.isTree_of_save_error hFlushed.isTree hSave) hGrown.keeps hp hPlacement
      (fun place _ => hGrown.fileAt?_eq place) (hFound _ hAll) (hEnd _ hAll)
  | saved hAll hOutcome hPath hReal hRan =>
    rw [hAll]
    dsimp only
    rw [hReal, if_neg Bool.false_ne_true]
    exact hRan.toOption_readText_sheet hRan.flushed hRan.saved.isTree hRan.saved.keeps hp hPlacement
      (fun place hNames => hRan.saved.fileAt?_eq_of_apart hNames (hPath ▸ hApart)) (hFound _ hAll)
      (hEnd _ hAll)

theorem Setup.exists_report (s : Setup) {d d' : Disk} (hTree : d.IsTree) {root cachePath : Path}
    {files : List Path} (hFiles : d.discover root s.scan = .ok files)
    {result : Except RunError RunReport}
    (hRun : (s.engine root cachePath d).runFiles files d = (result, d')) {t : UtilityTable}
    {sheet : Path} (hRules : (s.engine root cachePath d).rulesOfRun t files d sheet ≠ [])
    {known : ByteArray} (hCache : d.read cachePath = .ok known) : ∃ report, result = .ok report := by
  obtain ⟨_, base, hEnded⟩ := s.ended_of_runFiles hTree hFiles hRun
  have hKeeps := hEnded.keeps hTree
  cases hEnded with
  | failed hAll =>
    rw [rulesOfRun, hAll] at hRules
    exact absurd rfl hRules
  | dry hAll hPrepared hDry => exact ⟨_, rfl⟩
  | refused hAll hPrepared hPath hReal hFlushed hSave =>
    -- What was read can be saved again.
    obtain ⟨content, hRead⟩ := hKeeps.2.exists_read hTree hKeeps.1 hCache
    have hThere : ChangeCache.path _ = cachePath := hPath
    exact absurd (hThere ▸ hRead) (Disk.read_ne_ok_of_save_error hFlushed.isTree hSave content)
  | saved hAll hOutcome hPath hReal hRan => exact ⟨_, rfl⟩

end Engine

end ClassCollapse
