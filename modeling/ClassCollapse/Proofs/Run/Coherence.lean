import ClassCollapse.Proofs.Markup.Located
import ClassCollapse.Proofs.OccurrenceIndex
import ClassCollapse.Proofs.Run.Visit
import ClassCollapse.Proofs.Style.RuleBook

/-!
# What an engine knows about the files that it has visited

However the files come, and whatever the disk answers, the index of an engine lists what the scans
of the waiting files found, no file waits twice, and the rules and names are those that the first
occurrence of each key asked for.
-/

namespace ClassCollapse.Engine

/-! ## What collecting adds -/

theorem occurrences_collectAll (e : Engine) (key : String) (found : List ScannedClass) :
    (e.collectAll key found).index.occurrences =
      e.index.occurrences ++ found.map (e.occurrence key) := by
  induction found generalizing e with
  | nil => exact (List.append_nil _).symm
  | cons first found ih =>
    rw [collectAll, List.foldl_cons]
    refine (ih (collect key e first)).trans ?_
    rw [List.map_cons, List.append_cons]
    rfl

theorem index_collectAll (e : Engine) (key : String) (found : List ScannedClass)
    (h : e.index = .ofList e.index.occurrences) :
    (e.collectAll key found).index = .ofList (e.collectAll key found).index.occurrences := by
  induction found generalizing e with
  | nil => exact h
  | cons first found ih =>
    refine ih (collect key e first) ?_
    calc
      (collect key e first).index = e.index.accumulate (e.occurrence key first) := rfl
      _ = (OccurrenceIndex.ofList e.index.occurrences).accumulate (e.occurrence key first) := by
        rw [← h]
      _ = .ofList (collect key e first).index.occurrences :=
        (OccurrenceIndex.ofList_concat _ _).symm

theorem follows_collectAll (e : Engine) (key : String) (found : List ScannedClass)
    (h : RuleBook.Follows e.compile e.index.occurrences e.book e.resolver) :
    RuleBook.Follows e.compile (e.collectAll key found).index.occurrences
      (e.collectAll key found).book (e.collectAll key found).resolver := by
  induction found generalizing e with
  | nil => exact h
  | cons first found ih =>
    exact ih (collect key e first) (RuleBook.follows_generate h (e.occurrence key first))

theorem inFile_collectAll (e : Engine) (key : String) (found : List ScannedClass)
    (h : e.index = .ofList e.index.occurrences) (file : String) :
    (e.collectAll key found).index.inFile file =
      e.index.inFile file ++ if file = key then found.map (e.occurrence key) else [] := by
  rw [index_collectAll e key found h, h, OccurrenceIndex.inFile_ofList,
    OccurrenceIndex.inFile_ofList, occurrences_collectAll, List.filter_append]
  congr 1
  split
  next hFile =>
    rw [List.filter_eq_self]
    intro o ho
    obtain ⟨f, _, rfl⟩ := List.mem_map.mp ho
    exact decide_eq_true hFile.symm
  next hFile =>
    rw [List.filter_eq_nil_iff]
    intro o ho
    obtain ⟨f, _, rfl⟩ := List.mem_map.mp ho
    exact fun hSame => hFile (of_decide_eq_true hSame).symm

/-- What every request to the resolver keeps, collecting keeps. -/
theorem resolver_collectAll_induction {P : NameResolver → Prop}
    (hStep : ∀ r key tag classList, P r → P (r.assign key tag classList).2) (e : Engine)
    (file : String) (found : List ScannedClass) (h : P e.resolver) :
    P (e.collectAll file found).resolver := by
  induction found generalizing e with
  | nil => exact h
  | cons first found ih =>
    apply ih (collect file e first)
    rw [collect, RuleBook.generate]
    dsimp only
    split
    · exact h
    · rw [RuleBook.generateNew]
      dsimp only
      split
      · exact h
      · exact hStep _ _ _ _ h

/-! ## The invariant -/

/-- The parts of an engine fit together. -/
structure Coherent (e : Engine) : Prop where
  scan_eq : e.scan = Markup.scan
  index_eq : e.index = .ofList e.index.occurrences
  follows : RuleBook.Follows e.compile e.index.occurrences e.book e.resolver
  inFile_eq : ∀ file ∈ e.pending,
    e.index.inFile file.key = (Markup.scan file.content).map (e.occurrence file.key)
  processed_seen : ∀ x ∈ e.processed, x.key ∈ e.seen
  occurrence_seen : ∀ o ∈ e.index.occurrences, o.file ∈ e.seen
  key_eq : ∀ o ∈ e.index.occurrences, o.key = .ofClassList e.options.orderMatters o.classList
  keys_nodup : (e.processed.map Processed.key).Nodup

theorem mem_pending_iff {e : Engine} {file : PendingFile} :
    file ∈ e.pending ↔ .pending file ∈ e.processed := by
  rw [← filterMap_processed, List.mem_filterMap]
  constructor
  · rintro ⟨x, hx, hFile⟩
    cases x with
    | done key action => cases hFile
    | pending f =>
      cases hFile
      exact hx
  · intro hMem
    exact ⟨_, hMem, rfl⟩

theorem Coherent.pending_nodup {e : Engine} (h : Coherent e) :
    (e.pending.map PendingFile.key).Nodup := by
  have hSub : ∀ processed : List Processed, ((processed.filterMap Processed.pending?).map
      PendingFile.key).Sublist (processed.map Processed.key) := by
    intro processed
    induction processed with
    | nil => exact List.Sublist.slnil
    | cons x processed ih =>
      cases x with
      | done key action => exact ih.cons key
      | pending file => exact ih.cons_cons file.key
  rw [← filterMap_processed]
  exact h.keys_nodup.sublist (hSub e.processed)

theorem Coherent.not_processed {e : Engine} (h : Coherent e) {key : String} (hNew : key ∉ e.seen) :
    key ∉ e.processed.map Processed.key := by
  intro hMem
  obtain ⟨x, hx, rfl⟩ := List.mem_map.mp hMem
  exact hNew (h.processed_seen x hx)

theorem Coherent.inFile_of_unseen {e : Engine} (h : Coherent e) {key : String}
    (hNew : key ∉ e.seen) : e.index.inFile key = [] := by
  rw [h.index_eq, OccurrenceIndex.inFile_ofList, List.filter_eq_nil_iff]
  intro o ho hFile
  exact hNew (of_decide_eq_true hFile ▸ h.occurrence_seen o ho)

theorem coherent_new (scanRoot : Path) (cache : ChangeCache) (compile : Compiler)
    {resolver : NameResolver} (options : RunOptions) (random : RandomSource) (now : UInt64)
    (hSound : resolver.Sound) (hNames : resolver.names = []) :
    Coherent (new scanRoot cache compile resolver options random now) where
  scan_eq := rfl
  index_eq := rfl
  follows := RuleBook.follows_empty compile hSound hNames
  inFile_eq := by intro file hFile; cases hFile
  processed_seen := by intro x hx; cases hx
  occurrence_seen := by intro o ho; cases ho
  key_eq := by intro o ho; cases ho
  keys_nodup := List.nodup_nil

/-! ## What keeps it -/

theorem Coherent.see {e : Engine} (h : Coherent e) (key : String) : Coherent (e.see key) where
  scan_eq := h.scan_eq
  index_eq := h.index_eq
  follows := h.follows
  inFile_eq := h.inFile_eq
  processed_seen x hx := List.mem_cons_of_mem key (h.processed_seen x hx)
  occurrence_seen o ho := List.mem_cons_of_mem key (h.occurrence_seen o ho)
  key_eq := h.key_eq
  keys_nodup := h.keys_nodup

theorem Coherent.setCache {e : Engine} (h : Coherent e) (cache : ChangeCache) :
    Coherent { e with cache } where
  scan_eq := h.scan_eq
  index_eq := h.index_eq
  follows := h.follows
  inFile_eq := h.inFile_eq
  processed_seen := h.processed_seen
  occurrence_seen := h.occurrence_seen
  key_eq := h.key_eq
  keys_nodup := h.keys_nodup

theorem Coherent.collectAll {e : Engine} (h : Coherent e) {key : String} (hSeen : key ∈ e.seen)
    (hNew : key ∉ e.processed.map Processed.key) (found : List ScannedClass) :
    Coherent (e.collectAll key found) where
  scan_eq := by rw [scan_collectAll, h.scan_eq]
  index_eq := index_collectAll e key found h.index_eq
  follows := by
    rw [compile_collectAll]
    exact follows_collectAll e key found h.follows
  inFile_eq := by
    intro file hFile
    rw [pending_collectAll] at hFile
    have hThere : file.key ∈ e.processed.map Processed.key :=
      List.mem_map_of_mem (mem_pending_iff.mp hFile)
    have hOther : file.key ≠ key := fun heq => hNew (heq ▸ hThere)
    rw [inFile_collectAll e key found h.index_eq, if_neg hOther, List.append_nil,
      h.inFile_eq file hFile, collectAll_eq]
    rfl
  processed_seen := by
    intro x hx
    rw [processed_collectAll] at hx
    rw [seen_collectAll]
    exact h.processed_seen x hx
  occurrence_seen := by
    intro o ho
    rw [occurrences_collectAll, List.mem_append] at ho
    rw [seen_collectAll]
    rcases ho with hOld | hNew
    · exact h.occurrence_seen o hOld
    · obtain ⟨f, _, rfl⟩ := List.mem_map.mp hNew
      exact hSeen
  key_eq := by
    intro o ho
    rw [occurrences_collectAll, List.mem_append] at ho
    rw [options_collectAll]
    rcases ho with hOld | hNew
    · exact h.key_eq o hOld
    · obtain ⟨f, _, rfl⟩ := List.mem_map.mp hNew
      rfl
  keys_nodup := by
    rw [processed_collectAll]
    exact h.keys_nodup

theorem Coherent.push {e : Engine} (h : Coherent e) {x : Processed} (hSeen : x.key ∈ e.seen)
    (hNew : x.key ∉ e.processed.map Processed.key)
    (hFile : ∀ file, x.pending? = some file →
      e.index.inFile file.key = (Markup.scan file.content).map (e.occurrence file.key)) :
    Coherent (e.push x) where
  scan_eq := h.scan_eq
  index_eq := h.index_eq
  follows := h.follows
  inFile_eq := by
    intro file hMem
    rw [pending_push, List.mem_append, Option.mem_toList] at hMem
    rcases hMem with hOld | hNew
    · exact h.inFile_eq file hOld
    · exact hFile file hNew
  processed_seen := by
    intro other hMem
    rw [processed_push, List.mem_append, List.mem_singleton] at hMem
    rcases hMem with hOld | rfl
    · exact h.processed_seen other hOld
    · exact hSeen
  occurrence_seen := h.occurrence_seen
  key_eq := h.key_eq
  keys_nodup := by
    rw [processed_push]
    exact nodup_map_concat h.keys_nodup hNew

theorem Coherent.visit {d : Disk} {path : Path} {e e' : Engine} {result : Except RunError Unit}
    (hVisit : Visit d path e result e') (h : Coherent e) : Coherent e' := by
  cases hVisit with
  | again hSeen => exact h
  | unreadable cause hNew hRead => exact h.see _
  | unchanged content hNew hRead hKnown =>
    exact (h.see _).push List.mem_cons_self (h.not_processed hNew) (by intro file hFile; cases hFile)
  | unsupported content hNew hRead hModified hPlacement =>
    exact (h.see _).push List.mem_cons_self (h.not_processed hNew) (by intro file hFile; cases hFile)
  | noClasses content placement hNew hRead hModified hPlacement hScan =>
    refine ((h.see _).setCache _).push List.mem_cons_self (h.not_processed hNew) ?_
    intro file hFile
    cases hFile
  | sheetError content placement error hNew hRead hModified hPlacement hSheet =>
    exact (h.see _).collectAll List.mem_cons_self (h.not_processed hNew) _
  | waiting content placement sheet hNew hRead hModified hPlacement hScan hSheet =>
    have hCollected := (h.see (e.keyOf path)).collectAll List.mem_cons_self (h.not_processed hNew)
      (e.scan content)
    refine hCollected.push ?_ ?_ ?_
    · rw [seen_collectAll]
      exact List.mem_cons_self
    · rw [processed_collectAll]
      exact h.not_processed hNew
    · intro file hFile
      cases hFile
      have hBefore : (e.see (e.keyOf path)).index.inFile (e.keyOf path) = [] :=
        h.inFile_of_unseen hNew
      dsimp only
      rw [inFile_collectAll (e.see (e.keyOf path)) _ _ h.index_eq, hBefore, if_pos rfl,
        List.nil_append, h.scan_eq, collectAll_eq]
      rfl

theorem coherent_visitAll {e : Engine} (h : Coherent e) (visits : List (Disk × Path)) :
    Coherent (visitAll visits e) :=
  visitAll_induction (fun _ _ _ _ _ hVisit h => Coherent.visit hVisit h) visits h

/-- What every request to the resolver keeps, visits keep. -/
theorem resolver_visitAll_induction {P : NameResolver → Prop}
    (hStep : ∀ r key tag classList, P r → P (r.assign key tag classList).2)
    (visits : List (Disk × Path)) {e : Engine} (h : P e.resolver) :
    P (visitAll visits e).resolver := by
  refine visitAll_induction (P := fun e => P e.resolver) ?_ visits h
  intro d path e result e' hVisit h
  cases hVisit with
  | sheetError content placement error hNew hRead hModified hPlacement hSheet =>
    exact resolver_collectAll_induction hStep (e.see (e.keyOf path)) _ _ h
  | waiting content placement sheet hNew hRead hModified hPlacement hScan hSheet =>
    exact resolver_collectAll_induction hStep (e.see (e.keyOf path)) _ _ h
  | _ => exact h

end ClassCollapse.Engine
