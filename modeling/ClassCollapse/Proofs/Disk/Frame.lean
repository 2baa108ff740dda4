import ClassCollapse.Disk.Basic
import ClassCollapse.Proofs.Association

/-!
# What operations on a disk change

Making directories adds directories where nothing was, whether it succeeds or not. A write changes
the node at one place only. So saving a content changes at most one file, and none if it fails.
-/

namespace ClassCollapse.Disk

/-- A disk with more directories, in places where nothing was. -/
structure Grown (d d' : Disk) : Prop where
  workingDirectory_eq : d'.workingDirectory = d.workingDirectory
  node?_eq : ∀ place, d'.node? place = d.node? place ∨
    (d.node? place = none ∧ d'.node? place = some .directory)

/-- The content of the file at a place. -/
def fileAt? (d : Disk) (place : Place) : Option ByteArray :=
  match d.node? place with
  | some (.file content) => some content
  | _ => none

theorem lookup_filter_ne (nodes : List (Place × Node)) {place other : Place} (h : other ≠ place) :
    (nodes.filter fun entry => entry.1 ≠ place).lookup other = nodes.lookup other := by
  induction nodes with
  | nil => rfl
  | cons entry nodes ih =>
    obtain ⟨first, node⟩ := entry
    by_cases hFirst : first = place
    · subst hFirst
      have hOther : (other == first) = false := by simpa using h
      rw [List.filter_cons, if_neg (by simp), lookup_cons_if, hOther, ih]
      rfl
    · rw [List.filter_cons, if_pos (by simpa using hFirst), lookup_cons_if, lookup_cons_if, ih]

theorem node?_put (d : Disk) {place : Place} (hPlace : place ≠ []) (node : Node) (other : Place) :
    (d.put place node).node? other = if other = place then some node else d.node? other := by
  by_cases hOther : other = place
  · subst hOther
    rw [if_pos rfl, node?, if_neg hPlace, put, lookup_cons_if, if_pos BEq.rfl]
  · have hBeq : ¬(other == place) = true := by simpa using hOther
    rw [if_neg hOther, node?, node?, put, lookup_cons_if, if_neg hBeq, lookup_filter_ne _ hOther]

theorem Grown.refl (d : Disk) : Grown d d :=
  ⟨rfl, fun _ => .inl rfl⟩

theorem Grown.trans {d d' d'' : Disk} (h : Grown d d') (h' : Grown d' d'') : Grown d d'' where
  workingDirectory_eq := h'.workingDirectory_eq.trans h.workingDirectory_eq
  node?_eq place := by
    rcases h.node?_eq place with hSame | ⟨hNone, hMade⟩
    · rcases h'.node?_eq place with hSame' | ⟨hNone', hMade'⟩
      · exact .inl (hSame'.trans hSame)
      · exact .inr ⟨hSame ▸ hNone', hMade'⟩
    · rcases h'.node?_eq place with hSame' | ⟨hNone', _⟩
      · exact .inr ⟨hNone, hSame'.trans hMade⟩
      · rw [hMade] at hNone'
        cases hNone'

theorem Grown.fileAt?_eq {d d' : Disk} (h : Grown d d') (place : Place) :
    d'.fileAt? place = d.fileAt? place := by
  rcases h.node?_eq place with hSame | ⟨hNone, hMade⟩
  · rw [fileAt?, fileAt?, hSame]
  · rw [fileAt?, fileAt?, hNone, hMade]

theorem grown_put {d : Disk} {place : Place} (h : d.node? place = none) :
    Grown d (d.put place .directory) where
  workingDirectory_eq := rfl
  node?_eq other := by
    have hPlace : place ≠ [] := by
      rintro rfl
      cases h
    rw [node?_put d hPlace]
    split
    next hSame => exact .inr ⟨hSame ▸ h, rfl⟩
    next => exact .inl rfl

/-! ## Making directories -/

theorem grown_makeDirectory {d d' : Disk} {p : Path} (h : d.makeDirectory p = .ok d') :
    Grown d d' := by
  rw [makeDirectory] at h
  split at h
  · cases h
  next last hLast =>
    split at h
    · cases h
    next place hPlace =>
      split at h
      next s =>
        split at h
        · cases h
        next hFree =>
          cases h
          exact grown_put (by simpa using hFree)
      next => cases h

section MakeDirectories

variable {R : Disk → Disk → Prop} (hRefl : ∀ d, R d d)
  (hTrans : ∀ {d d' d''}, R d d' → R d' d'' → R d d'')
  (hMake : ∀ {d d' p}, d.makeDirectory p = .ok d' → R d d')

include hRefl hMake in
theorem ensureDirectory_induction (d : Disk) (p : Path) : R d (d.ensureDirectory p).2 := by
  rw [ensureDirectory]
  split
  next made hMade => exact hMake hMade
  next => exact hRefl d

include hRefl hTrans hMake

theorem makeWithin_induction (p : Path) (depth : Nat) (d : Disk) :
    R d (makeWithin p depth d).2 := by
  induction depth generalizing p d with
  | zero => exact ensureDirectory_induction hRefl hMake d p
  | succ depth ih =>
    have hEnsure := ensureDirectory_induction hRefl hMake d p
    rw [makeWithin]
    split
    · exact hRefl d
    · split
      next d₁ hMissing =>
        rw [hMissing] at hEnsure
        split
        · exact hEnsure
        next parent hParent =>
          have hParentMade := ih parent d₁
          split
          next cause d₂ hFailed =>
            rw [hFailed] at hParentMade
            exact hTrans hEnsure hParentMade
          next d₂ hMade =>
            rw [hMade] at hParentMade
            have hLast := ensureDirectory_induction hRefl hMake d₂ p
            exact hTrans (hTrans hEnsure hParentMade) hLast
      next => exact hEnsure

/-- What making one directory does to a disk, making those above a file does. -/
theorem makeParent_induction (d : Disk) (p : Path) : R d (d.makeParent p).2 := by
  rw [makeParent]
  split
  · exact hRefl d
  next parent hParent => exact makeWithin_induction hRefl hTrans hMake parent _ d

end MakeDirectories

theorem grown_makeParent (d : Disk) (p : Path) : Grown d (d.makeParent p).2 :=
  makeParent_induction .refl .trans grown_makeDirectory d p

/-! ## Writing -/

theorem write_eq_ok {d d' : Disk} {p : Path} {content : ByteArray}
    (h : d.write p content = .ok d') :
    ∃ place, d.locateTarget p = .ok place ∧ place ≠ [] ∧ d' = d.put place (.file content) := by
  rw [write] at h
  split at h
  · cases h
  next place hPlace =>
    split at h
    · cases h
    next hNode =>
      cases h
      refine ⟨place, hPlace, ?_, rfl⟩
      rintro rfl
      exact hNode rfl

/-- The place of the file that a content is put into when it is saved to a path. -/
def target? (d : Disk) (p : Path) : Option Place :=
  ((d.makeParent p).2.locateTarget p).toOption

theorem grown_of_save_error {d d' : Disk} {p : Path} {content : ByteArray} {e : IoError}
    (h : d.save p content = (.error e, d')) : Grown d d' := by
  have hParent := grown_makeParent d p
  rw [save] at h
  split at h
  next cause d₁ hFailed =>
    cases h
    rw [hFailed] at hParent
    exact hParent
  next d₁ hMade =>
    rw [hMade] at hParent
    split at h
    · cases h
      exact hParent
    · cases h

theorem save_eq_ok {d d' : Disk} {p : Path} {content : ByteArray}
    (h : d.save p content = (.ok (), d')) :
    ∃ d₁ place, Grown d d₁ ∧ d.target? p = some place ∧ place ≠ [] ∧
      d' = d₁.put place (.file content) := by
  have hParent := grown_makeParent d p
  rw [save] at h
  split at h
  · cases h
  next d₁ hMade =>
    rw [hMade] at hParent
    split at h
    · cases h
    next written hWritten =>
      cases h
      obtain ⟨place, hPlace, hRoot, hPut⟩ := write_eq_ok hWritten
      refine ⟨d₁, place, hParent, ?_, hRoot, hPut⟩
      rw [target?, hMade, hPlace]
      rfl

theorem fileAt?_of_save_ok {d d' : Disk} {p : Path} {content : ByteArray}
    (h : d.save p content = (.ok (), d')) :
    ∃ target, d.target? p = some target ∧ ∀ place,
      d'.fileAt? place = if place = target then some content else d.fileAt? place := by
  obtain ⟨d₁, target, hGrown, hTarget, hRoot, rfl⟩ := save_eq_ok h
  refine ⟨target, hTarget, ?_⟩
  intro place
  rw [fileAt?, node?_put d₁ hRoot]
  by_cases hPlace : place = target
  · rw [if_pos hPlace, if_pos hPlace]
  · rw [if_neg hPlace, if_neg hPlace]
    exact hGrown.fileAt?_eq place

end ClassCollapse.Disk
