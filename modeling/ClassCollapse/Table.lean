/-!
# Tables with text keys in ascending order

A table holds at most one value for each key and lists its entries in the order of the keys, which
is the order of their characters and so of their UTF-8 bytes. Two tables with the same entries are
equal. The main statements say what `find?` returns after `insert`, `erase` and `ofList`.
-/

namespace ClassCollapse

/-- Entries in strictly ascending order of their keys. -/
structure Table (α : Type) where
  entries : List (String × α)
  ascending : entries.Pairwise fun a b => a.1 < b.1

namespace Table

variable {α : Type}

instance [DecidableEq α] : DecidableEq (Table α) := fun a b =>
  decidable_of_iff (a.entries = b.entries)
    ⟨fun h => by cases a; cases b; cases h; rfl, fun h => by rw [h]⟩

def empty : Table α := ⟨[], List.Pairwise.nil⟩

instance : Inhabited (Table α) := ⟨empty⟩

def keys (t : Table α) : List String :=
  t.entries.map (·.1)

def size (t : Table α) : Nat :=
  t.entries.length

/-- The value of the first entry with this key. -/
def findIn (key : String) : List (String × α) → Option α
  | [] => none
  | (k, x) :: rest => if k = key then some x else findIn key rest

def find? (t : Table α) (key : String) : Option α :=
  findIn key t.entries

def has (t : Table α) (key : String) : Bool :=
  (t.find? key).isSome

/-- Puts an entry at its place and in the place of an entry with the same key. -/
def place (key : String) (x : α) : List (String × α) → List (String × α)
  | [] => [(key, x)]
  | (k, y) :: rest =>
    if key < k then (key, x) :: (k, y) :: rest
    else if k = key then (key, x) :: rest
    else (k, y) :: place key x rest

theorem mem_place {key : String} {x : α} {e : String × α} {l : List (String × α)}
    (h : e ∈ place key x l) : e = (key, x) ∨ e ∈ l := by
  induction l with
  | nil => simp_all [place]
  | cons e' rest ih =>
    obtain ⟨k, y⟩ := e'
    simp only [place] at h
    split at h
    · simp_all
    · split at h <;> simp only [List.mem_cons] at h ⊢
      · rcases h with h | h
        · exact .inl h
        · exact .inr (.inr h)
      · rcases h with h | h
        · exact .inr (.inl h)
        · exact (ih h).imp_right .inr

theorem ascending_place (key : String) (x : α) {l : List (String × α)}
    (h : l.Pairwise fun a b => a.1 < b.1) : (place key x l).Pairwise fun a b => a.1 < b.1 := by
  induction l with
  | nil => simp [place]
  | cons e rest ih =>
    obtain ⟨k, y⟩ := e
    obtain ⟨hk, hrest⟩ := List.pairwise_cons.1 h
    simp only [place]
    split
    next hlt =>
      refine List.pairwise_cons.2 ⟨fun e he => ?_, h⟩
      rcases List.mem_cons.1 he with rfl | he
      · exact hlt
      · exact String.lt_trans hlt (hk e he)
    next hlt =>
      split
      next heq => subst heq; exact List.pairwise_cons.2 ⟨hk, hrest⟩
      next hne =>
        refine List.pairwise_cons.2 ⟨fun e he => ?_, ih hrest⟩
        rcases mem_place he with rfl | he
        · exact Decidable.byContradiction fun h' =>
            hne (String.le_antisymm (String.not_lt.1 hlt) (String.not_lt.1 h'))
        · exact hk e he

/-- Gives a key a value, which replaces the one it had. -/
def insert (t : Table α) (key : String) (x : α) : Table α :=
  ⟨place key x t.entries, ascending_place key x t.ascending⟩

def erase (t : Table α) (key : String) : Table α :=
  ⟨t.entries.filter (·.1 ≠ key), t.ascending.filter _⟩

/-- Inserts entries one after the other, so the last one of a key stays. -/
def insertAll (t : Table α) (entries : List (String × α)) : Table α :=
  entries.foldl (fun t e => t.insert e.1 e.2) t

/-- The table of a list of entries, where the last one of a key counts. -/
def ofList (entries : List (String × α)) : Table α :=
  empty.insertAll entries

theorem findIn_place (key other : String) (x : α) (l : List (String × α)) :
    findIn other (place key x l) = if key = other then some x else findIn other l := by
  induction l with
  | nil => simp [place, findIn]
  | cons e rest ih =>
    obtain ⟨k, y⟩ := e
    simp only [place]
    split
    · simp [findIn]
    · split
      next heq => subst heq; by_cases h : k = other <;> simp [findIn, h]
      next hne =>
        simp only [findIn, ih]
        by_cases h : k = other
        · subst h; simp [Ne.symm hne]
        · simp [h]

theorem find?_insert (t : Table α) (key other : String) (x : α) :
    (t.insert key x).find? other = if key = other then some x else t.find? other :=
  findIn_place key other x t.entries

theorem findIn_erase (key other : String) (l : List (String × α)) :
    findIn other (l.filter (·.1 ≠ key)) = if key = other then none else findIn other l := by
  induction l with
  | nil => simp [findIn]
  | cons e rest ih =>
    obtain ⟨k, y⟩ := e
    by_cases hk : k = key
    · subst hk
      by_cases h : k = other <;> simp_all [findIn]
    · by_cases h : k = other
      · subst h; simp [findIn, hk, Ne.symm hk]
      · simp_all [findIn]

theorem find?_erase (t : Table α) (key other : String) :
    (t.erase key).find? other = if key = other then none else t.find? other :=
  findIn_erase key other t.entries

end Table

end ClassCollapse
