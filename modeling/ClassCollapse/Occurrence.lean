import ClassCollapse.CanonicalKey

/-!
# Occurrences of class lists

An occurrence is a class list at a place of a file. The index of a run keeps the occurrences in the
order in which they were added, for each file the positions of its occurrences in that order, and
the keys in the order of their first occurrence. A key is looked up among the known keys, which are
a set beside this order.
-/

namespace ClassCollapse

/-- A class list in a file, with its place in bytes. -/
structure Occurrence where
  file : String
  classList : String
  key : CanonicalKey
  offset : Nat
  length : Nat
  tag : Option String
deriving DecidableEq

/-- The occurrences of a run, the positions of those in each file, and the distinct keys. The known
keys are a set, so their order says nothing. -/
structure OccurrenceIndex where
  occurrences : List Occurrence
  known : List CanonicalKey
  positions : List (String × List Nat)
  keys : List CanonicalKey

namespace OccurrenceIndex

def empty : OccurrenceIndex := ⟨[], [], [], []⟩

def size (index : OccurrenceIndex) : Nat :=
  index.occurrences.length

def addPosition (file : String) (position : Nat) :
    List (String × List Nat) → List (String × List Nat)
  | [] => [(file, [position])]
  | (other, list) :: rest =>
    if other = file then (other, list ++ [position]) :: rest
    else (other, list) :: addPosition file position rest

/-- Puts a key into a set, and says whether it is new there. -/
def insertKey (key : CanonicalKey) (known : List CanonicalKey) : Bool × List CanonicalKey :=
  if key ∈ known then (false, known) else (true, key :: known)

def accumulate (index : OccurrenceIndex) (o : Occurrence) : OccurrenceIndex :=
  let inserted := insertKey o.key index.known
  { occurrences := index.occurrences ++ [o]
    known := inserted.2
    positions := addPosition o.file index.size index.positions
    keys := if inserted.1 then index.keys ++ [o.key] else index.keys }

def positionsIn (index : OccurrenceIndex) (file : String) : List Nat :=
  (index.positions.lookup file).getD []

/-- The occurrences in a file, in the order of accumulation. -/
def inFile (index : OccurrenceIndex) (file : String) : List Occurrence :=
  (index.positionsIn file).filterMap fun position => index.occurrences[position]?

/-- The occurrences in a file by ascending offset; those at the same offset keep their order. -/
def forFile (index : OccurrenceIndex) (file : String) : List Occurrence :=
  (index.inFile file).mergeSort fun a b => decide (a.offset ≤ b.offset)

/-- The distinct keys in a file, in the order of their first occurrence there. -/
def keysInFile (index : OccurrenceIndex) (file : String) : List CanonicalKey :=
  ((index.inFile file).map (·.key)).eraseDups

def isEmpty (index : OccurrenceIndex) : Bool :=
  index.size == 0

end OccurrenceIndex

end ClassCollapse
