import ClassCollapse.Text.Bytes

/-!
# Splices

A splice replaces a part of a text, given by its place in bytes. Splices are applied from left to
right; they must not overlap, and they must lie in the text and begin and end between characters.
Before each of them the length of what is written is checked against the sum of the differences in
length so far.
-/

namespace ClassCollapse

/-- A broken invariant of a run. -/
inductive InternalError
  | overlap (offset cursor : Nat)
  | outside (start stop size : Nat)
  | drift (expected : Int) (found : Nat)
  | stale (file : String) (start stop : Nat) (classList : String)
deriving DecidableEq

def InternalError.message : InternalError → String
  | .overlap offset cursor =>
    "internal error: splice at " ++ toString offset ++
      " overlaps or precedes previous splice ending at " ++ toString cursor
  | .outside start stop size =>
    "internal error: splice " ++ toString start ++ ".." ++ toString stop ++
      " is outside content of " ++ toString size ++ " bytes or splits a character"
  | .drift expected found =>
    "internal error: splice drift mismatch: expected output position " ++ toString expected ++
      ", found " ++ toString found
  | .stale file start stop classList =>
    "internal error: " ++ file ++ ": content at " ++ toString start ++ ".." ++ toString stop ++
      " does not match scanned class '" ++ classList ++ "'"

/-- Replaces `length` bytes at `offset`. -/
structure Splice where
  offset : Nat
  length : Nat
  replacement : String
deriving DecidableEq

namespace Splice

def stop (s : Splice) : Nat :=
  s.offset + s.length

end Splice

/-- A text to which some splices were applied. The drift is how much longer the written part is than
what it stands for, and the rest starts at the cursor. -/
structure Splicing where
  written : List Char
  drift : Int
  cursor : Nat
  rest : List Char

namespace Splicing

def start (content : List Char) : Splicing :=
  ⟨[], 0, 0, content⟩

/-- Applies the next splice to a text of `size` bytes. -/
def step (size : Nat) (t : Splicing) (s : Splice) : Except InternalError Splicing :=
  if s.offset < t.cursor then .error (.overlap s.offset t.cursor)
  else
    match Text.cutAt? (s.offset - t.cursor) t.rest with
    | none => .error (.outside s.offset s.stop size)
    | some (gap, rest) =>
      match Text.cutAt? s.length rest with
      | none => .error (.outside s.offset s.stop size)
      | some (_, rest) =>
        let written := t.written ++ gap
        let expected := s.offset + t.drift
        if expected ≠ Text.byteCount written then
          .error (.drift expected (Text.byteCount written))
        else
          let growth : Int := Text.byteCount s.replacement.toList - s.length
          .ok ⟨written ++ s.replacement.toList, t.drift + growth, s.stop, rest⟩

def run (size : Nat) : Splicing → List Splice → Except InternalError Splicing
  | t, [] => .ok t
  | t, s :: splices =>
    match t.step size s with
    | .error e => .error e
    | .ok t => t.run size splices

/-- The text with what was not spliced at its end. -/
def text (t : Splicing) : List Char :=
  t.written ++ t.rest

end Splicing

def Splice.applyAll (content : String) (splices : List Splice) : Except InternalError String :=
  ((Splicing.start content.toList).run (Text.byteCount content.toList) splices).map fun t =>
    String.ofList t.text

end ClassCollapse
