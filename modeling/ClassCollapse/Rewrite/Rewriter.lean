import ClassCollapse.Occurrence
import ClassCollapse.Rewrite.Splice
import ClassCollapse.Style.UtilityTable

/-!
# Rewriting class lists in place

The utilities of a class list collapse into the name of its key, which follows the words that are
kept. A file is rewritten at most once.
-/

namespace ClassCollapse

/-- What a rewrite depends on, and the files that were claimed. -/
structure Rewriter where
  index : OccurrenceIndex
  names : List (CanonicalKey × String)
  compile : Compiler
  claimed : List String

namespace Rewriter

def new (index : OccurrenceIndex) (names : List (CanonicalKey × String)) (compile : Compiler) :
    Rewriter :=
  ⟨index, names, compile, []⟩

def isUtility (w : Rewriter) (word : String) : Bool :=
  !Text.isBlankText (w.compile word)

/-- The text that takes the place of a class list. -/
def render (w : Rewriter) (o : Occurrence) : String :=
  let words := Text.words o.classList
  match w.names.lookup o.key with
  | none => Text.join " " words
  | some name =>
    let kept := words.filter fun word => !w.isUtility word
    if words.any w.isUtility then Text.join " " (kept ++ [name]) else Text.join " " kept

/-- The splice for an occurrence, provided that the content still has the class list there. -/
def splice (w : Rewriter) (content : List Char) (o : Occurrence) : Except InternalError Splice :=
  let stop := o.offset + o.length
  if Text.slice? o.offset stop content = some o.classList.toList then
    .ok ⟨o.offset, o.length, w.render o⟩
  else .error (.stale o.file o.offset stop o.classList)

def plan (w : Rewriter) (content file : String) : Except InternalError (List Splice) :=
  (w.index.forFile file).mapM (w.splice content.toList)

/-- Marks a file as rewritten. The answer is whether it was not before. -/
def claim (w : Rewriter) (file : String) : Bool × Rewriter :=
  if file ∈ w.claimed then (false, w) else (true, { w with claimed := file :: w.claimed })

/-- Rewrites every occurrence in a file. A file that was claimed before stays as it is. -/
def replace (w : Rewriter) (content file : String) : Except InternalError String × Rewriter :=
  match w.claim file with
  | (false, w) => (.ok content, w)
  | (true, w) => (w.plan content file >>= Splice.applyAll content, w)

end Rewriter

end ClassCollapse
