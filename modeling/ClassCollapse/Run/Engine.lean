import ClassCollapse.Cache.Basic
import ClassCollapse.Markup.ScannedClass
import ClassCollapse.Rewrite.Rewriter
import ClassCollapse.Run.Worklist
import ClassCollapse.Run.WriteBuffer
import ClassCollapse.Style.RuleBook

/-!
# Runs

A run first processes its files one by one: a file that the cache does not know is scanned, its
class lists are collected, and each new combination gets a rule and a name. It then rewrites the
files that had class lists, buffers what is to be written, and writes it at the end unless it is a
dry run. The cache is saved last. The first phase only reads the disk.
-/

namespace ClassCollapse

inductive RunError
  | io (e : IoError)
  | cache (e : IoError)
  | internal (e : InternalError)
deriving DecidableEq

def RunError.message : RunError → String
  | .io e => "I/O error at " ++ e.message
  | .cache e => "cache I/O error at " ++ e.message
  | .internal e => e.message

structure RunOptions where
  orderMatters : Bool := false
  dryRun : Bool := false
deriving DecidableEq

structure Engine where
  scanRoot : Path
  options : RunOptions
  cache : ChangeCache
  scan : String → List ScannedClass
  compile : Compiler
  resolver : NameResolver
  random : RandomSource
  /-- The time that new cache entries get, in milliseconds. -/
  now : UInt64
  index : OccurrenceIndex
  book : RuleBook
  worklist : Worklist
  /-- The keys of the files that were visited. -/
  seen : List String

/-- What a run produced and has not written yet. -/
structure RunOutput where
  writes : WriteBuffer
  cache : ChangeCache
  report : RunReport

namespace Engine

def new (scanRoot : Path) (cache : ChangeCache) (compile : Compiler) (resolver : NameResolver)
    (options : RunOptions) (random : RandomSource) (now : UInt64) : Engine :=
  ⟨scanRoot, options, cache, Markup.scan, compile, resolver, random, now, .empty, .empty,
    .empty, []⟩

def occurrence (e : Engine) (file : String) (found : ScannedClass) : Occurrence :=
  ⟨file, found.classList, .ofClassList e.options.orderMatters found.classList, found.offset,
    found.length, found.tag⟩

/-- Collects a class list of a file, with a rule for its key if that is new. -/
def collect (file : String) (e : Engine) (found : ScannedClass) : Engine :=
  let o := e.occurrence file found
  let (_, book, resolver) := e.book.generate e.compile o e.resolver
  { e with book, resolver, index := e.index.accumulate o }

/-- The companion sheet on disk, unless there is none. -/
def existingSheet (d : Disk) (placement : Placement) (path : Path) :
    Except RunError (Option String) :=
  match placement with
  | .inline => .ok none
  | .companion =>
    let sheet := Placement.companionPath path
    match d.readText sheet with
    | .ok text => .ok (some text)
    | .error .notFound => .ok none
    | .error cause => .error (.io ⟨sheet, cause⟩)

def slots (e : Engine) : List Slot :=
  e.worklist.slots

/-- The files that wait for the second phase, in the order of processing. -/
def pending (e : Engine) : List PendingFile :=
  e.worklist.pending

def conclude (e : Engine) (key : String) (action : Action) : Engine :=
  { e with worklist := e.worklist.conclude key action }

def enqueue (e : Engine) (file : PendingFile) : Engine :=
  { e with worklist := e.worklist.enqueue file }

/-- Processes a file whose content has changed and whose rules have a placement. -/
def processContent (d : Disk) (path : Path) (key content : String) (placement : Placement)
    (e : Engine) : Except RunError Unit × Engine :=
  match e.scan content with
  | [] =>
    (.ok (), { e with cache := e.cache.record e.now key content content }.conclude key .noClasses)
  | found =>
    let e := found.foldl (collect key) e
    match existingSheet d placement path with
    | .error error => (.error error, e)
    | .ok sheet =>
      (.ok (), e.enqueue ⟨key, path, content, placement, found.length, sheet⟩)

/-- Processes a file. A file that was visited before is passed over. After an error the engine is as
far as it had come. -/
def processFile (d : Disk) (path : Path) (e : Engine) : Except RunError Unit × Engine :=
  let key := Path.fileKey e.scanRoot path
  if key ∈ e.seen then (.ok (), e)
  else
    let e := { e with seen := key :: e.seen }
    match d.readText path with
    | .error cause => (.error (.io ⟨path, cause⟩), e)
    | .ok content =>
      if !e.cache.isModified key content then (.ok (), e.conclude key .unchanged)
      else match Placement.forPath? path with
        | none => (.ok (), e.conclude key .unsupported)
        | some placement => processContent d path key content placement e

def processAll (d : Disk) : List Path → Engine → Except RunError Engine
  | [], e => .ok e
  | path :: paths, e =>
    match processFile d path e with
    | (.error error, _) => .error error
    | (.ok _, e) => processAll d paths e

/-- The keys that the cache knows and the run did not visit, in ascending order. -/
def unseen (e : Engine) : List String :=
  e.cache.manifest.keys.filter fun key => !e.seen.contains key

def forgetUnseen (e : Engine) : List String × Engine :=
  (e.unseen, { e with cache := e.unseen.foldl ChangeCache.forget e.cache })

def rewriteFile (e : Engine) (w : Rewriter) (file : PendingFile) (suffix : Nat) :
    Except InternalError Injection × Rewriter :=
  let (rewritten, w) := w.replace file.content file.key
  (rewritten.map fun content =>
    file.placement.inject file.path content ((e.book.fileCss? e.index file.key).getD "")
      file.existingSheet suffix, w)

def rewriteAll (e : Engine) (w : Rewriter) :
    List (PendingFile × Nat) → Except InternalError (List (PendingFile × Injection))
  | [] => .ok []
  | (file, suffix) :: rest =>
    match e.rewriteFile w file suffix with
    | (.error error, _) => .error error
    | (.ok injection, w) => (e.rewriteAll w rest).map ((file, injection) :: ·)

/-- Buffers the sheet and the content of a rewritten file and remembers it. -/
def settle (now : UInt64) (state : WriteBuffer × ChangeCache) (done : PendingFile × Injection) :
    WriteBuffer × ChangeCache :=
  let (file, injection) := done
  let (writes, cache) := state
  let writes := match injection.companion with
    | none => writes
    | some (sheet, css) => writes.add sheet css
  (writes.add file.path injection.content, cache.record now file.key file.content injection.content)

def rewrittenAction (e : Engine) (done : PendingFile × Injection) : Action :=
  .rewritten done.1.occurrences
    (done.2.companion.map fun (sheet, _) => Path.fileKey e.scanRoot sheet)

/-- The actions of rewritten files, each at the index of its file. -/
def actions (e : Engine) (done : List (PendingFile × Injection)) : List (Option Action) :=
  done.map fun d => some (e.rewrittenAction d)

def report (e : Engine) (done : List (PendingFile × Injection)) : RunReport :=
  ⟨e.worklist.log (e.actions done), e.resolver.names.length, e.resolver.invocations,
    e.options.dryRun⟩

/-- The second phase: rewrites the files that wait and buffers the results. -/
def finish (e : Engine) : Except RunError RunOutput :=
  let (suffixes, _) := e.random.drawMany 100 e.pending.length
  let rewriter := Rewriter.new e.index e.resolver.names e.compile
  match e.rewriteAll rewriter (e.pending.zip suffixes) with
  | .error error => .error (.internal error)
  | .ok done =>
    let (writes, cache) := done.foldl (settle e.now) (.empty, e.cache)
    .ok ⟨writes, cache, e.report done⟩

/-- Writes what a run produced, the cache last. -/
def RunOutput.apply (out : RunOutput) (d : Disk) : Except RunError RunReport × Disk :=
  match out.writes.flush d with
  | (.error e, d) => (.error (.io e), d)
  | (.ok _, d) =>
    match out.cache.save d with
    | (.error e, d) => (.error (.cache e), d)
    | (.ok _, d) => (.ok out.report, d)

/-- Runs both phases over files and writes the results unless it is a dry run. -/
def runFiles (e : Engine) (paths : List Path) (d : Disk) : Except RunError RunReport × Disk :=
  match e.processAll d paths with
  | .error error => (.error error, d)
  | .ok e =>
    match e.forgetUnseen.2.finish with
    | .error error => (.error error, d)
    | .ok out => if e.options.dryRun then (.ok out.report, d) else RunOutput.apply out d

end Engine

end ClassCollapse
