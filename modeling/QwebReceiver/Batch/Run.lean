import QwebReceiver.Batch.Session
import QwebReceiver.Batch.Source
import QwebReceiver.Template.CorpusFile
import QwebReceiver.Template.Qualify

/-!
  QwebReceiver.Batch.Run — qualifying many files.

  A run reads all its files, fixes the variables of the corpus, and only then
  qualifies the files, each by itself: the outcome of a file depends on its
  own content and on those variables.  All this is the plan of the run.  The
  plan is carried out at the end, file by file; a dry run only says what it
  would write.

    upgrade     qualifies every template
    xpath       qualifies the selectors of patches to templates defined elsewhere
    aggregate   gathers the variables and changes nothing
-/

namespace QwebReceiver.Batch

open QwebReceiver.Files
open QwebReceiver.Template

/-! ## §1. Reports. -/

/-- What became of one file. -/
inductive Outcome where
  | changed (content : Text)
  | unchanged
  | failed (cause : Failure)
  deriving Repr, DecidableEq

/-- What became of the files of a run, file by file. -/
structure Report where
  outcomes : List (Path × Outcome)
  deriving Repr, DecidableEq

namespace Report

/-- The files that changed, with their new content. -/
def changes (r : Report) : List (Path × Text) :=
  r.outcomes.filterMap fun x =>
    match x.2 with
    | .changed content => some (x.1, content)
    | _ => none

/-- The paths of the files that changed. -/
def changed (r : Report) : List Path := r.changes.map Prod.fst

/-- How many files stayed as they were. -/
def unchanged (r : Report) : Nat := r.outcomes.countP fun x => x.2 = .unchanged

/-- The files that failed. -/
def failed (r : Report) : List (Path × Failure) :=
  r.outcomes.filterMap fun x =>
    match x.2 with
    | .failed cause => some (x.1, cause)
    | _ => none

/-- How many files did not fail. -/
def succeeded (r : Report) : Nat := r.changed.length + r.unchanged

/-- Whether no file failed. -/
def isSuccess (r : Report) : Bool := r.failed.isEmpty

/-- The report in a line. -/
def summary (r : Report) : String := s!"{r.succeeded} succeeded, {r.failed.length} failed"

end Report

/-! ## §2. The plan of a run. -/

/-- What a run is asked for. -/
structure Options where
  roots : List Path
  vars : Option Path := none
  dryRun : Bool := false
  deriving Repr, DecidableEq

/-- Warns of a file that failed. -/
def warnFailed (p : Path) (cause : Failure) : Traced BatchError Unit :=
  .note .warn s!"{p.str}: {cause.chain p}"

/-- Collects the files of a run and reads them; those that cannot be read fail
at once. -/
def readSources (t : FileTree) (c : Config) (roots : List Path) :
    Traced BatchError (List Source × List (Path × Outcome)) := do
  let paths ← Traced.ofExcept (collect t c roots)
  .note .info s!"found {paths.length} template files"
  let lost := unreadable t paths
  lost.forM fun p => warnFailed p .unreadable
  return (readable t paths, lost.map fun p => (p, .failed .unreadable))

/-- Adds the variables of one file; a file that cannot be read as a document
adds none. -/
def gather (vars : CorpusVars) (s : Source) : Traced BatchError CorpusVars :=
  let r := aggregateText vars s.content defaultUrl
  match r.outcome with
  | .ok vars => ⟨r.notes, .ok vars⟩
  | .error e =>
    ⟨r.notes ++ [⟨.warn, s!"{s.path.str}: skipped during aggregation: {e.message}"⟩], .ok vars⟩

/-- The variables of all files. -/
def aggregateSources (sources : List Source) : Traced BatchError CorpusVars := do
  let vars ← sources.foldlM gather {}
  .note .info
    s!"aggregated {vars.outside.size} call targets and {vars.inside.size} templates"
  return vars

/-- Loads the corpus file at a path. -/
def loadVars (t : FileTree) (p : Path) : Except BatchError CorpusVars :=
  match t.readText? p with
  | none => .error (.unreadableVars p)
  | some s =>
    match CorpusVars.ofJson s with
    | .error _ => .error (.badVars p)
    | .ok v => .ok v

/-- What became of a file, from what its content was qualified to. -/
def Outcome.ofResult (s : Source) : Except TemplateError Text → Outcome
  | .error e => .failed (.unqualified e)
  | .ok content => if content = s.content then .unchanged else .changed content

/-- Qualifies the files, each by itself.  The files are shared out among the
threads of a pool, and the outcomes come back in the order of the files.  That
the pool itself cannot be started is left out: it would end the run here, with
an error and before anything is written. -/
def qualifySources (c : Config) (sources : List Source)
    (qualify : Text → Traced TemplateError Text) : Traced BatchError (List (Path × Outcome)) := do
  .note .debug s!"rewriting {sources.length} files on {c.threads} threads"
  sources.mapM fun s =>
    let r := qualify s.content
    ⟨r.notes, .ok (s.path, .ofResult s r.outcome)⟩

/-- What a run means to do: the files that could not be read, and what the
others are qualified to. -/
structure Plan where
  lost : List (Path × Outcome)
  outcomes : List (Path × Outcome)
  deriving Repr, DecidableEq

/-- Reads the files, fixes how they are qualified, and qualifies them.  What is
fixed depends on all files as they are read; from then on no file sees what
became of another. -/
def plan (c : Config) (roots : List Path)
    (fix : List Source → Traced BatchError (Text → Traced TemplateError Text)) (t : FileTree) :
    Traced BatchError Plan := do
  let (sources, lost) ← readSources t c roots
  let qualify ← fix sources
  let outcomes ← qualifySources c sources qualify
  return ⟨lost, outcomes⟩

/-! ## §3. Carrying a plan out. -/

open Session in
/-- Writes what became of a file, unless the run is a dry one.  A file that
cannot be written fails. -/
def carryOut (dryRun : Bool) (x : Path × Outcome) : Session (Path × Outcome) :=
  match x.2 with
  | .unchanged => return x
  | .failed cause => do
    look fun _ => warnFailed x.1 cause
    return x
  | .changed content =>
    if dryRun then do
      look fun _ => .note .info s!"would rewrite {x.1.str}"
      return x
    else do
      if ← write x.1 content then
        look fun _ => .note .info s!"rewrote {x.1.str}"
        return x
      else
        look fun _ => warnFailed x.1 .unwritable
        return (x.1, .failed .unwritable)

/-- Carries out a plan, file by file. -/
def perform (dryRun : Bool) (p : Plan) : Session Report := do
  let outcomes ← p.outcomes.mapM (carryOut dryRun)
  return ⟨p.lost ++ outcomes⟩

/-! ## §4. Runs. -/

/-- The variables that a run goes by: those of its files, and those of a corpus
file if one is given. -/
def corpusVars (t : FileTree) (o : Options) (sources : List Source) :
    Traced BatchError CorpusVars := do
  let own ← aggregateSources sources
  match o.vars with
  | none => return own
  | some p => .ofExcept ((loadVars t p).map own.merge)

/-- How a run qualifies the templates of its files. -/
def fixTemplates (t : FileTree) (o : Options) (sources : List Source) :
    Traced BatchError (Text → Traced TemplateError Text) := do
  return qualifyText (← corpusVars t o sources)

/-- The known templates, and those defined elsewhere that a document inherits
from. -/
def selectorTargets (c : Config) (known : VarMap) (d : Markup.Document) : VarMap :=
  (d.elements.filterMap fun e => e.tag.get? inheritAttr).foldl
    (fun m target => if c.isExternal target then m.ensure target else m) known

/-- Qualifies the selectors in a text of patches to those templates. -/
def qualifyExternal (c : Config) (known : VarMap) (content : Text) : Traced TemplateError Text :=
  match readDocument content defaultUrl with
  | .error e => .fail e
  | .ok d => qualifyTextSelectors (selectorTargets c known d) content

/-- The templates that a corpus file knows, if one is given. -/
def knownTemplates (t : FileTree) (o : Options) : Except BatchError VarMap :=
  match o.vars with
  | none => .ok ∅
  | some p => (loadVars t p).map CorpusVars.inside

/-- How a run qualifies the selectors of its files. -/
def fixSelectors (t : FileTree) (c : Config) (o : Options) :
    Traced BatchError (Text → Traced TemplateError Text) := do
  return qualifyExternal c (← .ofExcept (knownTemplates t o))

/-- Qualifies every template of the files. -/
def upgrade (c : Config) (o : Options) : Session Report :=
  Session.look (fun t => plan c o.roots (fixTemplates t o) t) >>= perform o.dryRun

/-- Qualifies the selectors of patches to templates defined elsewhere. -/
def xpath (c : Config) (o : Options) : Session Report :=
  Session.look (fun t => plan c o.roots (fun _ => fixSelectors t c o) t) >>= perform o.dryRun

/-- Gathers the variables of the files, all of which must be readable. -/
def aggregate (t : FileTree) (c : Config) (roots : List Path) : Traced BatchError CorpusVars := do
  let paths ← Traced.ofExcept (collect t c roots)
  match unreadable t paths with
  | p :: _ => .fail (.unreadableSource p)
  | [] => aggregateSources (readable t paths)

end QwebReceiver.Batch
