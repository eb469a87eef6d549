import QwebReceiver.Batch.Config

/-!
  QwebReceiver.Batch.Source — the files of a run.

  A root that is a file is taken as it is; a root that is a directory is
  searched with every pattern.  Excluded paths are dropped; the others are
  taken once and in order.
-/

namespace QwebReceiver.Batch

open QwebReceiver.Files

/-- A file as it was before the run. -/
structure Source where
  path : Path
  content : Text
  deriving Repr, DecidableEq

/-- The files in a directory that match a pattern. -/
def searchPattern (t : FileTree) (root : Path) (pattern : Text) : Except BatchError (List Path) :=
  match Glob.paths t (join root pattern) with
  | .error e => .error (.badPattern (join root pattern) e)
  | .ok found => .ok (found.filter t.isFile)

/-- The files that a root stands for. -/
def searchRoot (t : FileTree) (c : Config) (root : Path) : Except BatchError (List Path) :=
  if t.isFile root then .ok [root]
  else if !t.isDirectory root then .error (.missingRoot root)
  else
    match c.patterns.mapM (searchPattern t root) with
    | .error e => .error e
    | .ok found => .ok found.flatten

/-- The paths of a run. -/
def collect (t : FileTree) (c : Config) (roots : List Path) : Except BatchError (List Path) :=
  match roots.mapM (searchRoot t c) with
  | .error e => .error e
  | .ok found =>
    .ok (((∅ : PathSet).insertAll found.flatten).toList.filter fun p => !c.excludes p)

/-- The files at these paths that can be read. -/
def readable (t : FileTree) (paths : List Path) : List Source :=
  paths.filterMap fun p => (t.readText? p).map fun s => ⟨p, s⟩

/-- The paths of files that cannot be read. -/
def unreadable (t : FileTree) (paths : List Path) : List Path :=
  paths.filter fun p => (t.readText? p).isNone

end QwebReceiver.Batch
