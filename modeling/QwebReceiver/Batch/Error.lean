import QwebReceiver.Files.Glob
import QwebReceiver.Template.Error

/-!
  QwebReceiver.Batch.Error — why a run, or one file of it, fails.

  A run that fails as a whole changes nothing; a file that fails is left as it
  is and the run goes on.
-/

namespace QwebReceiver.Batch

open QwebReceiver.Files

/-- Why a run fails as a whole. -/
inductive BatchError where
  | unreadableConfig (p : Path)
  | badConfig (p : Path)
  | missingRoot (p : Path)
  | badPattern (pattern : Text) (e : Glob.PatternError)
  | unreadableVars (p : Path)
  | badVars (p : Path)
  | unreadableSource (p : Path)
  | unwritable (p : Path)
  deriving Repr, DecidableEq

/-- The error in words. -/
def BatchError.message : BatchError → String
  | .unreadableConfig p => s!"Failed to read config {p.str}"
  | .badConfig p => s!"Failed to parse config {p.str}"
  | .missingRoot p => s!"No such file or directory: {p.str}"
  | .badPattern pattern e => s!"Invalid glob pattern {pattern.str}: {e.message}"
  | .unreadableVars p => s!"Failed to read variables {p.str}"
  | .badVars p => s!"Failed to parse variables {p.str}"
  | .unreadableSource p => s!"Failed to read {p.str}"
  | .unwritable p => s!"Failed to write {p.str}"

/-- Why one file of a run fails. -/
inductive Failure where
  | unreadable
  | unqualified (e : Template.TemplateError)
  | unwritable
  deriving Repr, DecidableEq

/-- The failure of the file at a path, in words. -/
def Failure.message (p : Path) : Failure → String
  | .unreadable => s!"Failed to read {p.str}"
  | .unqualified e => e.message
  | .unwritable => s!"Failed to write {p.str}"

/-- The failure with its causes after it. -/
def Failure.chain (p : Path) : Failure → String
  | .unreadable => s!"Failed to read {p.str}: stream did not contain valid UTF-8"
  | .unqualified e => e.chain
  | .unwritable => s!"Failed to write {p.str}: Permission denied (os error 13)"

end QwebReceiver.Batch
