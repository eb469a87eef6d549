import QwebReceiver.Batch.Run
import QwebReceiver.CommandLine.Arguments
import QwebReceiver.Expr.Qualify

/-!
  QwebReceiver.CommandLine.Run — what the program does.

  A run of the program is a function of the tree of files and its arguments:
  its exit code, what it prints, the notes of its log and the files it writes.

    exit code 0   all went well
    exit code 1   some file failed
    exit code 2   the arguments, or anything else, are at fault
-/

namespace QwebReceiver.CommandLine

open QwebReceiver.Files
open QwebReceiver.Batch

/-! ## §1. Names of the program. -/

/-- The version of the program. -/
def version : String := "0.1.0"

/-- The name of the program with its version. -/
def versionTitle : String := s!"QWeb Template Compiler v{version}"

/-- What the program prints when it is asked for its version. -/
def versionLine : Text := s!"qwebc {version}\n".toList

/-! ## §2. Results. -/

/-- What a run of the program comes to. -/
structure Result where
  exitCode : Nat
  output : Text := []
  notes : List Note := []
  writes : List (Path × Text) := []
  deriving Repr, DecidableEq

/-- The tree with what a run wrote. -/
def Result.settle (r : Result) (t : FileTree) : FileTree :=
  r.writes.foldl (fun t w => (t.write? w.1 w.2).getD t) t

/-- A text on a line of its own. -/
def line (t : Text) : Text := t ++ ['\n']

/-- The result of a computation: a failure prints nothing. -/
def conclude {α : Type} (x : Traced BatchError α) (f : α → Result) : Result :=
  match x.outcome with
  | .error e => { exitCode := 2, notes := x.notes ++ [⟨.error, e.message⟩] }
  | .ok a => { f a with notes := x.notes ++ (f a).notes }

/-! ## §3. Commands. -/

/-- Where a command looks for files. -/
def roots (s : Settings) : List Path :=
  if s.arguments.isEmpty then [['.']] else s.arguments

/-- The configuration of a run; the number of threads can be given as an
option. -/
def config (t : FileTree) (s : Settings) : Traced BatchError Config := do
  let c ← Config.resolve t s.config
  return { c with jobs := s.jobs.or c.jobs }

/-- What a batch run is asked for. -/
def batchOptions (s : Settings) : Options :=
  { roots := roots s, vars := s.vars, dryRun := s.dryRun }

/-- Prints a report; a dry run lists what would change. -/
def reportResult (s : Settings) (r : Report) : Result :=
  { exitCode := if r.isSuccess then 0 else 1
    output := (if s.dryRun then r.changed.flatMap line else []) ++ line r.summary.toList
    writes := if s.dryRun then [] else r.changes }

/-- Prints the variables of a corpus, or writes them to a file. -/
def corpusResult (t : FileTree) (s : Settings) (v : Template.CorpusVars) : Result :=
  match s.output with
  | none => { exitCode := 0, output := line v.toJson }
  | some p =>
    if (t.write? p (line v.toJson)).isSome then
      { exitCode := 0, notes := [⟨.info, s!"wrote {p.str}"⟩], writes := [(p, line v.toJson)] }
    else { exitCode := 2, notes := [⟨.error, (BatchError.unwritable p).message⟩] }

/-- Prints an expression, qualified. -/
def exprResult (s : Settings) : Result :=
  let r := Expr.qualify (NameSet.ofList s.bound) (s.arguments.head?.getD [])
  match r.outcome with
  | .ok out => { exitCode := 0, output := line out, notes := r.notes }
  | .error e => { exitCode := 2, notes := r.notes ++ [⟨.error, e.message⟩] }

/-- Runs a command. -/
def runCommand (t : FileTree) (s : Settings) : Command → Result
  | .upgrade => conclude (config t s >>= fun c => (upgrade c (batchOptions s) t).1) (reportResult s)
  | .xpath => conclude (config t s >>= fun c => (xpath c (batchOptions s) t).1) (reportResult s)
  | .aggregate => conclude (config t s >>= fun c => aggregate t c (roots s)) (corpusResult t s)
  | .expr => exprResult s

/-- The notes that a run shows: the more verbose, the more of them. -/
def shownLevel (s : Settings) : Level :=
  match s.verbosity with
  | 0 => .info
  | 1 => .debug
  | _ => .trace

/-- Runs the program. -/
def run (t : FileTree) (args : List Text) : Result :=
  match readArguments args with
  | .error .version => { exitCode := 0, output := versionLine }
  | .error .usage => { exitCode := 2 }
  | .ok (c, s) =>
    let r := runCommand t s c
    { r with notes := Note.visible (shownLevel s) r.notes }

end QwebReceiver.CommandLine
