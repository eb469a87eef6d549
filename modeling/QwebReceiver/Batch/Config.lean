import QwebReceiver.Batch.Error
import QwebReceiver.Files.Tree
import QwebReceiver.Json.Value
import QwebReceiver.Trace

/-!
  QwebReceiver.Batch.Config — what a run works on.

    include                    patterns of the files in a directory
    exclude                    words that no path may contain
    external_inherit_prefixes  how the names of templates start that are
                               defined elsewhere
    jobs                       how many threads to work on

  Every field may be left out.
-/

namespace QwebReceiver.Batch

open QwebReceiver.Files
open QwebReceiver.Json

/-- The settings of a run. -/
structure Config where
  patterns : List Text := ["**/*.xml".toList]
  exclude : List Text := []
  external : List Text := ["web.".toList]
  jobs : Option Nat := none
  deriving Repr, DecidableEq

namespace Config

/-! ## §1. Reading. -/

/-- A list of texts. -/
def textsReader : Reader (List Text) := array string

/-- The fields of a configuration file. -/
def fields : List (RecordField Config) :=
  [⟨"include".toList, fun c => textsReader.map fun patterns => { c with patterns }⟩,
    ⟨"exclude".toList, fun c => textsReader.map fun exclude => { c with exclude }⟩,
    ⟨"external_inherit_prefixes".toList, fun c => textsReader.map fun external => { c with external }⟩,
    ⟨"jobs".toList, fun c => count?.map fun jobs => { c with jobs }⟩]

/-- Reads a configuration file. -/
def ofJson (t : Text) : Except JsonError Config := (record {} fields).whole t

/-- Loads the configuration file at a path. -/
def load (t : FileTree) (p : Path) : Except BatchError Config :=
  match t.readText? p with
  | none => .error (.unreadableConfig p)
  | some s =>
    match ofJson s with
    | .error _ => .error (.badConfig p)
    | .ok c => .ok c

/-- The configuration file that is looked for in the working directory. -/
def defaultPath : Path := "./qwebc.json".toList

/-- The settings of a run: those of the file that is asked for, else those of
the default file, else the defaults. -/
def resolve (t : FileTree) (asked : Option Path) : Traced BatchError Config :=
  match asked with
  | some p => .ofExcept (load t p)
  | none =>
    if t.isFile defaultPath then do
      .note .debug s!"using config {defaultPath.str}"
      .ofExcept (load t defaultPath)
    else pure {}

/-! ## §2. Meaning. -/

/-- Whether a path is left out of the run. -/
def excludes (c : Config) (p : Path) : Bool := c.exclude.any fun word => Text.occursIn word p

/-- Whether a template is defined elsewhere. -/
def isExternal (c : Config) (template : Text) : Bool :=
  c.external.any fun start => start.isPrefixOf template

/-- The most threads that a run may take. -/
def maxThreads : Nat := 65535

/-- How many threads a run works on; left open, it is one. -/
def threads (c : Config) : Nat :=
  match c.jobs with
  | none => 1
  | some n => min (max n 1) maxThreads

end Config
end QwebReceiver.Batch
