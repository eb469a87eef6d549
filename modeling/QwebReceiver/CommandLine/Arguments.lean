import QwebReceiver.Files.Path
import QwebReceiver.Json.Numeral

/-!
  QwebReceiver.CommandLine.Arguments — the arguments of the program.

    [options] command [options] [arguments]

    command      its own options            arguments
    upgrade      --vars FILE  --dry-run     files or directories
    xpath        --vars FILE  --dry-run     files or directories
    aggregate    -o, --output FILE          files or directories
    expr         -b, --bound NAME …         one expression

  `-c`, `--config PATH`, `-j`, `--jobs N` and `-v`, `--verbose` may stand
  before and after the command; after it wins.  `-V`, `--version` stands
  before it.  A value follows its option as the next argument or after `=`,
  with a short option also directly; the next argument is no value if it looks
  like an option.  Short options may be run together.  After `--` everything
  is an argument.  Arguments are taken in order, and the first fault ends the
  reading.
-/

namespace QwebReceiver.CommandLine

open QwebReceiver.Files

/-! ## §1. Options. -/

/-- An option of the program. -/
inductive Opt where
  | config
  | jobs
  | verbose
  | version
  | vars
  | dryRun
  | output
  | bound
  deriving Repr, DecidableEq

namespace Opt

/-- The long name. -/
def long : Opt → Text
  | .config => "config".toList
  | .jobs => "jobs".toList
  | .verbose => "verbose".toList
  | .version => "version".toList
  | .vars => "vars".toList
  | .dryRun => "dry-run".toList
  | .output => "output".toList
  | .bound => "bound".toList

/-- The short name. -/
def short? : Opt → Option Char
  | .config => some 'c'
  | .jobs => some 'j'
  | .verbose => some 'v'
  | .version => some 'V'
  | .output => some 'o'
  | .bound => some 'b'
  | .vars => none
  | .dryRun => none

/-- Whether the option takes a value. -/
def takesValue : Opt → Bool
  | .config | .jobs | .vars | .output | .bound => true
  | .verbose | .version | .dryRun => false

/-- The options that may stand before and after the command. -/
def shared : List Opt := [.config, .jobs, .verbose]

end Opt

/-- What the program can be asked to do. -/
inductive Command where
  | upgrade
  | xpath
  | aggregate
  | expr
  deriving Repr, DecidableEq

namespace Command

/-- The command of a name. -/
def ofName? (name : Text) : Option Command :=
  if name = "upgrade".toList then some .upgrade
  else if name = "xpath".toList then some .xpath
  else if name = "aggregate".toList then some .aggregate
  else if name = "expr".toList then some .expr
  else none

/-- The options that may stand after the command. -/
def options : Command → List Opt
  | .upgrade => Opt.shared ++ [.vars, .dryRun]
  | .xpath => Opt.shared ++ [.vars, .dryRun]
  | .aggregate => Opt.shared ++ [.output]
  | .expr => Opt.shared ++ [.bound]

end Command

/-! ## §2. Settings. -/

/-- What the options and arguments of one level say. -/
structure Settings where
  config : Option Path := none
  jobs : Option Nat := none
  verbosity : Nat := 0
  vars : Option Path := none
  dryRun : Bool := false
  output : Option Path := none
  bound : List Text := []
  arguments : List Text := []
  deriving Repr, DecidableEq

/-- Why the reading of arguments ends early. -/
inductive Stop where
  | usage
  | version
  deriving Repr, DecidableEq

/-- A number of 64 bits in decimal digits, with or without a plus sign. -/
def readCount? (t : Text) : Option Nat :=
  let ds := match t with
    | '+' :: r => r
    | t => t
  if ds.isEmpty || !ds.all Text.isAsciiDigit || Json.maxWord < Json.decimalValue ds then none
  else some (Json.decimalValue ds)

namespace Settings

/-- A path, which cannot be empty, given for the first time. -/
def firstPath (old : Option Path) (p : Path) : Except Stop (Option Path) :=
  if old.isSome || p.isEmpty then .error .usage else .ok (some p)

/-- Takes an option with its value. -/
def setValue (s : Settings) (value : Text) : Opt → Except Stop Settings
  | .config => (firstPath s.config value).map fun config => { s with config }
  | .vars => (firstPath s.vars value).map fun vars => { s with vars }
  | .output => (firstPath s.output value).map fun output => { s with output }
  | .jobs =>
    match s.jobs, readCount? value with
    | none, some n => .ok { s with jobs := some n }
    | _, _ => .error .usage
  | .bound => .ok { s with bound := s.bound ++ [value] }
  | .verbose | .version | .dryRun => .error .usage

/-- Takes an option without a value. -/
def setFlag (s : Settings) : Opt → Except Stop Settings
  | .verbose => .ok { s with verbosity := s.verbosity + 1 }
  | .version => .error .version
  | .dryRun => if s.dryRun then .error .usage else .ok { s with dryRun := true }
  | .config | .vars | .output | .jobs | .bound => .error .usage

/-- The settings after the command, with those before it where it has none. -/
def withDefaults (s before : Settings) : Settings :=
  { s with
    config := s.config.or before.config
    jobs := s.jobs.or before.jobs
    verbosity := if s.verbosity = 0 then before.verbosity else s.verbosity }

end Settings

/-! ## §3. Reading. -/

/-- Whether an argument looks like an option. -/
def looksLikeOption (a : Text) : Bool := a.head? == some '-' && a != ['-']

/-- Takes a long option: the settings, and the option if its value is still to
come. -/
def readLong (known : List Opt) (s : Settings) (body : Text) :
    Except Stop (Settings × Option Opt) :=
  let name := body.takeWhile (· != '=')
  match known.find? fun o => o.long = name, body.dropWhile (· != '=') with
  | none, _ => .error .usage
  | some o, [] => if o.takesValue then .ok (s, some o) else (s.setFlag o).map fun s => (s, none)
  | some o, _ :: value => (s.setValue value o).map fun s => (s, none)

/-- Takes short options that are run together. -/
def readShort (known : List Opt) (s : Settings) : Text → Except Stop (Settings × Option Opt)
  | [] => .ok (s, none)
  | c :: r =>
    match known.find? fun o => o.short? = some c with
    | none => .error .usage
    | some o =>
      if o.takesValue then
        match r with
        | [] => .ok (s, some o)
        | '=' :: value => (s.setValue value o).map fun s => (s, none)
        | value => (s.setValue value o).map fun s => (s, none)
      else
        match s.setFlag o with
        | .error e => .error e
        | .ok s => readShort known s r

/-- Takes an argument that looks like an option. -/
def readOption (known : List Opt) (s : Settings) : Text → Except Stop (Settings × Option Opt)
  | '-' :: '-' :: body => readLong known s body
  | '-' :: body => readShort known s body
  | _ => .error .usage

/-- Takes what stands after the command. -/
def readRest (known : List Opt) (s : Settings) : List Text → Except Stop Settings
  | [] => .ok s
  | a :: rest =>
    if a = ['-', '-'] then .ok { s with arguments := s.arguments ++ rest }
    else if looksLikeOption a then
      match readOption known s a, rest with
      | .error e, _ => .error e
      | .ok (s, none), rest => readRest known s rest
      | .ok (_, some _), [] => .error .usage
      | .ok (s, some o), v :: rest =>
        -- what looks like an option is never a value
        if looksLikeOption v then .error .usage
        else
          match s.setValue v o with
          | .error e => .error e
          | .ok s => readRest known s rest
    else readRest known { s with arguments := s.arguments ++ [a] } rest

/-- Takes what stands before the command, and the command. -/
def readStart (s : Settings) : List Text → Except Stop (Settings × Command × List Text)
  | [] => .error .usage
  | a :: rest =>
    if looksLikeOption a then
      match readOption (.version :: Opt.shared) s a, rest with
      | .error e, _ => .error e
      | .ok (s, none), rest => readStart s rest
      | .ok (_, some _), [] => .error .usage
      | .ok (s, some o), v :: rest =>
        if looksLikeOption v then .error .usage
        else
          match s.setValue v o with
          | .error e => .error e
          | .ok s => readStart s rest
    else
      match Command.ofName? a with
      | none => .error .usage
      | some c => .ok (s, c, rest)

/-- Whether a command can be given these arguments. -/
def Command.accepts (c : Command) (arguments : List Text) : Bool :=
  match c with
  | .expr => arguments.length == 1
  | _ => arguments.all fun a => !a.isEmpty

/-- Reads the arguments of the program. -/
def readArguments (args : List Text) : Except Stop (Command × Settings) :=
  match readStart {} args with
  | .error e => .error e
  | .ok (before, c, rest) =>
    match readRest c.options {} rest with
    | .error e => .error e
    | .ok s => if c.accepts s.arguments then .ok (c, s.withDefaults before) else .error .usage

end QwebReceiver.CommandLine
