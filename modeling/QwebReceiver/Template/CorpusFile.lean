import QwebReceiver.Json.Layout
import QwebReceiver.Json.Value
import QwebReceiver.Template.Corpus

/-!
  QwebReceiver.Template.CorpusFile — the variables of a corpus as a file.

    {
      "outside_vars": { template: [variable, …], … },
      "inside_vars":  { template: [variable, …], … }
    }

  Either map may be left out.  A template that is named twice keeps its first
  place and its last variables.
-/

namespace QwebReceiver.Template

open QwebReceiver.Json

/-! ## §1. Reading. -/

/-- A set of names. -/
def nameSetReader : Reader NameSet := (array string).map NameSet.ofList

/-- Variables by template. -/
def varMapReader : Reader VarMap :=
  object ∅ fun m name => .ok (nameSetReader.map fun vars => m.put name vars)

def outsideKey : Text := "outside_vars".toList

def insideKey : Text := "inside_vars".toList

/-- The fields of a corpus file. -/
def corpusFields : List (RecordField CorpusVars) :=
  [⟨outsideKey, fun v => varMapReader.map fun outside => { v with outside }⟩,
    ⟨insideKey, fun v => varMapReader.map fun inside => { v with inside }⟩]

/-- Reads a corpus file. -/
def CorpusVars.ofJson (t : Text) : Except JsonError CorpusVars :=
  (record {} corpusFields).whole t

/-! ## §2. Writing. -/

/-- Variables by template, on a line of the given depth. -/
def writeVarMap (depth : Nat) (m : VarMap) : Text :=
  writeBlock .object depth <| m.entries.map fun e =>
    writeMember e.1 (writeBlock .array (depth + 1) (e.2.toList.map writeQuoted))

/-- Writes a corpus file. -/
def CorpusVars.toJson (v : CorpusVars) : Text :=
  writeBlock .object 0
    [writeMember outsideKey (writeVarMap 1 v.outside), writeMember insideKey (writeVarMap 1 v.inside)]

end QwebReceiver.Template
