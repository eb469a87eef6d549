import QwebReceiver.Json.Skip

/-!
  QwebReceiver.Json.Layout — arrays and objects on lines of their own.

  Each item stands on its own line, two blanks further in than its bracket; a
  bracket without items closes where it opens.
-/

namespace QwebReceiver.Json

/-- How a bracket opens. -/
def Bracket.opening : Bracket → Char
  | .array => '['
  | .object => '{'

/-- The margin of a line. -/
def margin (depth : Nat) : Text := List.replicate (2 * depth) ' '

/-- Items on lines of their own, divided by commas. -/
def writeLines (depth : Nat) : List Text → Text
  | [] => []
  | [item] => '\n' :: margin depth ++ item
  | item :: rest => '\n' :: margin depth ++ item ++ ',' :: writeLines depth rest

/-- A bracket with its items; the bracket stands on a line of this depth. -/
def writeBlock (b : Bracket) (depth : Nat) : List Text → Text
  | [] => [b.opening, b.close]
  | items => b.opening :: writeLines (depth + 1) items ++ '\n' :: margin depth ++ [b.close]

/-- A member of an object. -/
def writeMember (name value : Text) : Text := writeQuoted name ++ ':' :: ' ' :: value

end QwebReceiver.Json
