import QwebReceiver.Text

/-!
  QwebReceiver.Markup.Spelling — how a value is spelled in its source.

  A value is read decoded, but each of its characters was written either as
  itself or as a reference (`&amp;`, `&#8203;`).  A spelling remembers which,
  character by character, so that an edited value can be written with the
  references its author chose.
-/

namespace QwebReceiver.Markup

/-! ## §1. Spellings. -/

/-- A character as it was written. -/
inductive Glyph where
  | plain (c : Char)
  | reference (raw : Text) (c : Char)
  deriving Repr, DecidableEq

/-- The character meant. -/
def Glyph.char : Glyph → Char
  | .plain c => c
  | .reference _ c => c

/-- The characters written. -/
def Glyph.raw : Glyph → Text
  | .plain c => [c]
  | .reference raw _ => raw

/-- A value as it was written. -/
abbrev Spelling := List Glyph

namespace Spelling

/-- Text in which every character stands for itself. -/
def plain (t : Text) : Spelling := t.map Glyph.plain

/-- The value meant. -/
def decoded (s : Spelling) : Text := s.map Glyph.char

/-- The text written. -/
def raw (s : Spelling) : Text := s.flatMap Glyph.raw

/-- A run of plain characters, or one reference. -/
inductive Part where
  | literal (t : Text)
  | reference (raw : Text) (c : Char)
  deriving Repr, DecidableEq

/-- The spelling in runs: plain characters that stand side by side are one
part. -/
def parts : Spelling → List Part
  | [] => []
  | .reference raw c :: r => .reference raw c :: parts r
  | .plain c :: r =>
    match parts r with
    | .literal t :: ps => .literal (c :: t) :: ps
    | ps => .literal [c] :: ps

/-! ## §2. Writing an edited value. -/

/-- A character written so that it is read back, inside the given quote if any. -/
def escape (quote : Option Char) (c : Char) : Text :=
  if c = '&' then "&amp;".toList
  else if c = '<' then "&lt;".toList
  else if c = '"' ∧ quote = some '"' then "&quot;".toList
  else if c = '\'' ∧ quote = some '\'' then "&apos;".toList
  else [c]

/-- Writes a value along a spelling: a character that is the next one of the
spelling keeps its glyph, any other is escaped.  `none` if the spelling is
not used up, that is, if the value is not an insertion into it. -/
def aligned (quote : Option Char) : Spelling → Text → Option Text
  | [], [] => some []
  | _ :: _, [] => none
  | [], c :: r => (aligned quote [] r).map (escape quote c ++ ·)
  | g :: s, c :: r =>
    -- greedy: the first character that can be the next glyph is taken for it
    if g.char = c then (aligned quote s r).map (g.raw ++ ·)
    else (aligned quote (g :: s) r).map (escape quote c ++ ·)

/-- Writes a value in place of this spelling: along it where that is possible,
and else with every character escaped. -/
def encode (s : Spelling) (value : Text) (quote : Option Char) : Text :=
  (aligned quote s value).getD (value.flatMap (escape quote))

end Spelling
end QwebReceiver.Markup
