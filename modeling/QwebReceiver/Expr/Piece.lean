import QwebReceiver.Expr.Delimiter

/-!
  QwebReceiver.Expr.Piece — text with embedded expressions.

  Template literals and dynamic strings are both plain characters with holes
  in them; a hole keeps the delimiters it is written with.  Filling the holes
  with their own content gives the text back.
-/

namespace QwebReceiver.Expr

/-! ## §1. Pieces. -/

/-- A plain character, or an embedded expression between its delimiters. -/
inductive Piece where
  | plain (c : Char)
  | hole (opening inner closing : Text)
  deriving Repr, DecidableEq

namespace Piece

/-- The piece as it is written. -/
def render : Piece → Text
  | .plain c => [c]
  | .hole opening inner closing => opening ++ inner ++ closing

/-- The text that the pieces make up. -/
def renderAll (pieces : List Piece) : Text := pieces.flatMap render

/-! ## §2. Template literals. -/

/-- What a hole leaves is shorter than what its opening delimiter began. -/
theorem length_rest_lt {inner rest all k : Nat} (h : inner + rest + k = all) : rest < all + 2 := by
  omega

/-- The pieces of a template literal.  A backslash makes the next character
inert; an interpolation without its closing brace is plain text. -/
def ofTemplateLiteral (t : Text) : List Piece :=
  match t with
  | [] => []
  | '\\' :: c :: r => .plain '\\' :: .plain c :: ofTemplateLiteral r
  | '$' :: '{' :: r =>
    match h : closingBrace r with
    | some (inner, rest) =>
      have : rest.length < r.length + 2 := length_rest_lt (length_of_closing h)
      .hole ['$', '{'] inner ['}'] :: ofTemplateLiteral rest
    | none => .plain '$' :: ofTemplateLiteral ('{' :: r)
  | c :: r => .plain c :: ofTemplateLiteral r
termination_by t.length
decreasing_by
  · exact Nat.lt_succ_of_lt (Nat.lt_succ_self _)
  · assumption
  · exact Nat.lt_succ_self _
  · exact Nat.lt_succ_self _

/-! ## §3. Dynamic strings. -/

/-- The pieces of a dynamic string: `#` and one pair of braces, or two pairs of
braces.  An opening delimiter without its closing one is plain text. -/
def ofDynamicString (t : Text) : List Piece :=
  match t with
  | [] => []
  | '#' :: '{' :: r =>
    match h : closingBrace r with
    | some (inner, rest) =>
      have : rest.length < r.length + 2 := length_rest_lt (length_of_closing h)
      .hole ['#', '{'] inner ['}'] :: ofDynamicString rest
    | none => .plain '#' :: ofDynamicString ('{' :: r)
  | '{' :: '{' :: r =>
    match h : closingDoubleBrace r with
    | some (inner, rest) =>
      have : rest.length < r.length + 2 := length_rest_lt (length_of_closingDoubleFrom h)
      .hole ['{', '{'] inner ['}', '}'] :: ofDynamicString rest
    | none => .plain '{' :: ofDynamicString ('{' :: r)
  | c :: r => .plain c :: ofDynamicString r
termination_by t.length
decreasing_by
  · assumption
  · exact Nat.lt_succ_self _
  · assumption
  · exact Nat.lt_succ_self _
  · exact Nat.lt_succ_self _

end Piece
end QwebReceiver.Expr
