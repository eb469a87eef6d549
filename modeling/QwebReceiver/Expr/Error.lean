import QwebReceiver.Text

/-!
  QwebReceiver.Expr.Error — why an expression cannot be qualified.
-/

namespace QwebReceiver

/-- What is wrong with an expression. -/
inductive ExprError where
  /-- No token starts where `rest` starts. -/
  | unreadable (rest : Text)
  /-- The string literal that opens `rest` is never closed. -/
  | unterminatedString (rest : Text)
  /-- A closing bracket with nothing open before it. -/
  | unbalancedGroup (found : Char) (expr : Text)
  /-- `) =>` without the `(` that opens the parameters. -/
  | unmatchedArrow (expr : Text)
  deriving Repr, DecidableEq

/-- The error in words. -/
def ExprError.message : ExprError → String
  | .unreadable rest => s!"Tokenizer error near: {rest.str}"
  | .unterminatedString rest => s!"Invalid string literal: {rest.str}"
  | .unbalancedGroup found expr => s!"Unbalanced '{found}' in expression [{expr.str}]"
  | .unmatchedArrow expr =>
    s!"Arrow function parameters without a matching '(' in expression [{expr.str}]"

end QwebReceiver
