import QwebReceiver.Expr.Error
import QwebReceiver.Markup.Problem

/-!
  QwebReceiver.Template.Error — why a template cannot be qualified.

  Either its markup has problems, all of which are listed, or one of its
  values is not an expression; the first such value stops the work.
-/

namespace QwebReceiver.Template

/-- A value that cannot be qualified: the element and the attribute it belongs
to, and the cause. -/
structure ValueError where
  element : Text
  name : Text
  cause : ExprError
  deriving Repr, DecidableEq

/-- The error in words. -/
def ValueError.message (e : ValueError) : String :=
  s!"<{e.element.str} {e.name.str}>: {e.cause.message}"

/-- Why a template cannot be qualified. -/
inductive TemplateError where
  | markup (source : Source) (problems : List Markup.Diagnostic)
  | value (e : ValueError)
  deriving Repr, DecidableEq

/-- The error in words. -/
def TemplateError.message : TemplateError → String
  | .markup source problems =>
    "Template parse errors:\n" ++
      String.intercalate "\n" (problems.map fun d => d.report source)
  | .value e => e.message

/-- The error with its cause after it. -/
def TemplateError.chain : TemplateError → String
  | .markup source problems => (TemplateError.markup source problems).message
  | .value e => s!"{e.message}: {e.cause.message}"

end QwebReceiver.Template
