import QwebReceiver.Source.Location

/-!
  QwebReceiver.Markup.Problem — what can be wrong with markup, and where.
-/

namespace QwebReceiver.Markup

/-- Markup with an end mark of its own. -/
inductive Construct where
  | comment
  | instruction
  | cdata
  | doctype
  | attributeValue
  deriving Repr, DecidableEq

def Construct.label : Construct → String
  | .comment => "comment"
  | .instruction => "processing instruction"
  | .cdata => "CDATA section"
  | .doctype => "doctype"
  | .attributeValue => "attribute value"

/-- What the reader needed where it found something else. -/
inductive Expectation where
  | name
  | attributeOrTagEnd
  | equalsSign
  | tagEnd
  | quotedValue
  | noLessThan
  deriving Repr, DecidableEq

def Expectation.label : Expectation → String
  | .name => "expected a name"
  | .attributeOrTagEnd => "expected an attribute or the end of the tag"
  | .equalsSign => "expected '='"
  | .tagEnd => "expected '>'"
  | .quotedValue => "expected a quoted attribute value"
  | .noLessThan => "'<' is not allowed in attribute values"

/-- What is wrong. -/
inductive Problem where
  | unterminated (construct : Construct)
  /-- Another character, or the end of the text, where something was needed. -/
  | unexpected (found : Option Char) (expectation : Expectation)
  | unterminatedReference (body : Text)
  | unknownReference (body : Text)
  | unexpectedClosingTag (name : Text)
  | duplicateAttribute (name : Text)
  | unclosedElement (name : Text)
  /-- A token of a start tag outside of one. -/
  | misplacedToken (kind : String)
  deriving Repr, DecidableEq

/-- The problem in words. -/
def Problem.message : Problem → String
  | .unterminated construct => s!"Unterminated {construct.label}"
  | .unexpected none expectation => s!"Unexpected end of input, {expectation.label}"
  | .unexpected (some c) expectation => s!"Unexpected character \"{c}\", {expectation.label}"
  | .unterminatedReference body => s!"Unterminated character reference \"&{body.str}\""
  | .unknownReference body => s!"Unknown entity \"&{body.str};\""
  | .unexpectedClosingTag name => s!"Unexpected closing tag \"{name.str}\""
  | .duplicateAttribute name => s!"Duplicate attribute \"{name.str}\""
  | .unclosedElement name => s!"Unclosed element \"{name.str}\""
  | .misplacedToken kind => s!"Unexpected token {kind}"

/-- A problem and the stretch of source it is about. -/
structure Diagnostic where
  problem : Problem
  span : Span
  deriving Repr, DecidableEq

/-- The diagnostic with the surroundings of its place. -/
def Diagnostic.report (d : Diagnostic) (source : Source) : String :=
  d.span.start.report source d.problem.message

end QwebReceiver.Markup
