import QwebReceiver.Markup.Problem
import QwebReceiver.Markup.Spelling
import QwebReceiver.Source.Cursor

/-!
  QwebReceiver.Markup.Token — the tokens of markup.

  A token keeps the stretch of source it was read from.  For the tokens whose
  content an edit may replace, that stretch is the content alone: the inside
  of the quotes of an attribute value, the inside of the markers of a CDATA
  section.
-/

namespace QwebReceiver.Markup

/-- What a token says. -/
inductive TokenContent where
  /-- `<` and the name of an element. -/
  | tagStart (name : Text)
  | attributeName (name : Text)
  | attributeValue (quote : Char) (value : Spelling)
  /-- `>` at the end of a start tag. -/
  | tagEnd
  /-- `/>` at the end of a start tag. -/
  | tagEndEmpty
  | closingTag (name : Text)
  | text (value : Spelling)
  | cdata (value : Text)
  | comment (value : Text)
  | instruction (value : Text)
  | doctype (value : Text)
  | endOfText
  deriving Repr, DecidableEq

/-- The name of a token's kind, as it appears in a message. -/
def TokenContent.kind : TokenContent → String
  | .tagStart _ => "TagOpenStart"
  | .attributeName _ => "AttrName"
  | .attributeValue _ _ => "AttrValue"
  | .tagEnd => "TagOpenEnd"
  | .tagEndEmpty => "TagOpenEndVoid"
  | .closingTag _ => "TagClose"
  | .text _ => "Text"
  | .cdata _ => "Cdata"
  | .comment _ => "Comment"
  | .instruction _ => "ProcessingInstruction"
  | .doctype _ => "DocType"
  | .endOfText => "Eof"

/-- The texts a token carries: a name, a quote, or the content as written. -/
def TokenContent.parts : TokenContent → List Text
  | .tagStart name | .attributeName name | .closingTag name => [name]
  | .attributeValue quote _ => [[quote]]
  | .text value => [value.raw]
  | .cdata value | .comment value | .instruction value | .doctype value => [value]
  | .tagEnd | .tagEndEmpty | .endOfText => []

/-- The spelling of a value that an edit may replace. -/
def TokenContent.spelling? : TokenContent → Option Spelling
  | .attributeValue _ value | .text value => some value
  | .cdata value => some (Spelling.plain value)
  | _ => none

/-- A token and the stretch of source it was read from. -/
structure Token where
  content : TokenContent
  span : Span
  deriving Repr, DecidableEq

end QwebReceiver.Markup
