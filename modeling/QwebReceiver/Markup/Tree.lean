import QwebReceiver.Markup.Node
import QwebReceiver.Markup.Scan

/-!
  QwebReceiver.Markup.Tree — from tokens to nodes.

  Tokens are taken one at a time.  The builder holds the elements that are
  open, innermost first, and the start tag it is in, if any:

    token                    effect
    start of a tag           a start tag is begun
    attribute name, value    the start tag gets an attribute; the first of
                             two with one name wins and the second is reported
    end of a tag             the element is opened, or placed if it is empty
    closing tag              the innermost element is closed and placed; one
                             of another name is reported
    anything else            a node is placed; a start tag that was not ended
                             is dropped

  Elements still open at the end are reported, innermost first, and placed.
-/

namespace QwebReceiver.Markup

/-! ## §1. The builder. -/

/-- A start tag that is being read. -/
structure PartialTag where
  name : Text
  span : Span
  attributes : List Attribute := []
  /-- The attribute name that still lacks its value. -/
  naming : Option (Text × Span) := none

/-- An element whose closing tag is still to come. -/
structure OpenElement where
  tag : Tag
  children : List Node := []

/-- The nodes placed so far, the open elements (innermost first), the start
tag being read, and the problems met. -/
structure Builder where
  roots : List Node := []
  stack : List OpenElement := []
  partialTag : Option PartialTag := none
  problems : List Diagnostic := []

namespace Builder

/-- Places a node in the innermost open element. -/
def place (b : Builder) (n : Node) : Builder :=
  match b.stack with
  | [] => { b with roots := b.roots ++ [n] }
  | e :: outer => { b with stack := { e with children := e.children ++ [n] } :: outer }

/-- Reports a problem. -/
def report (b : Builder) (p : Problem) (span : Span) : Builder :=
  { b with problems := b.problems ++ [⟨p, span⟩] }

/-- A token outside of a start tag. -/
def content (b : Builder) (t : Token) : Builder :=
  match t.content with
  | .tagStart name => { b with partialTag := some { name, span := t.span } }
  | .closingTag name =>
    match b.stack with
    | e :: outer =>
      if e.tag.name = name then
        ({ b with stack := outer }).place (.element e.tag e.children (some t.span))
      else b.report (.unexpectedClosingTag name) t.span
    | [] => b.report (.unexpectedClosingTag name) t.span
  | .text value =>
    b.place (.text { value := value.decoded, spelling := value, cdata := false, span := t.span })
  | .cdata value =>
    b.place (.text { value, spelling := Spelling.plain value, cdata := true, span := t.span })
  | .comment value => b.place (.comment value t.span)
  | .instruction value => b.place (.instruction value t.span)
  | .doctype value => b.place (.doctype value t.span)
  | .endOfText => b
  | other => b.report (.misplacedToken other.kind) t.span

/-- A value for the attribute of that name. -/
def addAttribute (b : Builder) (p : PartialTag) (name : Text) (nameSpan : Span) (quote : Char)
    (value : Spelling) (valueSpan : Span) : Builder :=
  if p.attributes.any fun a => a.name = name then
    ({ b with partialTag := some { p with naming := none } }).report (.duplicateAttribute name)
      nameSpan
  else
    { b with
      partialTag := some { p with
        naming := none
        attributes := p.attributes ++
          [{ name, value := value.decoded, quote, spelling := value, nameSpan, valueSpan }] } }

/-- The tag that ends where `span` ends. -/
def finishTag (p : PartialTag) (span : Span) : Tag :=
  { name := p.name, attributes := p.attributes, span := ⟨p.span.start, span.stop⟩ }

/-- One token. -/
def step (b : Builder) (t : Token) : Builder :=
  match b.partialTag with
  | none => b.content t
  | some p =>
    let outside : Builder := { b with partialTag := none }
    match t.content with
    | .attributeName name =>
      { b with partialTag := some { p with naming := some (name, t.span) } }
    | .attributeValue quote value =>
      -- without a name before it the value is a stray token
      match p.naming with
      | some (name, span) => b.addAttribute p name span quote value t.span
      | none => outside.content t
    | .tagEnd =>
      { outside with stack := { tag := finishTag p t.span } :: outside.stack }
    | .tagEndEmpty => outside.place (.element (finishTag p t.span) [] none)
    | _ => outside.content t

/-! ## §2. The end of the text. -/

/-- Closes the open elements, innermost first: the nodes that are left to
place, and a problem for each element. -/
def unwind (last : List Node) : List OpenElement → List Node × List Diagnostic
  | [] => (last, [])
  | e :: outer =>
    let (nodes, problems) := unwind [.element e.tag (e.children ++ last) none] outer
    (nodes, ⟨.unclosedElement e.tag.name, e.tag.span⟩ :: problems)

/-- The nodes and the problems of a list of tokens. -/
def build (tokens : List Token) : List Node × List Diagnostic :=
  let b := tokens.foldl step {}
  let (nodes, problems) := unwind [] b.stack
  (b.roots ++ nodes, b.problems ++ problems)

end Builder

/-- The nodes of a text, as far as it can be read, and all its problems: the
one that stopped the reading first, then those of the tree. -/
def parse (content : Text) : List Node × List Diagnostic :=
  let (tokens, failure) := scan content
  let (nodes, problems) := Builder.build tokens
  (nodes, failure.toList ++ problems)

end QwebReceiver.Markup
