import QwebReceiver.Markup.Tree

/-!
  QwebReceiver.Markup.Document — documents and how they are written out.

  A document is a source and its tree.  Writing it out copies the source, save
  the values that were changed: these are spliced in, spelled along the
  spelling they replace.  Layout, comments and the order of attributes stay.
-/

namespace QwebReceiver.Markup

/-- A source without problems, and its tree. -/
structure Document where
  source : Source
  nodes : List Node

/-- A stretch of the source, in bytes, and what stands in its place. -/
structure Replacement where
  start : Nat
  stop : Nat
  text : Text
  deriving Repr, DecidableEq

namespace Replacement

/-- Another text for a span. -/
def ofSpan (span : Span) (text : Text) : Replacement := ⟨span.start.offset, span.stop.offset, text⟩

/-- The replacement for the value of an attribute, if it was changed. -/
def ofAttribute? (a : Attribute) : Option Replacement :=
  if a.isModified then some (ofSpan a.valueSpan (a.spelling.encode a.value (some a.quote)))
  else none

/-- The replacement for character data, if it was changed; the inside of a
CDATA section is written as it is. -/
def ofCharData? (d : CharData) : Option Replacement :=
  if d.isModified then
    some (ofSpan d.span (if d.cdata then d.value else d.spelling.encode d.value none))
  else none

mutual

/-- The replacements of a node, in the order of the source. -/
def ofNode : Node → List Replacement
  | .element tag children _ => tag.attributes.filterMap ofAttribute? ++ ofNodes children
  | .text data => (ofCharData? data).toList
  | _ => []

/-- The replacements of some nodes, in the order of the source. -/
def ofNodes : List Node → List Replacement
  | [] => []
  | n :: rest => ofNode n ++ ofNodes rest

end

/-- Makes the replacements, which stand in the order of the source; `rest` is
the source from byte `start` on. -/
def splice (start : Nat) (rest : Text) : List Replacement → Text
  | [] => rest
  | e :: more =>
    rest.takeBytes (e.start - start) ++ e.text ++
      splice e.stop (rest.dropBytes (e.stop - start)) more

end Replacement

namespace Document

/-- Reads a source; all its problems if it has any. -/
def parse (source : Source) : Except (List Diagnostic) Document :=
  match Markup.parse source.content with
  | (nodes, []) => .ok ⟨source, nodes⟩
  | (_, problems) => .error problems

/-- Writes the document out. -/
def render (d : Document) : Text :=
  Replacement.splice 0 d.source.content (Replacement.ofNodes d.nodes)

/-- All elements, in document order. -/
def elements (d : Document) : List Element := Node.descendantsOf d.nodes

/-- Edits the root nodes from the first to the last. -/
def editRoots {ε : Type} (f : Node → Draft ε Node) (d : Document) : Draft ε Document :=
  (Draft.each f d.nodes).map fun nodes => { d with nodes }

/-- Edits the `k`-th element in document order, if there is one. -/
def editAt? {ε : Type} (f : Node → Draft ε Node) (k : Nat) (d : Document) :
    Option (Draft ε Document) :=
  match Node.editAtOf f k d.nodes with
  | .error _ => none
  | .ok e => some (e.map fun nodes => { d with nodes })

end Document
end QwebReceiver.Markup
