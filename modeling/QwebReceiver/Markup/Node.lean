import QwebReceiver.Draft
import QwebReceiver.Markup.Token

/-!
  QwebReceiver.Markup.Node — the tree of a document.

  Values stand in the tree decoded, next to the spelling they were read from;
  editing a document means replacing values, never adding or removing nodes.
  `visit` is the one traversal: it edits an element and then the elements
  below the result, in document order.
-/

namespace QwebReceiver.Markup

/-! ## §1. Nodes. -/

/-- An attribute with its current value and the spelling it was read from. -/
structure Attribute where
  name : Text
  value : Text
  quote : Char
  spelling : Spelling
  nameSpan : Span
  /-- The inside of the quotes. -/
  valueSpan : Span
  deriving Repr, DecidableEq

namespace Attribute

/-- From the name to the closing quote. -/
def span (a : Attribute) : Span := ⟨a.nameSpan.start, a.valueSpan.stop.step a.quote⟩

/-- Whether the value differs from the one that was read. -/
def isModified (a : Attribute) : Bool := a.value != a.spelling.decoded

end Attribute

/-- A start tag. -/
structure Tag where
  name : Text
  attributes : List Attribute
  span : Span
  deriving Repr, DecidableEq

namespace Tag

/-- The value of the attribute of that name. -/
def get? (t : Tag) (name : Text) : Option Text :=
  (t.attributes.find? fun a => a.name = name).map Attribute.value

/-- Whether there is an attribute of that name. -/
def has (t : Tag) (name : Text) : Bool := t.attributes.any fun a => a.name = name

/-- The value of the attribute of that name, if it is not empty. -/
def nonEmpty? (t : Tag) (name : Text) : Option Text :=
  (t.get? name).filter fun v => !v.isEmpty

/-- The tag with another value for the first attribute of that name. -/
def set (t : Tag) (name value : Text) : Tag :=
  { t with attributes := go t.attributes }
where
  /-- Replaces the value of the first attribute of that name. -/
  go : List Attribute → List Attribute
    | [] => []
    | a :: rest => if a.name = name then { a with value } :: rest else a :: go rest

end Tag

/-- Character data: text, or the inside of a CDATA section. -/
structure CharData where
  value : Text
  spelling : Spelling
  cdata : Bool
  span : Span
  deriving Repr, DecidableEq

/-- Whether the value differs from the one that was read. -/
def CharData.isModified (d : CharData) : Bool := d.value != d.spelling.decoded

/-- A node of a document. -/
inductive Node where
  /-- An element; `close` is its closing tag, if it has one. -/
  | element (tag : Tag) (children : List Node) (close : Option Span)
  | text (data : CharData)
  | comment (value : Text) (span : Span)
  | instruction (value : Text) (span : Span)
  | doctype (value : Text) (span : Span)
  deriving Repr

/-! ## §2. Elements. -/

/-- An element, taken out of its node. -/
structure Element where
  tag : Tag
  children : List Node
  close : Option Span
  deriving Repr

namespace Element

/-- Whether the element has no closing tag. -/
def isEmptyTag (e : Element) : Bool := e.close.isNone

/-- From the start tag to the closing tag. -/
def span (e : Element) : Span := ⟨e.tag.span.start, (e.close.getD e.tag.span).stop⟩

/-- The text at the start of the content, before any other node. -/
def leadingText? (e : Element) : Option Text :=
  match e.children with
  | .text data :: _ => some data.value
  | _ => none

end Element

namespace Node

/-- The node as an element. -/
def element? : Node → Option Element
  | .element tag children close => some ⟨tag, children, close⟩
  | _ => none

/-- The start tag of an element. -/
def tag? : Node → Option Tag
  | .element tag _ _ => some tag
  | _ => none

/-- The elements among some nodes. -/
def elementsOf (nodes : List Node) : List Element := nodes.filterMap element?

mutual

/-- An element and all elements below it, in document order. -/
def descendants : Node → List Element
  | .element tag children close => ⟨tag, children, close⟩ :: descendantsOf children
  | _ => []

/-- The elements of some nodes and all elements below them. -/
def descendantsOf : List Node → List Element
  | [] => []
  | n :: rest => descendants n ++ descendantsOf rest

end

mutual

/-- The tags of an element and of the elements below it that `enter` admits;
what stands below an element that is not admitted is left out too. -/
def tagsWithin (enter : Tag → Bool) : Node → List Tag
  | .element tag children _ => tag :: tagsWithinOf enter children
  | _ => []

/-- The tags within those nodes that `enter` admits. -/
def tagsWithinOf (enter : Tag → Bool) : List Node → List Tag
  | [] => []
  | n :: rest =>
    (if (n.tag?.map enter).getD false then tagsWithin enter n else []) ++ tagsWithinOf enter rest

end

mutual

/-- How many elements are nested in one another. -/
def height : Node → Nat
  | .element _ children _ => heightOf children + 1
  | _ => 0

/-- The greatest height of some nodes. -/
def heightOf : List Node → Nat
  | [] => 0
  | n :: rest => max (height n) (heightOf rest)

end

/-! ## §3. Editing. -/

variable {ε : Type}

/-- Edits the start tag of an element. -/
def editTag (f : Tag → Draft ε Tag) : Node → Draft ε Node
  | .element tag children close => (f tag).map fun tag => .element tag children close
  | n => .done n

/-- The element with another value for its leading text. -/
def setLeadingText (value : Text) : Node → Node
  | .element tag (.text data :: rest) close =>
    .element tag (.text { data with value } :: rest) close
  | n => n

/-- Edits an element and then, in document order, the elements below the
result that `enter` admits, each followed by those below it.  `depth` bounds
the nesting. -/
def visitWithin (enter : Tag → Bool) (f : Node → Draft ε Node) : Nat → Node → Draft ε Node
  | depth + 1, .element tag children close =>
    (f (.element tag children close)).andThen fun n =>
      match n with
      | .element tag children close =>
        (Draft.each (fun c => if (c.tag?.map enter).getD false then visitWithin enter f depth c
          else .done c) children).map fun children => .element tag children close
      | n => .done n
  | _, n => .done n

/-- Edits an element and then the admitted elements below it.  Edits keep the
shape of the tree, so its height bounds the nesting. -/
def visit (enter : Tag → Bool) (f : Node → Draft ε Node) (n : Node) : Draft ε Node :=
  visitWithin enter f n.height n

/-- Edits an element and then all elements below it. -/
def visitAll (f : Node → Draft ε Node) (n : Node) : Draft ε Node := visit (fun _ => true) f n

mutual

/-- Edits the `k`-th element of a node, counted in document order from zero.
A node with fewer elements answers how many it lacks. -/
def editAt (f : Node → Draft ε Node) (k : Nat) : Node → Except Nat (Draft ε Node)
  | .element tag children close =>
    match k with
    | 0 => .ok (f (.element tag children close))
    | k + 1 =>
      match editAtOf f k children with
      | .error left => .error left
      | .ok d => .ok (d.map fun children => .element tag children close)
  | _ => .error k

/-- Edits the `k`-th element of some nodes. -/
def editAtOf (f : Node → Draft ε Node) (k : Nat) : List Node → Except Nat (Draft ε (List Node))
  | [] => .error k
  | n :: rest =>
    match editAt f k n with
    | .ok d => .ok (d.map (· :: rest))
    | .error left =>
      match editAtOf f left rest with
      | .error left => .error left
      | .ok d => .ok (d.map (n :: ·))

end

/-- A value that was changed: the name of its element and of its attribute, or
`#text` and nothing. -/
structure Change where
  element : Text
  name : Text
  value : Text

mutual

/-- The changed values of a node: attributes in order, then what is below. -/
def changes : Node → List Change
  | .element tag children _ =>
    (tag.attributes.filter Attribute.isModified).map (fun a => ⟨tag.name, a.name, a.value⟩)
      ++ changesOf children
  | .text data => if data.isModified then [⟨"#text".toList, [], data.value⟩] else []
  | _ => []

/-- The changed values of some nodes. -/
def changesOf : List Node → List Change
  | [] => []
  | n :: rest => changes n ++ changesOf rest

end

end Node
end QwebReceiver.Markup
