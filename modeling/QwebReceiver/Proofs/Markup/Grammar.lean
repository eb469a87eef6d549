import QwebReceiver.Markup.Document
import QwebReceiver.Proofs.Text.CharClass

/-!
  QwebReceiver.Proofs.Markup.Grammar — the grammar of markup, as its
  derivations.

  A derivation is a tree of forms; a form keeps every character of the text it
  derives, the blanks of a tag included.  `write` is the text derived, `Valid`
  the side conditions of the rules, and `node` the tree that a reader is to
  return for it.

    form          text
    comment       <!-- c -->          up to the first -->
    CDATA         <![CDATA[ c ]]>     up to the first ]]>
    instruction   <? c ?>             up to the first ?>
    declaration   <! d >              any other <!, up to the first > at
                                      square-bracket depth zero
    text          characters and references up to the next <
    empty         < name attributes blanks />
    element       < name attributes blanks > forms </ name blanks >
-/

namespace QwebReceiver.Markup

open QwebReceiver.Text

/-! ## §1. Forms and the text they derive. -/

/-- An attribute as it is written, with the blanks before it.  Nothing of the
text is lost, so the form can be written back. -/
structure AttributeForm where
  lead : Text
  name : Text
  beforeSign : Text
  afterSign : Text
  quote : Char
  value : Spelling
  deriving DecidableEq

/-- A start tag as it is written, up to its end mark.  The blanks behind the
last attribute are the trail. -/
structure TagForm where
  name : Text
  attributes : List AttributeForm
  trail : Text
  deriving DecidableEq

/-- Markup that holds no other markup.  Of these only a text can hold
references. -/
inductive Leaf where
  | comment (content : Text)
  | cdata (content : Text)
  | instruction (content : Text)
  | declaration (content : Text)
  | text (value : Spelling)
  deriving DecidableEq

/-- A derivation of one node: a leaf, an empty tag, or an element with its
content and the blanks in its closing tag. -/
inductive Form where
  | leaf (l : Leaf)
  /-- An element without a closing tag. -/
  | empty (tag : TagForm)
  /-- An element; `gap` are the blanks in its closing tag. -/
  | element (tag : TagForm) (children : List Form) (gap : Text)

/-- How a comment starts. -/
def commentStart : Text := "<!--".toList
/-- What ends a comment. -/
def commentEnd : Text := "-->".toList
/-- How a CDATA section starts. -/
def cdataStart : Text := "<![CDATA[".toList
/-- What ends a CDATA section. -/
def cdataEnd : Text := "]]>".toList
/-- How a processing instruction starts. -/
def instructionStart : Text := "<?".toList
/-- What ends a processing instruction. -/
def instructionEnd : Text := "?>".toList
/-- How a declaration starts; comments and CDATA sections go on in their own
ways. -/
def declarationStart : Text := "<!".toList
/-- How a closing tag starts. -/
def closingStart : Text := "</".toList
/-- How the tag of an element without content ends. -/
def emptyTagEnd : Text := "/>".toList
/-- How a start tag, a closing tag and a declaration end. -/
def tagEndMark : Text := ">".toList

namespace AttributeForm

/-- What stands before the value, its quote included. -/
def opening (a : AttributeForm) : Text :=
  a.lead ++ a.name ++ a.beforeSign ++ '=' :: (a.afterSign ++ [a.quote])

/-- The text of an attribute. -/
def write (a : AttributeForm) : Text := a.opening ++ a.value.raw ++ [a.quote]

/-- The text of some attributes. -/
def writeAll (attributes : List AttributeForm) : Text := attributes.flatMap write

end AttributeForm

/-- The text of a start tag up to its end mark. -/
def TagForm.write (t : TagForm) : Text :=
  '<' :: (t.name ++ AttributeForm.writeAll t.attributes ++ t.trail)

/-- The text of a closing tag. -/
def writeClosing (name gap : Text) : Text := closingStart ++ name ++ gap ++ tagEndMark

/-- The text of a leaf. -/
def Leaf.write : Leaf → Text
  | .comment c => commentStart ++ c ++ commentEnd
  | .cdata c => cdataStart ++ c ++ cdataEnd
  | .instruction c => instructionStart ++ c ++ instructionEnd
  | .declaration c => declarationStart ++ c ++ tagEndMark
  | .text v => v.raw

namespace Form

mutual

/-- The text that a form derives. -/
def write : Form → Text
  | .leaf l => l.write
  | .empty tag => tag.write ++ emptyTagEnd
  | .element tag children gap =>
    tag.write ++ tagEndMark ++ writeAll children ++ writeClosing tag.name gap

/-- The text that forms derive side by side. -/
def writeAll : List Form → Text
  | [] => []
  | f :: rest => f.write ++ writeAll rest

end

end Form

/-! ## §2. The side conditions. -/

/-- A name: a start and any number of parts, of the two classes of characters
that the scanner goes by. -/
def IsName (t : Text) : Prop := ∃ c r, t = c :: r ∧ isNameStart c = true ∧ ∀ x ∈ r, isNamePart x = true

/-- A run of blanks, possibly none. -/
def IsBlank (t : Text) : Prop := ∀ c ∈ t, isBlank c = true

/-- The end mark after the content is the first one: no shorter content is
followed by it. -/
def FirstEnd (mark content : Text) : Prop :=
  ∀ k < content.length, ¬ mark <+: (content ++ mark).drop k

/-- How many square brackets are open after a text, of which `depth` were open
before it; a closing one too many is ignored. -/
def depthAfter (depth : Nat) : Text → Nat
  | [] => depth
  | c :: r => depthAfter (if c = '[' then depth + 1 else if c = ']' then depth - 1 else depth) r

/-- The content of a declaration: no bracket is open at its end, and one is
open at every `>` inside. -/
def ClosesAtDepthZero (content : Text) : Prop :=
  depthAfter 0 content = 0 ∧ ∀ a b, content = a ++ '>' :: b → depthAfter 0 a ≠ 0

/-- A character that neither stops the value nor starts a reference, or a
reference with a meaning. -/
def Glyph.Valid (stop : Char → Bool) : Glyph → Prop
  | .plain c => c ≠ '&' ∧ stop c = false
  | .reference raw c => ∃ body, raw = '&' :: (body ++ [';']) ∧ decodeReference? body = some c

/-- What ends the value of an attribute, by right or by mistake.  A quote ends
it, and a `<` may not stand in it. -/
def stopsValue (quote c : Char) : Bool := c == quote || c == '<'

/-- What ends a text. -/
def stopsText (c : Char) : Bool := c == '<'

/-- The rules of an attribute.  The value has only references that mean
something, and no character that would end it. -/
structure AttributeForm.Valid (a : AttributeForm) : Prop where
  lead : IsBlank a.lead
  name : IsName a.name
  beforeSign : IsBlank a.beforeSign
  afterSign : IsBlank a.afterSign
  quote : a.quote = '"' ∨ a.quote = '\''
  value : ∀ g ∈ a.value, g.Valid (stopsValue a.quote)

/-- The rules of a start tag that reading it needs; its name is taken as long
as possible. -/
structure TagForm.Valid (t : TagForm) : Prop where
  name : IsName t.name
  maximal : StopsAt isNamePart (AttributeForm.writeAll t.attributes ++ t.trail)
  attributes : ∀ a ∈ t.attributes, a.Valid
  trail : IsBlank t.trail

/-- The names of the attributes differ.  Reading a tag does not need this, but
two attributes of one name are reported. -/
def TagForm.Distinct (t : TagForm) : Prop := (t.attributes.map AttributeForm.name).Nodup

/-- The rules of a leaf; a text is taken as long as possible, so what comes
after it matters: it ends before markup or at the end of the source. -/
def Leaf.Valid (rest : Text) : Leaf → Prop
  | .comment c => FirstEnd commentEnd c
  | .cdata c => FirstEnd cdataEnd c
  | .instruction c => FirstEnd instructionEnd c
  | .declaration c =>
    ¬ "--".toList <+: c ∧ ¬ "[CDATA[".toList <+: c ∧ ClosesAtDepthZero c
  | .text v => v ≠ [] ∧ (∀ g ∈ v, g.Valid stopsText) ∧ StopsAt (fun c => !stopsText c) rest

namespace Form

mutual

/-- The rules of a form before the text `rest`.  What follows matters, since a
text goes on up to the next markup. -/
def Valid (rest : Text) : Form → Prop
  | .leaf l => l.Valid rest
  | .empty tag => tag.Valid ∧ tag.Distinct
  | .element tag children gap =>
    tag.Valid ∧ tag.Distinct ∧ IsBlank gap ∧
      ValidAll (writeClosing tag.name gap ++ rest) children

/-- The rules of forms side by side before the text `rest`, each before what the
later ones write. -/
def ValidAll (rest : Text) : List Form → Prop
  | [] => True
  | f :: more => f.Valid (writeAll more ++ rest) ∧ ValidAll rest more

end

end Form

/-! ## §3. The tree of a derivation. -/

/-- The attribute that a form at `here` stands for.  Its spans are found by
writing what stands before. -/
def AttributeForm.toAttribute (here : Location) (a : AttributeForm) : Attribute where
  name := a.name
  value := a.value.decoded
  quote := a.quote
  spelling := a.value
  nameSpan := ⟨here.after a.lead, (here.after a.lead).after a.name⟩
  valueSpan := ⟨here.after a.opening, (here.after a.opening).after a.value.raw⟩

/-- The attributes that forms from `here` on stand for. -/
def AttributeForm.attributesAt (here : Location) : List AttributeForm → List Attribute
  | [] => []
  | a :: rest => a.toAttribute here :: attributesAt (here.after a.write) rest

/-- Where forms stand has no part in the names of their attributes. -/
theorem names_attributesAt (here : Location) (as : List AttributeForm) :
    (AttributeForm.attributesAt here as).map Attribute.name = as.map AttributeForm.name := by
  induction as generalizing here with
  | nil => rfl
  | cons a as ih => rw [AttributeForm.attributesAt, List.map_cons, List.map_cons, ih]; rfl

/-- The start tag at `here` that ends with `mark`.  The two marks give the two
kinds of elements. -/
def TagForm.toTag (here : Location) (mark : Text) (t : TagForm) : Tag where
  name := t.name
  attributes := AttributeForm.attributesAt (here.after ('<' :: t.name)) t.attributes
  span := ⟨here, here.after (t.write ++ mark)⟩

/-- The node of a leaf at `here`. -/
def Leaf.node (here : Location) : Leaf → Node
  | .comment c => .comment c ⟨here, here.after (commentStart ++ c ++ commentEnd)⟩
  | .cdata c =>
    .text
      { value := c, spelling := Spelling.plain c, cdata := true,
        span := ⟨here.after cdataStart, (here.after cdataStart).after c⟩ }
  | .instruction c => .instruction c ⟨here, here.after (instructionStart ++ c ++ instructionEnd)⟩
  | .declaration c => .doctype c ⟨here, here.after (declarationStart ++ c ++ tagEndMark)⟩
  | .text v =>
    .text { value := v.decoded, spelling := v, cdata := false, span := ⟨here, here.after v.raw⟩ }

namespace Form

mutual

/-- The node of a form at `here`. -/
def node (here : Location) : Form → Node
  | .leaf l => l.node here
  | .empty tag => .element (tag.toTag here emptyTagEnd) [] none
  | .element tag children gap =>
    let inside := here.after (tag.write ++ tagEndMark)
    let close := inside.after (writeAll children)
    .element (tag.toTag here tagEndMark) (nodes inside children)
      (some ⟨close, close.after (writeClosing tag.name gap)⟩)

/-- The nodes of forms side by side from `here` on. -/
def nodes (here : Location) : List Form → List Node
  | [] => []
  | f :: rest => f.node here :: nodes (here.after f.write) rest

end

theorem writeAll_append (fs gs : List Form) : writeAll (fs ++ gs) = writeAll fs ++ writeAll gs := by
  induction fs with
  | nil => rfl
  | cons f fs ih => simp [writeAll, ih]

/-- The nodes of forms side by side: those further on start where the text
before them ends. -/
theorem nodes_append (here : Location) (fs gs : List Form) :
    nodes here (fs ++ gs) = nodes here fs ++ nodes (here.after (writeAll fs)) gs := by
  induction fs generalizing here with
  | nil => rfl
  | cons f fs ih => simp [nodes, writeAll, ih]

end Form
end QwebReceiver.Markup
