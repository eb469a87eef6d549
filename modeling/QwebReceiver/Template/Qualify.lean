import QwebReceiver.Selector
import QwebReceiver.Template.Corpus
import QwebReceiver.Template.Error

/-!
  QwebReceiver.Template.Qualify — qualifying whole documents.

  Each template is qualified against the variables it binds itself and those
  its callers set: first its attributes, kind by kind, then the patches in its
  `t-inherit` elements.  The selectors of a patch are expressions of the
  inherited template and see that template's variables alone; the patched
  values see both.  In a document without a named template every root element
  is a template.
-/

namespace QwebReceiver.Template

open QwebReceiver.Markup

/-! ## §1. Values. -/

/-- How a value is qualified. -/
abbrev Qualifier := NameSet → Text → Traced ExprError Text

/-- A value as far as it could be qualified, with a note if that changed it. -/
def qualifyValue (qualify : Qualifier) (bound : NameSet) (element name : Text)
    (changed : Text → String) (value : Text) : Draft ValueError Text :=
  let r := qualify bound value
  match r.outcome with
  | .error cause => { value, failure := some ⟨element, name, cause⟩, notes := r.notes }
  | .ok out =>
    if out = value then { value, notes := r.notes }
    else { value := out, notes := r.notes ++ [⟨.trace, changed out⟩] }

/-- Qualifies an attribute of an element. -/
def qualifyAttribute (qualify : Qualifier) (bound : NameSet) (element : Text) (a : Attribute) :
    Draft ValueError Attribute :=
  (qualifyValue qualify bound element a.name
    (fun out => s!"<{element.str} {a.name.str}>: `{a.value.str}` -> `{out.str}`") a.value).map
    fun value => { a with value }

/-- Qualifies those attributes of a tag for which `select` names a way. -/
def qualifyAttributes (select : Text → Option Qualifier) (bound : NameSet) (t : Tag) :
    Draft ValueError Tag :=
  (Draft.each (fun a =>
    match select a.name with
    | none => .done a
    | some qualify => qualifyAttribute qualify bound t.name a) t.attributes).map
    fun attributes => { t with attributes }

/-! ## §2. Attributes by kind. -/

/-- How attributes of a kind are qualified. -/
def AttributeKind.qualifier : AttributeKind → Qualifier
  | .dynamicString => Expr.qualifyDynamic
  | _ => Expr.qualify

/-- Qualifies the attributes of one kind in a template. -/
def qualifyKind (kind : AttributeKind) (bound : NameSet) (root : Node) : Draft ValueError Node :=
  root.visit (fun t => !isTemplate t) <| Node.editTag fun t =>
    qualifyAttributes
      (fun name => if attributeKind? name (isComponent t) = some kind then some kind.qualifier
        else none)
      bound t

/-- The kinds in the order in which they are qualified. -/
def kindOrder : List AttributeKind := [.directive, .event, .dynamicString, .computed, .property]

/-! ## §3. Patches. -/

/-- Qualifies a selector. -/
def qualifySelector : Qualifier := fun bound s =>
  Selector.qualify bound Selector.literalClauses s

/-- Qualifies a selector but for the templates it names. -/
def qualifySelectorOnly : Qualifier := fun bound s =>
  Selector.qualify bound (Selector.literalClauses ++ [Selector.callClause]) s

/-- Qualifies the selector of a tag. -/
def qualifySelectorAttr (qualify : Qualifier) (bound : NameSet) (t : Tag) : Draft ValueError Tag :=
  qualifyAttributes (fun name => if name = selectorAttr then some qualify else none) bound t

/-- Qualifies the patched value that an `attribute` element holds, if what
`selector` selects takes an expression there. -/
def qualifyPatch (bound : NameSet) (selector : Text) (n : Node) : Draft ValueError Node :=
  match n with
  | .element tag (.text data :: _) _ =>
    match tag.get? patchNameAttr with
    | some name =>
      if tag.name = patchTag && isExpressionPatch name selector then
        (qualifyValue Expr.qualify bound patchTag name
          (fun out => s!"<attribute name=\"{name.str}\">: `{data.value.str}` -> `{out.str}`")
          data.value).map fun value => n.setLeadingText value
      else .done n
    | none => .done n
  | _ => .done n

/-- Qualifies a selector element: its selector against the variables of the
inherited template, then the patched values below it against all variables.
What the selector selects is read off before it is qualified. -/
def qualifySelectorElement (inherited all : NameSet) (n : Node) : Draft ValueError Node :=
  match n with
  | .element tag _ _ =>
    match tag.get? selectorAttr with
    | some selector =>
      if tag.name = selectorTag then
        -- an empty selector selects nothing, but its patches are patches
        (if selector.isEmpty then .done n
          else n.editTag (qualifySelectorAttr qualifySelector inherited)).andThen
          (Node.visitAll (qualifyPatch all selector))
      else .done n
    | none => .done n
  | _ => .done n

/-- Qualifies the patches below an element that inherits from a template. -/
def qualifyInheriting (bound : NameSet) (inside : VarMap) (n : Node) : Draft ValueError Node :=
  match n.tag?.bind (·.get? inheritAttr) with
  | none => .done n
  | some target =>
    let inherited := (inside.get? target).getD ∅
    (Draft.noting .trace
      s!"patches of {target.str} use {inherited.size} inherited variables" n).andThen
      (Node.visitAll (qualifySelectorElement inherited (bound.union inherited)))

/-! ## §4. Templates and documents. -/

/-- Qualifies one template against the variables bound in it. -/
def qualifyTemplate (bound : NameSet) (inside : VarMap) (root : Node) : Draft ValueError Node :=
  -- one walk for each kind: the first failure is that of the earliest kind
  let attributes : Draft ValueError Node :=
    kindOrder.foldl (fun d kind => d.andThen (qualifyKind kind bound)) (Draft.done root)
  attributes.andThen (Node.visit (fun t => !isTemplate t) (qualifyInheriting bound inside))

/-- Qualifies a template that has a name, with what its callers set. -/
def qualifyNamed (vars : CorpusVars) (n : Node) : Draft ValueError Node :=
  match n.tag?.bind (·.get? nameAttr) with
  | none => .done n
  | some name =>
    let bound := (boundNames n).union ((vars.outside.get? name).getD ∅)
    (Draft.noting .debug s!"fixing template {name.str} ({bound.size} bound variables)" n).andThen
      (qualifyTemplate bound vars.inside)

/-- Qualifies a root element of a document without named templates. -/
def qualifyAnonymous (vars : CorpusVars) (n : Node) : Draft ValueError Node :=
  match n with
  | .element tag _ _ =>
    let bound := boundNames n
    (Draft.noting .debug
      s!"fixing anonymous template <{tag.name.str}> ({bound.size} bound variables)" n).andThen
      (qualifyTemplate bound vars.inside)
  | _ => .done n

/-- Qualifies every template of a document. -/
def qualifyDocument (vars : CorpusVars) (d : Document) : Draft ValueError Document :=
  if d.elements.any fun e => isTemplate e.tag then
    d.editRoots (Node.visitAll (qualifyNamed vars))
  else d.editRoots (qualifyAnonymous vars)

/-- Qualifies the selectors of the patches to the templates that `inside` has
an entry for, and nothing else. -/
def qualifySelectors (inside : VarMap) (d : Document) : Draft ValueError Document :=
  d.editRoots <| Node.visitAll fun n =>
    match (n.tag?.bind (·.get? inheritAttr)).bind inside.get? with
    | none => .done n
    | some inherited =>
      n.visitAll <| Node.editTag fun t =>
        if t.name = selectorTag then qualifySelectorAttr qualifySelectorOnly inherited t else .done t

/-! ## §5. Texts. -/

/-- The name by which a text without one goes. -/
def defaultUrl : Text := "template.xml".toList

/-- Reads a document, or lists its problems. -/
def readDocument (content url : Text) : Except TemplateError Document :=
  match Document.parse ⟨content, url⟩ with
  | .ok d => .ok d
  | .error problems => .error (.markup ⟨content, url⟩ problems)

/-- Edits the document that a text is and writes it out. -/
def editText (edit : Document → Draft ValueError Document) (content : Text) :
    Traced TemplateError Text :=
  match readDocument content defaultUrl with
  | .error e => .fail e
  | .ok d =>
    let r := edit d
    match r.failure with
    | some e => ⟨r.notes, .error (.value e)⟩
    | none => ⟨r.notes, .ok r.value.render⟩

/-- Qualifies every template of a text. -/
def qualifyText (vars : CorpusVars) (content : Text) : Traced TemplateError Text :=
  editText (qualifyDocument vars) content

/-- Qualifies only the selectors of patches to known templates. -/
def qualifyTextSelectors (inside : VarMap) (content : Text) : Traced TemplateError Text :=
  editText (qualifySelectors inside) content

/-- Adds the variables of a text to the maps. -/
def aggregateText (vars : CorpusVars) (content url : Text) : Traced TemplateError CorpusVars :=
  match readDocument content url with
  | .error e => .fail e
  | .ok d =>
    let vars := vars.aggregate d
    ⟨[vars.gathered d], .ok vars⟩

end QwebReceiver.Template
