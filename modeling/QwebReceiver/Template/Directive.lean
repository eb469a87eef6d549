import QwebReceiver.Markup.Node
import QwebReceiver.Text.CharClass

/-!
  QwebReceiver.Template.Directive — which attributes hold an expression.

  The kind of an attribute depends on its name and on whether its element is a
  component; the first row that applies decides:

    name                                     kind
    a listed directive (t-if, t-esc, …)      directive
    t-on-…                                   event handler
    t-attf-…, t-call, t-ref, t-slot          dynamic string
    t-att-…                                  computed attribute
    of a component, unless it starts with
      t- or ends with .translate             property
    any other                                none
-/

namespace QwebReceiver.Template

open QwebReceiver.Markup

/-! ## §1. Names. -/

def nameAttr : Text := "t-name".toList
def inheritAttr : Text := "t-inherit".toList
def callAttr : Text := "t-call".toList
def setAttr : Text := "t-set".toList
def asAttr : Text := "t-as".toList
def slotScopeAttr : Text := "t-slot-scope".toList
def componentAttr : Text := "t-component".toList

/-- Attributes whose whole value is an expression. -/
def directives : List Text :=
  ["t-esc", "t-out", "t-value", "t-key", "t-if", "t-elif", "t-foreach", "t-component", "t-props",
    "t-model", "t-tag", "t-call-context"].map String.toList

/-- Attributes that hold text with interpolations. -/
def dynamicAttributes : List Text := ["t-call", "t-ref", "t-slot"].map String.toList

def eventStart : Text := "t-on-".toList
def computedStart : Text := "t-att-".toList
def dynamicStart : Text := "t-attf-".toList
def directiveStart : Text := "t-".toList

/-- How the name of a property ends that is text for translators. -/
def translateEnd : Text := ".translate".toList

/-! ## §2. Kinds. -/

/-- How the value of an attribute is read. -/
inductive AttributeKind where
  | directive
  | event
  | dynamicString
  | computed
  | property
  deriving Repr, DecidableEq

def isDirective (name : Text) : Bool := directives.contains name

/-- The kind of an attribute of that name. -/
def attributeKind? (name : Text) (component : Bool) : Option AttributeKind :=
  if isDirective name then some .directive
  else if eventStart.isPrefixOf name then some .event
  else if dynamicStart.isPrefixOf name || dynamicAttributes.contains name then some .dynamicString
  else if computedStart.isPrefixOf name then some .computed
  else if component && !directiveStart.isPrefixOf name && !translateEnd.isSuffixOf name then
    some .property
  else none

/-- Whether a tag is that of a component: its name starts with a capital
letter, or it names a component. -/
def isComponent (t : Tag) : Bool :=
  (t.name.head?.map Text.isUppercase).getD false || t.has componentAttr

/-- Whether a tag starts a template. -/
def isTemplate (t : Tag) : Bool := t.has nameAttr

/-! ## §3. Patches. -/

def selectorTag : Text := "xpath".toList
def selectorAttr : Text := "expr".toList
def patchTag : Text := "attribute".toList
def patchNameAttr : Text := "name".toList

/-- Whether a selector starts at a component: `//` and a capital letter. -/
def selectsComponent : Text → Bool
  | '/' :: '/' :: c :: _ => Text.isAsciiUpper c
  | _ => false

/-- Whether a patch of the attribute `name` on what `selector` selects holds
an expression. -/
def isExpressionPatch (name selector : Text) : Bool :=
  isDirective name || eventStart.isPrefixOf name || computedStart.isPrefixOf name ||
    Text.occursIn componentAttr selector || selectsComponent selector

end QwebReceiver.Template
