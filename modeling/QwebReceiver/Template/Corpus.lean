import QwebReceiver.Markup.Document
import QwebReceiver.Template.Binding
import QwebReceiver.Template.VarMap

/-!
  QwebReceiver.Template.Corpus — the variables that flow between templates.

  Two maps are gathered over all documents before any of them is qualified:

    outside n   variables set (`t-set`) inside a call (`t-call`) of `n`: the
                template `n` sees them
    inside n    variables that the template `n` binds itself: patches of `n`
                see them; a template that is inherited from has an entry, if
                only an empty one
-/

namespace QwebReceiver.Template

open QwebReceiver.Markup

/-! ## §1. Calls. -/

/-- The variables set in an element, the element included. -/
def setNames (e : Element) : List Text :=
  (Node.descendants (.element e.tag e.children e.close)).filterMap fun d => d.tag.nonEmpty? setAttr

/-- Adds the variables of one call to the map; an element that calls nothing
adds none. -/
def addCall (m : VarMap) (e : Element) : VarMap :=
  match e.tag.nonEmpty? callAttr with
  | none => m
  | some target => m.add target (setNames e)

/-- Adds the variables of all calls of a document. -/
def addCalls (m : VarMap) (d : Document) : VarMap := d.elements.foldl addCall m

/-! ## §2. Templates. -/

/-- The value of an attribute without its blank margins, if anything is left. -/
def trimmed? (t : Tag) (name : Text) : Option Text :=
  ((t.get? name).map Text.trim).filter fun v => !v.isEmpty

/-- The name of the template that an element is: its `t-name`, or the `id` of
a `template` element. -/
def templateName? (t : Tag) : Option Text :=
  (trimmed? t nameAttr).or
    (if t.name = "template".toList then trimmed? t "id".toList else none)

/-- Whether a tag is a loop. -/
def isLoop (t : Tag) : Bool := t.has "t-foreach".toList || t.has "t-for-each".toList

/-- The variables that one tag binds for the patches of its template. -/
def insideNames (t : Tag) : List Text :=
  (trimmed? t setAttr).toList ++
    (if isLoop t then
      ((trimmed? t asAttr).map loopNames).getD [] ++
        ((trimmed? t "t-foreach-index".toList).or (trimmed? t "t-index".toList)).toList
    else [])

/-- Adds what one element says: the template it inherits from, and its own
variables if it is a template. -/
def addTemplate (m : VarMap) (e : Element) : VarMap :=
  -- a template that is only inherited from is known too
  let m := match trimmed? e.tag inheritAttr with
    | none => m
    | some target => m.ensure target
  match templateName? e.tag with
  | none => m
  | some name =>
    m.add name ((Node.descendants (.element e.tag e.children e.close)).flatMap fun d =>
      insideNames d.tag)

/-- Adds the variables of all templates of a document. -/
def addTemplates (m : VarMap) (d : Document) : VarMap := d.elements.foldl addTemplate m

/-! ## §3. The corpus. -/

/-- Both maps of a corpus. -/
structure CorpusVars where
  outside : VarMap := ∅
  inside : VarMap := ∅

namespace CorpusVars

/-- Adds the variables of a document. -/
def aggregate (v : CorpusVars) (d : Document) : CorpusVars :=
  { outside := addCalls v.outside d, inside := addTemplates v.inside d }

/-- Adds the entries of another corpus. -/
def merge (v other : CorpusVars) : CorpusVars :=
  { outside := v.outside.merge other.outside, inside := v.inside.merge other.inside }

/-- The note that a document was gathered into the maps. -/
def gathered (v : CorpusVars) (d : Document) : Note :=
  ⟨.debug, s!"{d.source.url.str}: {v.outside.size} call targets, {v.inside.size} templates"⟩

end CorpusVars
end QwebReceiver.Template
