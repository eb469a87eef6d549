import QwebReceiver.NameSet
import QwebReceiver.Template.Directive

/-!
  QwebReceiver.Template.Binding — the variables a template binds itself.

  `t-set` and `t-slot-scope` bind the name they hold, `t-as` a loop variable
  with its companions.  A template below another one has a scope of its own.
-/

namespace QwebReceiver.Template

open QwebReceiver.Markup

/-- What a loop adds to the name of its variable to name its companions. -/
def companionEnds : List Text := ["_index", "_first", "_last", "_value"].map String.toList

/-- A loop variable and its companions. -/
def loopNames (name : Text) : List Text := name :: companionEnds.map (name ++ ·)

/-- The names that one tag binds. -/
def tagBindings (t : Tag) : List Text :=
  (t.nonEmpty? setAttr).toList ++ (t.nonEmpty? slotScopeAttr).toList ++
    ((t.nonEmpty? asAttr).map loopNames).getD []

/-- The names bound in an element, templates below it left out. -/
def boundNames (n : Node) : NameSet :=
  NameSet.ofList ((n.tagsWithin fun t => !isTemplate t).flatMap tagBindings)

end QwebReceiver.Template
