import QwebReceiver.Proofs.Markup.Subtree
import QwebReceiver.Proofs.Template.Effect

/-!
  QwebReceiver.Proofs.Template.Unplaced — edits that do not look at places.

  What an edit makes of a tree does not depend on where the tree was read
  (`IgnoresPlaces`).  The property is kept by the ways in which edits are put
  together, and so it holds of the edit of a named template
  (`ignoresPlaces_visitAll_qualifyNamed`).
-/

namespace QwebReceiver.Template

open QwebReceiver.Markup

variable {ε : Type}

/-! ## §1. What places do not decide. -/

/-- A tag without its place is the same tag, read from another place. -/
theorem alike_tag_unplaced (t : Tag) : t.Alike grown t.unplaced := by
  refine ⟨rfl, ?_, trivial⟩
  show List.Forall₂ grown.attr t.attributes (t.attributes.map Attribute.unplaced)
  rw [List.forall₂_map_right_iff]
  exact List.forall₂_same.2 fun a _ => ⟨rfl, Expr.Grows.refl a.value, fun _ => rfl⟩

mutual

/-- A tree without its places is the same tree, read from another place. -/
theorem alike_unplaced (first : Option Text) (n : Node) : n.Alike grown first n.unplaced := by
  cases n with
  | element tag children close =>
    refine ⟨_, _, _, rfl, alike_tag_unplaced tag, alikeAll_unplaced _ children, ?_⟩
    cases close with
    | none => exact .none
    | some s => exact .some trivial
  | text d => exact ⟨_, rfl, Expr.Grows.refl d.value⟩
  | comment v s => exact ⟨_, rfl, trivial⟩
  | instruction v s => exact ⟨_, rfl, trivial⟩
  | doctype v s => exact ⟨_, rfl, trivial⟩

/-- So are trees side by side. -/
theorem alikeAll_unplaced (first : Option Text) (ns : List Node) :
    Node.AlikeAll grown first ns (Node.unplacedAll ns) := by
  cases ns with
  | nil => rfl
  | cons n ns => exact ⟨_, _, rfl, alike_unplaced first n, alikeAll_unplaced none ns⟩

end

/-- The values of a tag do not depend on where it stands. -/
theorem get?_unplaced (t : Tag) (name : Text) : t.unplaced.get? name = t.get? name := by
  unfold Tag.get? Tag.unplaced
  rw [List.find?_map, Option.map_map]
  rfl

theorem tag?_unplaced (n : Node) : n.unplaced.tag? = n.tag?.map Tag.unplaced := by
  cases n <;> rfl

theorem tag?_get?_unplaced (n : Node) (name : Text) :
    n.unplaced.tag?.bind (·.get? name) = n.tag?.bind (·.get? name) := by
  rw [tag?_unplaced, Option.bind_map]
  exact congrArg n.tag?.bind (funext fun t => get?_unplaced t name)

/-! ## §2. Edits. -/

/-- The edit does the same wherever the tree stands.  A tree cut out of its
document is then compiled as it is within. -/
def IgnoresPlaces (f : Node → Draft ε Node) : Prop :=
  ∀ n, result (f n.unplaced) = (result (f n)).map Node.unplaced

section Edits

variable {f g : Node → Draft ε Node}

theorem ignoresPlaces_done : IgnoresPlaces (Draft.done : Node → Draft ε Node) := fun _ => rfl

/-- Two edits that do not look at places do not do so one after the other. -/
theorem IgnoresPlaces.andThen (hf : IgnoresPlaces f) (hg : IgnoresPlaces g) :
    IgnoresPlaces fun n => (f n).andThen g := by
  intro n
  rw [result_andThen, result_andThen, hf n]
  cases result (f n) with
  | none => rfl
  | some m => exact hg m

/-- An edit chosen by something that does not depend on places. -/
theorem IgnoresPlaces.of_key {κ : Type} (key : Node → κ) (edit : κ → Node → Draft ε Node)
    (hkey : ∀ n, key n.unplaced = key n) (hedit : ∀ k, IgnoresPlaces (edit k))
    (hf : ∀ n, result (f n) = result (edit (key n) n)) : IgnoresPlaces f := by
  intro n
  rw [hf, hf, hkey]
  exact hedit (key n) n

/-- An edit under a condition that does not look at places. -/
theorem IgnoresPlaces.ite {p : Node → Bool} (hp : ∀ n, p n.unplaced = p n) (hf : IgnoresPlaces f)
    (hg : IgnoresPlaces g) : IgnoresPlaces fun n => if p n = true then f n else g n := by
  refine IgnoresPlaces.of_key p (fun b n => if b = true then f n else g n) hp ?_ fun _ => rfl
  intro b
  cases b with
  | true => exact hf
  | false => exact hg

/-- One edit after the other. -/
theorem IgnoresPlaces.foldl {ι : Type} {step : ι → Node → Draft ε Node}
    (hstep : ∀ i, IgnoresPlaces (step i)) (l : List ι) (hf : IgnoresPlaces f) :
    IgnoresPlaces fun n => l.foldl (fun d i => d.andThen (step i)) (f n) := by
  induction l generalizing f with
  | nil => exact hf
  | cons i l ih => exact ih (hf.andThen (hstep i))

/-- What commutes with a function for each member does so for the list. -/
theorem mapM_map {α : Type} (u : α → α) (F : α → Option α) (h : ∀ a, F (u a) = (F a).map u)
    (as : List α) : (as.map u).mapM F = (as.mapM F).map (List.map u) := by
  induction as with
  | nil => rfl
  | cons a as ih =>
    rw [List.map_cons, List.mapM_cons, List.mapM_cons, ih, h]
    cases F a with
    | none => rfl
    | some b =>
      cases as.mapM F with
      | none => rfl
      | some bs => rfl

/-- An edit of what is below an element does not look at places if the edit of
each node does not. -/
theorem IgnoresPlaces.editChildren (hf : IgnoresPlaces f) : IgnoresPlaces (editChildren f) := by
  intro n
  cases n with
  | element tag children close =>
    rw [Node.unplaced, Template.editChildren, Template.editChildren, result_map, result_map,
      result_each, result_each, Node.unplacedAll_eq,
      mapM_map Node.unplaced (fun c => result (f c)) hf]
    cases children.mapM fun a => result (f a) with
    | none => rfl
    | some cs =>
      show some (Node.element _ (cs.map Node.unplaced) _) = some (Node.unplaced _)
      rw [Node.unplaced, Node.unplacedAll_eq]
  | _ => rfl

/-- A walk does not look at places if neither its edit does nor what it stops
at. -/
theorem IgnoresPlaces.visit {enter : Tag → Bool}
    (henter : ∀ t u : Tag, t.Alike grown u → enter u = enter t) (hf : IgnoresPlaces f) :
    IgnoresPlaces (Node.visit enter f) := by
  have hadmits : ∀ n : Node,
      (n.unplaced.tag?.map enter).getD false = (n.tag?.map enter).getD false := fun n =>
    admitted_of_grows henter n _ ⟨none, alike_unplaced none n⟩
  -- a visit is the bounded visit to the height of the node, which has no places in it
  refine IgnoresPlaces.of_key Node.height (fun depth => Node.visitWithin enter f depth)
    (fun n => height_of_grown (alike_unplaced none n)) ?_ fun _ => rfl
  intro depth
  induction depth with
  | zero =>
    rw [funext visitWithin_zero]
    exact ignoresPlaces_done
  | succ depth ih =>
    have hsome : ∀ n : Node, n.unplaced.tag?.isSome = n.tag?.isSome := by
      intro n
      rw [tag?_unplaced, Option.isSome_map]
    rw [funext (visitWithin_succ depth)]
    exact IgnoresPlaces.ite hsome
      (hf.andThen (IgnoresPlaces.ite hadmits ih ignoresPlaces_done).editChildren) ignoresPlaces_done

/-- An edit of tags that does the same to a tag without its place does so to a
node. -/
theorem ignoresPlaces_editTag {h : Tag → Draft ε Tag}
    (hg : ∀ t, result (h t.unplaced) = (result (h t)).map Tag.unplaced) :
    IgnoresPlaces (Node.editTag h) := by
  intro n
  cases n with
  | element tag children close =>
    rw [Node.unplaced, Node.editTag, Node.editTag, result_map, result_map, hg]
    cases result (h tag) with
    | none => rfl
    | some tag' => rfl
  | _ => rfl

end Edits

/-! ## §3. Qualifying. -/

/-- An attribute is qualified to the same, wherever it stands. -/
theorem result_editAttribute_unplaced (select : Text → Option Qualifier) (bound : NameSet)
    (element : Text) (a : Attribute) :
    result (editAttribute select bound element a.unplaced) =
      (result (editAttribute select bound element a)).map Attribute.unplaced := by
  have hname : a.unplaced.name = a.name := rfl
  cases hs : select a.name with
  | none =>
    rw [editAttribute_of_none hs, editAttribute_of_none (hname ▸ hs)]
    rfl
  | some qualify =>
    rw [editAttribute_of_some hs, editAttribute_of_some (hname ▸ hs), qualifyAttribute,
      qualifyAttribute, result_map, result_map, Option.map_map]
    rfl

/-- So are those of a tag. -/
theorem result_qualifyAttributes_unplaced (select : Text → Option Qualifier) (bound : NameSet)
    (t : Tag) : result (qualifyAttributes select bound t.unplaced) =
      (result (qualifyAttributes select bound t)).map Tag.unplaced := by
  have hattributes : t.unplaced.attributes.mapM (fun a =>
      result (editAttribute select bound t.unplaced.name a)) =
      (t.attributes.mapM fun a => result (editAttribute select bound t.name a)).map
        (List.map Attribute.unplaced) :=
    mapM_map Attribute.unplaced (fun a => result (editAttribute select bound t.name a))
      (result_editAttribute_unplaced select bound t.name) t.attributes
  rw [result_qualifyAttributes, result_qualifyAttributes, hattributes, Option.map_map, Option.map_map]
  rfl

/-- The attributes of one kind are qualified to the same, wherever the template
stands. -/
theorem ignoresPlaces_qualifyKind (kind : AttributeKind) (bound : NameSet) :
    IgnoresPlaces (qualifyKind kind bound) := by
  refine IgnoresPlaces.visit enter_of_grown (ignoresPlaces_editTag ?_)
  intro t
  rw [isComponent_of_grown (alike_tag_unplaced t)]
  exact result_qualifyAttributes_unplaced _ bound t

/-- Whether a value can be qualified, and to what, does not depend on the notes. -/
theorem result_qualifyValue (qualify : Qualifier) (bound : NameSet) (element name value : Text)
    (changed : Text → String) :
    result (qualifyValue qualify bound element name changed value) =
      (qualify bound value).outcome.toOption := by
  cases h : (qualify bound value).outcome with
  | ok out => exact result_eq_some_iff.2 (qualifyValue_of_ok h)
  | error cause =>
    refine result_eq_none_iff.2 ?_
    rw [(qualifyValue_of_error h).1]
    exact Option.some_ne_none _

/-- A text has no place in what it is set to. -/
theorem unplaced_setLeadingText (value : Text) (n : Node) :
    n.unplaced.setLeadingText value = (n.setLeadingText value).unplaced := by
  cases n with
  | element tag children close =>
    cases children with
    | nil => rfl
    | cons c rest => cases c <;> rfl
  | _ => rfl

theorem isPatch_unplaced {selector : Text} {n : Node} {name : Text} {data : CharData}
    (h : IsPatch selector n name data) : IsPatch selector n.unplaced name data.unplaced := by
  obtain ⟨tag, rest, close, rfl, htag, hname, hpatch⟩ := h
  exact ⟨tag.unplaced, Node.unplacedAll rest, _, rfl, htag, (get?_unplaced tag _).trans hname, hpatch⟩

/-- What is a patch without its place is one. -/
theorem exists_isPatch_of_unplaced {selector : Text} {n : Node} {name : Text} {data : CharData}
    (h : IsPatch selector n.unplaced name data) : ∃ name data, IsPatch selector n name data := by
  obtain ⟨name', data', hpatch, -⟩ := h.of_grows (Expr.Grows.refl selector)
    ⟨none, alike_unplaced none n⟩
  exact ⟨name', data', hpatch⟩

/-- The text of a patch is qualified to the same, wherever it stands. -/
theorem ignoresPlaces_qualifyPatch (bound : NameSet) (selector : Text) :
    IgnoresPlaces (qualifyPatch bound selector) := by
  intro n
  rcases qualifyPatch_cases bound selector n with ⟨name, data, changed, hpatch, heq⟩ | ⟨hnone, heq⟩
  · rcases qualifyPatch_cases bound selector n.unplaced with
      ⟨name', data', changed', hpatch', heq'⟩ | ⟨hnone', -⟩
    · obtain ⟨rfl, rfl⟩ := (isPatch_unplaced hpatch).unique hpatch'
      rw [heq, heq', result_map, result_map, Option.map_map, result_qualifyValue, result_qualifyValue]
      exact congrArg (Option.map · _) (funext fun value => unplaced_setLeadingText value n)
    · exact absurd (isPatch_unplaced hpatch) (hnone' name data.unplaced)
  · rcases qualifyPatch_cases bound selector n.unplaced with
      ⟨name', data', changed', hpatch', -⟩ | ⟨-, heq'⟩
    · obtain ⟨name, data, hpatch⟩ := exists_isPatch_of_unplaced hpatch'
      exact absurd hpatch (hnone name data)
    · rw [heq, heq']
      rfl

/-- The selector of an element does not depend on where it stands. -/
theorem selector?_unplaced (n : Node) : selector? n.unplaced = selector? n := by
  unfold selector?
  rw [tag?_unplaced, Option.bind_map]
  refine congrArg n.tag?.bind (funext fun t => ?_)
  show (if t.name = selectorTag then t.unplaced.get? selectorAttr else none) = _
  rw [get?_unplaced]

/-- A selector element is qualified in the same way everywhere. -/
theorem ignoresPlaces_qualifySelectorElement (inherited all : NameSet) :
    IgnoresPlaces (qualifySelectorElement inherited all) := by
  -- the selector decides what is done, and it is read without the places
  refine IgnoresPlaces.of_key selector? (editSelectorElement inherited all) selector?_unplaced ?_
    fun n => congrArg result (qualifySelectorElement_eq inherited all n)
  intro selector
  cases selector with
  | none => exact ignoresPlaces_done
  | some selector =>
    have hselector : IgnoresPlaces (editSelector inherited selector) := by
      unfold editSelector
      by_cases hempty : selector.isEmpty = true
      · simp only [hempty, if_true]
        exact ignoresPlaces_done
      · simp only [hempty]
        exact ignoresPlaces_editTag (result_qualifyAttributes_unplaced _ inherited)
    exact hselector.andThen
      (IgnoresPlaces.visit (fun _ _ _ => rfl) (ignoresPlaces_qualifyPatch all selector))

/-- So are the patches of an inheriting element. -/
theorem ignoresPlaces_qualifyInheriting (bound : NameSet) (inside : VarMap) :
    IgnoresPlaces (qualifyInheriting bound inside) := by
  refine IgnoresPlaces.of_key (inherited? inside) (fun key n =>
    (key.map fun inherited => Node.visitAll (qualifySelectorElement inherited
      (bound.union inherited)) n).getD (.done n)) ?_ ?_ ?_
  · intro n
    rw [inherited?, tag?_get?_unplaced, inherited?]
  · intro key
    cases key with
    | none => exact ignoresPlaces_done
    | some inherited =>
      exact IgnoresPlaces.visit (fun _ _ _ => rfl) (ignoresPlaces_qualifySelectorElement inherited _)
  · intro n
    rw [inherited?, qualifyInheriting]
    cases n.tag?.bind (·.get? inheritAttr) with
    | none => rfl
    | some target =>
      simp only [result_andThen]
      rfl

/-- So is a template, each of its walks being blind to places. -/
theorem ignoresPlaces_qualifyTemplate (bound : NameSet) (inside : VarMap) :
    IgnoresPlaces (qualifyTemplate bound inside) :=
  (IgnoresPlaces.foldl (fun kind => ignoresPlaces_qualifyKind kind bound) kindOrder
    ignoresPlaces_done).andThen
    (IgnoresPlaces.visit enter_of_grown (ignoresPlaces_qualifyInheriting bound inside))

/-- So is a named template, for its scope holds no places. -/
theorem ignoresPlaces_qualifyNamed (vars : CorpusVars) : IgnoresPlaces (qualifyNamed vars) := by
  -- the name and the bound names are read without the places
  refine IgnoresPlaces.of_key
    (fun n => (n.tag?.bind (·.get? nameAttr)).map fun name =>
      (boundNames n).union ((vars.outside.get? name).getD ∅))
    (fun key n => (key.map fun bound => qualifyTemplate bound vars.inside n).getD (.done n)) ?_ ?_ ?_
  · intro n
    show (n.unplaced.tag?.bind _).map _ = _
    rw [tag?_get?_unplaced, boundNames_of_grown (alike_unplaced none n)]
  · intro key
    cases key with
    | none => exact ignoresPlaces_done
    | some bound => exact ignoresPlaces_qualifyTemplate bound vars.inside
  · intro n
    rw [qualifyNamed]
    cases n.tag?.bind (·.get? nameAttr) with
    | none => rfl
    | some name =>
      simp only [result_andThen]
      rfl

/-- Templates are qualified in the same way wherever they stand. -/
theorem ignoresPlaces_visitAll_qualifyNamed (vars : CorpusVars) :
    IgnoresPlaces (Node.visitAll (qualifyNamed vars)) :=
  IgnoresPlaces.visit (fun _ _ _ => rfl) (ignoresPlaces_qualifyNamed vars)

end QwebReceiver.Template
