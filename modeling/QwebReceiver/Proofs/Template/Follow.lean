import QwebReceiver.Batch.Run
import QwebReceiver.Proofs.Template.Owner

/-!
  QwebReceiver.Proofs.Template.Follow — selectors and the attributes they
  select.

  A clause `@t-x='v'` of a patch selects the elements of the inherited template
  whose attribute `t-x` is `v`.  Both texts are qualified, in different files
  and against different sets: the attribute against the variables of its
  template, the clause against those that were gathered under the name of that
  template.  Where the two sets bind the same of the names in `v`, the clause
  becomes what the attribute becomes (`selector_follows`).

  They need not: a variable that `t-slot-scope` binds is a variable of the
  template and is not gathered (`selector_strays`).
-/

namespace QwebReceiver.Template

open QwebReceiver.Markup

/-! ## §1. Selectors. -/

/-- The element has a selector, and is no component.  So no pass over attributes
changes the selector. -/
def HasSelector (n : Node) (selector : Text) : Prop :=
  selector? n = some selector ∧ n.tag?.map isComponent = some false

instance (n : Node) (selector : Text) : Decidable (HasSelector n selector) :=
  inferInstanceAs (Decidable (_ ∧ _))

section Selectors

variable {x y y₁ y₂ : Node} {inherited bound : NameSet} {s : Text}

/-- A selector spelled out: the `expr` of an `xpath` element that is no
component. -/
theorem hasSelector_iff : HasSelector x s ↔ ∃ tag children close,
    x = .element tag children close ∧ tag.name = selectorTag ∧ isComponent tag = false ∧
      tag.get? selectorAttr = some s := by
  constructor
  · rintro ⟨hselector, hcomponent⟩
    cases x with
    | element tag children close =>
      obtain ⟨htag, hs⟩ := Option.ite_none_right_eq_some.1 hselector
      exact ⟨tag, children, close, rfl, htag, Option.some.inj hcomponent, hs⟩
    | _ => cases hselector
  · rintro ⟨tag, children, close, rfl, htag, hcomponent, hs⟩
    exact ⟨Option.ite_none_right_eq_some.2 ⟨htag, hs⟩, congrArg some hcomponent⟩

/-- An attribute is found by its name after its value has changed. -/
theorem exists_get?_of_revalued {t : Tag} {attributes : List Attribute}
    {P : Attribute → Attribute → Prop}
    (h : List.Forall₂ (fun a b => (∃ value, b = { a with value }) ∧ P a b) t.attributes attributes)
    {name value : Text} (hvalue : t.get? name = some value) :
    ∃ a b : Attribute, a.name = name ∧ a.value = value ∧ P a b ∧
      ({ t with attributes } : Tag).get? name = some b.value := by
  obtain ⟨tagName, as, rest⟩ := t
  simp only [Tag.get?] at hvalue h ⊢
  induction h with
  | nil => cases hvalue
  | @cons a b as bs hab _ ih =>
    obtain ⟨⟨v, rfl⟩, hP⟩ := hab
    -- names are kept, so the first attribute of the name is the same one before and
    -- after
    by_cases hname : a.name = name
    · rw [List.find?_cons_of_pos (by simpa using hname)] at hvalue ⊢
      exact ⟨a, { a with value := v }, hname, Option.some.inj hvalue, hP, rfl⟩
    · rw [List.find?_cons_of_neg (by simpa using hname)] at hvalue ⊢
      exact ih hvalue

/-- A selector whose value has changed is one still, with the value that its
attribute was given. -/
theorem HasSelector.of_retags {R : Text → Bool → Attribute → Attribute → Prop}
    (h : Retags R x y) (hx : HasSelector x s) :
    ∃ a b : Attribute, a.name = selectorAttr ∧ a.value = s ∧ R selectorTag false a b ∧
      HasSelector y b.value := by
  obtain ⟨tag, attributes, children, close, rfl, rfl, hattributes⟩ := h
  obtain ⟨_, _, _, heq, htag, hcomponent, hs⟩ := hasSelector_iff.1 hx
  cases heq
  obtain ⟨a, b, hname, hvalue, hR, hget⟩ := exists_get?_of_revalued hattributes hs
  rw [htag, hcomponent] at hR
  refine ⟨a, b, hname, hvalue, hR, hasSelector_iff.2 ⟨_, _, _, rfl, htag, ?_, hget⟩⟩
  rw [isComponent_of_names (names_of_revalued hattributes)]
  exact hcomponent

theorem HasSelector.isSome (hx : HasSelector x s) : x.tag?.isSome = true := by
  obtain ⟨tag, children, close, rfl, -⟩ := hasSelector_iff.1 hx
  rfl

/-- A selector qualified for one template. -/
theorem HasSelector.of_reselect (h : Becomes (reselect inherited) x y) (hx : HasSelector x s) :
    ∃ s', HasSelector y s' ∧ (qualifySelector inherited s).outcome = .ok s' := by
  unfold Becomes reselect at h
  rw [hx.1] at h
  simp only [editSelector] at h
  -- an empty selector is left out of the pass, and qualifying it changes nothing
  by_cases hempty : s.isEmpty = true
  · rw [if_pos hempty] at h
    cases h
    obtain rfl := List.isEmpty_iff.1 hempty
    refine ⟨[], hx, ?_⟩
    rw [qualifySelector, Selector.qualify, SelectorPart.ofSelector]
    rfl
  · rw [if_neg hempty] at h
    have hretags := retags_of_qualifyAttributes
      (fun _ _ name => if name = selectorAttr then some qualifySelector else none) hx.isSome h
    obtain ⟨a, b, hname, rfl, hqualified, hy⟩ := HasSelector.of_retags hretags hx
    rw [if_pos hname] at hqualified
    exact ⟨b.value, hy, hqualified⟩

/-- A selector was qualified for the same template as often as the list is
long. -/
def Requalified (inherited : NameSet) : List NameSet → Text → Text → Prop
  | [], s, s' => s' = s
  | _ :: _, s, s' => (qualifySelector inherited s).outcome = .ok s'

/-- Qualifying a selector again changes nothing. -/
theorem Requalified.append {l l' : List NameSet} {s s₁ s' : Text}
    (h : Requalified inherited l s s₁) (h' : Requalified inherited l' s₁ s') :
    Requalified inherited (l ++ l') s s' := by
  cases l with
  | nil =>
    obtain rfl : s₁ = s := h
    exact h'
  | cons b l =>
    have hfirst : (qualifySelector inherited s).outcome = .ok s₁ := h
    -- after the first set another pass with the same names changes nothing
    have hsame : s' = s₁ := by
      cases l' with
      | nil => exact h'
      | cons b' l' =>
        have hstays := (Expr.qualifying_qualifySelector inherited Selector.literalClauses).stays h
        exact Except.ok.inj (Eq.trans (Eq.symm h') hstays)
    rw [hsame]
    exact hfirst

/-- A selector that is qualified for templates with the same variables is
qualified for one of them, again and again. -/
theorem HasSelector.of_chain {l : List NameSet} (hl : ∀ b ∈ l, b = inherited) (h : Chain l x y)
    (hx : HasSelector x s) : ∃ s', HasSelector y s' ∧ Requalified inherited l s s' := by
  induction l generalizing x s with
  | nil =>
    obtain rfl : y = x := h
    exact ⟨s, hx, rfl⟩
  | cons b l ih =>
    obtain ⟨w, hw, h⟩ := h
    obtain ⟨rfl, hl⟩ := List.forall_mem_cons.1 hl
    obtain ⟨s₁, hs₁, hfirst⟩ := HasSelector.of_reselect hw hx
    obtain ⟨s', hs', hrest⟩ := ih hl h hs₁
    have hone : Requalified b [b] s s₁ := hfirst
    exact ⟨s', hs', hone.append hrest⟩

/-- A selector is no expression of the template it is in. -/
theorem HasSelector.of_qualifyTag (h : Becomes (Node.editTag (qualifyTag bound)) x y)
    (hx : HasSelector x s) : HasSelector y s := by
  obtain ⟨a, b, hname, rfl, hkind, hy⟩ :=
    HasSelector.of_retags (retags_of_qualifyTag hx.isSome h) hx
  have hnone : attributeKind? selectorAttr false = none := by decide
  rw [byKind, hname, hnone] at hkind
  rw [show a.value = b.value from Except.ok.inj hkind]
  exact hy

/-- The selector of an element whose selectors are all qualified for the same
template. -/
theorem HasSelector.of_owned {around own : List NameSet} (haround : Chain around x y₁)
    (htag : Becomes (Node.editTag (qualifyTag bound)) y₁ y₂) (hown : Chain own y₂ y)
    (hl : ∀ b ∈ around ++ own, b = inherited) (hx : HasSelector x s) :
    ∃ s', HasSelector y s' ∧ Requalified inherited (around ++ own) s s' := by
  obtain ⟨haroundAll, hownAll⟩ := List.forall_mem_append.1 hl
  obtain ⟨s₁, hs₁, hbefore⟩ := HasSelector.of_chain haroundAll haround hx
  obtain ⟨s', hs', hafter⟩ := HasSelector.of_chain hownAll hown (hs₁.of_qualifyTag htag)
  exact ⟨s', hs', hbefore.append hafter⟩

theorem hasSelector_top : HasSelector x.top s ↔ HasSelector x s := by
  cases x <;> exact Iff.rfl

end Selectors

/-! ## §2. Patches of one template. -/

/-- The value of an attribute of a node. -/
def valueOf? (name : Text) (n : Node) : Option Text := n.tag?.bind (·.get? name)

/-- The value of an attribute of the element at a place of a document.  Passes
keep places, so the value before and the value after stand at the same one. -/
def valueAt? (d : Document) (place : List Nat) (name : Text) : Option Text :=
  ((d.line? place).bind List.head?).bind (valueOf? name)

/-- The variables of a template that its patches see: those gathered under its
name, and none if there is no entry. -/
def patchScope (vars : CorpusVars) (template : Node) : NameSet :=
  ((valueOf? nameAttr template).bind vars.inside.get?).getD ∅

/-- The innermost node of a line is in a patch of the template of that name,
which is a template itself, and in no patch of another template. -/
structure Patches (name : Text) (line : List Node) : Prop where
  named : ∃ e ∈ line, isNamed e = true ∧ valueOf? inheritAttr e = some name
  only : ∀ e ∈ line, inherits e = true → valueOf? inheritAttr e = some name

instance (name : Text) (line : List Node) : Decidable (Patches name line) :=
  decidable_of_iff ((∃ e ∈ line, isNamed e = true ∧ valueOf? inheritAttr e = some name) ∧
      ∀ e ∈ line, inherits e = true → valueOf? inheritAttr e = some name)
    ⟨fun h => ⟨h.1, h.2⟩, fun h => ⟨h.named, h.only⟩⟩

section Patches

variable {vars : CorpusVars} {name : Text} {line : List Node} {n : Node} {place : List Nat}
  {o : Ownership}

/-- In the patches of one template selectors are qualified for that template. -/
theorem Patches.ownership (h : Patches name line) (hline : n.line? place = some line)
    (ho : ownership? vars.inside place n = some o) :
    (∀ b ∈ o.around ++ o.own, b = (vars.inside.get? name).getD ∅) ∧ o.around ++ o.own ≠ [] := by
  constructor
  · intro b hb
    obtain ⟨e, he, hinherited⟩ := mem_ownership? vars.inside hline ho hb
    have htarget : e.tag?.bind (·.get? inheritAttr) = some name :=
      h.only e he (inherits_of_inherited? hinherited)
    rw [inherited?, htarget] at hinherited
    exact (Option.some.inj hinherited).symm
  · obtain ⟨e, he, hnamed, htarget⟩ := h.named
    have hinherited : inherited? vars.inside e = some ((vars.inside.get? name).getD ∅) :=
      Option.map_eq_some_iff.2 ⟨name, htarget, rfl⟩
    exact List.ne_nil_of_mem (mem_ownership?_of_isNamed vars.inside hline ho he hnamed hinherited)

/-- What the templates around a selector do to it. -/
theorem Patches.selector_of_namedEffect {root n' : Node} {above : List Node} {s : Text}
    (hpatches : Patches name (n :: above)) (hline : root.line? place = some (n :: above))
    (hselector : HasSelector n s)
    (hE : (namedEffect vars).walk (fun _ => true) root place n.top n'.top) :
    ∃ s', HasSelector n' s' ∧ (qualifySelector ((vars.inside.get? name).getD ∅) s).outcome = .ok s' := by
  have htop : HasSelector n.top s := hasSelector_top.2 hselector
  have htag := tag_of_namedEffect (Node.at?_of_line? hline) htop.isSome hselector.isSome hE
  cases ho : ownership? vars.inside place root with
  | none =>
    -- the patch is a template, so the place has an owner
    obtain ⟨e, he, hnamed, -⟩ := hpatches.named
    have howner := template_ownership? vars.inside hline
    rw [ho] at howner
    exact absurd hnamed (List.find?_eq_none.1 howner.symm e he)
  | some o =>
    rw [ho] at htag
    obtain ⟨y₁, y₂, haround, hqualify, hown⟩ := htag
    obtain ⟨hall, hne⟩ := hpatches.ownership hline ho
    obtain ⟨s', hs', hrequalified⟩ := htop.of_owned haround hqualify hown hall
    obtain ⟨b, l, hl⟩ := List.exists_cons_of_ne_nil hne
    rw [hl] at hrequalified
    exact ⟨s', hasSelector_top.1 hs', hrequalified⟩

/-- **The selectors of the patches of one template** are qualified for that
template. -/
theorem Patches.exists_selector {d : Document} (h : (qualifyDocument vars d).failure = none)
    {above : List Node} {s : Text} (hline : d.line? place = some (n :: above))
    (hpatches : Patches name (n :: above)) (hselector : HasSelector n s) :
    ∃ s', valueAt? (qualifyDocument vars d).value place selectorAttr = some s' ∧
      (qualifySelector ((vars.inside.get? name).getD ∅) s).outcome = .ok s' := by
  cases place with
  | nil => cases hline
  | cons i place =>
    obtain ⟨root, hroot, hline⟩ := Option.bind_eq_some_iff.1 hline
    -- the patch is in a named template, so the document is compiled template by
    -- template
    have hnamed : hasNamed d = true := by
      obtain ⟨e, he, hnamed, -⟩ := hpatches.named
      obtain ⟨inner, outer, hsplit⟩ := List.append_of_mem he
      obtain ⟨p, -, -, hp, -⟩ := Node.exists_append_of_suffix hline ⟨inner, hsplit.symm⟩
      exact hasNamed_of_isNamed hroot (Node.at?_of_line? hp) hnamed
    have heq : qualifyDocument vars d = d.editRoots (Node.visitAll (qualifyNamed vars)) :=
      if_pos hnamed
    rw [heq] at h ⊢
    obtain ⟨n', above', hline', hE⟩ := exists_line_of_acts (acts_visitNamed vars) h hroot hline
    obtain ⟨s', hs', hqualified⟩ := hpatches.selector_of_namedEffect hline hselector hE
    refine ⟨s', ?_, hqualified⟩
    obtain ⟨tag, children, close, rfl, -, -, hget⟩ := hasSelector_iff.1 hs'
    rw [valueAt?, hline']
    exact hget

end Patches

/-! ## §3. Clauses and attributes. -/

/-- The kinds of attributes whose values are expressions on any element. -/
def expressionKinds : List AttributeKind := [.directive, .event, .computed]

section Kinds

variable {component : Bool} {kind : AttributeKind} {x : Text}

/-- Attributes of these kinds hold expressions, and not dynamic strings or
selectors. -/
theorem qualifier_of_mem (h : kind ∈ expressionKinds) : kind.qualifier = Expr.qualify := by
  cases kind with
  | dynamicString => exact absurd h (by decide)
  | _ => rfl

/-- These kinds go by the name alone. -/
theorem attributeKind?_of_mem {name : Text} (h : attributeKind? name component = some kind)
    (hkind : kind ∈ expressionKinds) (component' : Bool) :
    attributeKind? name component' = some kind := by
  unfold attributeKind? at h ⊢
  by_cases hdirective : isDirective name = true
  · rwa [if_pos hdirective] at h ⊢
  rw [if_neg hdirective] at h ⊢
  by_cases hevent : eventStart.isPrefixOf name = true
  · rwa [if_pos hevent] at h ⊢
  rw [if_neg hevent] at h ⊢
  by_cases hdynamic : (dynamicStart.isPrefixOf name || dynamicAttributes.contains name) = true
  · rwa [if_pos hdynamic] at h ⊢
  rw [if_neg hdynamic] at h ⊢
  by_cases hcomputed : computedStart.isPrefixOf name = true
  · rwa [if_pos hcomputed] at h ⊢
  rw [if_neg hcomputed] at h
  -- being a component matters only for the last kind, which holds no expression
  obtain ⟨-, h⟩ := Option.ite_none_right_eq_some.1 h
  cases h
  exact absurd hkind (by decide)

/-- No clause on an attribute of these kinds is read in another way. -/
theorem clauseName_of_mem (h : attributeKind? (directiveStart ++ x) component = some kind)
    (hkind : kind ∈ expressionKinds) :
    Selector.literalClauses.contains x = false ∧ x ≠ Selector.callClause := by
  have hother : ∀ y ∈ Selector.callClause :: Selector.literalClauses, ∀ component : Bool,
      ∀ kind ∈ expressionKinds, attributeKind? (directiveStart ++ y) component ≠ some kind := by
    decide
  have hx : x ∉ Selector.callClause :: Selector.literalClauses := fun hmem =>
    hother x hmem component kind hkind h
  rw [List.mem_cons, not_or] at hx
  exact ⟨by simpa using hx.2, hx.1⟩

end Kinds

/-- What becomes of a clause on an attribute that holds an expression. -/
theorem exists_clause_of_qualifySelector {bound : NameSet} {s s' x v : Text} {k : Nat}
    (hliteral : Selector.literalClauses.contains x = false) (hcall : x ≠ Selector.callClause)
    (h : (qualifySelector bound s).outcome = .ok s')
    (hk : (SelectorPart.ofSelector s)[k]? = some (.clause x v)) :
    ∃ w, (SelectorPart.ofSelector s')[k]? = some (.clause x w) ∧
      (Expr.qualify bound v).outcome = .ok w := by
  obtain ⟨_, hk', w, rfl, hw⟩ := forall₂_getElem? (Selector.fills_of_qualify h) hk
  rw [Selector.qualifyUnlessSkipped, if_neg (by rw [hliteral]; exact Bool.false_ne_true),
    Selector.qualifyClause, if_neg hcall] at hw
  exact ⟨w, hk', hw⟩

/-- What becomes of an attribute of a template that holds an expression. -/
theorem exists_value_of_owner {vars : CorpusVars} {d : Document}
    (h : (qualifyDocument vars d).failure = none) {place : List Nat} {line : List Node}
    {template : Node} (hline : d.line? place = some line)
    (howner : owner? d line = some template) {name v : Text} {component : Bool}
    {kind : AttributeKind} (hkind : attributeKind? name component = some kind)
    (hmem : kind ∈ expressionKinds) (hvalue : valueAt? d place name = some v) :
    ∃ w, valueAt? (qualifyDocument vars d).value place name = some w ∧
      (Expr.qualify (scope vars template) v).outcome = .ok w := by
  rw [valueAt?, hline] at hvalue
  obtain ⟨n, hn, hvalue⟩ := Option.bind_eq_some_iff.1 hvalue
  obtain ⟨above, rfl⟩ := List.head?_eq_some_iff.1 hn
  obtain ⟨n', above', hline', hrewritten⟩ := rewritten_qualifyDocument h hline
  cases n with
  | element tag children close =>
    obtain ⟨attributes, children', rfl, hattributes⟩ := hrewritten
    obtain ⟨a, b, rfl, rfl, hscoped, hget⟩ := exists_get?_of_revalued hattributes hvalue
    have hkind' := attributeKind?_of_mem hkind hmem (isComponent tag)
    -- the name of a selector has no kind, so this attribute is not left to the
    -- inheritance
    have hselector : a.name ≠ selectorAttr := by
      intro hname
      have hnone : attributeKind? selectorAttr false = none := by decide
      have hsome := attributeKind?_of_mem hkind hmem false
      rw [hname, hnone] at hsome
      cases hsome
    have hnot : isPatchSelector (.element tag children close :: above) tag a = false := by
      simp [isPatchSelector, namesSelector, hselector]
    have hb := hscoped (Or.inr hnot)
    rw [howner, scopedValue, byKind, hkind', Option.map_some, qualified,
      qualifier_of_mem hmem] at hb
    refine ⟨b.value, ?_, hb⟩
    rw [valueAt?, hline']
    exact hget
  | _ => cases hvalue

/-- **Selectors follow the attributes they select.**  The value `v` of an
attribute `t-x` of a named template is qualified against what is bound in the
template, the clauses `@t-x='v'` of its patches against what the patches see of
it; both become the same if the two sets bind the same of the names in `v`. -/
theorem selector_follows {vars : CorpusVars} {base patch : Document}
    (hbase : (qualifyDocument vars base).failure = none)
    (hpatch : (qualifyDocument vars patch).failure = none)
    -- the attribute, in the template it belongs to
    {place : List Nat} {line : List Node} {template : Node} {name x v : Text} {component : Bool}
    {kind : AttributeKind} (hline : base.line? place = some line)
    (howner : owner? base line = some template) (hname : valueOf? nameAttr template = some name)
    (hkind : attributeKind? (directiveStart ++ x) component = some kind)
    (hmem : kind ∈ expressionKinds) (hvalue : valueAt? base place (directiveStart ++ x) = some v)
    -- the selector, in a patch of that template
    {place' : List Nat} {n : Node} {above : List Node} {s : Text}
    (hline' : patch.line? place' = some (n :: above)) (hpatches : Patches name (n :: above))
    (hselector : HasSelector n s) :
    ∃ w s', valueAt? (qualifyDocument vars base).value place (directiveStart ++ x) = some w ∧
      (Expr.qualify (scope vars template) v).outcome = .ok w ∧
      valueAt? (qualifyDocument vars patch).value place' selectorAttr = some s' ∧
      ∀ k : Nat, (SelectorPart.ofSelector s)[k]? = some (.clause x v) →
        ∃ w', (SelectorPart.ofSelector s')[k]? = some (.clause x w') ∧
          (Expr.qualify (patchScope vars template) v).outcome = .ok w' ∧
          (Expr.AgreeOn v (scope vars template) (patchScope vars template) → w' = w) := by
  obtain ⟨hliteral, hcall⟩ := clauseName_of_mem hkind hmem
  obtain ⟨w, hw, hqualified⟩ := exists_value_of_owner hbase hline howner hkind hmem hvalue
  obtain ⟨s', hs', hselected⟩ := hpatches.exists_selector hpatch hline' hselector
  have hscope : patchScope vars template = (vars.inside.get? name).getD ∅ := by
    rw [patchScope, hname, Option.bind_some]
  rw [← hscope] at hselected
  refine ⟨w, s', hw, hqualified, hs', ?_⟩
  intro k hk
  obtain ⟨w', hk', hw'⟩ := exists_clause_of_qualifySelector hliteral hcall hselected hk
  refine ⟨w', hk', hw', ?_⟩
  intro hagree
  rw [← Expr.qualify_congr hagree, hqualified] at hw'
  exact (Except.ok.inj hw').symm

/-! ## §4. Two corpora. -/

/-- The document that a text is read as. -/
def documentOf (content : String) : Document :=
  ⟨⟨content.toList, defaultUrl⟩, (Markup.parse content.toList).1⟩

/-- A template with a loop.  The names that the loop binds are gathered for its
patches. -/
def loopBase : Document := documentOf "<t t-name='b'><t t-foreach='l' t-as='r' t-esc='r+x'/></t>"

/-- A patch of it. -/
def loopPatch : Document :=
  documentOf "<t t-name='p' t-inherit='b'><xpath expr=\"//t[@t-esc='r+x']\"/></t>"

/-- The variables of both. -/
def loopVars : CorpusVars := (CorpusVars.aggregate {} loopBase).aggregate loopPatch

/-- The loop variable is gathered, so the clause follows the attribute. -/
theorem selector_follows_sample :
    valueAt? (qualifyDocument loopVars loopBase).value [0, 0] "t-esc".toList =
        some "r+this.x".toList ∧
      ∃ s', valueAt? (qualifyDocument loopVars loopPatch).value [0, 0] selectorAttr = some s' ∧
        ∀ k : Nat, (SelectorPart.ofSelector "//t[@t-esc='r+x']".toList)[k]? =
            some (.clause "esc".toList "r+x".toList) →
          (SelectorPart.ofSelector s')[k]? = some (.clause "esc".toList "r+this.x".toList) := by
  obtain ⟨hbase, hvalue, hvalue', howner⟩ : (qualifyDocument loopVars loopBase).failure = none ∧
      valueAt? loopBase [0, 0] "t-esc".toList = some "r+x".toList ∧
      valueAt? (qualifyDocument loopVars loopBase).value [0, 0] "t-esc".toList =
        some "r+this.x".toList ∧
      ((loopBase.line? [0, 0]).bind (owner? loopBase)).any (fun template =>
        valueOf? nameAttr template = some "b".toList ∧
          scope loopVars template = patchScope loopVars template) = true := by
    decide +kernel
  obtain ⟨hpatch, hselector⟩ : (qualifyDocument loopVars loopPatch).failure = none ∧
      (loopPatch.line? [0, 0]).any (fun line => Patches "b".toList line ∧
        line.head?.any (fun n => HasSelector n "//t[@t-esc='r+x']".toList)) = true := by
    decide +kernel
  -- the attribute and its template
  obtain ⟨template, htemplate, hscope⟩ := (Option.any_eq_true _ _).1 howner
  obtain ⟨line, hline, htemplate⟩ := Option.bind_eq_some_iff.1 htemplate
  obtain ⟨hname, hscope⟩ := of_decide_eq_true hscope
  -- the selector and its patch
  obtain ⟨line', hline', hpatches⟩ := (Option.any_eq_true _ _).1 hselector
  obtain ⟨hpatches, hhead⟩ := of_decide_eq_true hpatches
  obtain ⟨n, hn, hselector⟩ := (Option.any_eq_true _ _).1 hhead
  obtain ⟨above, rfl⟩ := List.head?_eq_some_iff.1 hn
  have hkind : attributeKind? (directiveStart ++ "esc".toList) false = some .directive := by decide
  obtain ⟨w, s', hw, -, hs', hclauses⟩ := selector_follows hbase hpatch hline htemplate hname
    hkind (by decide) hvalue hline' hpatches (of_decide_eq_true hselector)
  obtain rfl : "r+this.x".toList = w := Option.some.inj (hvalue'.symm.trans hw)
  refine ⟨hvalue', s', hs', ?_⟩
  intro k hk
  obtain ⟨w', hk', -, hsame⟩ := hclauses k hk
  rw [hsame (by rw [hscope]; exact Expr.AgreeOn.refl _ _)] at hk'
  exact hk'

/-- A template with a slot.  The name of the slot is bound in the template, but
it is not gathered. -/
def slotBase : Text := "<t t-name='a'><C t-slot-scope='s'><t t-if='s.x'/></C></t>".toList

/-- A patch of it, `value` being what its selector looks for. -/
def slotPatch (value : String) : Text :=
  "<t t-name='p' t-inherit='a'><xpath expr=\"//t[@t-if='".toList ++ value.toList ++
    "']\"/></t>".toList

/-- The files of the template and the patch. -/
def slotFiles : List Batch.Source :=
  [⟨"a.xml".toList, slotBase⟩, ⟨"p.xml".toList, slotPatch "s.x"⟩]

/-- The slot variable is not gathered: the attribute stays as it is, and the
clause that selects it does not. -/
theorem selector_strays :
    ∃ vars, (Batch.aggregateSources slotFiles).outcome = .ok vars ∧
      (qualifyText vars slotBase).outcome = .ok slotBase ∧
      (qualifyText vars (slotPatch "s.x")).outcome = .ok (slotPatch "this.s.x") ∧
      slotPatch "this.s.x" ≠ slotPatch "s.x" := by
  -- the names of the corpus are computed once and both texts are compiled with them
  have hchecked : (Batch.aggregateSources slotFiles).outcome.toOption.any (fun vars =>
      (qualifyText vars slotBase).outcome = .ok slotBase ∧
        (qualifyText vars (slotPatch "s.x")).outcome = .ok (slotPatch "this.s.x")) = true := by
    decide +kernel
  cases hvars : (Batch.aggregateSources slotFiles).outcome with
  | error e =>
    rw [hvars] at hchecked
    cases hchecked
  | ok vars =>
    rw [hvars] at hchecked
    obtain ⟨hbase, hpatch⟩ := of_decide_eq_true hchecked
    exact ⟨vars, rfl, hbase, hpatch, by decide +kernel⟩

end QwebReceiver.Template
