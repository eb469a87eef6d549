import QwebReceiver.Proofs.Selector.Compose
import QwebReceiver.Proofs.Template.Scope
import QwebReceiver.Proofs.Template.Selectors

/-!
  QwebReceiver.Proofs.Template.Reselect — what qualifying selectors alone does
  to a text.

  Every element that inherits from a known template has all the selectors in
  it qualified, so a selector is qualified once for each such element around
  it, outermost first.  The passes fuse: a pass over a whole tree followed by
  one that carries the sets of the elements around is again one that carries
  them, with one set more (`NodeReselected.of_pass`).  What is left is a single
  walk down the tree that qualifies each selector once, against the names that
  all the templates set that its patches are patches to.

    * `reselected_of_visitWithin` — the walk of walks is that walk;
    * `FormsReselected.of_nodes` — and on the text it changes selectors alone;
    * `qualifyTextSelectors_exact` — the text that is written, and that writing
      it again changes nothing.
-/

namespace QwebReceiver

/-! ## §1. Sets and clauses. -/

/-- The names that are in all of the sets; none if there are no sets.  Passes
one after the other bind just these. -/
def NameSet.common : List NameSet → NameSet
  | [] => ∅
  | [s] => s
  | s :: t :: rest => s.inter (common (t :: rest))

/-- A name is common to the sets if each of them has it. -/
theorem NameSet.mem_common {sets : List NameSet} (h : sets ≠ []) {x : Text} :
    x ∈ common sets ↔ ∀ s ∈ sets, x ∈ s := by
  induction sets with
  | nil => exact absurd rfl h
  | cons s sets ih =>
    cases sets with
    | nil => rw [common, List.forall_mem_singleton]
    | cons t rest =>
      rw [common, mem_inter, ih (List.cons_ne_nil t rest), List.forall_mem_cons (a := s)]

namespace Selector

/-- The values of the clauses of that name, in order. -/
def clauseValues (name selector : Text) : List Text :=
  (SelectorPart.ofSelector selector).filterMap fun
    | .clause n value => if n = name then some value else none
    | .plain _ => none

/-- A clause that is skipped keeps its value. -/
theorem clauseValues_of_qualify {bound : NameSet} {skip : List Text} {name selector out : Text}
    (hskip : skip.contains name = true) (h : (qualify bound skip selector).outcome = .ok out) :
    clauseValues name out = clauseValues name selector := by
  have hfills := fills_of_qualify h
  unfold clauseValues
  generalize SelectorPart.ofSelector selector = parts at hfills
  generalize SelectorPart.ofSelector out = parts' at hfills
  induction hfills with
  | nil => rfl
  | @cons p q ps qs hpq _ ih =>
    cases p with
    | plain c =>
      obtain rfl : q = .plain c := hpq
      exact ih
    | clause n value =>
      obtain ⟨filled, rfl, hfilled⟩ := hpq
      -- a clause of this name is skipped and keeps its value, any other is not among
      -- the values
      by_cases hname : n = name
      · subst hname
        rw [qualifyUnlessSkipped, if_pos hskip] at hfilled
        obtain rfl : value = filled := Except.ok.inj hfilled
        rw [List.filterMap_cons, List.filterMap_cons, ih]
      · simp only [List.filterMap_cons, if_neg hname, ih]

end Selector
end QwebReceiver

namespace QwebReceiver.Template

open QwebReceiver.Markup

/-! ## §2. One pass after another. -/

/-- What becomes of the value of an attribute in patches of these templates.
Only selectors change, and only if there are any such templates. -/
def Reselects (around : List NameSet) (element name value out : Text) : Prop :=
  if around ≠ [] ∧ namesSelector element name = true then
    (qualifySelectorOnly (NameSet.common around) value).outcome = .ok out
  else out = value

/-- The tag with its selector qualified, if it has one.  Its name and its other
attributes stay. -/
def TagReselected (around : List NameSet) (t u : Tag) : Prop :=
  ∃ attributes, u = { t with attributes } ∧ List.Forall₂ (fun a b =>
    (∃ value, b = { a with value }) ∧ Reselects around t.name a.name a.value b.value)
      t.attributes attributes

/-- The variables of the known template that an element inherits from.  An
unknown target is skipped by the pass. -/
def knownTo? (inside : VarMap) (t : Tag) : Option NameSet := (t.get? inheritAttr).bind inside.get?

mutual

/-- The node with its selectors qualified, each against what the templates set
that the elements around it inherit from; `around` are the sets from outside
of the node. -/
def NodeReselected (inside : VarMap) (around : List NameSet) : Node → Node → Prop
  | .element tag children close, m => ∃ tag' children', m = .element tag' children' close ∧
      TagReselected (around ++ (knownTo? inside tag).toList) tag tag' ∧
      NodesReselected inside (around ++ (knownTo? inside tag).toList) children children'
  | n, m => m = n

/-- The nodes with their selectors qualified. -/
def NodesReselected (inside : VarMap) (around : List NameSet) : List Node → List Node → Prop
  | [], ms => ms = []
  | n :: ns, ms => ∃ m ms', ms = m :: ms' ∧ NodeReselected inside around n m ∧
      NodesReselected inside around ns ms'

end

section Passes

variable {inside : VarMap} {s : NameSet} {element name v w x : Text} {t u k : Tag}

section

variable {around : List NameSet}

/-- A selector in patches is qualified against the names that all templates
around it set. -/
theorem reselects_of_selector (hne : around ≠ []) (hname : namesSelector element name = true) :
    Reselects around element name v w ↔
      (qualifySelectorOnly (NameSet.common around) v).outcome = .ok w := by
  rw [Reselects, if_pos ⟨hne, hname⟩]

/-- Values that are no selectors stay, and so do selectors outside of patches. -/
theorem reselects_of_not (h : around = [] ∨ namesSelector element name = false) :
    Reselects around element name v w ↔ w = v := by
  refine Iff.of_eq (if_neg ?_)
  rintro ⟨hne, hname⟩
  rcases h with rfl | h
  · exact hne rfl
  · rw [h] at hname
    cases hname

/-- A value that is qualified for one template and then for others. -/
theorem Reselects.cons (h : Reselects [s] element name v w)
    (h' : Reselects around element name w x) : Reselects (s :: around) element name v x := by
  cases hname : namesSelector element name with
  | false =>
    rw [reselects_of_not (.inr hname)] at h h' ⊢
    rw [h', h]
  | true =>
    rw [reselects_of_selector (List.cons_ne_nil s _) hname] at h ⊢
    cases around with
    | nil =>
      rw [reselects_of_not (.inl rfl)] at h'
      rw [h']
      exact h
    | cons t rest =>
      rw [reselects_of_selector (List.cons_ne_nil t rest) hname] at h'
      -- against the names that all bind the first value can be qualified too, and
      -- two passes give what that one gives
      obtain ⟨both, hboth⟩ :=
        Selector.exists_qualifyParts_of_ok h (s.inter (NameSet.common (t :: rest)))
      have hsecond : (qualifySelectorOnly (NameSet.common (t :: rest)) w).outcome = .ok both :=
        Selector.composes_qualifySelector s _ _ v w both h hboth
      have hsame : both = x := Except.ok.inj (hsecond.symm.trans h')
      rw [← hsame]
      exact hboth

/-- A tag whose selector is qualified for one template and then for others. -/
theorem TagReselected.cons (h : TagReselected [s] t u) (h' : TagReselected around u k) :
    TagReselected (s :: around) t k := by
  obtain ⟨bs, rfl, hbs⟩ := h
  obtain ⟨cs, rfl, hcs⟩ := h'
  refine ⟨cs, rfl, (forall₂_comp hbs hcs).imp ?_⟩
  rintro a _ ⟨_, ⟨⟨v, rfl⟩, hab⟩, ⟨w, rfl⟩, hbc⟩
  exact ⟨⟨w, rfl⟩, hab.cons hbc⟩

/-- A tag outside of patches, or without a selector, stays. -/
theorem TagReselected.refl
    (h : around = [] ∨ ∀ name, namesSelector t.name name = false) : TagReselected around t t :=
  ⟨t.attributes, rfl, List.forall₂_same.2 fun a _ =>
    ⟨⟨a.value, rfl⟩, (reselects_of_not (h.imp_right fun hno => hno a.name)).2 rfl⟩⟩

/-- What an element inherits from is no selector. -/
theorem TagReselected.knownTo?_eq (h : TagReselected around t u) :
    knownTo? inside u = knownTo? inside t := by
  obtain ⟨bs, rfl, hbs⟩ := h
  -- the attribute that names the target is no selector, so its value is kept
  have hget : (bs.find? fun b => b.name = inheritAttr).map Attribute.value =
      (t.attributes.find? fun a => a.name = inheritAttr).map Attribute.value := by
    generalize t.attributes = as at hbs
    induction hbs with
    | nil => rfl
    | @cons a b as bs hab _ ih =>
      obtain ⟨⟨value, rfl⟩, hvalue⟩ := hab
      by_cases hname : a.name = inheritAttr
      · have hno : namesSelector t.name a.name = false := by
          rw [hname]
          simp [namesSelector, show inheritAttr ≠ selectorAttr by decide]
        rw [reselects_of_not (.inr hno)] at hvalue
        rw [List.find?_cons_of_pos (by simpa using hname),
          List.find?_cons_of_pos (by simpa using hname)]
        exact congrArg some hvalue
      · rw [List.find?_cons_of_neg (by simpa using hname),
          List.find?_cons_of_neg (by simpa using hname), ih]
  exact congrArg (Option.bind · inside.get?) hget

end

/-- The edit of one tag in a pass. -/
def selectOnly (s : NameSet) (t : Tag) : Draft ValueError Tag :=
  if t.name = selectorTag then qualifySelectorAttr qualifySelectorOnly s t else .done t

/-- One pass qualifies the selector of a tag for one template. -/
theorem tagReselected_of_selectOnly (h : result (selectOnly s t) = some u) :
    TagReselected [s] t u := by
  unfold selectOnly at h
  -- only a selector element has an attribute that the pass changes
  by_cases htag : t.name = selectorTag
  · rw [if_pos htag, qualifySelectorAttr, result_qualifyAttributes] at h
    obtain ⟨bs, hbs, rfl⟩ := Option.map_eq_some_iff.1 h
    refine ⟨bs, rfl, (forall₂_of_mapM hbs).imp ?_⟩
    intro a b hab
    obtain ⟨hvalue, hqualified⟩ := qualified_of_editAttribute hab
    refine ⟨hvalue, ?_⟩
    by_cases hname : a.name = selectorAttr
    · rw [if_pos hname] at hqualified
      exact (reselects_of_selector (List.cons_ne_nil s []) (by simp [namesSelector, htag, hname])).2
        hqualified
    · rw [if_neg hname] at hqualified
      exact (reselects_of_not (.inr (by simp [namesSelector, hname]))).2
        (Except.ok.inj hqualified).symm
  · rw [if_neg htag] at h
    cases h
    exact .refl (.inr fun name => by simp [namesSelector, htag])

/-- One pass over everything below an element, as a replacement of tags. -/
def pass? (s : NameSet) : Node → Option Node :=
  retag? (fun _ => true) fun t => result (selectOnly s t)

theorem result_visitAll_editSelectorOnly (s : NameSet) (n : Node) :
    result (n.visitAll (editSelectorOnly s)) = pass? s n :=
  result_visit (selectOnly s) n

mutual

/-- **A pass before the walk** is one set more around it.  The passes of the
elements on the way are taken in one by one. -/
theorem NodeReselected.of_pass {around : List NameSet} {n m l : Node} (h : pass? s n = some m)
    (h' : NodeReselected inside around m l) : NodeReselected inside (s :: around) n l := by
  cases n with
  | element tag children close =>
    rw [pass?, retag?] at h
    obtain ⟨tag₁, htag, h⟩ := Option.bind_eq_some_iff.1 h
    obtain ⟨children₁, hchildren, rfl⟩ := Option.map_eq_some_iff.1 h
    obtain ⟨tag₂, children₂, rfl, htag₂, hchildren₂⟩ := h'
    have hpass := tagReselected_of_selectOnly htag
    rw [hpass.knownTo?_eq] at htag₂ hchildren₂
    exact ⟨tag₂, children₂, rfl, hpass.cons htag₂, NodesReselected.of_pass hchildren hchildren₂⟩
  | _ =>
    cases h
    exact h'

/-- A pass over nodes side by side before the walk is one set more around them. -/
theorem NodesReselected.of_pass {around : List NameSet} {ns ms ls : List Node}
    (h : retagAll? (fun _ => true) (fun t => result (selectOnly s t)) ns = some ms)
    (h' : NodesReselected inside around ms ls) : NodesReselected inside (s :: around) ns ls := by
  cases ns with
  | nil =>
    cases h
    exact h'
  | cons n ns =>
    have hall : (if admits (fun _ => true) n = true then
        retag? (fun _ => true) (fun t => result (selectOnly s t)) n else some n) = pass? s n := by
      cases n <;> rfl
    rw [retagAll?, hall] at h
    obtain ⟨m, hm, h⟩ := Option.bind_eq_some_iff.1 h
    obtain ⟨ms', hms, rfl⟩ := Option.map_eq_some_iff.1 h
    obtain ⟨l, ls', rfl, hl, hls⟩ := h'
    exact ⟨l, ls', rfl, NodeReselected.of_pass hm hl, NodesReselected.of_pass hms hls⟩

end

end Passes

/-! ## §3. The walk of walks. -/

section Walk

variable {inside : VarMap} {around : List NameSet}

/-- What a walk makes of each of some nodes it makes of all of them. -/
theorem NodesReselected.of_mapM {g : Node → Option Node} {ns ms : List Node}
    (h : ns.mapM g = some ms)
    (hg : ∀ n ∈ ns, ∀ m, g n = some m → NodeReselected inside around n m) :
    NodesReselected inside around ns ms := by
  induction ns generalizing ms with
  | nil =>
    cases h
    rfl
  | cons n ns ih =>
    rw [List.mapM_cons] at h
    obtain ⟨m, hm, h⟩ := Option.bind_eq_some_iff.1 h
    obtain ⟨ms', hms, h⟩ := Option.bind_eq_some_iff.1 h
    cases h
    obtain ⟨hn, hns⟩ := List.forall_mem_cons.1 hg
    exact ⟨m, ms', rfl, hn m hm, ih hms hns⟩

/-- Editing one element: its tag is that of the walk, and what the walk makes of
the edited children it makes of the children. -/
theorem exists_of_editKnown {tag : Tag} {children : List Node} {close : Option Span} {n : Node}
    (h : result (editKnown inside (.element tag children close)) = some n) :
    ∃ tag' children', n = .element tag' children' close ∧
      TagReselected (knownTo? inside tag).toList tag tag' ∧
      ∀ ms, NodesReselected inside [] children' ms →
        NodesReselected inside (knownTo? inside tag).toList children ms := by
  -- the names of a known target are one more set around all that is below
  cases hknown : knownTo? inside tag with
  | none =>
    rw [editKnown_of_none (n := .element tag children close) hknown] at h
    cases h
    exact ⟨tag, children, rfl, .refl (.inl rfl), fun _ hms => hms⟩
  | some s =>
    rw [editKnown_of_some (n := .element tag children close) hknown,
      result_visitAll_editSelectorOnly, pass?, retag?] at h
    obtain ⟨tag', htag, h⟩ := Option.bind_eq_some_iff.1 h
    obtain ⟨children', hchildren, rfl⟩ := Option.map_eq_some_iff.1 h
    exact ⟨tag', children', rfl, tagReselected_of_selectOnly htag,
      fun _ hms => .of_pass hchildren hms⟩

/-- A walk that starts a walk at each inheriting element qualifies each selector
once, against all the sets around it. -/
theorem reselected_of_visitWithin {depth : Nat} {n m : Node} (hdepth : n.height ≤ depth)
    (h : result (Node.visitWithin (fun _ => true) (editKnown inside) depth n) = some m) :
    NodeReselected inside [] n m := by
  induction depth generalizing n m with
  | zero =>
    rw [visitWithin_zero] at h
    cases n with
    | element tag children close => simp [Node.height] at hdepth
    | _ =>
      cases h
      rfl
  | succ depth ih =>
    cases n with
    | element tag children close =>
      rw [visitWithin_succ, Node.tag?, Option.isSome_some, if_pos rfl, result_andThen] at h
      obtain ⟨n₁, hn₁, h⟩ := Option.bind_eq_some_iff.1 h
      -- the edit keeps the height, so the walk is deep enough for the new children
      have hheight : n₁.height ≤ depth + 1 := by
        obtain ⟨-, rfl⟩ := result_eq_some_iff.1 hn₁
        rwa [height_of_grown (((settling_editKnown inside).edits _ none).mono marked_le_grown)]
      obtain ⟨tag', children', rfl, htag, hbelow⟩ := exists_of_editKnown hn₁
      rw [editChildren, result_map, result_each] at h
      obtain ⟨ms, hms, rfl⟩ := Option.map_eq_some_iff.1 h
      refine ⟨tag', ms, rfl, htag, hbelow ms (.of_mapM hms ?_)⟩
      intro c hc m hm
      have hle := Node.height_le_of_mem hc
      rw [Node.height] at hheight
      cases c with
      | element tag children close => exact ih (by omega) hm
      | _ =>
        cases hm
        rfl
    | _ =>
      cases h
      rfl

end Walk

/-! ## §4. Derivations. -/

/-- The value of the attribute of that name. -/
def formValue? (t : TagForm) (name : Text) : Option Text :=
  (t.attributes.find? fun a => a.name = name).map fun a => a.value.decoded

/-- A selector that is qualified in patches of these templates: once, against the
names that all of them set, and written along its spelling.  Clauses on names,
calls, references and slots keep their values. -/
structure SelectorForm (around : List NameSet) (a b : AttributeForm) : Prop where
  same : b = { a with value := b.value }
  qualified : ∃ bound : NameSet, (∀ x, x ∈ bound ↔ ∀ s ∈ around, x ∈ s) ∧
    (qualifySelectorOnly bound a.value.decoded).outcome = .ok b.value.decoded
  written : b.value.raw = a.value.encode b.value.decoded (some a.quote)
  kept : ∀ name ∈ Selector.callClause :: Selector.literalClauses,
    Selector.clauseValues name b.value.decoded = Selector.clauseValues name a.value.decoded

/-- What becomes of an attribute: a selector in a patch is qualified, any other
attribute is written as it was. -/
def AttributeReselected (around : List NameSet) (element : Text) (a b : AttributeForm) : Prop :=
  if around ≠ [] ∧ namesSelector element a.name = true then SelectorForm around a b else b = a

/-- The sets that are around what stands in an element: those around the
element, and that of the known template that it inherits from. -/
def aroundBelow (inside : VarMap) (around : List NameSet) (t : TagForm) : List NameSet :=
  around ++ ((formValue? t inheritAttr).bind inside.get?).toList

/-- The start tag, written with qualified selectors.  Blanks, quotes and other
attributes are as they were. -/
def TagFormReselected (around : List NameSet) (t u : TagForm) : Prop :=
  ∃ attributes, u = { t with attributes } ∧
    List.Forall₂ (AttributeReselected around t.name) t.attributes attributes

mutual

/-- The node, written with qualified selectors and otherwise as it was. -/
def FormReselected (inside : VarMap) (around : List NameSet) : Form → Form → Prop
  | .leaf l, g => g = .leaf l
  | .empty tag, g => ∃ tag', g = .empty tag' ∧
      TagFormReselected (aroundBelow inside around tag) tag tag'
  | .element tag children gap, g => ∃ tag' children', g = .element tag' children' gap ∧
      TagFormReselected (aroundBelow inside around tag) tag tag' ∧
      FormsReselected inside (aroundBelow inside around tag) children children'

/-- The nodes, written with qualified selectors. -/
def FormsReselected (inside : VarMap) (around : List NameSet) : List Form → List Form → Prop
  | [], gs => gs = []
  | f :: fs, gs => ∃ g gs', gs = g :: gs' ∧ FormReselected inside around f g ∧
      FormsReselected inside around fs gs'

end

section Forms

variable {inside : VarMap} {around : List NameSet}

/-- The value of an attribute is the one that its form has. -/
theorem formValue?_eq (here : Location) (mark : Text) (t : TagForm) (name : Text) :
    (t.toTag here mark).get? name = formValue? t name := by
  unfold Tag.get? formValue? TagForm.toTag
  simp only
  generalize here.after ('<' :: t.name) = here
  generalize t.attributes = as
  -- where an attribute stands does not matter, so the location is any
  induction as generalizing here with
  | nil => rfl
  | cons a as ih =>
    have hsame : (a.toAttribute here).name = a.name := rfl
    rw [AttributeForm.attributesAt]
    by_cases hname : a.name = name
    · rw [List.find?_cons_of_pos (by rw [hsame]; exact decide_eq_true hname),
        List.find?_cons_of_pos (by simpa using hname)]
      rfl
    · rw [List.find?_cons_of_neg (by rw [hsame]; simpa using hname),
        List.find?_cons_of_neg (by simpa using hname), ih]

/-- What is around the content of an element may be read off the form of its
tag. -/
theorem knownTo?_toTag (here : Location) (mark : Text) (t : TagForm) :
    around ++ (knownTo? inside (t.toTag here mark)).toList = aroundBelow inside around t := by
  rw [knownTo?, formValue?_eq, aroundBelow]

/-- A clause that is no expression is among those that are skipped. -/
theorem clauseValues_of_qualifySelectorOnly {bound : NameSet} {selector out : Text}
    (h : (qualifySelectorOnly bound selector).outcome = .ok out) :
    ∀ name ∈ Selector.callClause :: Selector.literalClauses,
      Selector.clauseValues name out = Selector.clauseValues name selector := by
  intro name hname
  refine Selector.clauseValues_of_qualify ?_ h
  have hall : ∀ name ∈ Selector.callClause :: Selector.literalClauses,
      (Selector.literalClauses ++ [Selector.callClause]).contains name = true := by decide
  exact hall name hname

/-- An attribute as it is written with its new value. -/
theorem attributeReselected_respell {element : Text} {here : Location} {a : AttributeForm}
    {value : Text} (h : Reselects around element a.name a.value.decoded value) :
    AttributeReselected around element a (a.respell { a.toAttribute here with value }) := by
  unfold AttributeReselected
  by_cases hselector : around ≠ [] ∧ namesSelector element a.name = true
  · rw [if_pos hselector]
    rw [reselects_of_selector hselector.1 hselector.2] at h
    have hdecoded : (a.value.respell value (some a.quote)).decoded = value :=
      Spelling.decoded_respell _ _ _
    refine ⟨rfl, ?_, ?_, ?_⟩ <;> simp only [AttributeForm.respell, hdecoded]
    -- the one pass with the common names is the same as the passes one after the other
    · exact ⟨NameSet.common around, fun _ => NameSet.mem_common hselector.1, h⟩
    · exact Spelling.raw_respell _ _ _
    · exact clauseValues_of_qualifySelectorOnly h
  · rw [if_neg hselector]
    rw [Reselects, if_neg hselector] at h
    rw [h]
    show { a with value := a.value.respell a.value.decoded (some a.quote) } = a
    rw [Spelling.respell_decoded]

/-- Attributes as they are written with their new values. -/
theorem attributesReselected_respell {element : Text} {here : Location} {as : List AttributeForm}
    {bs : List Attribute} (h : List.Forall₂ (fun a b => (∃ value, b = { a with value }) ∧
      Reselects around element a.name a.value b.value) (AttributeForm.attributesAt here as) bs) :
    List.Forall₂ (AttributeReselected around element) as
      (List.zipWith AttributeForm.respell as bs) := by
  induction as generalizing here bs with
  | nil => exact .nil
  | cons a as ih =>
    rw [AttributeForm.attributesAt] at h
    cases h with
    | cons hab hrest =>
      obtain ⟨⟨value, rfl⟩, hvalue⟩ := hab
      exact .cons (attributeReselected_respell hvalue) (ih hrest)

/-- A start tag as it is written with its new values. -/
theorem tagFormReselected_respell {here : Location} {mark : Text} {t : TagForm} {u : Tag}
    (h : TagReselected around (t.toTag here mark) u) :
    TagFormReselected around t (t.respell u) := by
  obtain ⟨bs, rfl, hbs⟩ := h
  exact ⟨_, rfl, attributesReselected_respell hbs⟩

mutual

/-- **Written as it was** but for its selectors: what is said of the node is
said of the text that it is written as. -/
theorem FormReselected.of_node {around : List NameSet} (here : Location) (f : Form) {m : Node}
    (h : NodeReselected inside around (f.node here) m) :
    FormReselected inside around f (f.respell m) := by
  -- text is written as it was read, and only tags change
  cases f with
  | leaf l =>
    cases l with
    | text v =>
      obtain rfl := h
      show Form.leaf (.text (v.respell v.decoded none)) = _
      rw [Spelling.respell_decoded]
    | _ =>
      obtain rfl := h
      rfl
  | empty tag =>
    obtain ⟨tag', children', rfl, htag, -⟩ := h
    rw [knownTo?_toTag] at htag
    exact ⟨_, rfl, tagFormReselected_respell htag⟩
  | element tag children gap =>
    obtain ⟨tag', children', rfl, htag, hchildren⟩ := h
    rw [knownTo?_toTag] at htag hchildren
    exact ⟨_, _, rfl, tagFormReselected_respell htag,
      FormsReselected.of_nodes _ children hchildren⟩

/-- Nodes side by side are written as they were but for their selectors. -/
theorem FormsReselected.of_nodes {around : List NameSet} (here : Location) (fs : List Form)
    {ms : List Node} (h : NodesReselected inside around (Form.nodes here fs) ms) :
    FormsReselected inside around fs (Form.respellAll fs ms) := by
  cases fs with
  | nil =>
    cases h
    rfl
  | cons f fs =>
    obtain ⟨m, ms', rfl, hm, hms⟩ := h
    exact ⟨_, _, rfl, FormReselected.of_node here f hm, FormsReselected.of_nodes _ fs hms⟩

end

end Forms

/-! ## §5. Texts. -/

/-- A text that was edited by a walk that settles is edited no further. -/
theorem editText_idempotent {f : Node → Draft ValueError Node} (hf : Settling nodeGrowth f)
    {content out : Text} (h : (editText (Document.editRoots f) content).outcome = .ok out) :
    (editText (Document.editRoots f) out).outcome = .ok out := by
  obtain ⟨d, hparse, hfailure, rfl⟩ := editText_eq_ok_iff.1 h
  have hsource : (d.editRoots f).value.source = d.source := rfl
  have hedited := (hf.eachRoot.edits d.nodes).mono marked_le_edited
  obtain ⟨d₂, hparse₂, hreread⟩ := exists_parse_render hparse hsource hedited defaultUrl
  rw [editText_eq_self_iff hf hparse₂, stays_editRoots_iff]
  exact hf.eachRoot.lasts _ _ (hf.eachRoot.settles d.nodes hfailure) (hreread.mono reread_le_grown)

/-- **What qualifying selectors alone writes.**  The text is written as it was,
but for the selectors that stand in an element, or on one, that inherits from a
known template: each of these is qualified, as if once, against the names that
all these templates set.  To do it again changes nothing. -/
theorem qualifyTextSelectors_exact {inside : VarMap} {content out : Text}
    (h : (qualifyTextSelectors inside content).outcome = .ok out) :
    (∃ forms forms', Derives content forms ∧ Derives out forms' ∧
      FormsReselected inside [] forms forms') ∧
    (qualifyTextSelectors inside out).outcome = .ok out := by
  have hsettling := settling_visitAll (settling_editKnown inside)
  refine ⟨?_, editText_idempotent hsettling h⟩
  rw [qualifyTextSelectors, qualifySelectors_eq] at h
  obtain ⟨d, hparse, hfailure, rfl⟩ := editText_eq_ok_iff.1 h
  obtain ⟨forms, hforms, rfl⟩ := exists_derives_of_document hparse
  have hedited := (hsettling.eachRoot.edits (Form.nodes .origin forms)).mono marked_le_edited
  -- the pass has not failed, so every root was rewritten
  have hroots : (Form.nodes .origin forms).mapM (fun n => result (n.visitAll (editKnown inside))) =
      some (Draft.each (Node.visitAll (editKnown inside)) (Form.nodes .origin forms)).value := by
    rw [← result_each]
    exact result_eq_some_iff.2 ⟨hfailure, rfl⟩
  refine ⟨forms, _, hforms, derives_respellAll hforms hedited, .of_nodes .origin forms ?_⟩
  exact .of_mapM hroots fun n _ m hm => reselected_of_visitWithin le_rfl hm

/-- The template `a` sets `x`, and `b` sets `x` and `y`.  A patch of both is
qualified for `x` alone. -/
def patchedSample : VarMap :=
  (VarMap.put ∅ "a".toList (.ofList ["x".toList])).put "b".toList
    (.ofList ["x".toList, "y".toList])

/-- A patch to `b` within a patch to `a`, with that selector. -/
def patchedText (selector : Text) : Text :=
  "<t t-inherit='a'><t t-inherit='b'><xpath expr=\"".toList ++ selector ++ "\"/></t></t>".toList

/-- The patch sees what both set. -/
theorem qualifyTextSelectors_exact_sample :
    (qualifyTextSelectors patchedSample
      (patchedText "@t-if='x+y' @t-call='{{z}}'".toList)).outcome =
        .ok (patchedText "@t-if='x+this.y' @t-call='{{z}}'".toList) ∧
    (∃ forms forms', Derives (patchedText "@t-if='x+y' @t-call='{{z}}'".toList) forms ∧
      Derives (patchedText "@t-if='x+this.y' @t-call='{{z}}'".toList) forms' ∧
      FormsReselected patchedSample [] forms forms') ∧
    (qualifyTextSelectors patchedSample
      (patchedText "@t-if='x+this.y' @t-call='{{z}}'".toList)).outcome =
        .ok (patchedText "@t-if='x+this.y' @t-call='{{z}}'".toList) := by
  have h : (qualifyTextSelectors patchedSample
      (patchedText "@t-if='x+y' @t-call='{{z}}'".toList)).outcome =
        .ok (patchedText "@t-if='x+this.y' @t-call='{{z}}'".toList) := by
    decide +kernel
  exact ⟨h, qualifyTextSelectors_exact h⟩

end QwebReceiver.Template
