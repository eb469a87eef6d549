import QwebReceiver.Proofs.Template.Settle

/-!
  QwebReceiver.Proofs.Template.Qualify — qualifying a document settles it.

  Each edit that qualifying is made of settles what it edits: the value of an
  attribute (`settling_qualifyAttributes`), the text of a patch
  (`settling_qualifyPatch`), a selector with the patches below it
  (`settling_qualifySelectorElement`).  A selector grows while its patches are
  qualified by what it was, which is why it matters that a patch which holds
  no expression never comes to hold one.
-/

namespace QwebReceiver.Template

open QwebReceiver.Text QwebReceiver.Markup QwebReceiver.Expr

/-! ## §1. Values. -/

section Values

variable {qualify : Qualifier} {bound : NameSet} {element name value out : Text}
  {changed : Text → String}

/-- A value that can be qualified is replaced. -/
theorem qualifyValue_of_ok (h : (qualify bound value).outcome = .ok out) :
    (qualifyValue qualify bound element name changed value).failure = none ∧
      (qualifyValue qualify bound element name changed value).value = out := by
  rw [qualifyValue]
  simp only [h]
  by_cases heq : out = value
  · rw [if_pos heq]
    exact ⟨rfl, heq.symm⟩
  · rw [if_neg heq]
    exact ⟨rfl, rfl⟩

/-- A value that cannot be qualified is kept, and the failure tells of what
element and attribute it is, and why. -/
theorem qualifyValue_of_error {cause : ExprError} (h : (qualify bound value).outcome = .error cause) :
    (qualifyValue qualify bound element name changed value).failure =
        some ⟨element, name, cause⟩ ∧
      (qualifyValue qualify bound element name changed value).value = value := by
  rw [qualifyValue]
  simp only [h, and_self]

/-- A value is edited into what it is qualified to, or not at all. -/
theorem qualifyValue_cases :
    ((qualify bound value).outcome =
        .ok (qualifyValue qualify bound element name changed value).value ∧
      (qualifyValue qualify bound element name changed value).failure = none) ∨
    ((qualifyValue qualify bound element name changed value).value = value ∧
      (qualifyValue qualify bound element name changed value).failure ≠ none) := by
  cases h : (qualify bound value).outcome with
  | ok out =>
    obtain ⟨hfailure, hvalue⟩ := qualifyValue_of_ok h
    exact Or.inl ⟨by rw [hvalue], hfailure⟩
  | error cause =>
    obtain ⟨hfailure, hvalue⟩ := qualifyValue_of_error h
    exact Or.inr ⟨hvalue, by simp [hfailure]⟩

/-- An edit of a value goes through only if the value can be qualified. -/
theorem outcome_of_qualifyValue
    (h : (qualifyValue qualify bound element name changed value).failure = none) :
    (qualify bound value).outcome =
      .ok (qualifyValue qualify bound element name changed value).value := by
  rcases qualifyValue_cases with ⟨houtcome, -⟩ | ⟨-, hfailure⟩
  · exact houtcome
  · exact absurd h hfailure

/-- A value grows when it is qualified, or stays. -/
theorem grows_qualifyValue (hq : Qualifying (qualify bound)) :
    Grows value (qualifyValue qualify bound element name changed value).value := by
  rcases qualifyValue_cases with ⟨houtcome, -⟩ | ⟨hvalue, -⟩
  · exact (hq.marks houtcome).grows
  · rw [hvalue]
    exact Grows.refl value

end Values

/-! ## §2. Attributes. -/

/-- Attributes: an edit changes the value alone, by marks, and never a value
that names something. -/
def attributeGrowth : Growth Attribute where
  edits := marked.attr
  grows := grown.attr
  refl := marked_refl.attr
  trans h h' := marked_trans.attr ⟨_, h, h'⟩
  antisymm h h' := marked_antisymm.attr h h'
  grows_of_edits h := marked_le_grown.attr h

/-- The ways that are chosen qualify, and names are left alone.  All passes over
attributes are instances. -/
def Chooses (select : Text → Option Qualifier) (bound : NameSet) : Prop :=
  ∀ name qualify, select name = some qualify →
    name ∉ namingAttrs ∧ Qualifying (qualify bound)

/-- One way for all attributes of some kind. -/
theorem chooses_ite {p : Text → Prop} [DecidablePred p] {qualify : Qualifier} {bound : NameSet}
    (hp : ∀ name, p name → name ∉ namingAttrs) (hq : Qualifying (qualify bound)) :
    Chooses (fun name => if p name then some qualify else none) bound := by
  intro name qualify' h
  obtain ⟨hname, heq⟩ := Option.ite_none_right_eq_some.1 h
  cases heq
  exact ⟨hp name hname, hq⟩

section Attributes

variable {select : Text → Option Qualifier} {bound : NameSet} {element : Text}

/-- The edit of one attribute. -/
def editAttribute (select : Text → Option Qualifier) (bound : NameSet) (element : Text)
    (a : Attribute) : Draft ValueError Attribute :=
  match select a.name with
  | none => .done a
  | some qualify => qualifyAttribute qualify bound element a

theorem editAttribute_of_none {a : Attribute} (h : select a.name = none) :
    editAttribute select bound element a = .done a := by
  rw [editAttribute, h]

/-- An attribute for which a way is chosen is qualified in this way. -/
theorem editAttribute_of_some {a : Attribute} {qualify : Qualifier}
    (h : select a.name = some qualify) :
    editAttribute select bound element a = qualifyAttribute qualify bound element a := by
  rw [editAttribute, h]

/-- An attribute is left alone if the way chosen for it leaves its value alone. -/
theorem stays_editAttribute_iff {a : Attribute} :
    Stays (editAttribute select bound element) a ↔
      ∀ qualify, select a.name = some qualify → (qualify bound a.value).outcome = .ok a.value := by
  constructor
  · rintro ⟨hfailure, hvalue⟩ qualify hq
    rw [editAttribute_of_some hq] at hfailure hvalue
    rw [outcome_of_qualifyValue hfailure]
    exact congrArg (Except.ok ∘ Attribute.value) hvalue
  · intro h
    cases hs : select a.name with
    | none => exact (stays_congr (editAttribute_of_none hs)).2 (stays_done a)
    | some qualify =>
      refine (stays_congr (editAttribute_of_some hs)).2 ?_
      obtain ⟨hfailure, hvalue⟩ := qualifyValue_of_ok (h qualify hs)
      exact ⟨hfailure, congrArg (fun value => { a with value }) hvalue⟩

/-- The edit of one attribute settles it: no way is chosen for names, and all
ways qualify. -/
theorem settling_editAttribute (hselect : Chooses select bound) :
    Settling attributeGrowth (editAttribute select bound element) where
  edits a := by
    cases hs : select a.name with
    | none =>
      rw [editAttribute_of_none hs]
      exact attributeGrowth.refl a
    | some qualify =>
      obtain ⟨hname, hq⟩ := hselect _ _ hs
      rw [editAttribute_of_some hs]
      exact ⟨⟨_, rfl⟩, grows_qualifyValue hq, fun hmem => absurd hmem hname⟩
  settles a h := by
    cases hs : select a.name with
    | none =>
      rw [editAttribute_of_none hs]
      exact (stays_congr (editAttribute_of_none hs)).2 (stays_done a)
    | some qualify =>
      rw [editAttribute_of_some hs] at h ⊢
      rw [stays_editAttribute_iff]
      intro qualify' hs'
      -- the name is kept, so the second pass chooses the same rewriting
      obtain rfl : qualify = qualify' := Option.some.inj (hs.symm.trans hs')
      exact (hselect _ _ hs).2.stays (outcome_of_qualifyValue h)
  lasts a b ha hab := by
    rw [stays_editAttribute_iff] at ha ⊢
    intro qualify hb
    rw [hab.1] at hb
    exact (hselect _ _ hb).2.stays_of_grows (ha qualify hb) hab.2.1

/-- A tag is left alone if each of its attributes is. -/
theorem stays_qualifyAttributes_iff {t : Tag} :
    Stays (qualifyAttributes select bound) t ↔
      Stays (Draft.each (editAttribute select bound t.name)) t.attributes := by
  constructor
  · rintro ⟨hfailure, hvalue⟩
    exact ⟨hfailure, congrArg Tag.attributes hvalue⟩
  · rintro ⟨hfailure, hvalue⟩
    exact ⟨hfailure, congrArg (fun attributes => { t with attributes }) hvalue⟩

/-- To qualify the attributes of a tag settles it. -/
theorem settling_qualifyAttributes (hselect : Chooses select bound) :
    Settling tagGrowth (qualifyAttributes select bound) where
  edits t := ⟨rfl, (settling_editAttribute hselect).each.edits t.attributes, rfl⟩
  settles t h := by
    have hs := (settling_editAttribute hselect).each.settles t.attributes h
    exact stays_qualifyAttributes_iff.2 hs
  lasts t u ht htu := by
    rw [stays_qualifyAttributes_iff] at ht ⊢
    rw [htu.name]
    exact (settling_editAttribute hselect).each.lasts _ _ ht htu.attributes

/-- No name is of a kind that is qualified. -/
theorem attributeKind?_eq_none (component : Bool) :
    ∀ name ∈ namingAttrs, attributeKind? name component = none := by
  cases component <;> decide

/-- Whatever the kind of an attribute, its way settles every value. -/
theorem qualifying_qualifier (kind : AttributeKind) (bound : NameSet) :
    Qualifying (kind.qualifier bound) := by
  cases kind with
  | dynamicString => exact qualifying_qualifyDynamic bound
  | _ => exact qualifying_qualify bound

/-- A walk that qualifies the attributes of one kind settles a template. -/
theorem settling_qualifyKind (kind : AttributeKind) (bound : NameSet) :
    Settling nodeGrowth (qualifyKind kind bound) := by
  refine Settling.visit enter_of_grown (Settling.editTag ?_)
  refine Settling.of_key_eq isComponent (fun component => qualifyAttributes (fun name =>
    if attributeKind? name component = some kind then some kind.qualifier else none) bound) ?_
    fun t u h => isComponent_of_grown h
  intro component
  refine settling_qualifyAttributes (chooses_ite ?_ (qualifying_qualifier kind bound))
  intro name hkind hname
  rw [attributeKind?_eq_none component name hname] at hkind
  cases hkind

end Attributes

/-! ## §3. Patches. -/

section Patches

variable {bound : NameSet} {selector : Text}

/-- The name and the text of a patch that holds an expression.  The name and the
selector above it decide whether it does. -/
def IsPatch (selector : Text) (n : Node) (name : Text) (data : CharData) : Prop :=
  ∃ tag rest close, n = .element tag (.text data :: rest) close ∧ tag.name = patchTag ∧
    tag.get? patchNameAttr = some name ∧ isExpressionPatch name selector = true

/-- An element is a patch that holds an expression, and its text is qualified,
or it is left alone. -/
theorem qualifyPatch_cases (bound : NameSet) (selector : Text) (n : Node) :
    (∃ name data changed, IsPatch selector n name data ∧ qualifyPatch bound selector n =
      (qualifyValue Expr.qualify bound patchTag name changed data.value).map
        fun value => n.setLeadingText value) ∨
    ((∀ name data, ¬ IsPatch selector n name data) ∧ qualifyPatch bound selector n = .done n) := by
  by_cases hpatch : ∃ name data, IsPatch selector n name data
  · obtain ⟨name, data, h⟩ := hpatch
    have hpatch := h
    obtain ⟨tag, rest, close, rfl, htag, hname, hexpr⟩ := h
    rw [qualifyPatch]
    simp only [hname, htag, hexpr, decide_true, Bool.and_self, if_true]
    exact Or.inl ⟨name, data, _, hpatch, rfl⟩
  · refine Or.inr ⟨fun name data h => hpatch ⟨name, data, h⟩, ?_⟩
    unfold qualifyPatch
    split
    · next tag data rest close =>
      split
      · next name hname =>
        -- a name alone makes no patch, the tag and the selector must allow it too
        refine if_neg ?_
        intro h
        rw [Bool.and_eq_true, decide_eq_true_eq] at h
        exact hpatch ⟨name, data, tag, rest, close, rfl, h.1, hname, h.2⟩
      · rfl
    · rfl

/-- A patch has one name and one text. -/
theorem IsPatch.unique {n : Node} {name name' : Text} {data data' : CharData}
    (h : IsPatch selector n name data) (h' : IsPatch selector n name' data') :
    name' = name ∧ data' = data := by
  obtain ⟨tag, rest, close, rfl, -, hname, -⟩ := h
  obtain ⟨tag', rest', close', heq, -, hname', -⟩ := h'
  cases heq
  exact ⟨Option.some.inj (hname'.symm.trans hname), rfl⟩

/-- A patch with another text is a patch. -/
theorem IsPatch.setLeadingText {n : Node} {name : Text} {data : CharData}
    (h : IsPatch selector n name data) (value : Text) :
    IsPatch selector (n.setLeadingText value) name { data with value } := by
  obtain ⟨tag, rest, close, rfl, htag, hname, hpatch⟩ := h
  exact ⟨tag, rest, close, rfl, htag, hname, hpatch⟩

/-- A patch is the same with a text if that is the one it has. -/
theorem IsPatch.setLeadingText_eq_self_iff {n : Node} {name value : Text} {data : CharData}
    (h : IsPatch selector n name data) : n.setLeadingText value = n ↔ value = data.value := by
  constructor
  · intro hself
    have hset := h.setLeadingText value
    rw [hself] at hset
    exact congrArg CharData.value (h.unique hset).2
  · rintro rfl
    obtain ⟨tag, rest, close, rfl, -⟩ := h
    rfl

/-- What is a patch after it has grown was one before. -/
theorem IsPatch.of_grows {selector' : Text} {n m : Node} {name' : Text} {data' : CharData}
    (h : IsPatch selector' m name' data') (hselector : Grows selector selector')
    (hnm : nodeGrowth.grows n m) :
    ∃ name data, IsPatch selector n name data ∧ Grows data.value data'.value := by
  obtain ⟨tag', rest', close', rfl, htag', hname', hpatch'⟩ := h
  obtain ⟨first, halike⟩ := hnm
  -- growing keeps the kind of every node and the names of attributes
  cases n with
  | element tag children close =>
    obtain ⟨_, _, _, heq, htag, hchildren, -⟩ := halike
    cases heq
    have hget := get?_grows htag patchNameAttr
    rw [hname'] at hget
    cases hname : tag.get? patchNameAttr with
    | none =>
      rw [hname] at hget
      cases hget
    | some name =>
      rw [hname, Option.rel_some_some] at hget
      cases children with
      | nil => cases hchildren
      | cons c rest =>
        obtain ⟨_, _, heq, hc, -⟩ := hchildren
        cases heq
        cases c with
        | text data =>
          obtain ⟨_, heq, hdata⟩ := hc
          cases heq
          exact ⟨name, data, ⟨tag, rest, close, rfl, htag.name.symm.trans htag', hname,
            isExpressionPatch_of_grows hget hselector hpatch'⟩, hdata⟩
        | element tag children close =>
          obtain ⟨_, _, _, heq, -⟩ := hc
          cases heq
        | _ =>
          obtain ⟨_, heq, -⟩ := hc
          cases heq
  | _ =>
    obtain ⟨_, heq, -⟩ := halike
    cases heq

/-- A patch is left alone if qualifying leaves its text alone. -/
theorem stays_qualifyPatch_iff {n : Node} :
    Stays (qualifyPatch bound selector) n ↔ ∀ name data, IsPatch selector n name data →
      (Expr.qualify bound data.value).outcome = .ok data.value := by
  rcases qualifyPatch_cases bound selector n with ⟨name, data, changed, hpatch, heq⟩ | ⟨hnone, heq⟩
  · constructor
    · rintro ⟨hfailure, hvalue⟩ name' data' hpatch'
      -- a node is a patch in one way at most
      obtain ⟨rfl, rfl⟩ := hpatch.unique hpatch'
      rw [heq] at hfailure hvalue
      rw [outcome_of_qualifyValue hfailure, hpatch.setLeadingText_eq_self_iff.1 hvalue]
    · intro h
      obtain ⟨hfailure, hvalue⟩ := qualifyValue_of_ok (h name data hpatch)
      refine ⟨?_, ?_⟩
      · rw [heq]
        exact hfailure
      · rw [heq]
        exact hpatch.setLeadingText_eq_self_iff.2 hvalue
  · rw [stays_congr heq]
    exact ⟨fun _ name data hpatch => absurd hpatch (hnone name data), fun _ => stays_done n⟩

/-- To qualify the text of a patch settles the element. -/
theorem settling_qualifyPatch (bound : NameSet) (selector : Text) :
    Settling nodeGrowth (qualifyPatch bound selector) where
  edits n := by
    rcases qualifyPatch_cases bound selector n with ⟨name, data, changed, hpatch, heq⟩ | ⟨-, heq⟩
    · rw [heq]
      obtain ⟨tag, rest, close, rfl, htag, -, -⟩ := hpatch
      intro first
      refine ⟨_, _, _, rfl, Tag.Alike.refl marked_refl tag, ?_, close_refl marked_refl close⟩
      refine ⟨_, _, rfl, ⟨_, rfl, ⟨_, rfl⟩, grows_qualifyValue (qualifying_qualify bound), ?_⟩,
        Node.AlikeAll.refl marked_refl _ rest⟩
      -- only the first text below a patch is changed, which the likeness allows there
      intro hother
      exact absurd (congrArg some htag) hother
    · rw [heq]
      exact nodeGrowth.refl n
  settles n h := by
    rw [stays_qualifyPatch_iff]
    rcases qualifyPatch_cases bound selector n with ⟨name, data, changed, hpatch, heq⟩ | ⟨hnone, heq⟩
    · rw [heq] at h ⊢
      intro name' data' hpatch'
      obtain ⟨-, rfl⟩ := (hpatch.setLeadingText _).unique hpatch'
      exact (qualifying_qualify bound).stays (outcome_of_qualifyValue h)
    · rw [heq]
      exact fun name data hpatch => absurd hpatch (hnone name data)
  lasts n m hn hnm := by
    rw [stays_qualifyPatch_iff] at hn ⊢
    intro name' data' hpatch'
    obtain ⟨name, data, hpatch, hdata⟩ := hpatch'.of_grows (Grows.refl selector) hnm
    exact (qualifying_qualify bound).stays_of_grows (hn name data hpatch) hdata

/-- Patches of a selector that has grown. -/
theorem Stays.qualifyPatch_of_grows {selector' : Text} (h : Grows selector selector') {n : Node}
    (hn : Stays (qualifyPatch bound selector) n) : Stays (qualifyPatch bound selector') n := by
  rw [stays_qualifyPatch_iff] at hn ⊢
  intro name' data' hpatch'
  obtain ⟨name, data, hpatch, hdata⟩ :=
    hpatch'.of_grows h (nodeGrowth.grows_of_edits (nodeGrowth.refl n))
  exact (qualifying_qualify bound).stays_of_grows (hn name data hpatch) hdata

end Patches

/-! ## §4. Selectors. -/

/-- A walk to everything below an element settles what its edit does. -/
theorem settling_visitAll {f : Node → Draft ValueError Node} (hf : Settling nodeGrowth f) :
    Settling nodeGrowth (Node.visitAll f) := hf.visit fun _ _ _ => rfl

/-- The selector of a selector element.  Attributes of that name on other
elements are none. -/
def selector? (n : Node) : Option Text :=
  n.tag?.bind fun tag => if tag.name = selectorTag then tag.get? selectorAttr else none

/-- Qualifies the selector of an element, if it selects anything.  An empty
selector is left alone. -/
def editSelector (inherited : NameSet) (selector : Text) (n : Node) : Draft ValueError Node :=
  if selector.isEmpty then .done n else n.editTag (qualifySelectorAttr qualifySelector inherited)

/-- Qualifies a selector element by the selector it has: first the selector,
then the patches below it. -/
def editSelectorElement (inherited all : NameSet) (selector : Option Text) (n : Node) :
    Draft ValueError Node :=
  match selector with
  | none => .done n
  | some selector =>
    (editSelector inherited selector n).andThen (Node.visitAll (qualifyPatch all selector))

/-- A selector element is edited as its selector, read off before, demands. -/
theorem qualifySelectorElement_eq (inherited all : NameSet) (n : Node) :
    qualifySelectorElement inherited all n = editSelectorElement inherited all (selector? n) n := by
  cases n with
  | element tag children close =>
    by_cases htag : tag.name = selectorTag
    · cases hget : tag.get? selectorAttr with
      | none => simp only [qualifySelectorElement, selector?, Node.tag?, Option.bind_some, hget, htag,
          if_true, editSelectorElement]
      | some selector => simp only [qualifySelectorElement, selector?, Node.tag?, Option.bind_some,
          hget, htag, if_true, editSelectorElement, editSelector]
    · cases hget : tag.get? selectorAttr with
      | none => simp only [qualifySelectorElement, selector?, Node.tag?, Option.bind_some, hget, htag,
          if_false, editSelectorElement]
      | some selector => simp only [qualifySelectorElement, selector?, Node.tag?, Option.bind_some,
          hget, htag, if_false, editSelectorElement]
  | _ => rfl

/-- The selector of an element grows with the element. -/
theorem selector?_grows (n m : Node) (h : nodeGrowth.grows n m) :
    Option.Rel Grows (selector? n) (selector? m) := by
  obtain ⟨first, halike⟩ := h
  have htag := tag?_of_grown halike
  unfold selector?
  revert htag
  generalize n.tag? = x
  generalize m.tag? = y
  -- the tag keeps its name, so it is a selector before and after
  rintro (@⟨t, u, htag⟩ | _)
  · show Option.Rel Grows (if t.name = selectorTag then _ else none)
      (if u.name = selectorTag then _ else none)
    rw [htag.name]
    by_cases hname : t.name = selectorTag
    · rw [if_pos hname, if_pos hname]
      exact get?_grows htag selectorAttr
    · rw [if_neg hname, if_neg hname]
      exact .none
  · exact .none

section Selectors

variable (inherited all : NameSet)

/-- To qualify a selector by itself settles its element. -/
theorem settling_editSelector (selector : Text) :
    Settling nodeGrowth (editSelector inherited selector) := by
  unfold editSelector
  by_cases hempty : selector.isEmpty = true
  · simp only [hempty, if_true]
    exact settling_done nodeGrowth
  · simp only [hempty]
    refine (settling_qualifyAttributes (chooses_ite ?_ ?_)).editTag
    · rintro name rfl
      decide
    · exact qualifying_qualifySelector inherited _

/-- To qualify a selector, and the patches below it, settles the element,
whatever the selector is. -/
theorem settling_editSelectorElement (selector : Option Text) :
    Settling nodeGrowth (editSelectorElement inherited all selector) := by
  cases selector with
  | none => exact settling_done nodeGrowth
  | some selector =>
    exact (settling_editSelector inherited selector).andThen
      (settling_visitAll (settling_qualifyPatch all selector))

/-- A text that is not empty does not become so, nor the other way around. -/
theorem isEmpty_of_grows {s t : Text} (h : Grows s t) : t.isEmpty = s.isEmpty := by
  cases s with
  | nil =>
    rw [h.eq_nil]
  | cons c s =>
    cases t with
    | nil => exact absurd h.length_le (by simp)
    | cons d t => rfl

/-- A selector that has grown leaves alone what it left alone before. -/
theorem Stays.editSelectorElement_of_grows {k k' : Option Text} {n : Node}
    (h : Option.Rel Grows k k') (hn : Stays (editSelectorElement inherited all k) n) :
    Stays (editSelectorElement inherited all k') n := by
  cases h with
  | none => exact hn
  | @some s s' hgrows =>
    have hpatch := fun selector => settling_qualifyPatch all selector
    have hboth : ∀ selector, Stays (editSelectorElement inherited all (some selector)) n ↔
        Stays (editSelector inherited selector) n ∧
          Stays (Node.visitAll (qualifyPatch all selector)) n := fun selector =>
      (settling_editSelector inherited selector).stays_andThen_iff
        (settling_visitAll (hpatch selector))
    rw [hboth] at hn ⊢
    -- a selector that grows is empty only if it was
    have hempty : editSelector inherited s' = editSelector inherited s := by
      unfold editSelector
      rw [isEmpty_of_grows hgrows]
    rw [hempty]
    exact ⟨hn.1, hn.2.visit_mono (fun _ _ _ => rfl) (hpatch s) (hpatch s') fun _ =>
      Stays.qualifyPatch_of_grows hgrows⟩

/-- To qualify a selector element settles it.  Its edit is chosen by the
selector that it has, which may have grown since. -/
theorem settling_qualifySelectorElement :
    Settling nodeGrowth (qualifySelectorElement inherited all) := by
  rw [funext (qualifySelectorElement_eq inherited all)]
  exact Settling.of_key selector? (editSelectorElement inherited all)
    (settling_editSelectorElement inherited all) selector?_grows
    fun _ _ _ => Stays.editSelectorElement_of_grows inherited all

end Selectors

/-! ## §5. Templates. -/

/-- To qualify the patches of an inheriting element settles it. -/
theorem settling_qualifyInheriting (bound : NameSet) (inside : VarMap) :
    Settling nodeGrowth (qualifyInheriting bound inside) := by
  refine Settling.of_option (fun n => n.tag?.bind (·.get? inheritAttr)) (fun target =>
    Node.visitAll (qualifySelectorElement ((inside.get? target).getD ∅)
      (bound.union ((inside.get? target).getD ∅)))) ?_ ?_ ?_ ?_
  · intro target
    exact settling_visitAll (settling_qualifySelectorElement _ _)
  · rintro n m ⟨first, halike⟩
    exact tag?_bind_of_grown (by decide) halike
  · intro n hn
    refine (stays_congr ?_).2 (stays_done n)
    rw [qualifyInheriting, hn]
  · intro n target hn
    rw [qualifyInheriting, hn]
    exact ⟨rfl, rfl⟩

/-- To qualify a template settles it: each of its walks does. -/
theorem settling_qualifyTemplate (bound : NameSet) (inside : VarMap) :
    Settling nodeGrowth (qualifyTemplate bound inside) := by
  have hkinds := Settling.foldl (fun kind => settling_qualifyKind kind bound) kindOrder
    (settling_done nodeGrowth)
  exact hkinds.andThen ((settling_qualifyInheriting bound inside).visit enter_of_grown)

/-- To qualify a named template settles it, for its scope does not change. -/
theorem settling_qualifyNamed (vars : CorpusVars) : Settling nodeGrowth (qualifyNamed vars) := by
  refine Settling.of_option
    (fun n => (n.tag?.bind (·.get? nameAttr)).map fun name => (name, boundNames n))
    (fun key => qualifyTemplate (key.2.union ((vars.outside.get? key.1).getD ∅)) vars.inside)
    (fun key => settling_qualifyTemplate _ _) ?_ ?_ ?_
  · rintro n m ⟨first, halike⟩
    rw [tag?_bind_of_grown (by decide) halike, boundNames_of_grown halike]
  · intro n hn
    rw [Option.map_eq_none_iff] at hn
    refine (stays_congr ?_).2 (stays_done n)
    rw [qualifyNamed, hn]
  · intro n key hn
    obtain ⟨name, hname, rfl⟩ := Option.map_eq_some_iff.1 hn
    rw [qualifyNamed, hname]
    exact ⟨rfl, rfl⟩

/-- A root that is no element is left alone. -/
theorem stays_qualifyAnonymous (vars : CorpusVars) (n : Node)
    (hn : (n.tag?.map fun _ => boundNames n) = none) : Stays (qualifyAnonymous vars) n := by
  cases n with
  | element tag children close => cases hn
  | _ => exact ⟨rfl, rfl⟩

/-- A root element is qualified as a template. -/
theorem qualifyAnonymous_of_some (vars : CorpusVars) (n : Node) (bound : NameSet)
    (hn : (n.tag?.map fun _ => boundNames n) = some bound) :
    (qualifyAnonymous vars n).failure = (qualifyTemplate bound vars.inside n).failure ∧
      (qualifyAnonymous vars n).value = (qualifyTemplate bound vars.inside n).value := by
  cases n with
  | element tag children close =>
    cases hn
    exact ⟨rfl, rfl⟩
  | _ => cases hn

/-- To qualify a root without a name settles it. -/
theorem settling_qualifyAnonymous (vars : CorpusVars) :
    Settling nodeGrowth (qualifyAnonymous vars) := by
  refine Settling.of_option (fun n => n.tag?.map fun _ => boundNames n)
    (fun bound => qualifyTemplate bound vars.inside)
    (fun bound => settling_qualifyTemplate _ _) ?_ (stays_qualifyAnonymous vars)
    (qualifyAnonymous_of_some vars)
  rintro n m ⟨first, halike⟩
  rw [boundNames_of_grown halike]
  exact tag?_map_of_grown (fun _ _ _ => rfl) halike

/-! ## §6. Documents. -/

/-- Qualifies the templates below the roots of a document, as the pass over
documents does. -/
def qualifyRoots (vars : CorpusVars) (roots : List Node) : Draft ValueError (List Node) :=
  if ((Node.descendantsOf roots).any fun e => isTemplate e.tag) = true then
    Draft.each (Node.visitAll (qualifyNamed vars)) roots
  else Draft.each (qualifyAnonymous vars) roots

/-- A document is qualified root by root. -/
theorem qualifyDocument_eq (vars : CorpusVars) (d : Document) :
    qualifyDocument vars d = (qualifyRoots vars d.nodes).map fun nodes => { d with nodes } := by
  unfold qualifyDocument qualifyRoots Document.elements
  by_cases h : ((Node.descendantsOf d.nodes).any fun e => isTemplate e.tag) = true
  · rw [if_pos h, if_pos h]
    rfl
  · rw [if_neg h, if_neg h]
    rfl

/-- Qualifying a document lets its values grow, and a document that it leaves
alone it leaves alone however it has grown. -/
theorem settling_qualifyRoots (vars : CorpusVars) : Settling rootsGrowth (qualifyRoots vars) :=
  (settling_visitAll (settling_qualifyNamed vars)).eachRoot.ite
    (settling_qualifyAnonymous vars).eachRoot fun _ _ h => any_isTemplate_of_grown h

end QwebReceiver.Template
