import QwebReceiver.Proofs.Template.Passes

/-!
  QwebReceiver.Proofs.Template.Effect — what qualifying a template does at
  each place below it.

    walk for              tags                               texts
    attributes            those of the template              none
    inheriting elements   selectors at or below one, once    patches below a selector
                          for each inheriting element that   at or below one
                          the template itself holds

  A tag is described exactly (`Chain`), a text by where it may change
  (`MayRetext`, `BelowInheriting`).
-/

namespace QwebReceiver.Template

open QwebReceiver.Markup

variable {ε : Type}

/-! ## §1. Tags of a template. -/

/-- The edit goes through and makes `y` of `x`.  An edit that fails makes
nothing. -/
def Becomes (f : Node → Draft ε Node) (x y : Node) : Prop := result (f x) = some y

/-- A change of the edited node itself.  Whatever stands below it is as before. -/
def Effect.here (R : Node → Node → Prop) : Effect := fun _ place x y =>
  if place = [] then R x y else y = x

theorem children_editTag (g : Tag → Draft ε Tag) (n : Node) :
    (Node.editTag g n).value.children = n.children := by
  cases n <;> rfl

/-- An edit of the tag does to the element alone what it does to the element
with what is below it. -/
theorem becomes_editTag {g : Tag → Draft ε Tag} {n : Node}
    (h : (Node.editTag g n).failure = none) :
    Becomes (Node.editTag g) n.top (Node.editTag g n).value.top := by
  cases n with
  | element tag children close => exact result_eq_some_iff.2 ⟨h, rfl⟩
  | _ => exact result_eq_some_iff.2 ⟨h, rfl⟩

/-- An edit of the tag leaves elements elements. -/
theorem isSome_of_editTag {g : Tag → Draft ε Tag} {x y : Node}
    (h : Becomes (Node.editTag g) x y) : y.tag?.isSome = x.tag?.isSome := by
  obtain ⟨-, rfl⟩ := result_eq_some_iff.1 h
  cases x <;> rfl

/-- An edit of the tag changes the element itself, and nothing below it. -/
theorem acts_editTag (g : Tag → Draft ε Tag) :
    Acts (Node.editTag g) (Effect.here (Becomes (Node.editTag g))) where
  acts n h place m hm := by
    cases place with
    | nil =>
      obtain rfl : n = m := Option.some.inj hm
      refine ⟨_, rfl, ?_⟩
      rw [Effect.here, if_pos rfl]
      exact becomes_editTag h
    | cons i place =>
      refine ⟨m, ?_, ?_⟩
      · rwa [Node.at?, children_editTag]
      · rw [Effect.here, if_neg (List.cons_ne_nil i place)]
  lasts _ _ _ _ _ _ h := h

/-- The way to a place leads through nodes that a walk goes on with, so that the
walk comes to the place. -/
def within (enter : Tag → Bool) : List Nat → Node → Bool
  | [], _ => true
  | i :: place, n =>
    match n.children[i]? with
    | none => true
    | some c => admits enter c && within enter place c

theorem within_cons {enter : Tag → Bool} {i : Nat} {place : List Nat} {n c : Node}
    (hc : n.children[i]? = some c) :
    within enter (i :: place) n = (admits enter c && within enter place c) := by
  rw [within, hc]

/-- A walk changes the nodes that it comes to. -/
theorem walk_here {enter : Tag → Bool} {R : Node → Node → Prop} {place : List Nat} {n m x z : Node}
    (hm : n.at? place = some m) (h : (Effect.here R).walk enter n place x z) :
    if within enter place n = true then R x z else z = x := by
  induction place generalizing n x with
  | nil => exact h
  | cons i place ih =>
    obtain ⟨y, hy, hrest⟩ := h
    obtain ⟨c, hc, hm⟩ := Node.at?_cons hm
    -- on the way to the place nothing is done, so all that counts is whether the walk
    -- goes on
    obtain rfl : y = x := by
      rwa [Effect.here, if_neg (List.cons_ne_nil i place)] at hy
    have hbelow := hrest c hc
    rw [within_cons hc]
    by_cases hadmits : admits enter c = true
    · rw [if_pos hadmits] at hbelow
      rw [hadmits, Bool.true_and]
      exact ih hm hbelow
    · rw [if_neg hadmits] at hbelow
      rw [Bool.not_eq_true] at hadmits
      rw [hadmits, Bool.false_and]
      simpa using hbelow

/-- A walk through one template goes on with what is no template itself.  A
nested template is left to its own turn. -/
def continues (t : Tag) : Bool := !isTemplate t

/-- Whether a walk goes on with an element does not change when values grow. -/
theorem continues_of_grown (t u : Tag) (h : t.Alike grown u) : continues u = continues t :=
  enter_of_grown t u h

/-- What qualifying the attributes of a template does, to the places that belong
to it and to no others. -/
def tagEffect (bound : NameSet) : Effect := fun n place x y =>
  if within continues place n = true then Becomes (Node.editTag (qualifyTag bound)) x y else y = x

/-- Edits do not bar the way to a place. -/
theorem within_of_edits {enter : Tag → Bool}
    (henter : ∀ t u : Tag, t.Alike grown u → enter u = enter t) {place : List Nat} {n n' : Node}
    (h : nodeGrowth.edits n n') : within enter place n' = within enter place n := by
  -- a child may be the first of its list, where likeness asks more, so the induction is
  -- over any `first`
  suffices hany : ∀ first, n.Alike marked first n' → within enter place n' = within enter place n from
    hany none (h none)
  clear h
  induction place generalizing n n' with
  | nil =>
    intro first _
    rfl
  | cons i place ih =>
    intro first h
    cases hc : n.children[i]? with
    | none =>
      cases hc' : n'.children[i]? with
      | none => rw [within, within, hc, hc']
      | some c' =>
        obtain ⟨c, hc'', -⟩ := exists_child_of_alike' h hc'
        rw [hc] at hc''
        cases hc''
    | some c =>
      obtain ⟨c', hc', first', halike⟩ := exists_child_of_alike h hc
      rw [within_cons hc, within_cons hc', admits_of_edits henter halike, ih first' halike]

/-- To qualify the attributes of a tag settles it. -/
theorem settling_editTag_qualifyTag (bound : NameSet) :
    Settling nodeGrowth (Node.editTag (qualifyTag bound)) := by
  refine Settling.editTag ?_
  refine Settling.of_key_eq isComponent (fun component => qualifyAttributes (fun name =>
    (attributeKind? name component).map AttributeKind.qualifier) bound) ?_
    fun t u h => isComponent_of_grown h
  intro component
  refine settling_qualifyAttributes ?_
  intro name qualify hselect
  obtain ⟨kind, hkind, rfl⟩ := Option.map_eq_some_iff.1 hselect
  refine ⟨?_, qualifying_qualifier kind bound⟩
  intro hname
  rw [attributeKind?_eq_none component name hname] at hkind
  cases hkind

/-- What is no element has no tag to edit. -/
theorem stays_editTag_of_none {g : Tag → Draft ε Tag} (n : Node) (h : n.tag? = none) :
    Stays (Node.editTag g) n := by
  cases n with
  | element tag children close => cases h
  | _ => exact ⟨rfl, rfl⟩

/-- Attributes kind by kind do what all of them at once do. -/
theorem acts_qualifyKinds (bound : NameSet) : Acts (qualifyKinds bound) (tagEffect bound) where
  acts n h place m hm := by
    have hwalk := (acts_editTag (qualifyTag bound)).visit enter_of_grown
      (settling_editTag_qualifyTag bound) stays_editTag_of_none
    have hresult := result_eq_some_iff.2 ⟨h, rfl⟩
    rw [result_qualifyKinds] at hresult
    obtain ⟨hfailure, hvalue⟩ := result_eq_some_iff.1 hresult
    obtain ⟨m', hm', hE⟩ := hwalk.acts n hfailure place m hm
    exact ⟨m', hvalue ▸ hm', walk_here hm hE⟩
  lasts n n' hn place x y h := by
    rwa [tagEffect, within_of_edits continues_of_grown hn] at h

/-! ## §2. Texts of patches. -/

/-- What `P` says of an element on the way to a place and the rest of the way,
of one of them at least. -/
def OnTheWay (P : Node → List Nat → Prop) (place : List Nat) (n : Node) : Prop :=
  ∃ p e q, place = p ++ q ∧ n.at? p = some e ∧ P e q

theorem OnTheWay.here {P : Node → List Nat → Prop} {place : List Nat} {n : Node} (h : P n place) :
    OnTheWay P place n := ⟨[], n, place, rfl, rfl, h⟩

/-- What is on the way from a child is on the way from the node. -/
theorem OnTheWay.cons {P : Node → List Nat → Prop} {i : Nat} {place : List Nat} {n c : Node}
    (hc : n.children[i]? = some c) (h : OnTheWay P place c) : OnTheWay P (i :: place) n := by
  obtain ⟨p, e, q, rfl, he, hP⟩ := h
  exact ⟨i :: p, e, q, rfl, Node.at?_cons_of hc he, hP⟩

/-- What is on the way in the edited tree was on it before, if the property was
there before. -/
theorem OnTheWay.of_edits {P : Node → List Nat → Prop}
    (hP : ∀ first e e', e.Alike marked first e' → ∀ q, P e' q → P e q) {first : Option Text}
    {n n' : Node} (hn : n.Alike marked first n') {place : List Nat} (h : OnTheWay P place n') :
    OnTheWay P place n := by
  obtain ⟨p, e', q, rfl, he', h⟩ := h
  obtain ⟨e, first', he, halike⟩ := exists_at?_of_alike hn he'
  exact ⟨p, e, q, rfl, he, hP first' e e' halike q h⟩

/-- A text with another value. -/
def Retexts (x y : Node) : Prop := ∃ d value, x = .text d ∧ y = .text { d with value }

/-- Two new values of a text, one after the other, are one new value. -/
theorem Retexts.trans {x y z : Node} (h : Retexts x y) (h' : Retexts y z) : Retexts x z := by
  obtain ⟨d, v, rfl, rfl⟩ := h
  obtain ⟨_, w, heq, rfl⟩ := h'
  cases heq
  exact ⟨d, w, rfl, rfl⟩

/-- A text changes, if it does, only under a condition.  Steps of this kind
compose, each with its own condition. -/
def MayRetext (P : Prop) (x y : Node) : Prop := y = x ∨ (Retexts x y ∧ P)

/-- Two changes under a condition are one change under it. -/
theorem MayRetext.trans {P : Prop} {x y z : Node} (h : MayRetext P x y) (h' : MayRetext P y z) :
    MayRetext P x z := by
  rcases h with rfl | ⟨hxy, hP⟩
  · exact h'
  · rcases h' with rfl | ⟨hyz, -⟩
    · exact Or.inr ⟨hxy, hP⟩
    · exact Or.inr ⟨hxy.trans hyz, hP⟩

theorem MayRetext.mono {P Q : Prop} {x y : Node} (hPQ : P → Q) (h : MayRetext P x y) :
    MayRetext Q x y := h.imp_right fun h => ⟨h.1, hPQ h.2⟩

/-- No element changes where only texts do. -/
theorem MayRetext.eq_of_isSome {P : Prop} {x y : Node} (h : MayRetext P x y)
    (hx : x.tag?.isSome = true) : y = x := by
  rcases h with rfl | ⟨⟨d, v, rfl, rfl⟩, -⟩
  · rfl
  · cases hx

/-- An `attribute` element that names what it patches.  Without a name it
patches nothing. -/
def namesPatch (n : Node) : Bool :=
  (n.tag?.map fun t => decide (t.name = patchTag) && t.has patchNameAttr).getD false

/-- The place is that of the text at the start of a patch.  A patch holds an
expression in no other place. -/
def StartsText (n : Node) (place : List Nat) : Prop := namesPatch n = true ∧ place = [0]

/-- Edits of values neither make an element name what it patches nor stop it. -/
theorem namesPatch_of_edits {first : Option Text} {n n' : Node} (h : n.Alike marked first n') :
    namesPatch n' = namesPatch n := by
  unfold namesPatch
  rw [tag?_map_of_grown _ (h.mono marked_le_grown)]
  intro t u htu
  rw [htu.name, has_of_grown htu]

/-- An attribute with a value is there. -/
theorem has_of_get? {t : Tag} {name value : Text} (h : t.get? name = some value) :
    t.has name = true := by
  obtain ⟨a, ha, -⟩ := Option.map_eq_some_iff.1 h
  have hname := List.find?_some ha
  exact List.any_eq_true.2 ⟨a, List.mem_of_find?_eq_some ha, hname⟩

/-- Qualifying a patch changes no more than the text at its start. -/
theorem acts_qualifyPatch (bound : NameSet) (selector : Text) :
    Acts (qualifyPatch bound selector) fun n place => MayRetext (StartsText n place) where
  acts n h place m hm := by
    rcases qualifyPatch_cases bound selector n with ⟨name, data, changed, hpatch, heq⟩ | ⟨-, heq⟩
    · rw [heq]
      obtain ⟨tag, rest, close, rfl, htag, hname, -⟩ := hpatch
      have hnames : namesPatch (.element tag (.text data :: rest) close) = true := by
        simp [namesPatch, Node.tag?, htag, has_of_get? hname]
      -- the patch is an element, and only its first child is given a new text
      rcases place with _ | ⟨_ | i, place⟩
      · cases hm
        exact ⟨_, rfl, Or.inl rfl⟩
      · cases place with
        | nil =>
          cases hm
          exact ⟨_, rfl, Or.inr ⟨⟨data, _, rfl, rfl⟩, hnames, rfl⟩⟩
        | cons j place => simp [Node.at?, Node.children] at hm
      · exact ⟨m, hm, Or.inl rfl⟩
    · rw [heq]
      exact ⟨m, hm, Or.inl rfl⟩
  lasts n n' hn place x y h := by
    refine h.mono ?_
    rintro ⟨hnames, hplace⟩
    exact ⟨namesPatch_of_edits (hn none) ▸ hnames, hplace⟩

theorem Retexts.tag?_eq_none {x y : Node} (h : Retexts x y) : y.tag? = none := by
  obtain ⟨d, v, rfl, rfl⟩ := h
  rfl

/-- Where a walk may change texts.  `S` tells which nodes are looked at. -/
theorem walk_mayRetext {enter : Tag → Bool} {E : Effect} {P : Node → List Nat → Prop}
    {S : Node → Prop} {m : Node} (hS : ∀ x y, Retexts x y → S x → S y)
    (hE : ∀ n place x y, n.at? place = some m → S x → E n place x y →
      MayRetext (P n place) x y)
    {place : List Nat} {n x z : Node} (hm : n.at? place = some m) (hx : S x)
    (h : E.walk enter n place x z) : MayRetext (OnTheWay P place n) x z := by
  induction place generalizing n x with
  | nil => exact (hE n [] x z hm hx h).mono OnTheWay.here
  | cons i place ih =>
    obtain ⟨y, hy, hrest⟩ := h
    have hfirst := hE n (i :: place) x y hm hx hy
    obtain ⟨c, hc, hm⟩ := Node.at?_cons hm
    have hy : S y := by
      rcases hfirst with rfl | ⟨hretexts, -⟩
      · exact hx
      · exact hS x y hretexts hx
    have hbelow := hrest c hc
    -- what this node does to the text, then what the nodes below it do
    refine (hfirst.mono OnTheWay.here).trans ?_
    by_cases hadmits : admits enter c = true
    · rw [if_pos hadmits] at hbelow
      exact (ih hm hy hbelow).mono (OnTheWay.cons hc)
    · rw [if_neg hadmits] at hbelow
      exact Or.inl hbelow

/-! ## §3. Selectors. -/

/-- An `xpath` element with a selector.  Patches are only looked for below such
elements. -/
def isSelector (n : Node) : Bool := (selector? n).isSome

/-- Qualifies the selector of an element by itself, and leaves the patches below
it alone. -/
def reselect (inherited : NameSet) (n : Node) : Draft ValueError Node :=
  match selector? n with
  | none => .done n
  | some selector => editSelector inherited selector n

/-- The place is that of the text of a patch below a selector. -/
def BelowSelector (n : Node) (place : List Nat) : Prop :=
  isSelector n = true ∧ OnTheWay StartsText place n

/-- What qualifying a selector and its patches does: the element has a new
selector, and a text below it may have a new value. -/
def selectorEffect (inherited : NameSet) : Effect := fun n place x y =>
  if place = [] then Becomes (reselect inherited) x y else MayRetext (BelowSelector n place) x y

theorem selector?_top (n : Node) : selector? n.top = selector? n := by
  cases n <;> rfl

/-- Edits of values leave selector elements what they are. -/
theorem isSelector_of_edits {first : Option Text} {n n' : Node} (h : n.Alike marked first n') :
    isSelector n' = isSelector n := by
  have hrel := selector?_grows n n' ⟨first, h.mono marked_le_grown⟩
  unfold isSelector
  revert hrel
  generalize selector? n = k
  generalize selector? n' = k'
  rintro (_ | _) <;> rfl

/-- Where a patch starts after edits of values, it started before. -/
theorem StartsText.of_edits (first : Option Text) (e e' : Node) (h : e.Alike marked first e')
    (q : List Nat) (hq : StartsText e' q) : StartsText e q :=
  ⟨namesPatch_of_edits h ▸ hq.1, hq.2⟩

theorem BelowSelector.of_edits (first : Option Text) (e e' : Node) (h : e.Alike marked first e')
    (q : List Nat) (hq : BelowSelector e' q) : BelowSelector e q :=
  ⟨isSelector_of_edits h ▸ hq.1, hq.2.of_edits StartsText.of_edits h⟩

/-- What a selector element does to an edited tree it does to the tree before,
for edits do not move selectors. -/
theorem selectorEffect_lasts (inherited : NameSet) (n n' : Node) (hn : nodeGrowth.edits n n')
    (place : List Nat) (x y : Node) (h : selectorEffect inherited n' place x y) :
    selectorEffect inherited n place x y := by
  unfold selectorEffect at h ⊢
  by_cases hplace : place = []
  · rwa [if_pos hplace] at h ⊢
  · rw [if_neg hplace] at h ⊢
    exact h.mono (BelowSelector.of_edits none n n' (hn none) place)

/-- An edit that does nothing to what is no element leaves it alone. -/
theorem stays_of_settling {f : Node → Draft ε Node} (hf : ∀ n, n.tag? = none → f n = .done n)
    (n : Node) (hn : n.tag? = none) : Stays f n :=
  (stays_congr (hf n hn)).2 (stays_done n)

/-- What is no element is no patch. -/
theorem qualifyPatch_of_none (bound : NameSet) (selector : Text) (n : Node) (hn : n.tag? = none) :
    qualifyPatch bound selector n = .done n := by
  cases n with
  | element tag children close => cases hn
  | _ => rfl

/-- To qualify a selector changes its element, and nothing below it. -/
theorem acts_editSelector (inherited : NameSet) (selector : Text) :
    Acts (editSelector inherited selector)
      (Effect.here (Becomes (editSelector inherited selector))) := by
  unfold editSelector
  by_cases hempty : selector.isEmpty = true
  · simp only [hempty, if_true]
    refine acts_done.mono ?_ fun _ _ _ _ _ _ h => h
    rintro n place x y rfl
    rw [Effect.here]
    by_cases hplace : place = []
    · rw [if_pos hplace]
      rfl
    · rw [if_neg hplace]
  · simp only [hempty]
    exact acts_editTag _

/-- Qualifying a selector element changes its selector, and below it the texts
at the starts of patches. -/
theorem acts_qualifySelectorElement (inherited all : NameSet) :
    Acts (qualifySelectorElement inherited all) (selectorEffect inherited) where
  acts n h place m hm := by
    rw [qualifySelectorElement_eq] at h ⊢
    cases hselector : selector? n with
    | none =>
      rw [hselector] at h
      refine ⟨m, hm, ?_⟩
      unfold selectorEffect
      by_cases hplace : place = []
      · subst hplace
        obtain rfl : n = m := Option.some.inj hm
        rw [if_pos rfl, Becomes, reselect, selector?_top, hselector]
        rfl
      · rw [if_neg hplace]
        exact Or.inl rfl
    | some selector =>
      rw [hselector] at h
      have hpatches : Acts (Node.visitAll (qualifyPatch all selector)) _ :=
        (acts_qualifyPatch all selector).visit (fun _ _ _ => rfl) (settling_qualifyPatch all selector)
          (stays_of_settling (qualifyPatch_of_none all selector))
      obtain ⟨m', hm', y, hy, hwalk⟩ := ((acts_editSelector inherited selector).andThen
        (settling_editSelector inherited selector) hpatches).acts n h place m hm
      have htext := walk_mayRetext (S := fun _ => True) (fun _ _ _ h => h)
        (fun _ _ _ _ _ _ h => h) hm trivial hwalk
      refine ⟨m', hm', ?_⟩
      -- the selector is that of the node itself, the patches stand below it
      unfold selectorEffect
      unfold Effect.here at hy
      by_cases hplace : place = []
      · subst hplace
        obtain rfl : n = m := Option.some.inj hm
        rw [if_pos rfl] at hy ⊢
        have hsame : m'.top = y := by
          rcases htext with hsame | ⟨-, p, e, q, hnil, -, hstarts⟩
          · exact hsame
          · rw [hstarts.2] at hnil
            simp at hnil
        rw [hsame, Becomes, reselect, selector?_top, hselector]
        exact hy
      · rw [if_neg hplace] at hy ⊢
        rw [← hy]
        refine htext.mono fun hway => ⟨?_, hway⟩
        rw [isSelector, hselector]
        rfl
  lasts := selectorEffect_lasts inherited

/-- A node with an element at or below it is one. -/
theorem isSome_of_at? {c m : Node} {place : List Nat} (hm : c.at? place = some m)
    (hsome : m.tag?.isSome = true) : c.tag?.isSome = true := by
  cases place with
  | nil =>
    obtain rfl : c = m := Option.some.inj hm
    exact hsome
  | cons i place =>
    obtain ⟨d, hd, -⟩ := Node.at?_cons hm
    obtain ⟨tag, children, close, rfl⟩ := Node.exists_element_of_children hd
    rfl

theorem isSome_top (n : Node) : n.top.tag?.isSome = n.tag?.isSome := by
  cases n <;> rfl

/-- What an inheriting element does to a selector at or below it. -/
theorem walk_selectorEffect {inherited : NameSet} {place : List Nat} {n m x z : Node}
    (hm : n.at? place = some m) (hx : x.tag?.isSome = true) (hsome : m.tag?.isSome = true)
    (h : (selectorEffect inherited).walk (fun _ => true) n place x z) :
    Becomes (reselect inherited) x z := by
  induction place generalizing n x with
  | nil => rwa [Effect.walk, selectorEffect, if_pos rfl] at h
  | cons i place ih =>
    obtain ⟨y, hy, hrest⟩ := h
    obtain ⟨c, hc, hm⟩ := Node.at?_cons hm
    rw [selectorEffect, if_neg (List.cons_ne_nil i place)] at hy
    obtain rfl : y = x := hy.eq_of_isSome hx
    -- the walk enters every element, and a node on the way to an element is one
    have hadmits : admits (fun _ => true) c = true := by
      have hc := isSome_of_at? hm hsome
      cases c with
      | element tag children close => rfl
      | _ => cases hc
    have hbelow := hrest c hc
    rw [if_pos hadmits] at hbelow
    exact ih hm hx hbelow

/-- What an inheriting element does to a text below it. -/
theorem walk_selectorEffect_text {inherited : NameSet} {place : List Nat} {n m x z : Node}
    (hm : n.at? place = some m) (hx : x.tag? = none)
    (h : (selectorEffect inherited).walk (fun _ => true) n place x z) :
    MayRetext (OnTheWay BelowSelector place n) x z := by
  refine walk_mayRetext (S := fun x => x.tag? = none) (fun _ _ h _ => h.tag?_eq_none) ?_ hm hx h
  intro n place x y _ hx h
  unfold selectorEffect at h
  by_cases hplace : place = []
  · have hnone : selector? x = none := by
      rw [selector?, hx]
      rfl
    rw [if_pos hplace, Becomes, reselect, hnone] at h
    exact Or.inl (Option.some.inj h).symm
  · rwa [if_neg hplace] at h

/-- A selector that is qualified leaves its element an element. -/
theorem isSome_of_reselect {inherited : NameSet} {x y : Node}
    (h : Becomes (reselect inherited) x y) : y.tag?.isSome = x.tag?.isSome := by
  obtain ⟨-, rfl⟩ := result_eq_some_iff.1 h
  unfold reselect
  cases selector? x with
  | none => rfl
  | some selector =>
    simp only [editSelector]
    split
    · rfl
    · cases x <;> rfl

/-! ## §4. Inheriting elements. -/

/-- Whether an element inherits from a template. -/
def inherits (n : Node) : Bool := (n.tag?.map fun t => t.has inheritAttr).getD false

/-- The variables of the template that an element inherits from.  An unknown
template has none, and is no error. -/
def inherited? (inside : VarMap) (n : Node) : Option NameSet :=
  (n.tag?.bind (·.get? inheritAttr)).map fun target => (inside.get? target).getD ∅

/-- What qualifying the patches of an inheriting element does, to the element
and to all that is below it. -/
def inheritEffect (inside : VarMap) : Effect :=
  Effect.chosen (inherited? inside) fun inherited => (selectorEffect inherited).walk fun _ => true

/-- Edits do not change what is inherited, for they leave names alone. -/
theorem inherited?_of_edits (inside : VarMap) (n n' : Node) (h : nodeGrowth.edits n n') :
    inherited? inside n' = inherited? inside n := by
  unfold inherited?
  rw [tag?_bind_of_grown (by decide) ((h none).mono marked_le_grown)]

/-- What inherits variables inherits. -/
theorem inherits_of_inherited? {inside : VarMap} {n : Node} {inherited : NameSet}
    (h : inherited? inside n = some inherited) : inherits n = true := by
  obtain ⟨target, htarget, -⟩ := Option.map_eq_some_iff.1 h
  obtain ⟨tag, htag, hget⟩ := Option.bind_eq_some_iff.1 htarget
  rw [inherits, htag]
  exact has_of_get? hget

/-- What is no element has no selector. -/
theorem qualifySelectorElement_of_none (inherited all : NameSet) (n : Node) (hn : n.tag? = none) :
    qualifySelectorElement inherited all n = .done n := by
  cases n with
  | element tag children close => cases hn
  | _ => rfl

/-- Qualifying patches changes the selectors at or below an inheriting element,
and the texts at the starts of patches. -/
theorem acts_qualifyInheriting (bound : NameSet) (inside : VarMap) :
    Acts (qualifyInheriting bound inside) (inheritEffect inside) := by
  have hedit : ∀ inherited,
      Acts (Node.visitAll (qualifySelectorElement inherited (bound.union inherited)))
        ((selectorEffect inherited).walk fun _ => true) := fun inherited =>
    (acts_qualifySelectorElement inherited _).visit (fun _ _ _ => rfl)
      (settling_qualifySelectorElement inherited _)
      (stays_of_settling (qualifySelectorElement_of_none inherited _))
  refine Acts.of_option hedit (inherited?_of_edits inside) ?_ ?_
  · intro n hn
    rw [inherited?, Option.map_eq_none_iff] at hn
    refine (stays_congr ?_).2 (stays_done n)
    rw [qualifyInheriting, hn]
  · intro n inherited hn
    obtain ⟨target, htarget, rfl⟩ := Option.map_eq_some_iff.1 hn
    rw [qualifyInheriting, htarget]
    exact ⟨rfl, rfl⟩

/-- Selectors qualified for one template after the other, the outermost one
first. -/
def Chain : List NameSet → Node → Node → Prop
  | [], x, z => z = x
  | inherited :: rest, x, z => ∃ y, Becomes (reselect inherited) x y ∧ Chain rest y z

/-- Selectors qualified for some templates and then for others are qualified for
all of them. -/
theorem Chain.append {l l' : List NameSet} {x y z : Node} (h : Chain l x y) (h' : Chain l' y z) :
    Chain (l ++ l') x z := by
  induction l generalizing x with
  | nil =>
    obtain rfl : y = x := h
    exact h'
  | cons inherited l ih =>
    obtain ⟨w, hw, h⟩ := h
    exact ⟨w, hw, ih h⟩

/-- The variables of the templates that the elements of one template on the
way to a place inherit from, outermost first. -/
def inheritedAlong (inside : VarMap) : List Nat → Node → List NameSet
  | [], n => (inherited? inside n).toList
  | i :: place, n => (inherited? inside n).toList ++
      match n.children[i]? with
      | none => []
      | some c => if admits continues c = true then inheritedAlong inside place c else []

/-- The place is that of the text of a patch below an inheriting element, the
one kind of text that is ever changed. -/
def BelowInheriting (n : Node) (place : List Nat) : Prop :=
  inherits n = true ∧ OnTheWay BelowSelector place n

/-- Selectors that are qualified leave elements elements. -/
theorem isSome_of_chain {l : List NameSet} {x z : Node} (h : Chain l x z) :
    z.tag?.isSome = x.tag?.isSome := by
  induction l generalizing x with
  | nil =>
    obtain rfl : z = x := h
    rfl
  | cons inherited l ih =>
    obtain ⟨y, hy, h⟩ := h
    rw [ih h, isSome_of_reselect hy]

/-- What the inheriting elements of a template do to a tag. -/
theorem walk_inheritEffect {inside : VarMap} {place : List Nat} {n m x z : Node}
    (hm : n.at? place = some m) (hx : x.tag?.isSome = true) (hsome : m.tag?.isSome = true)
    (h : (inheritEffect inside).walk continues n place x z) :
    Chain (inheritedAlong inside place n) x z := by
  -- a node on the way acts at most once, with the names it inherits
  have hstep : ∀ {place : List Nat} {n x y : Node}, n.at? place = some m → x.tag?.isSome = true →
      inheritEffect inside n place x y → Chain (inherited? inside n).toList x y := by
    intro place n x y hm hx h
    rw [inheritEffect, Effect.chosen] at h
    cases hk : inherited? inside n with
    | none =>
      rw [hk] at h
      exact h
    | some inherited =>
      rw [hk] at h
      exact ⟨y, walk_selectorEffect hm hx hsome h, rfl⟩
  induction place generalizing n x with
  | nil => exact hstep hm hx h
  | cons i place ih =>
    obtain ⟨y, hy, hrest⟩ := h
    have hfirst := hstep hm hx hy
    obtain ⟨c, hc, hm⟩ := Node.at?_cons hm
    have hbelow := hrest c hc
    rw [inheritedAlong, hc]
    refine hfirst.append ?_
    by_cases hadmits : admits continues c = true
    · rw [if_pos hadmits] at hbelow
      simp only [hadmits, if_true]
      exact ih hm ((isSome_of_chain hfirst).trans hx) hbelow
    · rw [if_neg hadmits] at hbelow
      simp only [hadmits]
      exact hbelow

/-- What the inheriting elements of a template do to a text. -/
theorem walk_inheritEffect_text {inside : VarMap} {place : List Nat} {n m x z : Node}
    (hm : n.at? place = some m) (hx : x.tag? = none)
    (h : (inheritEffect inside).walk continues n place x z) :
    MayRetext (OnTheWay BelowInheriting place n) x z := by
  refine walk_mayRetext (S := fun x => x.tag? = none) (fun _ _ h _ => h.tag?_eq_none) ?_ hm hx h
  intro n place x y hm hx h
  rw [inheritEffect, Effect.chosen] at h
  cases hk : inherited? inside n with
  | none =>
    rw [hk] at h
    exact Or.inl h
  | some inherited =>
    rw [hk] at h
    exact (walk_selectorEffect_text hm hx h).mono fun hway => ⟨inherits_of_inherited? hk, hway⟩

/-! ## §5. Templates. -/

/-- What qualifying a template does: first its own attributes, then the patches
of what inherits in it. -/
def templateEffect (bound : NameSet) (inside : VarMap) : Effect :=
  (tagEffect bound).comp ((inheritEffect inside).walk continues)

theorem settling_qualifyKinds (bound : NameSet) : Settling nodeGrowth (qualifyKinds bound) :=
  Settling.foldl (fun kind => settling_qualifyKind kind bound) kindOrder (settling_done nodeGrowth)

theorem qualifyInheriting_of_none (bound : NameSet) (inside : VarMap) (n : Node)
    (hn : n.tag? = none) : qualifyInheriting bound inside n = .done n := by
  rw [qualifyInheriting, hn]
  rfl

/-- Qualifying a template does what its two walks do, one after the other: the
one for its attributes and the one for its patches. -/
theorem acts_qualifyTemplate (bound : NameSet) (inside : VarMap) :
    Acts (qualifyTemplate bound inside) (templateEffect bound inside) :=
  (acts_qualifyKinds bound).andThen (settling_qualifyKinds bound)
    ((acts_qualifyInheriting bound inside).visit enter_of_grown
      (settling_qualifyInheriting bound inside)
      (stays_of_settling (qualifyInheriting_of_none bound inside)))

/-- What qualifying a template does to a tag at or below its own: the tags of
the template get their attributes qualified, then selectors are qualified for
the templates that its elements on the way inherit from. -/
theorem tag_of_templateEffect {bound : NameSet} {inside : VarMap} {place : List Nat}
    {n m x z : Node} (hm : n.at? place = some m) (hx : x.tag?.isSome = true)
    (hsome : m.tag?.isSome = true) (h : templateEffect bound inside n place x z) :
    ∃ y, (if within continues place n = true then Becomes (Node.editTag (qualifyTag bound)) x y
      else y = x) ∧ Chain (inheritedAlong inside place n) y z := by
  obtain ⟨y, hy, hz⟩ := h
  refine ⟨y, hy, walk_inheritEffect hm ?_ hsome hz⟩
  unfold tagEffect at hy
  split at hy
  · exact (isSome_of_editTag hy).trans hx
  · rwa [hy]

/-- What qualifying a template does to a text below it. -/
theorem text_of_templateEffect {bound : NameSet} {inside : VarMap} {place : List Nat}
    {n m x z : Node} (hm : n.at? place = some m) (hx : x.tag? = none)
    (h : templateEffect bound inside n place x z) :
    MayRetext (OnTheWay BelowInheriting place n) x z := by
  obtain ⟨y, hy, hz⟩ := h
  have hsame : y = x := by
    unfold tagEffect at hy
    split at hy
    · have hstays := stays_editTag_of_none (g := qualifyTag bound) x hx
      exact Option.some.inj (hy.symm.trans (result_eq_some_iff.2 ⟨hstays.failure, hstays.value⟩))
    · exact hy
  subst hsame
  exact walk_inheritEffect_text hm hx hz

end QwebReceiver.Template
