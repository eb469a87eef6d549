import QwebReceiver.Proofs.Template.Effect

/-!
  QwebReceiver.Proofs.Template.Scope — what the templates of a document do to
  an element.

  An element belongs to the nearest named template at or above it, or to none.
  That template qualifies the attributes of the element, by their kind; the
  selector of the element is qualified for every template that is inherited
  from on the way to it (`tag_of_namedEffect`, `mem_ownership?`).  So an
  attribute that is no selector is qualified once (`retags_of_owned`).
-/

namespace QwebReceiver.Template

open QwebReceiver.Markup

/-! ## §1. Named templates. -/

/-- Whether a node is a template that has a name. -/
def isNamed (n : Node) : Bool := admits isTemplate n

/-- The variables bound in a template: those it binds itself and, if it has a
name, those its callers set. -/
def scope (vars : CorpusVars) (n : Node) : NameSet :=
  (boundNames n).union (((n.tag?.bind (·.get? nameAttr)).bind vars.outside.get?).getD ∅)

/-- The variables bound in a named template; nothing for a node that is none. -/
def scope? (vars : CorpusVars) (n : Node) : Option NameSet :=
  if isNamed n = true then some (scope vars n) else none

/-- What qualifying a named template does.  The pass over documents does this at
every node, and nothing at most of them. -/
def namedEffect (vars : CorpusVars) : Effect :=
  Effect.chosen (scope? vars) fun bound => templateEffect bound vars.inside

theorem isSome_get? (t : Tag) (name : Text) : (t.get? name).isSome = t.has name := by
  rw [Tag.get?, Option.isSome_map, List.isSome_find?, Tag.has]

/-- A named template has its name in an attribute. -/
theorem exists_name_of_isNamed {n : Node} (h : isNamed n = true) :
    ∃ name, n.tag?.bind (·.get? nameAttr) = some name := by
  cases n with
  | element tag children close =>
    have hhas : tag.has nameAttr = true := h
    rw [← isSome_get?] at hhas
    exact Option.isSome_iff_exists.1 hhas
  | _ => cases h

/-- What is no named template has no such attribute. -/
theorem name_eq_none_of_not_isNamed {n : Node} (h : ¬ isNamed n = true) :
    n.tag?.bind (·.get? nameAttr) = none := by
  cases n with
  | element tag children close =>
    have hhas : ¬ tag.has nameAttr = true := h
    rw [← isSome_get?, Option.not_isSome_iff_eq_none] at hhas
    exact hhas
  | _ => rfl

/-- Edits of values make no template and unmake none. -/
theorem isNamed_of_edits {first : Option Text} {n n' : Node} (h : n.Alike marked first n') :
    isNamed n' = isNamed n := by
  have hkeeps : ∀ t u : Tag, t.Alike grown u → isTemplate u = isTemplate t :=
    fun _ _ htu => isTemplate_of_grown htu
  exact admits_of_edits hkeeps h

/-- The scope of a template does not change by edits of values: names are left
alone. -/
theorem scope_of_edits (vars : CorpusVars) {first : Option Text} {n n' : Node}
    (h : n.Alike marked first n') : scope vars n' = scope vars n := by
  have hgrown := h.mono marked_le_grown
  unfold scope
  rw [boundNames_of_grown hgrown, tag?_bind_of_grown (by decide) hgrown]

/-- A named template is qualified in its scope. -/
theorem qualifyNamed_of_isNamed (vars : CorpusVars) {n : Node} (h : isNamed n = true) :
    (qualifyNamed vars n).failure = (qualifyTemplate (scope vars n) vars.inside n).failure ∧
      (qualifyNamed vars n).value = (qualifyTemplate (scope vars n) vars.inside n).value := by
  obtain ⟨name, hname⟩ := exists_name_of_isNamed h
  rw [qualifyNamed, scope, hname]
  exact ⟨rfl, rfl⟩

/-- Qualifying a named template does what qualifying a template in its scope
does. -/
theorem acts_qualifyNamed (vars : CorpusVars) : Acts (qualifyNamed vars) (namedEffect vars) := by
  refine Acts.of_option (fun bound => acts_qualifyTemplate bound vars.inside) ?_ ?_ ?_
  · intro n n' hn
    unfold scope?
    rw [isNamed_of_edits (hn none), scope_of_edits vars (hn none)]
  · intro n hn
    have hunnamed : ¬ isNamed n = true := by
      intro hnamed
      rw [scope?, if_pos hnamed] at hn
      cases hn
    refine (stays_congr ?_).2 (stays_done n)
    rw [qualifyNamed, name_eq_none_of_not_isNamed hunnamed]
  · intro n bound hn
    obtain ⟨hnamed, hbound⟩ := Option.ite_none_right_eq_some.1 hn
    cases hbound
    exact qualifyNamed_of_isNamed vars hnamed

theorem qualifyNamed_of_none (vars : CorpusVars) (n : Node) (hn : n.tag? = none) :
    qualifyNamed vars n = .done n := by
  rw [qualifyNamed, hn]
  rfl

/-! ## §2. The templates on the way to a place. -/

/-- The template that a place belongs to, with the variables of the templates
that selectors there are qualified for: those that elements of the templates
around it inherit from, and those that its own elements inherit from. -/
structure Ownership where
  template : Node
  around : List NameSet
  own : List NameSet

/-- Who owns a place below a node, among the nodes on the way.  The innermost
template takes it, and those around it only add to what is inherited. -/
def ownership? (inside : VarMap) : List Nat → Node → Option Ownership
  | [], n => if isNamed n = true then some ⟨n, [], inheritedAlong inside [] n⟩ else none
  | i :: place, n =>
    match n.children[i]?.bind (ownership? inside place) with
    | some o => some { o with
        around := (if isNamed n = true then inheritedAlong inside (i :: place) n else []) ++ o.around }
    | none =>
      if isNamed n = true then some ⟨n, [], inheritedAlong inside (i :: place) n⟩ else none

/-- A walk through one template goes on with the elements that have no name. -/
theorem admits_continues {n : Node} (h : n.tag?.isSome = true) :
    admits continues n = !isNamed n := by
  cases n with
  | element tag children close => rfl
  | _ => cases h

/-- A place in a template belongs to no template further in. -/
theorem ownership?_eq_none_iff (inside : VarMap) {place : List Nat} {n m : Node}
    (hm : n.at? place = some m) (hsome : m.tag?.isSome = true) :
    ownership? inside place n = none ↔ (admits continues n && within continues place n) = true := by
  induction place generalizing n with
  | nil =>
    rw [ownership?, admits_continues (isSome_of_at? hm hsome), within, Bool.and_true]
    cases isNamed n <;> simp
  | cons i place ih =>
    have hn := admits_continues (isSome_of_at? hm hsome)
    obtain ⟨c, hc, hm⟩ := Node.at?_cons hm
    have hbelow := ih hm
    rw [ownership?, within_cons hc, hc, Option.bind_some, Bool.and_eq_true, ← hbelow, hn]
    cases ownership? inside place c with
    | none => cases isNamed n <;> simp
    | some o => simp

/-- **What the templates of a document do to a tag**: it is left alone if it
belongs to none of them.  Otherwise its attributes are qualified against what
is bound in the one it belongs to, and its selector is qualified for the
templates inherited from. -/
theorem tag_of_namedEffect {vars : CorpusVars} {place : List Nat} {n m x z : Node}
    (hm : n.at? place = some m) (hx : x.tag?.isSome = true) (hsome : m.tag?.isSome = true)
    (h : (namedEffect vars).walk (fun _ => true) n place x z) :
    match ownership? vars.inside place n with
    | none => z = x
    | some o => ∃ y₁ y₂, Chain o.around x y₁ ∧
        Becomes (Node.editTag (qualifyTag (scope vars o.template))) y₁ y₂ ∧ Chain o.own y₂ z := by
  induction place generalizing n x with
  | nil =>
    rw [Effect.walk, namedEffect, Effect.chosen] at h
    by_cases hnamed : isNamed n = true
    · rw [scope?, if_pos hnamed] at h
      rw [ownership?, if_pos hnamed]
      obtain ⟨y, hy, hchain⟩ := tag_of_templateEffect hm hx hsome h
      rw [if_pos (show within continues [] n = true from rfl)] at hy
      exact ⟨x, y, rfl, hy, hchain⟩
    · rw [scope?, if_neg hnamed] at h
      rw [ownership?, if_neg hnamed]
      exact h
  | cons i place ih =>
    obtain ⟨y, hy, hrest⟩ := h
    obtain ⟨c, hc, hmc⟩ := Node.at?_cons hm
    have hsomec := isSome_of_at? hmc hsome
    have hbelow := hrest c hc
    have hadmits : admits (fun _ => true) c = true := by
      cases c with
      | element tag children close => rfl
      | _ => cases hsomec
    rw [if_pos hadmits] at hbelow
    have hinner := ownership?_eq_none_iff vars.inside hmc hsome
    rw [namedEffect, Effect.chosen] at hy
    rw [ownership?, hc, Option.bind_some]
    by_cases hnamed : isNamed n = true
    · rw [scope?, if_pos hnamed] at hy
      obtain ⟨w, hw, hchain⟩ := tag_of_templateEffect hm hx hsome hy
      rw [within_cons hc] at hw
      cases howner : ownership? vars.inside place c with
      | none =>
        -- the place belongs to this template: nothing further in touches it
        rw [if_pos (hinner.1 howner)] at hw
        have hy : y.tag?.isSome = true :=
          (isSome_of_chain hchain).trans ((isSome_of_editTag hw).trans hx)
        have hz := ih hmc hy hbelow
        rw [howner] at hz
        subst hz
        simp only [hnamed, if_true]
        exact ⟨x, w, rfl, hw, hchain⟩
      | some o =>
        have hout : ¬ (admits continues c && within continues place c) = true := by
          intro hin
          rw [hinner.2 hin] at howner
          cases howner
        rw [if_neg hout] at hw
        subst hw
        have hz := ih hmc ((isSome_of_chain hchain).trans hx) hbelow
        rw [howner] at hz
        obtain ⟨y₁, y₂, hy₁, hy₂, hz⟩ := hz
        simp only [hnamed, if_true]
        exact ⟨y₁, y₂, hchain.append hy₁, hy₂, hz⟩
    · rw [scope?, if_neg hnamed] at hy
      subst hy
      have hz := ih hmc hx hbelow
      cases howner : ownership? vars.inside place c with
      | none =>
        rw [howner] at hz
        simp only [hnamed]
        exact hz
      | some o =>
        rw [howner] at hz
        simp only [hnamed]
        exact hz

/-- The place is that of the text of a patch below an inheriting element of a
named template. -/
def BelowNamed (n : Node) (place : List Nat) : Prop :=
  isNamed n = true ∧ OnTheWay BelowInheriting place n

/-- What the templates of a document do to a text: it changes only if it starts
a patch in one of them. -/
theorem text_of_namedEffect {vars : CorpusVars} {place : List Nat} {n m x z : Node}
    (hm : n.at? place = some m) (hx : x.tag? = none)
    (h : (namedEffect vars).walk (fun _ => true) n place x z) :
    MayRetext (OnTheWay BelowNamed place n) x z := by
  refine walk_mayRetext (S := fun x => x.tag? = none) (fun _ _ h _ => h.tag?_eq_none) ?_ hm hx h
  intro n place x y hm hx h
  rw [namedEffect, Effect.chosen] at h
  by_cases hnamed : isNamed n = true
  · rw [scope?, if_pos hnamed] at h
    exact (text_of_templateEffect hm hx h).mono fun hway => ⟨hnamed, hway⟩
  · rw [scope?, if_neg hnamed] at h
    exact Or.inl h

/-! ## §3. Lines. -/

/-- Whether one of the nodes is a selector at or below an inheriting one.  This
is what patches are told by. -/
def underSelector : List Node → Bool
  | [] => false
  | n :: outer => isSelector n && (n :: outer).any inherits || underSelector outer

/-- Whether a text there is the start of a patch below a selector; `above` are
the nodes around it. -/
def startsPatch (place : List Nat) (above : List Node) : Bool :=
  decide (place.getLast? = some 0) && (above.head?.map namesPatch).getD false && underSelector above

/-- Two elements with the same name, whose attributes have the same names.  All
that tells a patch is the same in both. -/
def SameHeading (n m : Node) : Prop :=
  ∃ t u : Tag, n.tag? = some t ∧ m.tag? = some u ∧ u.name = t.name ∧
    u.attributes.map Attribute.name = t.attributes.map Attribute.name

section Headings

variable {n m : Node} {above above' : List Node}

/-- Whether an element inherits is a matter of its heading. -/
theorem SameHeading.inherits_eq (h : SameHeading n m) : inherits m = inherits n := by
  obtain ⟨t, u, ht, hu, -, hnames⟩ := h
  simp [inherits, ht, hu, has_congr hnames]

/-- So is whether it is a selector. -/
theorem SameHeading.isSelector_eq (h : SameHeading n m) : isSelector m = isSelector n := by
  obtain ⟨t, u, ht, hu, hname, hnames⟩ := h
  simp only [isSelector, selector?, ht, hu, Option.bind_some, hname]
  split
  · rw [isSome_get?, isSome_get?, has_congr hnames]
  · rfl

theorem SameHeading.namesPatch_eq (h : SameHeading n m) : namesPatch m = namesPatch n := by
  obtain ⟨t, u, ht, hu, hname, hnames⟩ := h
  simp [namesPatch, ht, hu, hname, has_congr hnames]

/-- Whether one of some elements inherits is a matter of their headings. -/
theorem any_inherits_congr (h : List.Forall₂ SameHeading above above') :
    above'.any inherits = above.any inherits := by
  induction h with
  | nil => rfl
  | cons hnm _ ih => rw [List.any_cons, List.any_cons, hnm.inherits_eq, ih]

/-- Whether one stands at or below a selector of a patch is a matter of the
headings of the elements around. -/
theorem underSelector_congr (h : List.Forall₂ SameHeading above above') :
    underSelector above' = underSelector above := by
  induction h with
  | nil => rfl
  | cons hnm hrest ih =>
    rw [underSelector, underSelector, hnm.isSelector_eq, any_inherits_congr (.cons hnm hrest), ih]

/-- Whether a text starts a patch depends only on the headings of the elements
around it, not on the values of their attributes nor on where they stand. -/
theorem startsPatch_congr (h : List.Forall₂ SameHeading above above') (place : List Nat) :
    startsPatch place above' = startsPatch place above := by
  have hhead : (above'.head?.map namesPatch).getD false = (above.head?.map namesPatch).getD false := by
    cases h with
    | nil => rfl
    | cons hnm _ => exact hnm.namesPatch_eq
  rw [startsPatch, startsPatch, hhead, underSelector_congr h]

end Headings

section Lines

variable (inside : VarMap) {place : List Nat} {n m : Node} {line above : List Node}

/-- The owner of a place is the innermost named template on the way to it. -/
theorem template_ownership? (h : n.line? place = some line) :
    (ownership? inside place n).map Ownership.template = line.find? isNamed := by
  induction place generalizing n line with
  | nil =>
    cases h
    rw [ownership?]
    by_cases hnamed : isNamed n = true <;> simp [hnamed]
  | cons i place ih =>
    obtain ⟨c, below, hc, hbelow, rfl⟩ := Node.line?_cons h
    rw [List.find?_append, ← ih hbelow, ownership?, hc, Option.bind_some]
    cases ownership? inside place c with
    | none => by_cases hnamed : isNamed n = true <;> simp [hnamed]
    | some o => simp

/-- Along the way only the nodes on it are inherited from. -/
theorem mem_inheritedAlong {bound : NameSet} (h : n.line? place = some line)
    (hbound : bound ∈ inheritedAlong inside place n) :
    ∃ e ∈ line, inherited? inside e = some bound := by
  induction place generalizing n line with
  | nil =>
    cases h
    exact ⟨n, List.mem_singleton_self n, Option.mem_toList.1 hbound⟩
  | cons i place ih =>
    obtain ⟨c, below, hc, hbelow, rfl⟩ := Node.line?_cons h
    rw [inheritedAlong, hc] at hbound
    rcases List.mem_append.1 hbound with hbound | hbound
    · exact ⟨n, List.mem_append_right below (List.mem_singleton_self n),
        Option.mem_toList.1 hbound⟩
    -- below a node that the walk does not enter nothing is collected
    · by_cases hadmits : admits continues c = true
      · simp only [hadmits, if_true] at hbound
        obtain ⟨e, he, hinherited⟩ := ih hbelow hbound
        exact ⟨e, List.mem_append_left [n] he, hinherited⟩
      · simp only [hadmits] at hbound
        cases hbound

/-- Along a way on which nothing inherits no variables are inherited. -/
theorem inheritedAlong_eq_nil (h : n.line? place = some line) (hline : line.any inherits = false) :
    inheritedAlong inside place n = [] := by
  refine List.eq_nil_iff_forall_not_mem.2 fun bound hbound => ?_
  obtain ⟨e, he, hinherited⟩ := mem_inheritedAlong inside h hbound
  exact List.any_eq_false.1 hline e he (inherits_of_inherited? hinherited)

/-- The owner of a place, seen from a node above it. -/
theorem ownership?_cons {i : Nat} {c : Node} (hc : n.children[i]? = some c) {o : Ownership}
    (ho : ownership? inside (i :: place) n = some o) :
    (∃ o', ownership? inside place c = some o' ∧ o = ⟨o'.template,
      (if isNamed n = true then inheritedAlong inside (i :: place) n else []) ++ o'.around,
      o'.own⟩) ∨
    ownership? inside place c = none ∧ isNamed n = true ∧
      o = ⟨n, [], inheritedAlong inside (i :: place) n⟩ := by
  rw [ownership?, hc, Option.bind_some] at ho
  cases hinner : ownership? inside place c with
  | some o' =>
    rw [hinner] at ho
    exact Or.inl ⟨o', rfl, (Option.some.inj ho).symm⟩
  | none =>
    rw [hinner] at ho
    obtain ⟨hnamed, ho⟩ := Option.ite_none_right_eq_some.1 ho
    exact Or.inr ⟨rfl, hnamed, (Option.some.inj ho).symm⟩

/-- Selectors are qualified only for what is inherited on the way to them. -/
theorem mem_ownership? {o : Ownership} {bound : NameSet} (h : n.line? place = some line)
    (ho : ownership? inside place n = some o) (hbound : bound ∈ o.around ++ o.own) :
    ∃ e ∈ line, inherited? inside e = some bound := by
  induction place generalizing n line o with
  | nil =>
    obtain ⟨-, ho⟩ := Option.ite_none_right_eq_some.1 ho
    cases ho
    exact mem_inheritedAlong inside h hbound
  | cons i place ih =>
    have halong : bound ∈ inheritedAlong inside (i :: place) n →
        ∃ e ∈ line, inherited? inside e = some bound := mem_inheritedAlong inside h
    obtain ⟨c, below, hc, hbelow, rfl⟩ := Node.line?_cons h
    -- the template is below this node, or it is this node
    rcases ownership?_cons inside hc ho with ⟨o', ho', rfl⟩ | ⟨-, -, rfl⟩
    · rw [List.append_assoc] at hbound
      rcases List.mem_append.1 hbound with hbound | hbound
      · split at hbound
        · exact halong hbound
        · cases hbound
      · obtain ⟨e, he, hinherited⟩ := ih hbelow ho' hbound
        exact ⟨e, List.mem_append_left [n] he, hinherited⟩
    · exact halong hbound

/-- Selectors are qualified for what the templates on the way to them inherit
from. -/
theorem mem_ownership?_of_isNamed {o : Ownership} {e : Node} {bound : NameSet}
    (h : n.line? place = some line) (ho : ownership? inside place n = some o) (he : e ∈ line)
    (hnamed : isNamed e = true) (hinherited : inherited? inside e = some bound) :
    bound ∈ o.around ++ o.own := by
  induction place generalizing n line o with
  | nil =>
    cases h
    obtain rfl := List.mem_singleton.1 he
    rw [ownership?, if_pos hnamed] at ho
    cases ho
    exact Option.mem_toList.2 hinherited
  | cons i place ih =>
    obtain ⟨c, below, hc, hbelow, rfl⟩ := Node.line?_cons h
    have hfirst : e = n → bound ∈ inheritedAlong inside (i :: place) n := by
      rintro rfl
      rw [inheritedAlong]
      exact List.mem_append_left _ (Option.mem_toList.2 hinherited)
    rcases ownership?_cons inside hc ho with ⟨o', ho', rfl⟩ | ⟨hnone, -, rfl⟩
    · rw [List.append_assoc]
      rcases List.mem_append.1 he with he | he
      · exact List.mem_append_right _ (ih hbelow ho' he)
      · obtain rfl := List.mem_singleton.1 he
        rw [if_pos hnamed]
        exact List.mem_append_left _ (hfirst rfl)
    · rcases List.mem_append.1 he with he | he
      · have hfind := template_ownership? inside hbelow
        -- no element further in is a named template, so `e` is this node
        rw [hnone] at hfind
        exact absurd hnamed (List.find?_eq_none.1 hfind.symm e he)
      · exact hfirst (List.mem_singleton.1 he)

/-- Where nothing on the way inherits, selectors are qualified for no template. -/
theorem ownership?_of_not_inherits {o : Ownership} (h : n.line? place = some line)
    (hline : line.any inherits = false) (ho : ownership? inside place n = some o) :
    o.around = [] ∧ o.own = [] := by
  refine List.append_eq_nil_iff.1 (List.eq_nil_iff_forall_not_mem.2 fun bound hbound => ?_)
  obtain ⟨e, he, hinherited⟩ := mem_ownership? inside h ho hbound
  exact List.any_eq_false.1 hline e he (inherits_of_inherited? hinherited)

/-- A text of a patch in a template is one below an inheriting element, and the
template stands on the way to it. -/
theorem onTheWay_belowNamed (h : n.line? place = some line) (hway : OnTheWay BelowNamed place n) :
    OnTheWay BelowInheriting place n ∧ ∃ e ∈ line, isNamed e = true := by
  obtain ⟨p, e, _, rfl, he, hnamed, p', e', q, rfl, he', hbelow⟩ := hway
  constructor
  · refine ⟨p ++ p', e', q, (List.append_assoc p p' q).symm, ?_, hbelow⟩
    rw [Node.at?_append, he, Option.bind_some, he']
  · obtain ⟨outer, inner, -, hinner, rfl⟩ := Node.exists_line_of_append he h
    exact ⟨e, List.mem_append_left _ (List.mem_of_getLast? (Node.getLast?_of_line? hinner)), hnamed⟩

/-- What is under a selector is so, however deep. -/
theorem underSelector_append {inner outer : List Node} (h : underSelector outer = true) :
    underSelector (inner ++ outer) = true := by
  induction inner with
  | nil => exact h
  | cons n inner ih => rw [List.cons_append, underSelector, ih, Bool.or_true]

/-- The texts that may change are those that start a patch. -/
theorem startsPatch_of_belowInheriting (h : n.line? place = some (m :: above))
    (hway : OnTheWay BelowInheriting place n) : startsPatch place above = true := by
  -- the inheriting element, the selector below it, and the patch below that
  obtain ⟨p₁, e₁, _, rfl, he₁, hinherits, p₂, e₂, _, rfl, he₂, hselector, p₃, e₃, _, rfl, he₃,
    hpatch, rfl⟩ := hway
  obtain ⟨outer₁, line₁, -, h₁, hline⟩ := Node.exists_line_of_append he₁ h
  obtain ⟨outer₂, line₂, he₂, h₂, rfl⟩ := Node.exists_line_of_append he₂ h₁
  obtain ⟨outer₃, line₃, he₃, h₃, rfl⟩ := Node.exists_line_of_append he₃ h₂
  obtain ⟨_, _, -, hlast, rfl⟩ := Node.line?_cons h₃
  cases hlast
  obtain ⟨-, rfl⟩ := List.cons.inj hline
  have hinner : ∃ inner, e₃ :: outer₃ = inner ++ [e₂] :=
    List.getLast?_eq_some_iff.1 (Node.getLast?_of_line? he₃)
  have hany : (e₂ :: outer₂).any inherits = true :=
    List.any_eq_true.2 ⟨e₁, List.mem_of_getLast? (Node.getLast?_of_line? he₂), hinherits⟩
  have hunder : underSelector (e₃ :: (outer₃ ++ (outer₂ ++ outer₁))) = true := by
    obtain ⟨inner, hinner⟩ := hinner
    have hsplit : e₃ :: (outer₃ ++ (outer₂ ++ outer₁)) = inner ++ e₂ :: (outer₂ ++ outer₁) := by
      rw [← List.cons_append, hinner, List.append_assoc, List.singleton_append]
    rw [hsplit]
    refine underSelector_append ?_
    rw [underSelector, hselector, ← List.cons_append, List.any_append, hany]
    rfl
  have hlast : (p₁ ++ (p₂ ++ (p₃ ++ [0]))).getLast? = some 0 := by
    simp [← List.append_assoc]
  simp [startsPatch, hlast, hpatch, hunder]

end Lines

/-! ## §4. Attributes. -/

/-- What a value becomes that is qualified in that way, if in any.  Without a
way it stays. -/
def qualified (way : Option Qualifier) (bound : NameSet) (value : Text) : Except ExprError Text :=
  match way with
  | none => .ok value
  | some qualify => (qualify bound value).outcome

/-- An element with other values for its attributes.  How these compare may
depend on its name and on whether it is a component. -/
def Retags (R : Text → Bool → Attribute → Attribute → Prop) (x y : Node) : Prop :=
  ∃ tag attributes children close, x = .element tag children close ∧
    y = .element { tag with attributes } children close ∧
    List.Forall₂ (fun a b => (∃ value, b = { a with value }) ∧ R tag.name (isComponent tag) a b)
      tag.attributes attributes

section Retags

variable {R S : Text → Bool → Attribute → Attribute → Prop} {x y z : Node}

/-- An element keeps its values under any comparison that holds of equal ones. -/
theorem Retags.refl (hx : x.tag?.isSome = true) (hR : ∀ element component a, R element component a a) :
    Retags R x x := by
  cases x with
  | element tag children close =>
    exact ⟨tag, tag.attributes, children, close, rfl, rfl,
      List.forall₂_same.2 fun a _ => ⟨⟨a.value, rfl⟩, hR _ _ a⟩⟩
  | _ => cases hx

/-- Other values leave the names of attributes alone. -/
theorem names_of_revalued {as bs : List Attribute} {P : Attribute → Attribute → Prop}
    (h : List.Forall₂ (fun a b => (∃ value, b = { a with value }) ∧ P a b) as bs) :
    bs.map Attribute.name = as.map Attribute.name := by
  induction h with
  | nil => rfl
  | cons hab _ ih =>
    obtain ⟨⟨value, rfl⟩, -⟩ := hab
    rw [List.map_cons, List.map_cons, ih]

/-- Values that change twice compare through what they were in between. -/
theorem Retags.trans (h : Retags R x y) (h' : Retags S y z) :
    Retags (fun element component a c => ∃ b : Attribute, (∃ value, b = { a with value }) ∧
      R element component a b ∧ S element component b c) x z := by
  obtain ⟨tag, bs, children, close, rfl, rfl, hbs⟩ := h
  obtain ⟨_, cs, _, _, heq, rfl, hcs⟩ := h'
  cases heq
  rw [isComponent_of_names (names_of_revalued hbs)] at hcs
  refine ⟨tag, cs, children, close, rfl, rfl, (forall₂_comp hbs hcs).imp ?_⟩
  rintro a _ ⟨_, ⟨⟨v, rfl⟩, hab⟩, ⟨w, rfl⟩, hbc⟩
  exact ⟨⟨w, rfl⟩, { a with value := v }, ⟨v, rfl⟩, hab, hbc⟩

/-- Values that compare in one way compare in every weaker way. -/
theorem Retags.mono (h : Retags R x y)
    (hRS : ∀ element component a b, (∃ value, b = { a with value }) → R element component a b →
      S element component a b) : Retags S x y := by
  obtain ⟨tag, bs, children, close, rfl, rfl, hbs⟩ := h
  exact ⟨tag, bs, children, close, rfl, rfl, hbs.imp fun a b hab => ⟨hab.1, hRS _ _ a b hab.1 hab.2⟩⟩

/-- What a function makes of a list it makes of it member by member. -/
theorem forall₂_of_mapM {α β : Type} {F : α → Option β} {as : List α} {bs : List β}
    (h : as.mapM F = some bs) : List.Forall₂ (fun a b => F a = some b) as bs := by
  induction as generalizing bs with
  | nil =>
    cases h
    exact .nil
  | cons a as ih =>
    rw [List.mapM_cons] at h
    obtain ⟨b, hb, h⟩ := Option.bind_eq_some_iff.1 h
    obtain ⟨cs, hcs, h⟩ := Option.bind_eq_some_iff.1 h
    cases h
    exact .cons hb (ih hcs)

/-- An attribute that was edited has the value that its way qualifies it to. -/
theorem qualified_of_editAttribute {select : Text → Option Qualifier} {bound : NameSet}
    {element : Text} {a b : Attribute}
    (h : result (editAttribute select bound element a) = some b) :
    (∃ value, b = { a with value }) ∧ qualified (select a.name) bound a.value = .ok b.value := by
  obtain ⟨hfailure, rfl⟩ := result_eq_some_iff.1 h
  cases hs : select a.name with
  | none =>
    rw [editAttribute_of_none hs]
    exact ⟨⟨a.value, rfl⟩, rfl⟩
  | some qualify =>
    rw [editAttribute_of_some hs] at hfailure ⊢
    exact ⟨⟨_, rfl⟩, outcome_of_qualifyValue hfailure⟩

/-- What qualifying attributes does to an element. -/
theorem retags_of_qualifyAttributes (select : Text → Bool → Text → Option Qualifier)
    {bound : NameSet} (hx : x.tag?.isSome = true)
    (h : Becomes (Node.editTag fun t => qualifyAttributes (select t.name (isComponent t)) bound t)
      x y) :
    Retags (fun element component a b =>
      qualified (select element component a.name) bound a.value = .ok b.value) x y := by
  cases x with
  | element tag children close =>
    rw [Becomes, Node.editTag, result_map, result_qualifyAttributes] at h
    obtain ⟨_, htag, rfl⟩ := Option.map_eq_some_iff.1 h
    obtain ⟨attributes, hattributes, rfl⟩ := Option.map_eq_some_iff.1 htag
    exact ⟨tag, attributes, children, close, rfl, rfl,
      (forall₂_of_mapM hattributes).imp fun a b hab => qualified_of_editAttribute hab⟩
  | _ => cases hx

/-- Whether an attribute of that name is the selector of an element of that name. -/
def namesSelector (element name : Text) : Bool :=
  decide (element = selectorTag) && decide (name = selectorAttr)

/-- To qualify a selector changes the one attribute that holds it. -/
theorem retags_of_reselect {inherited : NameSet} (hx : x.tag?.isSome = true)
    (h : Becomes (reselect inherited) x y) :
    Retags (fun element _ a b => namesSelector element a.name = false → b = a) x y := by
  have hsame : ∀ {y}, result (Draft.done x : Draft ValueError Node) = some y →
      Retags (fun element _ a b => namesSelector element a.name = false → b = a) x y := by
    rintro _ ⟨⟩
    exact Retags.refl hx fun _ _ _ _ => rfl
  unfold Becomes reselect at h
  cases hselector : selector? x with
  | none =>
    rw [hselector] at h
    exact hsame h
  | some selector =>
    rw [hselector] at h
    simp only [editSelector] at h
    by_cases hempty : selector.isEmpty = true
    · rw [if_pos hempty] at h
      exact hsame h
    · rw [if_neg hempty] at h
      -- every attribute but the selector comes out as it was
      obtain ⟨tag, attributes, children, close, rfl, rfl, hattributes⟩ :=
        retags_of_qualifyAttributes (fun _ _ name =>
          if name = selectorAttr then some qualifySelector else none) hx h
      have htag : tag.name = selectorTag := (Option.ite_none_right_eq_some.1 hselector).1
      refine ⟨tag, attributes, children, close, rfl, rfl, hattributes.imp ?_⟩
      rintro a _ ⟨⟨value, rfl⟩, hqualified⟩
      refine ⟨⟨value, rfl⟩, ?_⟩
      intro hnames
      have hname : ¬ a.name = selectorAttr := by simpa [namesSelector, htag] using hnames
      rw [if_neg hname] at hqualified
      obtain rfl : a.value = value := Except.ok.inj hqualified
      rfl

/-- Selectors are the only attributes that are qualified for another template. -/
theorem retags_of_chain {l : List NameSet} (hx : x.tag?.isSome = true) (h : Chain l x y) :
    Retags (fun element _ a b => namesSelector element a.name = false → b = a) x y := by
  induction l generalizing x with
  | nil =>
    obtain rfl : y = x := h
    exact Retags.refl hx fun _ _ _ _ => rfl
  | cons inherited l ih =>
    obtain ⟨w, hw, h⟩ := h
    refine ((retags_of_reselect hx hw).trans (ih ((isSome_of_reselect hw).trans hx) h)).mono ?_
    rintro element component a c - ⟨b, ⟨value, rfl⟩, hab, hbc⟩ hnames
    rw [hbc hnames, hab hnames]

/-- Qualifies an attribute by its kind, against the names bound in the template
that owns it. -/
def byKind (bound : NameSet) (component : Bool) (a : Attribute) : Except ExprError Text :=
  qualified ((attributeKind? a.name component).map AttributeKind.qualifier) bound a.value

/-- To qualify the attributes of an element gives each the value that its kind
qualifies it to. -/
theorem retags_of_qualifyTag {bound : NameSet} (hx : x.tag?.isSome = true)
    (h : Becomes (Node.editTag (qualifyTag bound)) x y) :
    Retags (fun _ component a b => byKind bound component a = .ok b.value) x y :=
  retags_of_qualifyAttributes (fun _ component name =>
    (attributeKind? name component).map AttributeKind.qualifier) hx h

/-- **An element of a template**: its attributes are qualified by their kind,
and its selector for other templates too, before and after. -/
theorem retags_of_owned {bound : NameSet} {around own : List NameSet} {y₁ y₂ : Node}
    (hx : x.tag?.isSome = true) (haround : Chain around x y₁)
    (htag : Becomes (Node.editTag (qualifyTag bound)) y₁ y₂) (hown : Chain own y₂ y) :
    Retags (fun element component a b => around = [] ∧ own = [] ∨
      namesSelector element a.name = false → byKind bound component a = .ok b.value) x y := by
  have hy₁ := (isSome_of_chain haround).trans hx
  have hy₂ := (isSome_of_editTag htag).trans hy₁
  have hmiddle := retags_of_qualifyTag hy₁ htag
  -- without inherited sets the tag is changed by the scope alone
  by_cases hnone : around = [] ∧ own = []
  · obtain ⟨rfl, rfl⟩ := hnone
    obtain rfl : y₁ = x := haround
    obtain rfl : y = y₂ := hown
    exact hmiddle.mono fun _ _ _ _ _ h _ => h
  · refine ((retags_of_chain hx haround).trans
      (hmiddle.trans (retags_of_chain hy₂ hown))).mono ?_
    rintro element component a d - ⟨b, ⟨v, rfl⟩, hab, c, ⟨w, rfl⟩, hbc, hcd⟩ (h | hnames)
    · exact absurd h hnone
    · rw [hab hnames] at hbc hcd
      rw [hcd hnames]
      exact hbc

end Retags

end QwebReceiver.Template
