import QwebReceiver.Proofs.Template.Scope

/-!
  QwebReceiver.Proofs.Template.Owner — every attribute in its own scope.

  In a document with named templates an element belongs to the nearest of them
  at or above it, or to none; in any other document it belongs to its root.
  Qualifying a document qualifies every attribute once, by its kind, against
  the variables of the template that its element belongs to, and fails if one
  of them cannot be qualified (`qualifyDocument_scoped`).  The selectors and
  the texts of patches are qualified for other templates as well and are left
  out here.
-/

namespace QwebReceiver.Markup

/-- The nodes on the way to a place of a document, innermost first.  The node at
the place is the head of the line. -/
def Document.line? (d : Document) : List Nat → Option (List Node)
  | [] => none
  | i :: place => d.nodes[i]?.bind (Node.line? place)

end QwebReceiver.Markup

namespace QwebReceiver.Template

open QwebReceiver.Markup

/-! ## §1. Owners. -/

/-- Whether a document has named templates.  If it has none, each of its roots
is one template. -/
def hasNamed (d : Document) : Bool := d.elements.any fun e => isTemplate e.tag

/-- A document with a named template at some place has named templates. -/
theorem hasNamed_of_isNamed {d : Document} {i : Nat} {place : List Nat} {root n : Node}
    (hroot : d.nodes[i]? = some root) (hn : root.at? place = some n) (h : isNamed n = true) :
    hasNamed d = true := by
  cases n with
  | element tag children close =>
    refine List.any_eq_true.2 ⟨⟨tag, children, close⟩, ?_, h⟩
    exact Node.descendants_subset (List.mem_of_getElem? hroot) (Node.mem_descendants_of_at? hn)
  | _ => cases h

/-- The template that the innermost node of a line belongs to: the nearest one
with a name, or the root where there are no names. -/
def owner? (d : Document) (line : List Node) : Option Node :=
  if hasNamed d = true then line.find? isNamed else line.getLast?

/-- Whether an attribute of the innermost node of a line is the selector of a
patch. -/
def isPatchSelector (line : List Node) (tag : Tag) (a : Attribute) : Bool :=
  namesSelector tag.name a.name && line.any inherits

/-- What an attribute of an element of a template is qualified to.  Outside of
every template it is left as it is. -/
def scopedValue (vars : CorpusVars) (owner : Option Node) (tag : Tag) (a : Attribute) :
    Except ExprError Text :=
  match owner with
  | none => .ok a.value
  | some template => byKind (scope vars template) (isComponent tag) a

/-- What becomes of a node of a document; `above` are the nodes around it.  An
element gets other values for its attributes, each of them qualified for the
owner of the element; a text changes only where it starts a patch and has an
owner; the rest stays. -/
def Rewritten (vars : CorpusVars) (d : Document) (place : List Nat) (above : List Node) :
    Node → Node → Prop
  | .element tag children close, m =>
    let line := .element tag children close :: above
    ∃ attributes children', m = .element { tag with attributes } children' close ∧
      List.Forall₂ (fun a b => (∃ value, b = { a with value }) ∧
        (owner? d line = none ∨ isPatchSelector line tag a = false →
          scopedValue vars (owner? d line) tag a = .ok b.value)) tag.attributes attributes
  | .text data, m =>
    ∃ value, m = .text { data with value } ∧
      (owner? d (.text data :: above) = none ∨ startsPatch place above = false →
        value = data.value)
  | n, m => m = n

section Rewritten

variable {vars : CorpusVars} {d : Document} {i : Nat} {place : List Nat} {n m m' : Node}
  {above : List Node}

/-- An element that gets other values for its attributes stays an element, with
the same tag otherwise. -/
theorem exists_element_of_retags {R : Text → Bool → Attribute → Attribute → Prop} {tag : Tag}
    {children : List Node} {close : Option Span}
    (h : Retags R (Node.element tag children close).top m'.top) :
    ∃ attributes children', m' = .element { tag with attributes } children' close ∧
      List.Forall₂ (fun a b => (∃ value, b = { a with value }) ∧
        R tag.name (isComponent tag) a b) tag.attributes attributes := by
  obtain ⟨_, attributes, _, _, heq, htop, hattributes⟩ := h
  cases heq
  cases m' with
  | element tag' children' close' =>
    cases htop
    exact ⟨attributes, children', rfl, hattributes⟩
  | _ => cases htop

theorem tag?_top_eq_none (hm : m.tag? = none) : m.top.tag? = none := by
  cases m with
  | element tag children close => cases hm
  | _ => rfl

/-- The start of a patch is one also seen from further out: only the last step
of its place counts. -/
theorem startsPatch_cons (h : startsPatch place above = true) :
    startsPatch (i :: place) above = true := by
  cases place with
  | nil => simp [startsPatch] at h
  | cons j place => simpa [startsPatch] using h

/-- A node that is no element, if at most the texts of patches change that belong
to a template. -/
theorem rewritten_of_mayRetext (hline : n.line? place = some (m :: above)) (hm : m.tag? = none)
    (h : MayRetext (OnTheWay BelowInheriting place n ∧ owner? d (m :: above) ≠ none) m.top m'.top) :
    Rewritten vars d (i :: place) above m m' := by
  have htop : m.top = m := by
    cases m with
    | element tag children close => cases hm
    | _ => rfl
  have htop' : m'.top.tag? = none → m'.top = m' := by
    intro h'
    cases m' with
    | element tag children close => cases h'
    | _ => rfl
  rw [htop] at h
  rcases h with hsame | ⟨hretexts, hway, howner⟩
  · obtain rfl : m' = m := by rw [← htop' (hsame ▸ hm), hsame]
    cases m' with
    | element tag children close => cases hm
    | text data => exact ⟨data.value, rfl, fun _ => rfl⟩
    | _ => exact rfl
  -- the text was changed as the first child of a patch, and the place says the same
  · have hstarts := startsPatch_cons (i := i) (startsPatch_of_belowInheriting hline hway)
    rw [htop' hretexts.tag?_eq_none] at hretexts
    obtain ⟨data, value, rfl, rfl⟩ := hretexts
    refine ⟨value, rfl, ?_⟩
    rintro (hnone | hnot)
    · exact absurd hnone howner
    · rw [hstarts] at hnot
      cases hnot

/-- An element of a template. -/
theorem rewritten_of_owned {bound : NameSet} {around own : List NameSet} {y₁ y₂ : Node}
    (hm : m.tag?.isSome = true) {template : Node} (howner : owner? d (m :: above) = some template)
    (hscope : scope vars template = bound) (haround : Chain around m.top y₁)
    (htag : Becomes (Node.editTag (qualifyTag bound)) y₁ y₂) (hown : Chain own y₂ m'.top)
    (hnone : (m :: above).any inherits = false → around = [] ∧ own = []) :
    Rewritten vars d place above m m' := by
  have hretags := retags_of_owned ((isSome_top m).trans hm) haround htag hown
  cases m with
  | element tag children close =>
    obtain ⟨attributes, children', rfl, hattributes⟩ := exists_element_of_retags hretags
    refine ⟨attributes, children', rfl, hattributes.imp ?_⟩
    rintro a b ⟨hvalue, hkind⟩
    refine ⟨hvalue, ?_⟩
    rw [howner]
    -- an attribute is left out only if it is the selector of a patch
    rintro (hcontra | hselector)
    · cases hcontra
    · rw [scopedValue, hscope]
      refine hkind ?_
      rw [isPatchSelector, Bool.and_eq_false_iff] at hselector
      exact hselector.symm.imp_left hnone
  | _ => cases hm

/-- A node of a document with named templates. -/
theorem rewritten_of_namedEffect (hd : hasNamed d = true)
    (hline : n.line? place = some (m :: above))
    (h : (namedEffect vars).walk (fun _ => true) n place m.top m'.top) :
    Rewritten vars d (i :: place) above m m' := by
  have hat := Node.at?_of_line? hline
  by_cases hm : m.tag?.isSome = true
  · have htag := tag_of_namedEffect hat ((isSome_top m).trans hm) hm h
    have howner := template_ownership? vars.inside hline
    cases ho : ownership? vars.inside place n with
    | none =>
      rw [ho] at htag howner
      cases m with
      | element tag children close =>
        have hsame : Retags (fun _ _ a b => b = a) (Node.element tag children close).top m'.top := by
          rw [htag]
          exact Retags.refl rfl fun _ _ _ => rfl
        obtain ⟨attributes, children', rfl, hattributes⟩ := exists_element_of_retags hsame
        refine ⟨attributes, children', rfl, hattributes.imp ?_⟩
        rintro a _ ⟨hvalue, rfl⟩
        refine ⟨hvalue, fun _ => ?_⟩
        rw [owner?, if_pos hd, ← howner]
        rfl
      | _ => cases hm
    | some o =>
      rw [ho] at htag howner
      obtain ⟨y₁, y₂, haround, htag, hown⟩ := htag
      refine rewritten_of_owned hm ?_ rfl haround htag hown fun hany =>
        ownership?_of_not_inherits vars.inside hline hany ho
      rw [owner?, if_pos hd, ← howner]
      rfl
  · rw [Bool.not_eq_true, Option.isSome_eq_false_iff, Option.isNone_iff_eq_none] at hm
    have htext := text_of_namedEffect hat (tag?_top_eq_none hm) h
    refine rewritten_of_mayRetext hline hm (htext.mono fun hway => ?_)
    -- the template that patches the text stands around it, so the text has an owner
    obtain ⟨hbelow, e, he, hnamed⟩ := onTheWay_belowNamed hline hway
    refine ⟨hbelow, ?_⟩
    rw [owner?, if_pos hd, Ne, List.find?_eq_none]
    exact fun hnone => hnone e he hnamed

/-! Documents without named templates. -/

/-- What qualifying a root of such a document does.  The root is a template
whose name is not known. -/
def anonymousEffect (vars : CorpusVars) : Effect :=
  Effect.chosen (fun n => n.tag?.map fun _ => boundNames n) fun bound =>
    templateEffect bound vars.inside

/-- Qualifying a root of such a document does what qualifying a template does,
if the root is an element. -/
theorem acts_qualifyAnonymous (vars : CorpusVars) :
    Acts (qualifyAnonymous vars) (anonymousEffect vars) := by
  refine Acts.of_option (fun bound => acts_qualifyTemplate bound vars.inside) ?_
    (stays_qualifyAnonymous vars) (qualifyAnonymous_of_some vars)
  intro n n' hn
  have hgrown := (hn none).mono marked_le_grown
  rw [boundNames_of_grown hgrown]
  exact tag?_map_of_grown (fun _ _ _ => rfl) hgrown

/-- No named template is at or below a node.  Then all that is below it belongs
to the same template. -/
def Unnamed (n : Node) : Prop := ∀ e ∈ Node.descendants n, isTemplate e.tag = false

/-- No named template is at or below a root of such a document. -/
theorem unnamed_of_not_hasNamed (hd : ¬ hasNamed d = true) (hn : n ∈ d.nodes) : Unnamed n := by
  intro e he
  rw [Bool.not_eq_true, hasNamed, List.any_eq_false] at hd
  exact Bool.eq_false_iff.2 (hd e (Node.descendants_subset hn he))

theorem Unnamed.child {c : Node} (h : Unnamed n) (hc : n.children[i]? = some c) : Unnamed c := by
  obtain ⟨tag, children, close, rfl⟩ := Node.exists_element_of_children hc
  intro e he
  exact h e (List.mem_cons_of_mem _ (Node.descendants_subset (List.mem_of_getElem? hc) he))

theorem Unnamed.isNamed_eq (h : Unnamed n) : isNamed n = false := by
  cases n with
  | element tag children close => exact h ⟨tag, children, close⟩ List.mem_cons_self
  | _ => rfl

/-- Below such a node a walk goes everywhere. -/
theorem Unnamed.within (h : Unnamed n) (hm : n.at? place = some m) (hsome : m.tag?.isSome = true) :
    within continues place n = true := by
  induction place generalizing n with
  | nil => rfl
  | cons i place ih =>
    obtain ⟨c, hc, hm⟩ := Node.at?_cons hm
    have hchild := h.child hc
    rw [within_cons hc, admits_continues (isSome_of_at? hm hsome), hchild.isNamed_eq, ih hchild hm]
    rfl

/-- A template without a name has no callers, and so its scope is what it binds
itself. -/
theorem Unnamed.scope_eq (h : Unnamed n) : scope vars n = boundNames n := by
  rw [scope, name_eq_none_of_not_isNamed (by rw [h.isNamed_eq]; exact Bool.false_ne_true)]
  rfl

/-- A node of a document without named templates. -/
theorem rewritten_of_anonymousEffect (hd : ¬ hasNamed d = true) (hn : Unnamed n)
    (hline : n.line? place = some (m :: above))
    (h : anonymousEffect vars n place m.top m'.top) :
    Rewritten vars d (i :: place) above m m' := by
  have hat := Node.at?_of_line? hline
  -- an element is compiled with the scope of the root, a text at most as the start of a
  -- patch
  by_cases hm : m.tag?.isSome = true
  · have hsome := isSome_of_at? hat hm
    obtain ⟨tag, htag⟩ := Option.isSome_iff_exists.1 hsome
    rw [anonymousEffect, Effect.chosen, htag] at h
    obtain ⟨y, hy, hown⟩ := tag_of_templateEffect hat ((isSome_top m).trans hm) hm h
    rw [if_pos (hn.within hat hm)] at hy
    have haround : Chain [] m.top m.top := rfl
    refine rewritten_of_owned hm ?_ hn.scope_eq haround hy hown fun hany =>
      ⟨rfl, inheritedAlong_eq_nil vars.inside hline hany⟩
    rw [owner?, if_neg hd]
    exact Node.getLast?_of_line? hline
  · rw [Bool.not_eq_true, Option.isSome_eq_false_iff, Option.isNone_iff_eq_none] at hm
    have howner : owner? d (m :: above) ≠ none := by
      rw [owner?, if_neg hd, Node.getLast?_of_line? hline]
      exact Option.some_ne_none n
    refine rewritten_of_mayRetext hline hm (MayRetext.mono (fun hway => ⟨hway, howner⟩) ?_)
    rw [anonymousEffect, Effect.chosen] at h
    cases htag : n.tag? with
    | none =>
      rw [htag] at h
      exact Or.inl h
    | some tag =>
      rw [htag] at h
      exact text_of_templateEffect hat (tag?_top_eq_none hm) h

end Rewritten

/-! ## §2. Documents. -/

/-- What an edit of the roots does to the nodes of a document. -/
theorem exists_line_of_acts {f : Node → Draft ValueError Node} {E : Effect} (hacts : Acts f E)
    {d : Document} (h : (d.editRoots f).failure = none) {i : Nat} {place : List Nat}
    {root n : Node} {above : List Node} (hroot : d.nodes[i]? = some root)
    (hline : root.line? place = some (n :: above)) :
    ∃ n' above', (d.editRoots f).value.line? (i :: place) = some (n' :: above') ∧
      E root place n.top n'.top := by
  obtain ⟨hfailure, hvalue⟩ := each_getElem? h hroot
  obtain ⟨n', hn', hE⟩ := hacts.acts root hfailure place n (Node.at?_of_line? hline)
  obtain ⟨above', hline'⟩ := Node.exists_line_of_at? hn'
  exact ⟨n', above', Option.bind_eq_some_iff.2 ⟨_, hvalue, hline'⟩, hE⟩

/-- The walk over the named templates does at a place what each template on the
way to it does. -/
theorem acts_visitNamed (vars : CorpusVars) :
    Acts (Node.visitAll (qualifyNamed vars)) ((namedEffect vars).walk fun _ => true) :=
  (acts_qualifyNamed vars).visit (fun _ _ _ => rfl) (settling_qualifyNamed vars)
    (stays_of_settling (qualifyNamed_of_none vars))

/-- Every node of a document is rewritten in place. -/
theorem rewritten_qualifyDocument {vars : CorpusVars} {d : Document}
    (h : (qualifyDocument vars d).failure = none) {place : List Nat} {n : Node} {above : List Node}
    (hline : d.line? place = some (n :: above)) :
    ∃ n' above', (qualifyDocument vars d).value.line? place = some (n' :: above') ∧
      Rewritten vars d place above n n' := by
  cases place with
  | nil => cases hline
  | cons i place =>
    obtain ⟨root, hroot, hline⟩ := Option.bind_eq_some_iff.1 hline
    -- with named templates each is compiled for itself, without any each root is one
    -- template
    by_cases hd : hasNamed d = true
    · have heq : qualifyDocument vars d = d.editRoots (Node.visitAll (qualifyNamed vars)) := if_pos hd
      rw [heq] at h ⊢
      obtain ⟨n', above', hline', hE⟩ := exists_line_of_acts (acts_visitNamed vars) h hroot hline
      exact ⟨n', above', hline', rewritten_of_namedEffect hd hline hE⟩
    · have heq : qualifyDocument vars d = d.editRoots (qualifyAnonymous vars) := if_neg hd
      have hunnamed := unnamed_of_not_hasNamed hd (List.mem_of_getElem? hroot)
      rw [heq] at h ⊢
      obtain ⟨n', above', hline', hE⟩ := exists_line_of_acts (acts_qualifyAnonymous vars) h hroot hline
      exact ⟨n', above', hline', rewritten_of_anonymousEffect hd hunnamed hline hE⟩

/-- Qualifying a document adds no nodes. -/
theorem exists_line_of_qualifyDocument {vars : CorpusVars} {d : Document} {place : List Nat}
    {line : List Node} (h : (qualifyDocument vars d).value.line? place = some line) :
    ∃ line', d.line? place = some line' := by
  cases place with
  | nil => cases h
  | cons i place =>
    obtain ⟨root', hroot', h⟩ := Option.bind_eq_some_iff.1 h
    have halike : Node.AlikeAll marked none d.nodes (qualifyDocument vars d).value.nodes := by
      rw [qualifyDocument_eq]
      exact (settling_qualifyRoots vars).edits d.nodes
    obtain ⟨root, hroot, first, halike⟩ := exists_getElem?_of_alikeAll halike hroot'
    obtain ⟨m, above, rfl⟩ := List.exists_cons_of_ne_nil (Node.ne_nil_of_line? h)
    obtain ⟨m', -, hm', -⟩ := exists_at?_of_alike halike (Node.at?_of_line? h)
    obtain ⟨above', habove'⟩ := Node.exists_line_of_at? hm'
    exact ⟨_, Option.bind_eq_some_iff.2 ⟨root, hroot, habove'⟩⟩

/-- **Every attribute is qualified once, in the scope of its own template.**
A document that is qualified keeps its nodes, each of them `Rewritten`; it is
not qualified if one of its attributes cannot be; and the walks for the kinds
do what a single walk does. -/
theorem qualifyDocument_scoped (vars : CorpusVars) (d : Document) :
    ((qualifyDocument vars d).failure = none → ∀ place,
      (∀ n above, d.line? place = some (n :: above) →
        ∃ n' above', (qualifyDocument vars d).value.line? place = some (n' :: above') ∧
          Rewritten vars d place above n n') ∧
      (d.line? place = none → (qualifyDocument vars d).value.line? place = none)) ∧
    (∀ place tag children close above a cause,
      d.line? place = some (.element tag children close :: above) → a ∈ tag.attributes →
      isPatchSelector (.element tag children close :: above) tag a = false →
      scopedValue vars (owner? d (.element tag children close :: above)) tag a = .error cause →
      (qualifyDocument vars d).failure ≠ none) ∧
    ∀ bound root,
      result (kindOrder.foldl (fun draft kind => draft.andThen (qualifyKind kind bound))
        (Draft.done root)) =
      result (root.visit (fun t => !isTemplate t) (Node.editTag (qualifyTag bound))) := by
  refine ⟨?_, ?_, result_qualifyKinds⟩
  · intro h place
    refine ⟨fun n above hline => rewritten_qualifyDocument h hline, ?_⟩
    -- no place is new, as every pass keeps the shape
    intro hnone
    cases hline : (qualifyDocument vars d).value.line? place with
    | none => rfl
    | some line =>
      obtain ⟨line', hline'⟩ := exists_line_of_qualifyDocument hline
      rw [hnone] at hline'
      cases hline'
  · intro place tag children close above a cause hline ha hselector hcause h
    obtain ⟨n', above', -, attributes, children', rfl, hattributes⟩ :=
      rewritten_qualifyDocument h hline
    obtain ⟨i, hi⟩ := List.getElem?_of_mem ha
    obtain ⟨b, -, -, hb⟩ := forall₂_getElem? hattributes hi
    rw [hb (Or.inr hselector)] at hcause
    cases hcause

/-- A template nested in another one, which binds a variable of that name. -/
def nestedSample : Document :=
  let content := "<t t-name='a' t-as='i'><t t-name='c' t-if='i'/></t>".toList
  ⟨⟨content, defaultUrl⟩, (Markup.parse content).1⟩

/-- The nested template does not see the variable. -/
theorem qualifyDocument_scoped_sample :
    (qualifyDocument {} nestedSample).failure = none ∧ ∃ n above n' above',
      nestedSample.line? [0, 0] = some (n :: above) ∧
      (qualifyDocument {} nestedSample).value.line? [0, 0] = some (n' :: above') ∧
      Rewritten {} nestedSample [0, 0] above n n' ∧
      n'.tag?.bind (·.get? "t-if".toList) = some "this.i".toList := by
  have hfailure : (qualifyDocument {} nestedSample).failure = none := by decide +kernel
  have hsome : ((nestedSample.line? [0, 0]).bind List.head?).isSome = true := by decide +kernel
  have hvalue : (((qualifyDocument {} nestedSample).value.line? [0, 0]).bind List.head?).bind
      (fun n => n.tag?.bind (·.get? "t-if".toList)) = some "this.i".toList := by decide +kernel
  obtain ⟨n, hn⟩ := Option.isSome_iff_exists.1 hsome
  obtain ⟨line, hline, hhead⟩ := Option.bind_eq_some_iff.1 hn
  obtain ⟨above, rfl⟩ := List.head?_eq_some_iff.1 hhead
  -- the attribute is in the nested template, which binds only its own names
  obtain ⟨n', above', hline', hrewritten⟩ :=
    ((qualifyDocument_scoped {} nestedSample).1 hfailure [0, 0]).1 n above hline
  rw [hline'] at hvalue
  exact ⟨hfailure, n, above, n', above', hline, hline', hrewritten, hvalue⟩

end QwebReceiver.Template
