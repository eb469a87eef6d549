import QwebReceiver.Proofs.Template.Corpus
import QwebReceiver.Proofs.Template.Idempotent
import QwebReceiver.Proofs.Template.Owner

/-!
  QwebReceiver.Proofs.Template.Gathering — gathering from a qualified document.

  What is gathered from a document is read off attributes that qualifying
  leaves alone, with one exception: the target of a call may hold expressions,
  and then it changes.  It holds expressions before and after, so no template
  whose name holds none is concerned (`Steady`).

  Main results, for documents in which no `template` element names a component:

    * `addTemplates_of_steady` — the same variables of templates are gathered,
      entries in order;
    * `addCalls_of_steady` — the same variables of calls are gathered for all
      names that hold no expression;
    * `steady_of_qualifyText` — a qualified text is read as such a document.
-/

namespace QwebReceiver.Expr

open MarkedText

/-! ## §1. Texts that hold expressions. -/

/-- Whether an expression may start somewhere in a dynamic string.  Without an
opener the string is taken as it is. -/
def opens (s : Text) : Bool := Text.occursIn ['#', '{'] s || Text.occursIn ['{', '{'] s

/-- No expression starts in a text without an opening delimiter. -/
theorem opens_eq_false_iff {s : Text} :
    opens s = false ↔ ¬ ['#', '{'] <:+: s ∧ ¬ ['{', '{'] <:+: s := by
  rw [opens, Bool.or_eq_false_iff, Bool.eq_false_iff, Bool.eq_false_iff, ne_eq, ne_eq,
    Template.occursIn_eq_true_iff, Template.occursIn_eq_true_iff]

theorem opens_eq_true_iff {s : Text} :
    opens s = true ↔ ['#', '{'] <:+: s ∨ ['{', '{'] <:+: s := by
  rw [opens, Bool.or_eq_true, Template.occursIn_eq_true_iff, Template.occursIn_eq_true_iff]

/-- A dynamic string without expressions is qualified to itself. -/
theorem qualifyDynamic_of_not_opens (bound : NameSet) {s : Text} (h : opens s = false) :
    (qualifyDynamic bound s).outcome = .ok s := by
  rw [opens_eq_false_iff] at h
  unfold qualifyDynamic
  induction s with
  | nil =>
    rw [Piece.ofDynamicString]
    rfl
  | cons c s ih =>
    -- no opener of the text starts at its first character either
    have hhead : ∀ w : Char, ¬ [w, '{'] <:+: c :: s → c = w → s.head? ≠ some '{' := by
      rintro w hw rfl hs
      obtain ⟨r, rfl⟩ := List.head?_eq_some_iff.1 hs
      exact hw ⟨[], r, rfl⟩
    rw [ofDynamicString_cons (hhead '#' h.1) (hhead '{' h.2)]
    refine fillPieces_plain_of_ok (ih ⟨?_, ?_⟩)
    · exact fun hinfix => h.1 (List.infix_cons hinfix)
    · exact fun hinfix => h.2 (List.infix_cons hinfix)

/-- Marks do not part a character from one that no identifier starts with. -/
theorem infix_of_old {a b : Char} (hb : Text.isIdentifierStart b = false) {s t : Text}
    (hmarks : Marks s t) (h : [a, b] <:+: s) : [a, b] <:+: t := by
  obtain ⟨A, hv, rfl, rfl⟩ := hmarks
  obtain ⟨x, y, hxy⟩ := h
  obtain ⟨X, Y, rfl, -, hY⟩ := MarkedText.exists_append (s := x) (by rw [← hxy, List.append_assoc])
  obtain ⟨ins, Z, rfl, hZ⟩ := MarkedText.exists_cons hY
  obtain ⟨ins', Y, rfl, -⟩ := MarkedText.exists_cons hZ
  -- a mark stands before an identifier, so none stands before the second character
  have hvY := ((valid_append X _).1 hv).2
  obtain rfl : ins' = [] := ins_eq_nil hvY.2 hb
  refine ⟨new X ++ ins, new Y, ?_⟩
  simp

/-- A text that has grown holds an expression if it did before. -/
theorem opens_of_grows {s t : Text} (h : Grows s t) (hs : opens s = true) : opens t = true := by
  induction h with
  | refl => exact hs
  | tail _ hmarks ih =>
    rw [opens_eq_true_iff] at ih ⊢
    exact ih.imp (infix_of_old (by decide) hmarks) (infix_of_old (by decide) hmarks)

end QwebReceiver.Expr

namespace QwebReceiver.Template

open QwebReceiver.Markup QwebReceiver.Expr

/-! ## §2. Tags that keep what is gathered. -/

/-- An attribute with a value that was qualified: as it was if it holds no
expression, and holding expressions before and after if it is the target of a
call. -/
def SteadyAttribute (component : Bool) (a b : Attribute) : Prop :=
  b.name = a.name ∧
    (attributeKind? a.name component = none → a.name ≠ selectorAttr → b.value = a.value) ∧
    (a.name = callAttr → b.value = a.value ∨ opens a.value = true ∧ opens b.value = true)

/-- A tag with attributes that were qualified.  What is gathered from it is the
same, up to names that hold expressions. -/
structure Steady (t u : Tag) : Prop where
  name : u.name = t.name
  attributes : List.Forall₂ (SteadyAttribute (isComponent t)) t.attributes u.attributes

section Tags

variable {t u w : Tag}

theorem Steady.refl (t : Tag) : Steady t t :=
  ⟨rfl, List.forall₂_same.2 fun _ _ => ⟨rfl, fun _ _ => rfl, fun _ => .inl rfl⟩⟩

/-- Reading a tag again changes nothing. -/
theorem Steady.reread (h : Steady t u) (hw : u.Alike Likeness.reread w) : Steady t w := by
  refine ⟨hw.name.trans h.name, (forall₂_comp h.attributes hw.attributes).imp ?_⟩
  rintro a c ⟨b, ⟨hname, hplain, hcall⟩, hname', -, hvalue, -⟩
  rw [SteadyAttribute, hname', hvalue]
  exact ⟨hname, hplain, hcall⟩

/-- The attributes of one name. -/
theorem Steady.find? (h : Steady t u) (name : Text) :
    Option.Rel (fun a b => a.name = name ∧ SteadyAttribute (isComponent t) a b)
      (t.attributes.find? fun a => a.name = name) (u.attributes.find? fun a => a.name = name) := by
  have hattributes := h.attributes
  generalize t.attributes = as at hattributes
  generalize u.attributes = bs at hattributes
  induction hattributes with
  | nil => exact .none
  | @cons a b as bs hab _ ih =>
    by_cases hname : a.name = name
    · rw [List.find?_cons_of_pos (by simpa using hname),
        List.find?_cons_of_pos (by simpa [hab.1] using hname)]
      exact .some ⟨hname, hab⟩
    · rw [List.find?_cons_of_neg (by simpa using hname),
        List.find?_cons_of_neg (by simpa [hab.1] using hname)]
      exact ih

/-- An attribute that holds no expression keeps its value. -/
theorem Steady.get?_eq (h : Steady t u) {name : Text}
    (hkind : attributeKind? name (isComponent t) = none) (hname : name ≠ selectorAttr) :
    u.get? name = t.get? name := by
  have hfind := h.find? name
  unfold Tag.get?
  revert hfind
  generalize (t.attributes.find? fun a => a.name = name) = x
  generalize (u.attributes.find? fun a => a.name = name) = y
  rintro (⟨hab, -, hplain, -⟩ | _)
  · exact congrArg some (hplain (hab ▸ hkind) (hab ▸ hname))
  · rfl

/-- Qualifying neither adds attributes nor takes any away. -/
theorem Steady.has_eq (h : Steady t u) (name : Text) : u.has name = t.has name :=
  any_eq_of_forall₂ (fun _ _ hab => by rw [hab.1]) h.attributes

/-- What two tags call: the same template, or templates whose names hold
expressions. -/
def SameTarget (x y : Option Text) : Prop :=
  y = x ∨ ∃ s s', x = some s ∧ y = some s' ∧ opens s = true ∧ opens s' = true

theorem ne_nil_of_opens {s : Text} (h : opens s = true) : s.isEmpty = false := by
  cases s with
  | nil => cases h
  | cons c s => rfl

/-- A steady tag calls what it called, or it called and calls what only a run
can tell. -/
theorem Steady.target (h : Steady t u) :
    SameTarget (t.nonEmpty? callAttr) (u.nonEmpty? callAttr) := by
  have hfind := h.find? callAttr
  unfold Tag.nonEmpty? Tag.get?
  revert hfind
  generalize (t.attributes.find? fun a => a.name = callAttr) = x
  generalize (u.attributes.find? fun a => a.name = callAttr) = y
  rintro (@⟨a, b, hname, -, -, hcall⟩ | _)
  · rcases hcall hname with hvalue | ⟨ha, hb⟩
    · exact .inl (by simp only [Option.map_some, hvalue])
    · exact .inr ⟨a.value, b.value, by simp [ne_nil_of_opens ha], by simp [ne_nil_of_opens hb], ha, hb⟩
  · exact .inl rfl

/-- The attributes that the variables of templates are gathered from, and that
no component makes a property. -/
def gatheredAttrs : List Text :=
  [nameAttr, inheritAttr, setAttr, asAttr, "t-foreach-index".toList, "t-index".toList]

/-- What is gathered from is never qualified. -/
theorem Steady.get?_gathered (h : Steady t u) {name : Text} (hname : name ∈ gatheredAttrs) :
    u.get? name = t.get? name := by
  have hplain : ∀ name ∈ gatheredAttrs, ∀ component,
      attributeKind? name component = none ∧ name ≠ selectorAttr := by decide
  exact h.get?_eq (hplain name hname _).1 (hplain name hname false).2

theorem Steady.trimmed?_eq (h : Steady t u) {name : Text} (hname : name ∈ gatheredAttrs) :
    trimmed? u name = trimmed? t name := by
  rw [trimmed?, trimmed?, h.get?_gathered hname]

/-- A steady tag binds the same names for patches. -/
theorem Steady.insideNames_eq (h : Steady t u) : insideNames u = insideNames t := by
  have hloop : isLoop u = isLoop t := by rw [isLoop, isLoop, h.has_eq, h.has_eq]
  rw [insideNames, insideNames, hloop, h.trimmed?_eq (show setAttr ∈ gatheredAttrs by decide),
    h.trimmed?_eq (show asAttr ∈ gatheredAttrs by decide),
    h.trimmed?_eq (show "t-foreach-index".toList ∈ gatheredAttrs by decide),
    h.trimmed?_eq (show "t-index".toList ∈ gatheredAttrs by decide)]

/-- A `template` element that names no component is none. -/
theorem isComponent_of_template (hname : t.name = "template".toList)
    (hcomponent : t.has componentAttr = false) : isComponent t = false := by
  rw [isComponent, hname, hcomponent]
  decide

/-- The name of the template that an element is. -/
theorem Steady.templateName?_eq (h : Steady t u)
    (hcomponent : t.name = "template".toList → t.has componentAttr = false) :
    templateName? u = templateName? t := by
  rw [templateName?, templateName?, h.trimmed?_eq (show nameAttr ∈ gatheredAttrs by decide),
    h.name]
  by_cases hname : t.name = "template".toList
  · have hid : u.get? "id".toList = t.get? "id".toList := by
      refine h.get?_eq ?_ (by decide)
      rw [isComponent_of_template hname (hcomponent hname)]
      decide
    have htrimmed : trimmed? u "id".toList = trimmed? t "id".toList := by
      rw [trimmed?, trimmed?, hid]
    rw [if_pos hname, if_pos hname, htrimmed]
  · rw [if_neg hname, if_neg hname]

end Tags

/-! ## §3. Elements that keep what is gathered. -/

/-- The element as a node. -/
abbrev Element.node (e : Element) : Node := .element e.tag e.children e.close

/-- The tags of elements and of all that is below them are steady, pair by pair
in document order. -/
def SteadyElement (e e' : Element) : Prop :=
  List.Forall₂ (fun x y : Element => Steady x.tag y.tag) (Element.node e).descendants
    (Element.node e').descendants

section Elements

variable {e e' : Element} {m n : VarMap}

theorem SteadyElement.tag (h : SteadyElement e e') : Steady e.tag e'.tag := by
  cases h with
  | cons htag _ => exact htag

/-- The same variables are set below a steady element. -/
theorem SteadyElement.setNames_eq (h : SteadyElement e e') : setNames e' = setNames e := by
  have hmap : ∀ {l l' : List Element}, List.Forall₂ (fun x y : Element => Steady x.tag y.tag) l l' →
      l'.filterMap (fun d => d.tag.nonEmpty? setAttr) = l.filterMap fun d => d.tag.nonEmpty? setAttr := by
    intro l l' hl
    induction hl with
    | nil => rfl
    | cons hxy _ ih =>
      have hset := hxy.get?_gathered (show setAttr ∈ gatheredAttrs by decide)
      rw [List.filterMap_cons, List.filterMap_cons, ih, Tag.nonEmpty?, Tag.nonEmpty?, hset]
  exact hmap h

/-- What a template binds is gathered in the same way. -/
theorem SteadyElement.addTemplate_eq (h : SteadyElement e e')
    (hcomponent : e.tag.name = "template".toList → e.tag.has componentAttr = false) (m : VarMap) :
    addTemplate m e' = addTemplate m e := by
  have hnames := map_eq_of_forall₂ (fun _ _ hxy => Steady.insideNames_eq hxy) h
  unfold addTemplate
  rw [h.tag.trimmed?_eq (show inheritAttr ∈ gatheredAttrs by decide), h.tag.templateName?_eq hcomponent,
    List.flatMap_def, List.flatMap_def, hnames]

/-- The two maps say the same of all names that hold no expression.  The others
are names of calls, which a pass may rewrite. -/
def SameClosed (m n : VarMap) : Prop := ∀ name, opens name = false → m.get? name = n.get? name

/-- What a call sets is gathered in the same way, as far as names hold no
expression. -/
theorem SteadyElement.addCall (h : SteadyElement e e') (hmn : SameClosed m n) :
    SameClosed (addCall m e') (addCall n e) := by
  intro name hname
  unfold Template.addCall
  rcases h.tag.target with htarget | ⟨s, s', hs, hs', hopen, hopen'⟩
  · rw [htarget, h.setNames_eq]
    split
    · exact hmn name hname
    · rw [VarMap.get?_add, VarMap.get?_add, hmn name hname]
  · -- both entries are for names that hold expressions
    have hne : name ≠ s := by
      rintro rfl
      rw [hopen] at hname
      cases hname
    have hne' : name ≠ s' := by
      rintro rfl
      rw [hopen'] at hname
      cases hname
    rw [hs, hs', VarMap.get?_add, VarMap.get?_add, if_neg hne, if_neg hne', hmn name hname]

end Elements

section Documents

variable {d d' : Document} {m n : VarMap}

/-- The variables of templates are gathered in the same way. -/
theorem addTemplates_of_steady (h : List.Forall₂ SteadyElement d.elements d'.elements)
    (hcomponent : ∀ e ∈ d.elements, e.tag.name = "template".toList → e.tag.has componentAttr = false)
    (m : VarMap) : addTemplates m d' = addTemplates m d := by
  unfold addTemplates
  generalize d.elements = es at h hcomponent
  generalize d'.elements = es' at h
  induction h generalizing m with
  | nil => rfl
  | cons he _ ih =>
    obtain ⟨hhead, hrest⟩ := List.forall_mem_cons.1 hcomponent
    rw [List.foldl_cons, List.foldl_cons, he.addTemplate_eq hhead, ih _ hrest]

/-- The variables of calls are gathered in the same way, as far as names hold no
expression. -/
theorem addCalls_of_steady (h : List.Forall₂ SteadyElement d.elements d'.elements)
    (hmn : SameClosed m n) : SameClosed (addCalls m d') (addCalls n d) := by
  unfold addCalls
  generalize d.elements = es at h
  generalize d'.elements = es' at h
  induction h generalizing m n with
  | nil => exact hmn
  | cons he _ ih => exact ih (he.addCall hmn)

end Documents

/-! ## §4. Qualified documents. -/

/-- The tags of two trees compare at every place that both have. -/
def TagsAt (R : Tag → Tag → Prop) (n m : Node) : Prop :=
  ∀ place x y, n.at? place = some x → m.at? place = some y → Option.Rel R x.tag? y.tag?

section Places

variable {R : Tag → Tag → Prop} {L : Likeness}

/-- Trees whose tags compare at every place have children of which this holds. -/
theorem TagsAt.child {n m c c' : Node} {i : Nat} (h : TagsAt R n m) (hc : n.children[i]? = some c)
    (hc' : m.children[i]? = some c') : TagsAt R c c' :=
  fun place x y hx hy => h (i :: place) x y (Node.at?_cons_of hc hx) (Node.at?_cons_of hc' hy)

mutual

/-- Trees of one shape whose tags compare at every place do so element by
element. -/
theorem descendants_of_tagsAt {first : Option Text} {n m : Node} (h : n.Alike L first m)
    (hR : TagsAt R n m) :
    List.Forall₂ (fun e e' => TagsAt R (Element.node e) (Element.node e') ∧
      (Element.node e).Alike L none (Element.node e')) n.descendants m.descendants := by
  -- an element stands in front of its descendants, and any other node has none
  cases n with
  | element tag children close =>
    have halike := h
    obtain ⟨tag', children', close', rfl, htag, hchildren, hclose⟩ := h
    exact .cons ⟨hR, halike⟩ (descendantsOf_of_tagsAt hchildren fun i c c' hc hc' => hR.child hc hc')
  | text data =>
    obtain ⟨_, rfl, -⟩ := h
    exact .nil
  | comment v s =>
    obtain ⟨_, rfl, -⟩ := h
    exact .nil
  | instruction v s =>
    obtain ⟨_, rfl, -⟩ := h
    exact .nil
  | doctype v s =>
    obtain ⟨_, rfl, -⟩ := h
    exact .nil

/-- So do trees side by side, element by element. -/
theorem descendantsOf_of_tagsAt {first : Option Text} {ns ms : List Node}
    (h : Node.AlikeAll L first ns ms)
    (hR : ∀ (i : Nat) c c', ns[i]? = some c → ms[i]? = some c' → TagsAt R c c') :
    List.Forall₂ (fun e e' => TagsAt R (Element.node e) (Element.node e') ∧
      (Element.node e).Alike L none (Element.node e')) (Node.descendantsOf ns)
      (Node.descendantsOf ms) := by
  cases ns with
  | nil =>
    obtain rfl : ms = [] := h
    exact .nil
  | cons n ns =>
    obtain ⟨m, ms', rfl, hm, hms⟩ := h
    exact List.rel_append (descendants_of_tagsAt hm (hR 0 n m rfl rfl))
      (descendantsOf_of_tagsAt hms fun i c c' hc hc' => hR (i + 1) c c' hc hc')

end

end Places

/-- What an attribute is qualified to is steady. -/
theorem steadyAttribute_of_scoped {vars : CorpusVars} {owner : Option Node} {tag : Tag}
    {a b : Attribute} (hname : b.name = a.name)
    (h : a.name ≠ selectorAttr → scopedValue vars owner tag a = .ok b.value) :
    SteadyAttribute (isComponent tag) a b := by
  cases owner with
  | none =>
    -- an attribute that no template owns keeps its value
    refine ⟨hname, fun _ hne => (Except.ok.inj (h hne)).symm, fun hcall => .inl ?_⟩
    exact (Except.ok.inj (h (hcall ▸ by decide))).symm
  | some template =>
    refine ⟨hname, ?_, ?_⟩
    · intro hkind hne
      have hvalue := h hne
      rw [scopedValue, byKind, hkind] at hvalue
      exact (Except.ok.inj hvalue).symm
    · intro hcall
      have hvalue := h (hcall ▸ by decide)
      have hkind : ∀ component, attributeKind? callAttr component = some .dynamicString := by decide
      rw [scopedValue, byKind, hcall, hkind] at hvalue
      have hdynamic : (qualifyDynamic (scope vars template) a.value).outcome = .ok b.value := hvalue
      -- a target that holds expressions may change, but goes on holding them
      by_cases hopen : opens a.value = true
      · have hmarks := (qualifying_qualifyDynamic (scope vars template)).marks hdynamic
        exact .inr ⟨hopen, opens_of_grows hmarks.grows hopen⟩
      · rw [qualifyDynamic_of_not_opens _ (Bool.not_eq_true _ ▸ hopen)] at hdynamic
        exact .inl (Except.ok.inj hdynamic).symm

/-- What becomes of the tag of an element is steady. -/
theorem steady_of_rewritten {vars : CorpusVars} {d : Document} {place : List Nat} {above : List Node}
    {n n' : Node} (h : Rewritten vars d place above n n') : Option.Rel Steady n.tag? n'.tag? := by
  cases n with
  | element tag children close =>
    obtain ⟨attributes, children', rfl, hattributes⟩ := h
    refine .some ⟨rfl, hattributes.imp ?_⟩
    -- only selectors are compiled out of their scope, and no name is gathered from one
    rintro a _ ⟨⟨value, rfl⟩, hvalue⟩
    refine steadyAttribute_of_scoped rfl fun hne => hvalue (.inr ?_)
    simp [isPatchSelector, namesSelector, hne]
  | text data =>
    obtain ⟨value, rfl, -⟩ := h
    exact .none
  | comment v s =>
    obtain rfl : n' = _ := h
    exact .none
  | instruction v s =>
    obtain rfl : n' = _ := h
    exact .none
  | doctype v s =>
    obtain rfl : n' = _ := h
    exact .none

/-- The tag of a node that was read again. -/
theorem steady_reread {n m k : Node} {first : Option Text} (h : Option.Rel Steady n.tag? m.tag?)
    (hk : m.Alike Likeness.reread first k) : Option.Rel Steady n.tag? k.tag? := by
  -- reading a node again keeps its kind and the values of its tag
  cases m with
  | element tag children close =>
    obtain ⟨tag', children', close', rfl, htag, -, -⟩ := hk
    revert h
    generalize n.tag? = x
    rintro ⟨hsteady⟩
    exact .some (hsteady.reread htag)
  | text data =>
    obtain ⟨_, rfl, -⟩ := hk
    exact h
  | comment v s =>
    obtain ⟨_, rfl, -⟩ := hk
    exact h
  | instruction v s =>
    obtain ⟨_, rfl, -⟩ := hk
    exact h
  | doctype v s =>
    obtain ⟨_, rfl, -⟩ := hk
    exact h

/-- **A qualified text is a document that keeps what is gathered**, and has
nothing left to qualify. -/
theorem steady_of_qualifyText {vars : CorpusVars} {content out : Text}
    (h : (qualifyText vars content).outcome = .ok out) :
    ∃ d d₂, Document.parse ⟨content, defaultUrl⟩ = .ok d ∧
      Document.parse ⟨out, defaultUrl⟩ = .ok d₂ ∧
      List.Forall₂ SteadyElement d.elements d₂.elements ∧ Stays (qualifyDocument vars) d₂ := by
  obtain ⟨d, d₂, hparse, hfailure, hparse₂, hreread, hsettled⟩ := exists_reread_of_qualifyText h
  have hmarked := (alike_qualifyDocument vars d).2.mono marked_le_grown
  have hgrown := (hmarked.trans (hreread.mono reread_le_grown)).mono grown_trans
  refine ⟨d, d₂, hparse, hparse₂, ?_, qualifyDocument_of_stays hsettled⟩
  -- place by place: what qualifying makes of a node, and what that is read as
  have htags : ∀ (i : Nat) c c', d.nodes[i]? = some c → d₂.nodes[i]? = some c' →
      TagsAt Steady c c' := by
    intro i root root₂ hroot hroot₂ place x y hx hy
    obtain ⟨above, hline⟩ := Node.exists_line_of_at? hx
    have hline' : d.line? (i :: place) = some (x :: above) :=
      Option.bind_eq_some_iff.2 ⟨root, hroot, hline⟩
    obtain ⟨n', above', hn', hrewritten⟩ := rewritten_qualifyDocument hfailure hline'
    obtain ⟨root', hroot', hn'⟩ := Option.bind_eq_some_iff.1 hn'
    obtain ⟨k, hk, first, halike⟩ := exists_getElem?_of_alikeAll hreread hroot₂
    obtain rfl : k = root' := Option.some.inj (hk.symm.trans hroot')
    obtain ⟨n, first', hn, hny⟩ := exists_at?_of_alike halike hy
    obtain rfl : n = n' := Option.some.inj (hn.symm.trans (Node.at?_of_line? hn'))
    exact steady_reread (steady_of_rewritten hrewritten) hny
  refine (descendantsOf_of_tagsAt hgrown htags).imp ?_
  rintro e e' ⟨hat, halike⟩
  refine (descendants_of_tagsAt halike hat).imp ?_
  rintro x y ⟨hxy, -⟩
  obtain ⟨hsteady⟩ := hxy [] _ _ rfl rfl
  exact hsteady

end QwebReceiver.Template
