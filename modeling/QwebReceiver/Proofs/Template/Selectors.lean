import Mathlib.Data.List.Nodup
import QwebReceiver.Proofs.Template.Idempotent
import QwebReceiver.Proofs.Template.Owner

/-!
  QwebReceiver.Proofs.Template.Selectors — what is left to do for selectors
  after a text was qualified.

  Qualifying a text qualifies the selectors below every inheriting element of
  a template, those of its patches to known templates among them.  An element
  that inherits but stands outside every template, in a document that has
  named ones, is left alone: its selectors are what qualifying selectors alone
  may still change (`qualifyTextSelectors_of_qualifyText`), and there are
  documents in which it does (`qualifyTextSelectors_outside`).
-/

namespace QwebReceiver.Selector

open QwebReceiver.Text SelectorPart

/-! ## §1. Clauses that are skipped. -/

/-- The value of a clause does not get shorter. -/
theorem length_le_of_qualifyUnlessSkipped {bound : NameSet} {skip : List Text}
    {name value filled : Text} (h : (qualifyUnlessSkipped bound skip name value).outcome = .ok filled) :
    value.length ≤ filled.length :=
  ((settles_qualifyUnlessSkipped bound skip name value).marks Expr.barrier_nil h).length_le

/-- What stays behind its first character stays. -/
theorem stays_of_map_cons {ε : Type} {c : Char} {r : Text} {x : Except ε Text}
    (h : x.map (c :: ·) = .ok (c :: r)) : x = .ok r := by
  cases x with
  | error e => cases h
  | ok out => rw [(List.cons.inj (Except.ok.inj h)).2]

/-- A selector that is left alone is left alone if more clauses are skipped. -/
theorem stays_of_skip {bound : NameSet} {skip skip' : List Text}
    (hskip : ∀ name, skip.contains name = true → skip'.contains name = true) {t : Text}
    (h : (qualify bound skip t).outcome = .ok t) : (qualify bound skip' t).outcome = .ok t := by
  induction t using ofSelector.induct with
  | case1 =>
    rw [qualify, ofSelector]
    rfl
  | case2 r name value rest hclause hlt ih =>
    obtain ⟨filled, out, hfilled, hrest, htext⟩ := exists_of_qualify_clause hclause h
    obtain ⟨rfl, -, -, -⟩ := eq_of_clauseBody? hclause
    rw [render_append] at htext
    have hwritten : filled ++ '\'' :: out = value ++ '\'' :: rest := by simpa using htext
    -- neither the value nor the rest gets shorter, so both are the same
    have hvalue := length_le_of_qualifyUnlessSkipped hfilled
    have hlength := (Expr.qualifying_qualifySelector bound skip).marks hrest |>.length_le
    have hsum := congrArg List.length hwritten
    simp only [List.length_append, List.length_cons] at hsum
    obtain ⟨rfl, hrest'⟩ := List.append_inj hwritten (by omega)
    obtain rfl := (List.cons.inj hrest').2
    have hstays : (qualifyUnlessSkipped bound skip' name filled).outcome = .ok filled := by
      by_cases hin : skip'.contains name = true
      · rw [qualifyUnlessSkipped, if_pos hin]
        rfl
      · rw [qualifyUnlessSkipped, if_neg hin]
        rwa [qualifyUnlessSkipped, if_neg fun hmem => hin (hskip name hmem)] at hfilled
    have hbelow := ih hrest
    rw [qualify] at hbelow
    rw [qualify, ofSelector_clause hclause, outcome_qualifyParts_clause, hstays]
    simp only [Except.bind, hbelow, Except.map, render_append]
  | case3 r hclause ih =>
    rw [outcome_qualify_plain (ofSelector_at hclause)] at h ⊢
    rw [ih (stays_of_map_cons h)]
    rfl
  | case4 c r hno ih =>
    have hno' : c = '@' → ¬ ['t', '-'] <+: r := by
      rintro hc ⟨s, hs⟩
      exact hno s hc hs.symm
    rw [outcome_qualify_plain (ofSelector_cons hno')] at h ⊢
    rw [ih (stays_of_map_cons h)]
    rfl

end QwebReceiver.Selector

namespace QwebReceiver.Template

open QwebReceiver.Markup

variable {ε : Type}

/-! ## §2. Walks that change nothing. -/

section Walks

variable {f : Node → Draft ε Node} {enter : Tag → Bool}
  (henter : ∀ t u : Tag, t.Alike grown u → enter u = enter t)
include henter

/-- A walk that may go deep enough changes nothing if its edit changes nothing
where it comes to. -/
theorem stays_visitWithin_iff (hf : Settling nodeGrowth f) (hother : ∀ n, n.tag? = none → Stays f n)
    {depth : Nat} {n : Node} (hdepth : n.height ≤ depth) :
    Stays (Node.visitWithin enter f depth) n ↔
      ∀ place m, n.at? place = some m → within enter place n = true → Stays f m := by
  -- a node that is no element has no places below it
  have hleaf : ∀ {n : Node}, n.tag? = none → ∀ place m, n.at? place = some m → Stays f m := by
    intro n hn place m hm
    cases place with
    | nil =>
      cases hm
      exact hother n hn
    | cons i place =>
      obtain ⟨c, hc, -⟩ := Node.at?_cons hm
      obtain ⟨tag, children, close, rfl⟩ := Node.exists_element_of_children hc
      cases hn
  induction depth generalizing n with
  | zero =>
    have hnil : n.tag? = none := by
      cases n with
      | element tag children close => simp [Node.height] at hdepth
      | _ => rfl
    rw [stays_congr (visitWithin_zero n)]
    exact ⟨fun _ place m hm _ => hleaf hnil place m hm, fun _ => stays_done n⟩
  | succ depth ih =>
    cases n with
    | element tag children close =>
      rw [hf.stays_visitWithin_iff henter]
      have hheight : ∀ c ∈ children, c.height ≤ depth := by
        intro c hc
        have hle := Node.height_le_of_mem hc
        rw [Node.height] at hdepth
        omega
      constructor
      · rintro ⟨hhere, hbelow⟩ place m hm hwithin
        cases place with
        | nil =>
          cases hm
          exact hhere
        | cons i place =>
          obtain ⟨c, hc, hm⟩ := Node.at?_cons hm
          rw [within_cons hc, Bool.and_eq_true] at hwithin
          have hmem := List.mem_of_getElem? hc
          exact (ih (hheight c hmem)).1 (hbelow c hmem hwithin.1) place m hm hwithin.2
      · intro h
        refine ⟨h [] _ rfl rfl, ?_⟩
        intro c hmem hadmits
        obtain ⟨i, hi⟩ := List.getElem?_of_mem hmem
        have hc : (Node.element tag children close).children[i]? = some c := hi
        refine (ih (hheight c hmem)).2 fun place m hm hwithin =>
          h (i :: place) m (Node.at?_cons_of hc hm) ?_
        rw [within_cons hc, Bool.and_eq_true]
        exact ⟨hadmits, hwithin⟩
    | _ => exact ⟨fun _ place m hm _ => hleaf rfl place m hm, fun _ => ⟨rfl, rfl⟩⟩

/-- A walk changes nothing if its edit changes nothing where it comes to. -/
theorem stays_visit_iff (hf : Settling nodeGrowth f) (hother : ∀ n, n.tag? = none → Stays f n)
    {n : Node} : Stays (Node.visit enter f) n ↔
      ∀ place m, n.at? place = some m → within enter place n = true → Stays f m := by
  rw [← stays_visitWithin_iff henter hf hother le_rfl]
  exact stays_congr rfl

end Walks

/-! ## §3. Selectors of read documents. -/

/-- No two attributes of a tag have one name.  The parser sees to this, and a
lookup then finds the only one. -/
def DistinctNames (t : Tag) : Prop := (t.attributes.map Attribute.name).Nodup

mutual

/-- The tags of a form that keeps the rules have distinct names. -/
theorem distinctNames_node {rest : Text} (here : Location) (f : Form) (h : f.Valid rest) :
    ∀ e ∈ Node.descendants (f.node here), DistinctNames e.tag := by
  cases f with
  | leaf l => cases l <;> simp [Form.node, Leaf.node, Node.descendants]
  | empty tag =>
    rw [Form.node, Node.descendants, Node.descendantsOf, List.forall_mem_singleton]
    rw [DistinctNames, TagForm.toTag, names_attributesAt]
    exact h.2
  | element tag children gap =>
    rw [Form.node, Node.descendants, List.forall_mem_cons]
    refine ⟨?_, distinctNames_nodes _ children h.2.2.2⟩
    rw [DistinctNames, TagForm.toTag, names_attributesAt]
    exact h.2.1

/-- So have those of forms side by side. -/
theorem distinctNames_nodes {rest : Text} (here : Location) (fs : List Form)
    (h : Form.ValidAll rest fs) :
    ∀ e ∈ Node.descendantsOf (Form.nodes here fs), DistinctNames e.tag := by
  cases fs with
  | nil =>
    intro e he
    cases he
  | cons f fs =>
    rw [Form.nodes, Node.descendantsOf, List.forall_mem_append]
    exact ⟨distinctNames_node here f h.1, distinctNames_nodes _ fs h.2⟩

end

/-- The tags of a document that was read. -/
theorem distinctNames_of_parse {source : Source} {d : Document} (h : Document.parse source = .ok d) :
    ∀ e ∈ d.elements, DistinctNames e.tag := by
  obtain ⟨forms, hforms, rfl⟩ := exists_derives_of_document h
  exact distinctNames_nodes .origin forms hforms.2

section Tags

variable {qualify : Qualifier} {inherited : NameSet} {tag : Tag} {children : List Node}
  {close : Option Span}

/-- The attribute of a name is the only one of that name. -/
theorem eq_value_of_distinct {name value : Text} (hdistinct : DistinctNames tag)
    (hget : tag.get? name = some value) {a : Attribute} (ha : a ∈ tag.attributes)
    (hname : a.name = name) : a.value = value := by
  obtain ⟨b, hb, rfl⟩ := Option.map_eq_some_iff.1 hget
  have hbname : b.name = name := by simpa using List.find?_some hb
  have hbmem := List.mem_of_find?_eq_some hb
  rw [List.inj_on_of_nodup_map hdistinct ha hbmem (hname.trans hbname.symm)]

/-- When the selector of a tag is left alone. -/
theorem stays_qualifySelectorAttr_iff (hdistinct : DistinctNames tag) :
    Stays (qualifySelectorAttr qualify inherited) tag ↔
      ∀ selector, tag.get? selectorAttr = some selector →
        (qualify inherited selector).outcome = .ok selector := by
  unfold qualifySelectorAttr
  rw [stays_qualifyAttributes_iff, stays_each_iff]
  -- the pass rewrites every attribute of that name, and a lookup finds the first: they
  -- are one where names are distinct
  constructor
  · intro h selector hget
    obtain ⟨a, ha, rfl⟩ := Option.map_eq_some_iff.1 hget
    have hname : a.name = selectorAttr := by simpa using List.find?_some ha
    exact stays_editAttribute_iff.1 (h a (List.mem_of_find?_eq_some ha)) qualify (if_pos hname)
  · intro h a ha
    rw [stays_editAttribute_iff]
    intro qualify' hselect
    obtain ⟨hname, heq⟩ := Option.ite_none_right_eq_some.1 hselect
    cases heq
    have hhas : (tag.get? selectorAttr).isSome = true := by
      rw [isSome_get?]
      exact List.any_eq_true.2 ⟨a, ha, decide_eq_true hname⟩
    obtain ⟨selector, hget⟩ := Option.isSome_iff_exists.1 hhas
    rw [eq_value_of_distinct hdistinct hget ha hname]
    exact h selector hget

end Tags

/-- What a selector element has left is nothing. -/
theorem outcome_of_stays_selectorElement {inherited all : NameSet} {n : Node} {selector : Text}
    (h : Stays (qualifySelectorElement inherited all) n) (hselector : selector? n = some selector)
    (hdistinct : ∀ tag, n.tag? = some tag → DistinctNames tag) :
    (qualifySelector inherited selector).outcome = .ok selector := by
  rw [stays_congr (qualifySelectorElement_eq inherited all n),
    stays_congr (congrArg (editSelectorElement inherited all · n) hselector)] at h
  have hedit := (((settling_editSelector inherited selector).stays_andThen_iff
    (settling_visitAll (settling_qualifyPatch all selector))).1 h).1
  cases hempty : selector with
  | nil =>
    rw [qualifySelector, Selector.qualify, SelectorPart.ofSelector]
    rfl
  | cons c s =>
    rw [← hempty]
    -- an empty selector is left out of the pass, and it is compiled to itself
    have hnot : ¬ selector.isEmpty = true := by rw [hempty]; exact Bool.false_ne_true
    have heq : editSelector inherited selector n =
        n.editTag (qualifySelectorAttr qualifySelector inherited) := if_neg hnot
    rw [stays_congr heq] at hedit
    cases n with
    | element tag children close =>
      obtain ⟨-, hget⟩ := Option.ite_none_right_eq_some.1 hselector
      exact (stays_qualifySelectorAttr_iff (hdistinct tag rfl)).1 (stays_editTag_iff.1 hedit)
        selector hget
    | _ => cases hselector

/-! ## §4. Patches to known templates. -/

/-- The variables of the template that an element inherits from, if it is a
known one. -/
def known? (inside : VarMap) (n : Node) : Option NameSet :=
  (n.tag?.bind (·.get? inheritAttr)).bind inside.get?

/-- Qualifies the selector of an element and nothing else.  This is what the
pass over selectors does at each element. -/
def editSelectorOnly (inherited : NameSet) : Node → Draft ValueError Node :=
  Node.editTag fun t =>
    if t.name = selectorTag then qualifySelectorAttr qualifySelectorOnly inherited t else .done t

/-- Qualifies the selectors at or below an element that inherits from a known
template. -/
def editKnown (inside : VarMap) (n : Node) : Draft ValueError Node :=
  match known? inside n with
  | none => .done n
  | some inherited => n.visitAll (editSelectorOnly inherited)

/-- Qualifying selectors alone is a walk over the elements that inherit from
known templates. -/
theorem qualifySelectors_eq (inside : VarMap) :
    qualifySelectors inside = Document.editRoots (Node.visitAll (editKnown inside)) := rfl

section Known

variable {inside : VarMap} {inherited : NameSet} {n : Node}

/-- To qualify a selector and nothing else settles its element. -/
theorem settling_editSelectorOnly (inherited : NameSet) :
    Settling nodeGrowth (editSelectorOnly inherited) := by
  refine Settling.editTag (Settling.of_key_eq Tag.name (fun name t => if name = selectorTag then
    qualifySelectorAttr qualifySelectorOnly inherited t else .done t) ?_ fun _ _ h => h.name)
  intro name
  by_cases hname : name = selectorTag
  · simp only [hname, if_true]
    refine settling_qualifyAttributes (chooses_ite ?_ ?_)
    · rintro name rfl
      decide
    · exact Expr.qualifying_qualifySelector inherited _
  · simp only [hname, if_false]
    exact settling_done tagGrowth

theorem editKnown_of_none (h : known? inside n = none) : editKnown inside n = .done n := by
  rw [editKnown, h]

/-- Below what inherits from a known template every selector is qualified. -/
theorem editKnown_of_some (h : known? inside n = some inherited) :
    editKnown inside n = n.visitAll (editSelectorOnly inherited) := by
  rw [editKnown, h]

/-- What an element inherits from does not change when values grow. -/
theorem known?_of_grows (inside : VarMap) (n m : Node) (h : nodeGrowth.grows n m) :
    known? inside m = known? inside n := by
  obtain ⟨first, halike⟩ := h
  unfold known?
  rw [tag?_bind_of_grown (by decide) halike]

/-- To qualify the selectors of an inheriting element settles it. -/
theorem settling_editKnown (inside : VarMap) : Settling nodeGrowth (editKnown inside) := by
  refine Settling.of_option (known? inside)
    (fun inherited => Node.visitAll (editSelectorOnly inherited)) ?_ (known?_of_grows inside) ?_ ?_
  · intro inherited
    exact settling_visitAll (settling_editSelectorOnly inherited)
  · intro n hn
    exact (stays_congr (editKnown_of_none hn)).2 (stays_done n)
  · intro n inherited hn
    rw [editKnown_of_some hn]
    exact ⟨rfl, rfl⟩

/-- The selector of an element is left alone if qualifying leaves it alone.  For
this its tag must have one selector, as read tags have. -/
theorem stays_editSelectorOnly_iff (hdistinct : ∀ tag, n.tag? = some tag → DistinctNames tag) :
    Stays (editSelectorOnly inherited) n ↔ ∀ selector, selector? n = some selector →
      (qualifySelectorOnly inherited selector).outcome = .ok selector := by
  -- only an element named like a selector has one
  cases n with
  | element tag children close =>
    unfold editSelectorOnly selector?
    rw [stays_editTag_iff, Node.tag?, Option.bind_some]
    by_cases hname : tag.name = selectorTag
    · have hedit : (if tag.name = selectorTag then
          qualifySelectorAttr qualifySelectorOnly inherited tag else .done tag) =
          qualifySelectorAttr qualifySelectorOnly inherited tag := if_pos hname
      rw [stays_congr hedit, stays_qualifySelectorAttr_iff (hdistinct tag rfl), if_pos hname]
    · have hedit : (if tag.name = selectorTag then
          qualifySelectorAttr qualifySelectorOnly inherited tag else .done tag) = .done tag :=
        if_neg hname
      rw [stays_congr hedit, if_neg hname]
      exact ⟨fun _ _ h => (by cases h), fun _ => stays_done tag⟩
  | _ => exact ⟨fun _ _ h => (by cases h), fun _ => ⟨rfl, rfl⟩⟩

/-- A walk that stops nowhere comes to every element. -/
theorem within_of_at? {place : List Nat} {m : Node} (hm : n.at? place = some m)
    (hsome : m.tag?.isSome = true) : within (fun _ => true) place n = true := by
  induction place generalizing n with
  | nil => rfl
  | cons i place ih =>
    obtain ⟨c, hc, hm⟩ := Node.at?_cons hm
    have hadmits : admits (fun _ => true) c = true := by
      have hc := isSome_of_at? hm hsome
      cases c with
      | element tag children close => rfl
      | _ => cases hc
    rw [within_cons hc, hadmits, ih hm]
    rfl

/-- A walk to everything below an element. -/
theorem stays_visitAll_iff {f : Node → Draft ValueError Node} (hf : Settling nodeGrowth f)
    (hother : ∀ n, n.tag? = none → Stays f n) :
    Stays (Node.visitAll f) n ↔ ∀ place m, n.at? place = some m → Stays f m := by
  refine (stays_visit_iff (fun _ _ _ => rfl) hf hother).trans ?_
  constructor
  · intro h place m hm
    by_cases hsome : m.tag?.isSome = true
    · exact h place m hm (within_of_at? hm hsome)
    · exact hother m (by simpa using hsome)
  · intro h place m hm _
    exact h place m hm

end Known

/-- The selector of the innermost node of a line, for the known template that a
node on the line inherits from; `inheriting` is the line of that node. -/
structure Selects (inside : VarMap) (line inheriting : List Node) (inherited : NameSet)
    (selector : Text) : Prop where
  suffix : inheriting <:+ line
  known : inheriting.head?.bind (known? inside) = some inherited
  selects : line.head?.bind selector? = some selector

section Documents

variable {vars : CorpusVars} {inside : VarMap} {d : Document} {place : List Nat}
  {line inheriting : List Node} {inherited : NameSet} {selector : Text}

/-- The nodes that a selector and its inheriting element are. -/
theorem Selects.exists_at? (hline : d.line? place = some line)
    (h : Selects inside line inheriting inherited selector) :
    ∃ (i : Nat) (p q : List Nat) (root e : Node) (outer : List Node) (n : Node),
      d.nodes[i]? = some root ∧ inheriting = e :: outer ∧
      root.line? p = some (e :: outer) ∧ e.at? q = some n ∧ known? inside e = some inherited ∧
      selector? n = some selector := by
  obtain ⟨e, he, hknown⟩ := Option.bind_eq_some_iff.1 h.known
  obtain ⟨outer, rfl⟩ := List.head?_eq_some_iff.1 he
  obtain ⟨n, hn, hselector⟩ := Option.bind_eq_some_iff.1 h.selects
  obtain ⟨above, rfl⟩ := List.head?_eq_some_iff.1 hn
  cases place with
  | nil => cases hline
  | cons i place =>
    obtain ⟨root, hroot, hline⟩ := Option.bind_eq_some_iff.1 hline
    obtain ⟨p, q, rfl, hp, hq⟩ := Node.exists_append_of_suffix hline h.suffix
    exact ⟨i, p, q, root, e, outer, n, hroot, rfl, hp, hq, hknown, hselector⟩

theorem isSome_of_selector? {n : Node} (h : selector? n = some selector) : n.tag?.isSome = true := by
  obtain ⟨tag, htag, -⟩ := Option.bind_eq_some_iff.1 h
  rw [htag]
  rfl

/-- The tag at a place of a document has distinct names if all tags do. -/
theorem distinctNames_at? (hd : ∀ e ∈ d.elements, DistinctNames e.tag) {i : Nat} {root n : Node}
    (hroot : d.nodes[i]? = some root) (hn : root.at? place = some n) {tag : Tag}
    (htag : n.tag? = some tag) : DistinctNames tag := by
  cases n with
  | element tag' children close =>
    cases htag
    exact hd _ (Node.descendants_subset (List.mem_of_getElem? hroot) (Node.mem_descendants_of_at? hn))
  | _ => cases htag

/-- A document is left alone if each of its roots is. -/
theorem stays_editRoots_iff {f : Node → Draft ValueError Node} :
    Stays (Document.editRoots f) d ↔ Stays (Draft.each f) d.nodes := by
  constructor
  · rintro ⟨hfailure, hvalue⟩
    exact ⟨hfailure, congrArg Document.nodes hvalue⟩
  · rintro ⟨hfailure, hvalue⟩
    exact ⟨hfailure, congrArg (fun nodes => { d with nodes }) hvalue⟩

/-- When there is nothing left to do for selectors alone. -/
theorem stays_qualifySelectors_iff (hd : ∀ e ∈ d.elements, DistinctNames e.tag) :
    Stays (Document.editRoots (Node.visitAll (editKnown inside))) d ↔
      ∀ place line inheriting inherited selector, d.line? place = some line →
        Selects inside line inheriting inherited selector →
        (qualifySelectorOnly inherited selector).outcome = .ok selector := by
  have hnone : ∀ n : Node, n.tag? = none → Stays (editKnown inside) n := by
    intro n hn
    refine (stays_congr (editKnown_of_none ?_)).2 (stays_done n)
    rw [known?, hn]
    rfl
  have honly : ∀ inherited (n : Node), n.tag? = none → Stays (editSelectorOnly inherited) n :=
    fun inherited => stays_editTag_of_none
  rw [stays_editRoots_iff (f := Node.visitAll (editKnown inside)), stays_each_iff]
  -- a selector is reached from the inheriting element above it, so its place is split
  -- there
  constructor
  · intro h place line inheriting inherited selector hline hselects
    obtain ⟨i, p, q, root, e, outer, n, hroot, -, hp, hn, hknown, hselector⟩ :=
      hselects.exists_at? hline
    have he := (stays_visitAll_iff (settling_editKnown inside) hnone).1
      (h root (List.mem_of_getElem? hroot)) p e (Node.at?_of_line? hp)
    rw [stays_congr (editKnown_of_some hknown)] at he
    have hstays := (stays_visitAll_iff (settling_editSelectorOnly inherited) (honly inherited)).1
      he q n hn
    have hat : root.at? (p ++ q) = some n := by
      rw [Node.at?_append, Node.at?_of_line? hp, Option.bind_some, hn]
    exact (stays_editSelectorOnly_iff fun tag htag => distinctNames_at? hd hroot hat htag).1 hstays
      selector hselector
  · intro h root hroot
    obtain ⟨i, hroot⟩ := List.getElem?_of_mem hroot
    rw [stays_visitAll_iff (settling_editKnown inside) hnone]
    intro p e he
    cases hknown : known? inside e with
    | none => exact (stays_congr (editKnown_of_none hknown)).2 (stays_done e)
    | some inherited =>
      rw [stays_congr (editKnown_of_some hknown),
        stays_visitAll_iff (settling_editSelectorOnly inherited) (honly inherited)]
      intro q n hn
      have hat : root.at? (p ++ q) = some n := by
        rw [Node.at?_append, he, Option.bind_some, hn]
      rw [stays_editSelectorOnly_iff fun tag htag => distinctNames_at? hd hroot hat htag]
      intro selector hselector
      obtain ⟨above, hline⟩ := Node.exists_line_of_at? hat
      obtain ⟨outer, -, hsuffix⟩ := Node.exists_suffix_of_append he hline
      exact h (i :: (p ++ q)) (n :: above) (e :: outer) inherited selector
        (Option.bind_eq_some_iff.2 ⟨root, hroot, hline⟩) ⟨hsuffix, hknown, hselector⟩

/-! ## §5. Patches that belong to a template. -/

/-- The place of an element in the template that it belongs to. -/
theorem exists_place_in_template {n m template : Node} {above : List Node}
    (hline : n.line? place = some (m :: above)) (hm : m.tag?.isSome = true)
    (h : (m :: above).find? isNamed = some template) :
    ∃ p q, place = p ++ q ∧ n.at? p = some template ∧ template.at? q = some m ∧
      within continues q template = true := by
  induction place generalizing n m above with
  | nil =>
    cases hline
    obtain rfl := List.mem_singleton.1 (List.mem_of_find?_eq_some h)
    exact ⟨[], [], rfl, rfl, rfl, rfl⟩
  | cons i place ih =>
    have hat := Node.at?_of_line? hline
    obtain ⟨c, below, hc, hbelow, hsplit⟩ := Node.line?_cons hline
    obtain ⟨m', below, rfl⟩ := List.exists_cons_of_ne_nil (Node.ne_nil_of_line? hbelow)
    obtain ⟨rfl, -⟩ := List.cons.inj hsplit
    rw [hsplit, List.find?_append] at h
    -- the template stands below this node, or it is this node and the walk reaches `m`
    -- from it
    cases hinner : (m :: below).find? isNamed with
    | some t =>
      rw [hinner] at h
      cases h
      obtain ⟨p, q, rfl, hp, hq, hwithin⟩ := ih hbelow hm hinner
      exact ⟨i :: p, q, rfl, Node.at?_cons_of hc hp, hq, hwithin⟩
    | none =>
      rw [hinner, Option.none_or] at h
      obtain rfl := List.mem_singleton.1 (List.mem_of_find?_eq_some h)
      refine ⟨[], i :: place, rfl, rfl, hat, ?_⟩
      have hnone : ownership? ∅ place c = none := by
        rw [← Option.map_eq_none_iff, template_ownership? ∅ hbelow, hinner]
      rw [within_cons hc]
      exact (ownership?_eq_none_iff ∅ (Node.at?_of_line? hbelow) hm).1 hnone

/-- The selectors of a template have nothing left to do. -/
theorem outcome_of_stays_template {bound : NameSet} {template e n : Node} {p q : List Nat}
    (h : Stays (qualifyTemplate bound inside) template) (he : template.at? p = some e)
    (hwithin : within continues p template = true) (hn : e.at? q = some n)
    (hknown : known? inside e = some inherited) (hselector : selector? n = some selector)
    (hdistinct : ∀ tag, n.tag? = some tag → DistinctNames tag) :
    (qualifySelectorOnly inherited selector).outcome = .ok selector := by
  -- the inheritance pass is the last one of the template, and it changes nothing
  have hinherits := (((settling_qualifyKinds bound).stays_andThen_iff
    ((settling_qualifyInheriting bound inside).visit enter_of_grown)).1 h).2
  have hstays := (stays_visit_iff enter_of_grown (settling_qualifyInheriting bound inside)
    (stays_of_settling (qualifyInheriting_of_none bound inside))).1 hinherits p e he hwithin
  obtain ⟨target, htarget, hget⟩ := Option.bind_eq_some_iff.1 hknown
  have hedit : Stays (Node.visitAll (qualifySelectorElement inherited (bound.union inherited))) e := by
    obtain ⟨hfailure, hvalue⟩ := hstays
    rw [qualifyInheriting, htarget] at hfailure hvalue
    simp only [hget, Option.getD_some] at hfailure hvalue
    exact ⟨hfailure, hvalue⟩
  have hselectorElement := (stays_visitAll_iff (settling_qualifySelectorElement inherited _)
    (stays_of_settling (qualifySelectorElement_of_none inherited _))).1 hedit q n hn
  refine Selector.stays_of_skip ?_
    (outcome_of_stays_selectorElement hselectorElement hselector hdistinct)
  intro name hname
  rw [List.contains_eq_any_beq] at hname ⊢
  rw [List.any_append, hname, Bool.true_or]

/-- The selectors of the templates of a qualified document have nothing left
to do. -/
theorem outcome_of_owned (hd : ∀ e ∈ d.elements, DistinctNames e.tag)
    (h : Stays (qualifyRoots vars) d.nodes) (hline : d.line? place = some line)
    (hselects : Selects vars.inside line inheriting inherited selector)
    (howner : owner? d inheriting ≠ none) :
    (qualifySelectorOnly inherited selector).outcome = .ok selector := by
  obtain ⟨i, p, q, root, e, outer, n, hroot, rfl, hp, hn, hknown, hselector⟩ :=
    hselects.exists_at? hline
  have he := Node.at?_of_line? hp
  have hsome := isSome_of_at? hn (isSome_of_selector? hselector)
  have hat : root.at? (p ++ q) = some n := by
    rw [Node.at?_append, he, Option.bind_some, hn]
  have hdistinct : ∀ tag, n.tag? = some tag → DistinctNames tag := fun tag htag =>
    distinctNames_at? hd hroot hat htag
  have hmem := List.mem_of_getElem? hroot
  -- the owner is a template with a name or, where no template has one, the root
  by_cases hnamed : hasNamed d = true
  · rw [owner?, if_pos hnamed, ← Option.isSome_iff_ne_none, Option.isSome_iff_exists] at howner
    obtain ⟨template, htemplate⟩ := howner
    obtain ⟨p₁, p₂, rfl, hp₁, hp₂, hwithin⟩ :=
      exists_place_in_template hp hsome htemplate
    have heq : qualifyRoots vars d.nodes =
        Draft.each (Node.visitAll (qualifyNamed vars)) d.nodes := if_pos hnamed
    have hroots := stays_each_iff.1 ((stays_congr heq).1 h)
    have hstays := (stays_visitAll_iff (settling_qualifyNamed vars)
      (stays_of_settling (qualifyNamed_of_none vars))).1 (hroots root hmem) p₁ template hp₁
    obtain ⟨hfailure, hvalue⟩ := qualifyNamed_of_isNamed vars (List.find?_some htemplate)
    exact outcome_of_stays_template ⟨hfailure ▸ hstays.failure, hvalue ▸ hstays.value⟩ hp₂ hwithin hn
      hknown hselector hdistinct
  · have heq : qualifyRoots vars d.nodes = Draft.each (qualifyAnonymous vars) d.nodes :=
      if_neg hnamed
    have hstays := stays_each_iff.1 ((stays_congr heq).1 h) root hmem
    have hunnamed := unnamed_of_not_hasNamed hnamed hmem
    have htemplate : Stays (qualifyTemplate (boundNames root) vars.inside) root := by
      have hroot := isSome_of_at? he hsome
      cases root with
      | element tag children close => exact ⟨hstays.failure, hstays.value⟩
      | _ => cases hroot
    exact outcome_of_stays_template htemplate he (hunnamed.within he hsome) hn hknown hselector
      hdistinct

/-! ## §6. Texts. -/

/-- A text is edited into itself if its document is left alone. -/
theorem editText_eq_self_iff {f : Node → Draft ValueError Node} (hf : Settling nodeGrowth f)
    {content : Text} (hparse : Document.parse ⟨content, defaultUrl⟩ = .ok d) :
    (editText (Document.editRoots f) content).outcome = .ok content ↔
      Stays (Document.editRoots f) d := by
  rw [editText_eq_ok_iff]
  constructor
  · rintro ⟨d', hparse', hfailure, hrender⟩
    obtain rfl : d = d' := Except.ok.inj (hparse.symm.trans hparse')
    have hedits := hf.eachRoot.edits d.nodes
    -- what was written is the text, so the edited document is read back as this one
    have hsource : (d.editRoots f).value.source = d.source := rfl
    obtain ⟨d₂, hparse₂, hreread⟩ :=
      exists_parse_render hparse hsource (hedits.mono marked_le_edited) defaultUrl
    rw [hrender] at hparse₂
    obtain rfl : d = d₂ := Except.ok.inj (hparse.symm.trans hparse₂)
    exact stays_editRoots_iff.2
      (hf.eachRoot.lasts _ _ (hf.eachRoot.settles d.nodes hfailure) (hreread.mono reread_le_grown))
  · intro h
    refine ⟨d, hparse, h.failure, ?_⟩
    rw [h.value]
    exact render_of_parse hparse

/-- A text that was qualified is the text of a settled document, grown from the
one that was read. -/
theorem exists_settled_of_qualifyText {content out : Text}
    (h : (qualifyText vars content).outcome = .ok out) :
    ∃ d d₂, Document.parse ⟨content, defaultUrl⟩ = .ok d ∧
      Document.parse ⟨out, defaultUrl⟩ = .ok d₂ ∧
      Node.AlikeAll grown none d.nodes d₂.nodes ∧ Stays (qualifyRoots vars) d₂.nodes := by
  obtain ⟨d, d₂, hparse, -, hparse₂, hreread, hsettled⟩ := exists_reread_of_qualifyText h
  have hmarked := (alike_qualifyDocument vars d).2.mono marked_le_grown
  exact ⟨d, d₂, hparse, hparse₂, (hmarked.trans (hreread.mono reread_le_grown)).mono grown_trans,
    hsettled⟩

/-- Lines of documents that compare. -/
theorem exists_line_of_grows {n n' : Node} {line' : List Node} (h : nodeGrowth.grows n n')
    (hline : n'.line? place = some line') :
    ∃ line, n.line? place = some line ∧ List.Forall₂ nodeGrowth.grows line line' := by
  induction place generalizing n n' line' with
  | nil =>
    cases hline
    exact ⟨[n], rfl, .cons h .nil⟩
  | cons i place ih =>
    obtain ⟨c', below', hc', hbelow', rfl⟩ := Node.line?_cons hline
    obtain ⟨first, halike⟩ := h
    obtain ⟨c, hc, hcc'⟩ := exists_child_of_alike' halike hc'
    obtain ⟨below, hbelow, hrel⟩ := ih hcc' hbelow'
    exact ⟨below ++ [n], Node.line?_cons_of hc hbelow,
      List.rel_append hrel (.cons ⟨first, halike⟩ .nil)⟩

/-- An element that has grown belongs to a template if it did before. -/
theorem isSome_owner?_of_grown {d' : Document} {line' : List Node}
    (hd : Node.AlikeAll grown none d.nodes d'.nodes)
    (hline : List.Forall₂ nodeGrowth.grows line line') :
    (owner? d' line').isSome = (owner? d line).isSome := by
  have hnamed : hasNamed d' = hasNamed d := any_isTemplate_of_grown hd
  unfold owner?
  rw [hnamed]
  -- growth adds no name and takes none, so the same nodes are templates
  by_cases h : hasNamed d = true
  · rw [if_pos h, if_pos h, List.isSome_find?, List.isSome_find?]
    have hkeeps : ∀ t u : Tag, t.Alike grown u → isTemplate u = isTemplate t :=
      fun _ _ htu => isTemplate_of_grown htu
    exact any_eq_of_forall₂ (admitted_of_grows hkeeps) hline
  · rw [if_neg h, if_neg h]
    cases hline with
    | nil => rfl
    | cons _ _ =>
      rw [List.getLast?_cons, List.getLast?_cons]
      rfl

end Documents

/-- **Selectors after a text was qualified.**  Nothing is left to do for
selectors alone exactly if those are settled whose inheriting element, which
names a known template, stands outside every template of the document.  If
there is no such element there is nothing left to do. -/
theorem qualifyTextSelectors_of_qualifyText {vars : CorpusVars} {content out : Text}
    (h : (qualifyText vars content).outcome = .ok out) :
    (∃ d, Document.parse ⟨out, defaultUrl⟩ = .ok d ∧
      ((qualifyTextSelectors vars.inside out).outcome = .ok out ↔
        ∀ place line inheriting inherited selector, d.line? place = some line →
          Selects vars.inside line inheriting inherited selector → owner? d inheriting = none →
          (qualifySelectorOnly inherited selector).outcome = .ok selector)) ∧
    ∀ d, Document.parse ⟨content, defaultUrl⟩ = .ok d →
      (∀ place e outer, d.line? place = some (e :: outer) → known? vars.inside e ≠ none →
        owner? d (e :: outer) ≠ none) →
      (qualifyTextSelectors vars.inside out).outcome = .ok out := by
  obtain ⟨d, d₂, hparse, hparse₂, hgrown, hsettled⟩ := exists_settled_of_qualifyText h
  have hdistinct := distinctNames_of_parse hparse₂
  have hself : (qualifyTextSelectors vars.inside out).outcome = .ok out ↔
      Stays (Document.editRoots (Node.visitAll (editKnown vars.inside))) d₂ := by
    rw [qualifyTextSelectors, qualifySelectors_eq]
    exact editText_eq_self_iff (settling_visitAll (settling_editKnown vars.inside)) hparse₂
  have hiff : (qualifyTextSelectors vars.inside out).outcome = .ok out ↔
      ∀ place line inheriting inherited selector, d₂.line? place = some line →
        Selects vars.inside line inheriting inherited selector → owner? d₂ inheriting = none →
        (qualifySelectorOnly inherited selector).outcome = .ok selector := by
    refine hself.trans ((stays_qualifySelectors_iff hdistinct).trans ?_)
    -- selectors within templates are settled already
    constructor
    · intro hall place line inheriting inherited selector hline hselects _
      exact hall place line inheriting inherited selector hline hselects
    · intro hall place line inheriting inherited selector hline hselects
      by_cases howner : owner? d₂ inheriting = none
      · exact hall place line inheriting inherited selector hline hselects howner
      · exact outcome_of_owned hdistinct hsettled hline hselects howner
  refine ⟨⟨d₂, hparse₂, hiff⟩, ?_⟩
  intro d' hparse' howned
  obtain rfl : d = d' := Except.ok.inj (hparse.symm.trans hparse')
  rw [hiff]
  intro place line inheriting inherited selector hline hselects hnone
  -- what stands outside of all templates now stood outside of them before
  exfalso
  obtain ⟨i, p, q, root', e', outer', n, hroot', rfl, hp, -, hknown, -⟩ := hselects.exists_at? hline
  obtain ⟨root, hroot, hroots⟩ := exists_getElem?_of_alikeAll hgrown hroot'
  obtain ⟨line₀, hline₀, hrel⟩ := exists_line_of_grows hroots hp
  have hsome := isSome_owner?_of_grown hgrown hrel
  cases hrel with
  | @cons e _ outer _ hee' houter =>
    rw [known?_of_grows vars.inside e e' hee'] at hknown
    refine howned (i :: p) e outer (Option.bind_eq_some_iff.2 ⟨root, hroot, hline₀⟩) ?_ ?_
    · rw [hknown]
      exact Option.some_ne_none inherited
    · rw [hnone] at hsome
      exact Option.not_isSome_iff_eq_none.1 (by rw [← hsome]; exact Bool.false_ne_true)

/-- The template `b` is known. -/
def knownSample : CorpusVars := { inside := VarMap.put ∅ "b".toList ∅ }

/-- An element below a named root belongs to a template. -/
theorem owner?_ne_none_of_roots {d : Document} (h : d.nodes.all isNamed = true) {place : List Nat}
    {line : List Node} (hline : d.line? place = some line) : owner? d line ≠ none := by
  cases place with
  | nil => cases hline
  | cons i place =>
    obtain ⟨root, hroot, hline⟩ := Option.bind_eq_some_iff.1 hline
    have hlast := Node.getLast?_of_line? hline
    have hnamed := List.all_eq_true.1 h root (List.mem_of_getElem? hroot)
    unfold owner?
    split
    · rw [← Option.isSome_iff_ne_none, List.isSome_find?]
      exact List.any_eq_true.2 ⟨root, List.mem_of_getLast? hlast, hnamed⟩
    · rw [hlast]
      exact Option.some_ne_none root

theorem nodes_of_parse {source : Source} {d : Document} (h : Document.parse source = .ok d) :
    d.nodes = (Markup.parse source.content).1 := by
  obtain ⟨forms, hforms, rfl⟩ := exists_derives_of_document h
  rw [parse_of_derives hforms]

/-- A patch that is a template itself. -/
theorem qualifyTextSelectors_of_qualifyText_sample :
    (qualifyText knownSample
      "<t t-name='a' t-inherit='b'><xpath expr=\"@t-if='x'\"/></t>".toList).outcome =
        .ok "<t t-name='a' t-inherit='b'><xpath expr=\"@t-if='this.x'\"/></t>".toList ∧
    (qualifyTextSelectors knownSample.inside
      "<t t-name='a' t-inherit='b'><xpath expr=\"@t-if='this.x'\"/></t>".toList).outcome =
        .ok "<t t-name='a' t-inherit='b'><xpath expr=\"@t-if='this.x'\"/></t>".toList := by
  have hqualified : (qualifyText knownSample
      "<t t-name='a' t-inherit='b'><xpath expr=\"@t-if='x'\"/></t>".toList).outcome =
      .ok "<t t-name='a' t-inherit='b'><xpath expr=\"@t-if='this.x'\"/></t>".toList := by
    decide +kernel
  have hnamed : (Markup.parse
      "<t t-name='a' t-inherit='b'><xpath expr=\"@t-if='x'\"/></t>".toList).1.all isNamed = true := by
    decide +kernel
  obtain ⟨d, hparse, -, -⟩ := editText_eq_ok_iff.1 hqualified
  refine ⟨hqualified, (qualifyTextSelectors_of_qualifyText hqualified).2 d hparse ?_⟩
  intro place e outer hline _
  -- every root has a name, so every place has an owner
  refine owner?_ne_none_of_roots ?_ hline
  rw [nodes_of_parse hparse]
  exact hnamed

/-- A patch beside a template is left alone with it, and may have selectors to
qualify. -/
theorem qualifyTextSelectors_outside :
    ¬ ∀ vars content out, (qualifyText vars content).outcome = .ok out →
      (qualifyTextSelectors vars.inside out).outcome = .ok out := by
  intro h
  have hqualified : (qualifyText knownSample
      "<r><t t-name='a'/><t t-inherit='b'><xpath expr=\"//t[@t-if='x']\"/></t></r>".toList).outcome =
      .ok "<r><t t-name='a'/><t t-inherit='b'><xpath expr=\"//t[@t-if='x']\"/></t></r>".toList := by
    decide +kernel
  have hleft := h _ _ _ hqualified
  revert hleft
  decide +kernel

end QwebReceiver.Template
