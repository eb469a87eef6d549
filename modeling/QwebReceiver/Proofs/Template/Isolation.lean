import QwebReceiver.Proofs.Template.Idempotent
import QwebReceiver.Proofs.Template.Owner
import QwebReceiver.Proofs.Template.Unplaced

/-!
  QwebReceiver.Proofs.Template.Isolation — a template on its own.

  A template nested in another one is qualified as its text would be on its
  own (`qualifyText_isolated`), unless an element of a template around it
  inherits: the patches of such an element are looked for in all that is below
  it, the nested template included (`qualifyText_leaks`).
-/

namespace QwebReceiver.Template

open QwebReceiver.Text QwebReceiver.Markup

/-! ## §1. Templates that are left alone from outside. -/

/-- There is a named template at the place, and no element on the way to it
inherits. -/
def Guarded : List Nat → Node → Prop
  | [], n => isNamed n = true
  | i :: place, n => inherits n = false ∧ ∃ c, n.children[i]? = some c ∧ Guarded place c

/-- There is a named template at the place, and no element of a template around
it inherits. -/
def Isolated : List Nat → Node → Prop
  | [], n => isNamed n = true
  | i :: place, n => (isNamed n = true → Guarded (i :: place) n) ∧
      ∃ c, n.children[i]? = some c ∧ Isolated place c

theorem inherits_of_edits {first : Option Text} {n n' : Node} (h : n.Alike marked first n') :
    inherits n' = inherits n := by
  unfold inherits
  rw [tag?_map_of_grown (fun t u htu => has_of_grown htu inheritAttr) (h.mono marked_le_grown)]

/-- What is guarded stays so under edits of values. -/
theorem Guarded.of_edits {first : Option Text} {place : List Nat} {n n' : Node}
    (h : n.Alike marked first n') (hn : Guarded place n) : Guarded place n' := by
  induction place generalizing n n' first with
  | nil => exact (isNamed_of_edits h).trans hn
  | cons i place ih =>
    obtain ⟨hinherits, c, hc, hbelow⟩ := hn
    obtain ⟨c', hc', first', halike⟩ := exists_child_of_alike h hc
    exact ⟨(inherits_of_edits h).trans hinherits, c', hc', ih halike hbelow⟩

/-- What is isolated stays so under edits of values. -/
theorem Isolated.of_edits {first : Option Text} {place : List Nat} {n n' : Node}
    (h : n.Alike marked first n') (hn : Isolated place n) : Isolated place n' := by
  induction place generalizing n n' first with
  | nil => exact (isNamed_of_edits h).trans hn
  | cons i place ih =>
    obtain ⟨hguarded, c, hc, hbelow⟩ := hn
    obtain ⟨c', hc', first', halike⟩ := exists_child_of_alike h hc
    refine ⟨?_, c', hc', ih halike hbelow⟩
    intro hnamed
    rw [isNamed_of_edits h] at hnamed
    exact (hguarded hnamed).of_edits h

theorem isSome_of_isNamed {n : Node} (h : isNamed n = true) : n.tag?.isSome = true :=
  isSome_of_admits h

/-- An isolated template is at or below an element. -/
theorem Isolated.isSome {place : List Nat} {n : Node} (h : Isolated place n) :
    n.tag?.isSome = true := by
  cases place with
  | nil => exact isSome_of_isNamed h
  | cons i place =>
    obtain ⟨-, c, hc, -⟩ := h
    obtain ⟨tag, children, close, rfl⟩ := Node.exists_element_of_children hc
    rfl

/-! ## §2. Edits that leave nested templates alone. -/

/-- The edit settles, and leaves the templates alone that are below the node
and guarded. -/
structure Respects (f : Node → Draft ValueError Node) : Prop where
  settles : Settling nodeGrowth f
  spares : ∀ i place n m, Guarded (i :: place) n → (f n).failure = none →
    n.at? (i :: place) = some m → (f n).value.at? (i :: place) = some m

section Respects

variable {f g : Node → Draft ValueError Node}

/-- Two edits that leave nested templates alone do so one after the other. -/
theorem Respects.andThen (hf : Respects f) (hg : Respects g) :
    Respects fun n => (f n).andThen g where
  settles := hf.settles.andThen hg.settles
  spares i place n m hn h hm := by
    have hnone := failure_of_andThen h
    rw [failure_andThen hnone] at h
    rw [value_andThen hnone]
    exact hg.spares i place _ m (hn.of_edits (hf.settles.edits n none)) h
      (hf.spares i place n m hn hnone hm)

/-- A walk through a template does not come to what is nested in it. -/
theorem Respects.visit (hf : Respects f) : Respects (Node.visit continues f) where
  settles := hf.settles.visit continues_of_grown
  spares i place n m hn h hm := by
    unfold Node.visit at h ⊢
    generalize n.height = depth at h ⊢
    induction depth generalizing i place n with
    | zero =>
      rw [visitWithin_zero]
      exact hm
    | succ depth ih =>
      obtain ⟨c, hc, hbelow⟩ := Node.at?_cons hm
      obtain ⟨hnone, c₁, hc₁, hsame, hedits, hstep⟩ :=
        exists_step_of_visitWithin continues_of_grown hf.settles h hc
      obtain ⟨c', hc', hm₁⟩ := Node.at?_cons (hf.spares i place n m hn hnone hm)
      obtain rfl := Option.some.inj (hc₁.symm.trans hc')
      by_cases hadmits : admits continues c = true
      · rw [if_pos hadmits] at hstep
        obtain ⟨-, k, hk, hguarded⟩ := hn
        obtain rfl := Option.some.inj (hc.symm.trans hk)
        cases place with
        | nil =>
          -- the template itself is not gone on with
          have hnamed : isNamed c = true := hguarded
          rw [admits_continues (isSome_of_isNamed hnamed), hnamed] at hadmits
          cases hadmits
        | cons j place =>
          exact Node.at?_cons_of hstep.2
            (ih j place c₁ (hguarded.of_edits (hedits hadmits none)) hm₁ hstep.1)
      · rw [if_neg hadmits] at hstep
        exact Node.at?_cons_of hstep hm₁

end Respects

/-- The attributes of a template, kind by kind. -/
theorem respects_qualifyKinds (bound : NameSet) : Respects (qualifyKinds bound) where
  settles := settling_qualifyKinds bound
  spares i place n m hn h hm := by
    have htag : Respects (Node.editTag (qualifyTag bound)) := by
      refine ⟨settling_editTag_qualifyTag bound, ?_⟩
      intro i place n m _ _ hm
      rwa [Node.at?, children_editTag]
    have hresult := result_eq_some_iff.2 ⟨h, rfl⟩
    rw [result_qualifyKinds] at hresult
    obtain ⟨hfailure, hvalue⟩ := result_eq_some_iff.1 hresult
    rw [← hvalue]
    exact htag.visit.spares i place n m hn hfailure hm

/-- The patches of a template are qualified below inheriting elements only, and
no such element is around a guarded template. -/
theorem respects_qualifyInheriting (bound : NameSet) (inside : VarMap) :
    Respects (qualifyInheriting bound inside) where
  settles := settling_qualifyInheriting bound inside
  spares i place n m hn h hm := by
    have hnone : n.tag?.bind (·.get? inheritAttr) = none := by
      cases n with
      | element tag children close =>
        have hhas : tag.has inheritAttr = false := hn.1
        rw [← isSome_get?, Option.isSome_eq_false_iff, Option.isNone_iff_eq_none] at hhas
        exact hhas
      | _ => rfl
    rw [qualifyInheriting, hnone]
    exact hm

/-- Qualifying a template leaves the guarded templates below it alone. -/
theorem respects_qualifyTemplate (bound : NameSet) (inside : VarMap) :
    Respects (qualifyTemplate bound inside) :=
  (respects_qualifyKinds bound).andThen (respects_qualifyInheriting bound inside).visit

/-! ## §3. Walks to nested templates. -/

/-- How deep a walk may go does not matter if it is deep enough. -/
theorem visitWithin_eq {enter : Tag → Bool} {f : Node → Draft ValueError Node}
    (hf : Settling nodeGrowth f) {depth depth' : Nat} {n : Node} (h : n.height ≤ depth)
    (h' : n.height ≤ depth') : Node.visitWithin enter f depth n = Node.visitWithin enter f depth' n := by
  have hleaf : ∀ depth {n : Node}, n.tag? = none → Node.visitWithin enter f depth n = .done n := by
    intro depth n hn
    cases n with
    | element tag children close => cases hn
    | _ => cases depth <;> rfl
  have hheight : ∀ {n : Node}, n.height ≤ 0 → n.tag? = none := by
    intro n hn
    cases n with
    | element tag children close => simp [Node.height] at hn
    | _ => rfl
  -- editing a node keeps its height, so the children are less high than it was
  induction depth generalizing depth' n with
  | zero => rw [hleaf 0 (hheight h), hleaf depth' (hheight h)]
  | succ depth ih =>
    cases depth' with
    | zero => rw [hleaf _ (hheight h'), hleaf _ (hheight h')]
    | succ depth' =>
      rw [visitWithin_succ, visitWithin_succ]
      split
      · unfold Draft.andThen
        cases (f n).failure with
        | some e => rfl
        | none =>
          have hgrown : (f n).value.height = n.height :=
            height_of_grown ((hf.edits n none).mono marked_le_grown)
          have hchildren : ∀ c ∈ (f n).value.children, c.height ≤ depth ∧ c.height ≤ depth' := by
            intro c hc
            obtain ⟨i, hi⟩ := List.getElem?_of_mem hc
            have hlt := Node.height_lt_of_child hi
            omega
          simp only
          rw [editChildren_congr fun c hc => by rw [ih (hchildren c hc).1 (hchildren c hc).2]]
      · rfl

/-- Qualifying a template leaves an isolated one below it alone. -/
theorem qualifyNamed_at? {vars : CorpusVars} {i : Nat} {place : List Nat} {n m : Node}
    (hn : Isolated (i :: place) n) (h : (qualifyNamed vars n).failure = none)
    (hm : n.at? (i :: place) = some m) : (qualifyNamed vars n).value.at? (i :: place) = some m := by
  by_cases hnamed : isNamed n = true
  · obtain ⟨hfailure, hvalue⟩ := qualifyNamed_of_isNamed vars hnamed
    rw [hfailure] at h
    rw [hvalue]
    exact (respects_qualifyTemplate _ vars.inside).spares i place n m (hn.1 hnamed) h hm
  · rw [qualifyNamed, name_eq_none_of_not_isNamed hnamed]
    exact hm

/-- An isolated template is qualified as it was before the elements around it
were. -/
theorem visitAll_qualifyNamed_at? {vars : CorpusVars} {place : List Nat} {n m : Node}
    (hn : Isolated place n) (h : (Node.visitAll (qualifyNamed vars) n).failure = none)
    (hm : n.at? place = some m) :
    (Node.visitAll (qualifyNamed vars) m).failure = none ∧
      (Node.visitAll (qualifyNamed vars) n).value.at? place =
        some (Node.visitAll (qualifyNamed vars) m).value := by
  induction place generalizing n with
  | nil =>
    obtain rfl : n = m := Option.some.inj hm
    exact ⟨h, rfl⟩
  | cons i place ih =>
    have hsettles := settling_qualifyNamed vars
    obtain ⟨c, hc, hisolated⟩ := hn.2
    obtain ⟨tag, children, close, rfl⟩ := Node.exists_element_of_children hc
    obtain ⟨hnone, c₁, hc₁, -, hedits, hstep⟩ :=
      exists_step_of_visitWithin (fun _ _ _ => rfl) hsettles h hc
    obtain ⟨c', hc', hm₁⟩ := Node.at?_cons (qualifyNamed_at? hn hnone hm)
    obtain rfl := Option.some.inj (hc₁.symm.trans hc')
    have hadmits : admits (fun _ => true) c = true := by
      have hsome := hisolated.isSome
      cases c with
      | element tag children close => rfl
      | _ => cases hsome
    rw [if_pos hadmits] at hstep
    have halike := hedits hadmits none
    -- the pass below is one more visit, which goes deep enough for the child as it is
    -- now
    have hheight : c₁.height ≤ Node.heightOf children := by
      rw [height_of_grown (halike.mono marked_le_grown)]
      exact Node.height_le_of_mem (List.mem_of_getElem? hc)
    rw [visitWithin_eq hsettles hheight le_rfl] at hstep
    obtain ⟨hfailure, hvalue⟩ := ih (hisolated.of_edits halike) hstep.1 hm₁
    exact ⟨hfailure, Node.at?_cons_of hstep.2 hvalue⟩

/-! ## §4. Texts. -/

/-- A named template is guarded if no element around it inherits. -/
theorem guarded_of_line {place : List Nat} {n m : Node} {above : List Node}
    (hline : n.line? place = some (m :: above)) (hm : isNamed m = true)
    (hfree : ∀ e ∈ above, inherits e = false) : Guarded place n := by
  induction place generalizing n above with
  | nil =>
    cases hline
    exact hm
  | cons i place ih =>
    obtain ⟨c, below, hc, hbelow, hsplit⟩ := Node.line?_cons hline
    obtain ⟨k, below, rfl⟩ := List.exists_cons_of_ne_nil (Node.ne_nil_of_line? hbelow)
    obtain ⟨rfl, rfl⟩ := List.cons.inj hsplit
    refine ⟨hfree n (by simp), c, hc, ih hbelow ?_⟩
    exact fun e he => hfree e (List.mem_append_left _ he)

/-- A named template is isolated if none of the inheriting elements around it
belongs to a template. -/
theorem isolated_of_line {place : List Nat} {n m : Node} {above : List Node}
    (hline : n.line? place = some (m :: above)) (hm : isNamed m = true)
    (hfree : ∀ e outer, e :: outer <:+ above → inherits e = true →
      (e :: outer).find? isNamed = none) : Isolated place n := by
  induction place generalizing n above with
  | nil =>
    cases hline
    exact hm
  | cons i place ih =>
    have hguarded : isNamed n = true → Guarded (i :: place) n := by
      intro hnamed
      refine guarded_of_line hline hm ?_
      intro e he
      obtain ⟨inner, outer, rfl⟩ := List.append_of_mem he
      cases hinherits : inherits e with
      | false => rfl
      | true =>
        -- the line of that element ends with the named root
        have hnone := hfree e outer ⟨inner, rfl⟩ hinherits
        have hlast := Node.getLast?_of_line? hline
        have hmem : n ∈ e :: outer := by
          refine List.mem_of_getLast? ?_
          rw [← List.cons_append, List.getLast?_append_cons] at hlast
          exact hlast
        have hfind := List.find?_eq_none.1 hnone n hmem
        exact absurd hnamed hfind
    obtain ⟨c, below, hc, hbelow, hsplit⟩ := Node.line?_cons hline
    obtain ⟨k, below, rfl⟩ := List.exists_cons_of_ne_nil (Node.ne_nil_of_line? hbelow)
    obtain ⟨rfl, rfl⟩ := List.cons.inj hsplit
    refine ⟨hguarded, c, hc, ih hbelow ?_⟩
    rintro e outer ⟨inner, rfl⟩ hinherits
    have hnone := hfree e (outer ++ [n]) ⟨inner, by simp⟩ hinherits
    rw [← List.cons_append, List.find?_append, Option.or_eq_none_iff] at hnone
    exact hnone.1

/-- Whether a node is a named template does not depend on where it stands. -/
theorem isNamed_unplaced (n : Node) : isNamed n.unplaced = isNamed n := by
  have hkeeps : ∀ t u : Tag, t.Alike grown u → isTemplate u = isTemplate t :=
    fun _ _ htu => isTemplate_of_grown htu
  exact admitted_of_grows hkeeps n _ ⟨none, alike_unplaced none n⟩

theorem alike_visitAll_qualifyNamed (vars : CorpusVars) (n : Node) :
    n.Alike Likeness.edited none (Node.visitAll (qualifyNamed vars) n).value :=
  ((settling_visitAll (settling_qualifyNamed vars)).edits n none).mono marked_le_edited

/-- A text that is one template. -/
theorem qualifyText_of_template {vars : CorpusVars} {content : Text} {f : Form} {m : Node}
    (hderives : Derives content [f]) (hnamed : isNamed (f.node .origin) = true)
    (hm : result (Node.visitAll (qualifyNamed vars) (f.node .origin)) = some m) :
    (qualifyText vars content).outcome = .ok (f.respell m).write := by
  obtain ⟨hfailure, rfl⟩ := result_eq_some_iff.1 hm
  have hnodes : Form.nodes .origin [f] = [f.node .origin] := by rw [Form.nodes, Form.nodes]
  have hparse : Document.parse ⟨content, defaultUrl⟩ =
      .ok ⟨⟨content, defaultUrl⟩, [f.node .origin]⟩ := by
    rw [← hnodes]
    exact document_of_derives hderives
  have hqualify : qualifyDocument vars ⟨⟨content, defaultUrl⟩, [f.node .origin]⟩ =
      Document.editRoots (Node.visitAll (qualifyNamed vars))
        ⟨⟨content, defaultUrl⟩, [f.node .origin]⟩ :=
    if_pos (hasNamed_of_isNamed (i := 0) rfl
      (show (f.node .origin).at? [] = some (f.node .origin) from rfl) hnamed)
  -- the document has one root, so the pass over the roots is the visit of it
  have hroots := each_cons [] hfailure
  refine editText_eq_ok_iff.2 ⟨_, hparse, ?_, ?_⟩
  · rw [hqualify]
    exact hroots.1
  · have halike : Node.AlikeAll Likeness.edited none (Form.nodes .origin [f])
        [(Node.visitAll (qualifyNamed vars) (f.node .origin)).value] := by
      rw [hnodes]
      exact ⟨_, [], rfl, alike_visitAll_qualifyNamed vars (f.node .origin), rfl⟩
    have hwritten := (derives_respellAll hderives halike).1
    have hsingle : ∀ m, Form.respellAll [f] [m] = [f.respell m] := fun m => rfl
    rw [hsingle, Form.writeAll, Form.writeAll, List.append_nil] at hwritten
    rw [hqualify, hwritten]
    show Replacement.splice 0 content (Replacement.ofNodes (Draft.each _ [f.node .origin]).value) = _
    rw [hroots.2]
    rfl

/-- **A template on its own.**  The text of a named template of a document is
qualified, as a part of it, to what it is qualified to on its own, if no
element around the template that belongs to a template inherits. -/
theorem qualifyText_isolated {vars : CorpusVars} {content out : Text} {d : Document}
    {forms : List Form} {place : List Nat} {f : Form} {n : Node} {above : List Node}
    (h : (qualifyText vars content).outcome = .ok out)
    (hparse : Document.parse ⟨content, defaultUrl⟩ = .ok d) (hforms : Derives content forms)
    (hf : Form.part? forms place = some f) (hline : d.line? place = some (n :: above))
    (hnamed : isNamed n = true)
    (hfree : ∀ e outer, e :: outer <:+ above → inherits e = true → owner? d (e :: outer) = none) :
    ∃ forms' f', Derives out forms' ∧ Form.part? forms' place = some f' ∧
      (qualifyText vars f.write).outcome = .ok f'.write := by
  obtain ⟨d', hparse', hfailure, rfl⟩ := editText_eq_ok_iff.1 h
  obtain rfl : d = d' := Except.ok.inj (hparse.symm.trans hparse')
  have hd : d = ⟨⟨content, defaultUrl⟩, Form.nodes .origin forms⟩ :=
    Except.ok.inj (hparse.symm.trans (document_of_derives hforms))
  have hnodes : d.nodes = Form.nodes .origin forms := by rw [hd]
  cases place with
  | nil => cases hf
  | cons i place =>
    -- the template in the derivation and in the document
    obtain ⟨root, hroot, hbelow⟩ := Option.bind_eq_some_iff.1 hf
    obtain ⟨there, hnode⟩ := Form.nodes_getElem? .origin hroot
    rw [← hnodes] at hnode
    obtain ⟨there', hat⟩ := Form.node_at? there hbelow
    obtain ⟨root', hroot', hline⟩ := Option.bind_eq_some_iff.1 hline
    obtain rfl := Option.some.inj (hnode.symm.trans hroot')
    obtain rfl := Option.some.inj (hat.symm.trans (Node.at?_of_line? hline))
    have hhas := hasNamed_of_isNamed hnode hat hnamed
    have hisolated : Isolated place (root.node there) := by
      refine isolated_of_line hline hnamed ?_
      intro e outer hsuffix hinherits
      have howner := hfree e outer hsuffix hinherits
      rwa [owner?, if_pos hhas] at howner
    -- what becomes of it in the document
    have hqualify : qualifyDocument vars d = d.editRoots (Node.visitAll (qualifyNamed vars)) :=
      if_pos hhas
    rw [hqualify] at hfailure
    obtain ⟨hrootFailure, hrootValue⟩ := each_getElem? hfailure hnode
    obtain ⟨hpartFailure, hpartValue⟩ := visitAll_qualifyNamed_at? hisolated hrootFailure hat
    -- what becomes of it on its own
    have hignores := ignoresPlaces_visitAll_qualifyNamed vars
    have hboth := (hignores (f.node there')).symm.trans
      ((congrArg (fun n => result (Node.visitAll (qualifyNamed vars) n))
        (Form.unplaced_node there' .origin f)).trans (hignores (f.node .origin)))
    rw [result_eq_some_iff.2 ⟨hpartFailure, rfl⟩, Option.map_some] at hboth
    obtain ⟨m, hm, hsame⟩ := Option.map_eq_some_iff.1 hboth.symm
    have hnamed' : isNamed (f.node .origin) = true := by
      rw [← isNamed_unplaced, Form.unplaced_node .origin there', isNamed_unplaced]
      exact hnamed
    have halone := qualifyText_of_template (derives_of_part hforms hf) hnamed' hm
    refine ⟨Form.respellAll forms (qualifyDocument vars d).value.nodes, _, ?_,
      Option.bind_eq_some_iff.2 ⟨_, Form.respellAll_getElem? hroot ?_,
        Form.respell_at? hbelow hpartValue⟩, ?_⟩
    · obtain ⟨hsource, hmarked⟩ := alike_qualifyDocument vars d
      rw [Document.render, hsource, hd]
      rw [hd] at hmarked
      exact derives_respellAll hforms (hmarked.mono marked_le_edited)
    · rw [hqualify]
      exact hrootValue
    · rw [halone, ← Form.respell_unplaced f m, hsame, Form.respell_unplaced]

/-- An attribute written without blanks around its sign and without references. -/
def plainAttribute (name value : String) : AttributeForm :=
  ⟨[' '], name.toList, [], [], '"', Spelling.plain value.toList⟩

/-- Such an attribute keeps the rules if neither a reference nor its quote is in
the value. -/
theorem valid_plainAttribute {name value : String} (hname : IsName name.toList)
    (hvalue : ∀ c ∈ value.toList, c ≠ '&' ∧ stopsValue '"' c = false) :
    (plainAttribute name value).Valid := by
  have hlead : IsBlank [' '] := by unfold IsBlank; decide
  refine ⟨hlead, hname, by simp [plainAttribute, IsBlank], by simp [plainAttribute, IsBlank],
    Or.inl rfl, ?_⟩
  intro g hg
  obtain ⟨c, hc, rfl⟩ := List.mem_map.1 hg
  exact hvalue c hc

/-- The derivation of a template in a template, the inner one being the part
that is compiled by itself. -/
def nestedForms : List Form :=
  [.element ⟨['t'], [plainAttribute "t-name" "a"], []⟩
    [.empty ⟨['b'], [plainAttribute "t-name" "c", plainAttribute "t-if" "x"], []⟩] []]

/-- The derivation is that of the text. -/
theorem derives_nestedForms : Derives
    "<t t-name=\"a\"><b t-name=\"c\" t-if=\"x\"/></t>".toList nestedForms := by
  have hletter : ∀ c, isNameStart c = true → IsName [c] := fun c hc => ⟨c, [], rfl, hc, by simp⟩
  have hname : IsName "t-name".toList := ⟨'t', "-name".toList, by decide, by decide, by decide⟩
  have hif : IsName "t-if".toList := ⟨'t', "-if".toList, by decide, by decide, by decide⟩
  refine ⟨by decide, ⟨⟨hletter 't' (by decide), stopsAt_cons (by decide), ?_, by simp [IsBlank]⟩,
    by decide, by simp [IsBlank], ⟨⟨hletter 'b' (by decide), stopsAt_cons (by decide), ?_,
      by simp [IsBlank]⟩, by decide⟩, trivial⟩, trivial⟩
  · exact List.forall_mem_singleton.2 (valid_plainAttribute hname (by decide))
  · exact List.forall_mem_cons.2 ⟨valid_plainAttribute hname (by decide),
      List.forall_mem_singleton.2 (valid_plainAttribute hif (by decide))⟩

/-- A template in a template. -/
theorem qualifyText_isolated_sample :
    ∃ forms' f', Derives "<t t-name=\"a\"><b t-name=\"c\" t-if=\"this.x\"/></t>".toList forms' ∧
      Form.part? forms' [0, 0] = some f' ∧
      (qualifyText {} "<b t-name=\"c\" t-if=\"x\"/>".toList).outcome = .ok f'.write := by
  have hqualified : (qualifyText {}
      "<t t-name=\"a\"><b t-name=\"c\" t-if=\"x\"/></t>".toList).outcome =
      .ok "<t t-name=\"a\"><b t-name=\"c\" t-if=\"this.x\"/></t>".toList := by decide +kernel
  have hline : Document.line? ⟨⟨"<t t-name=\"a\"><b t-name=\"c\" t-if=\"x\"/></t>".toList, defaultUrl⟩,
      Form.nodes .origin nestedForms⟩ [0, 0] = some (_ :: [_]) := rfl
  have hpart : Form.part? nestedForms [0, 0] = some _ := rfl
  have hwrite : ∀ f, Form.part? nestedForms [0, 0] = some f →
      f.write = "<b t-name=\"c\" t-if=\"x\"/>".toList := by
    rintro f ⟨⟩
    decide
  obtain ⟨forms', f', hderives, hpart', hout⟩ := qualifyText_isolated hqualified
    (document_of_derives derives_nestedForms) derives_nestedForms hpart hline (by decide) (by
      -- the only element above the part inherits nothing
      intro e outer hsuffix hinherits
      obtain ⟨rfl, -⟩ : e = _ ∧ outer = [] := by simpa using List.suffix_cons_iff.1 hsuffix
      exact absurd hinherits (by decide))
  rw [hwrite _ hpart] at hout
  exact ⟨forms', f', hderives, hpart', hout⟩

/-- A patch that is a template, `value` being what its selector looks for.  By
itself and nested it comes out differently. -/
def nestedPatch (value : String) : Text :=
  "<t t-name='c' t-inherit='d'><xpath expr=\"//t[@t-if='".toList ++ value.toList ++
    "']\"/></t>".toList

/-- The variables of two templates; the second binds `x`. -/
def leakVars : CorpusVars :=
  { inside := (VarMap.put ∅ "b".toList ∅).put "d".toList (NameSet.ofList ["x".toList]) }

/-- A patch below another one is qualified for both: its selector comes out
differently than on its own. -/
theorem qualifyText_leaks :
    (qualifyText leakVars
      ("<t t-name='a' t-inherit='b'>".toList ++ nestedPatch "x" ++ "</t>".toList)).outcome =
        .ok ("<t t-name='a' t-inherit='b'>".toList ++ nestedPatch "this.x" ++ "</t>".toList) ∧
      (qualifyText leakVars (nestedPatch "x")).outcome = .ok (nestedPatch "x") ∧
      nestedPatch "this.x" ≠ nestedPatch "x" := by
  refine ⟨?_, ?_, ?_⟩ <;> decide +kernel

end QwebReceiver.Template
