import QwebReceiver.Proofs.Markup.Place
import QwebReceiver.Proofs.Template.Qualify

/-!
  QwebReceiver.Proofs.Template.Place — what an edit does at a place.

  An edit of an element may change anything below it, and a walk makes one such
  edit after the other; `Acts f E` says what becomes of the node at each place,
  and says it of the tree as it was before.  That is possible because edits
  keep what decides about other edits (`Acts.lasts`).

  Main results:

    * `Acts.andThen` — one edit after the other;
    * `Acts.visit` — a walk does at a place what its edit does there from each
      element on the way, outermost first.
-/

namespace QwebReceiver.Template

open QwebReceiver.Markup

variable {ε : Type}

/-! ## §1. Trees that compare. -/

section Alike

variable {L : Likeness} {first : Option Text} {n m c : Node}

/-- Where an element stands does not matter. -/
theorem alike_of_isSome (h : n.Alike L first m) (hn : n.tag?.isSome = true)
    (first' : Option Text) : n.Alike L first' m := by
  cases n with
  | element tag children close => exact h
  | _ => cases hn

/-- Trees that compare do so child by child. -/
theorem exists_child_of_alike (h : n.Alike L first m) {i : Nat} (hc : n.children[i]? = some c) :
    ∃ c', m.children[i]? = some c' ∧ ∃ first', c.Alike L first' c' := by
  obtain ⟨tag, children, close, rfl⟩ := Node.exists_element_of_children hc
  obtain ⟨tag', children', close', rfl, -, hchildren, -⟩ := h
  obtain ⟨c', hc', halike⟩ := hchildren.getElem? hc
  exact ⟨c', hc', _, halike⟩

/-- Trees side by side that compare are as many. -/
theorem length_of_alikeAll {ns ms : List Node} (h : Node.AlikeAll L first ns ms) :
    ms.length = ns.length := by
  induction ns generalizing first ms with
  | nil =>
    obtain rfl : ms = [] := h
    rfl
  | cons n ns ih =>
    obtain ⟨k, ms', rfl, -, hms⟩ := h
    rw [List.length_cons, List.length_cons, ih hms]

/-- Each of the second trees compares to the one with its number. -/
theorem exists_getElem?_of_alikeAll {ns ms : List Node} (h : Node.AlikeAll L first ns ms) {i : Nat}
    (hc : ms[i]? = some c) : ∃ c', ns[i]? = some c' ∧ ∃ first', c'.Alike L first' c := by
  have hi : i < ns.length := by
    rw [← length_of_alikeAll h]
    exact (List.getElem?_eq_some_iff.1 hc).1
  obtain ⟨c', hc', halike⟩ := h.getElem? (List.getElem?_eq_getElem hi)
  obtain rfl : c' = c := Option.some.inj (hc'.symm.trans hc)
  exact ⟨_, List.getElem?_eq_getElem hi, _, halike⟩

/-- Each child in the second tree compares to one in the first. -/
theorem exists_child_of_alike' (h : n.Alike L first m) {i : Nat} (hc : m.children[i]? = some c) :
    ∃ c', n.children[i]? = some c' ∧ ∃ first', c'.Alike L first' c := by
  obtain ⟨tag', children', close', rfl⟩ := Node.exists_element_of_children hc
  cases n with
  | element tag children close =>
    obtain ⟨_, _, _, heq, -, hchildren, -⟩ := h
    cases heq
    exact exists_getElem?_of_alikeAll hchildren hc
  | _ =>
    obtain ⟨_, heq, -⟩ := h
    cases heq

/-- Trees that compare have the same places. -/
theorem exists_at?_of_alike {place : List Nat} {m' n' : Node} (h : n.Alike L first n')
    (hm : n'.at? place = some m') :
    ∃ m first', n.at? place = some m ∧ m.Alike L first' m' := by
  induction place generalizing n n' first with
  | nil =>
    obtain rfl : n' = m' := Option.some.inj hm
    exact ⟨n, first, rfl, h⟩
  | cons i place ih =>
    obtain ⟨c', hc', hm⟩ := Node.at?_cons hm
    obtain ⟨c, hc, first', hcc'⟩ := exists_child_of_alike' h hc'
    obtain ⟨m, first'', hm, hmm'⟩ := ih hcc' hm
    exact ⟨m, first'', Node.at?_cons_of hc hm, hmm'⟩

end Alike

/-- Whether a walk goes on with a node.  It never does with a node that is no
element. -/
def admits (enter : Tag → Bool) (n : Node) : Bool := (n.tag?.map enter).getD false

/-- A walk goes on with elements only. -/
theorem isSome_of_admits {enter : Tag → Bool} {n : Node} (h : admits enter n = true) :
    n.tag?.isSome = true := by
  cases n with
  | element tag children close => rfl
  | _ => cases h

/-! ## §2. Effects. -/

/-- What becomes of the nodes at the places below an element: the element, the
place, and the node there, without what is below it, before and after. -/
abbrev Effect := Node → List Nat → Node → Node → Prop

namespace Effect

/-- Nothing changes. -/
def same : Effect := fun _ _ x y => y = x

/-- One change after the other, both described by the node as it was before
them. -/
def comp (E F : Effect) : Effect := fun n place x z => ∃ y, E n place x y ∧ F n place y z

/-- A change chosen by a key of the edited node, and none without a key.  The
key must not depend on what passes change. -/
def chosen {κ : Type} (key : Node → Option κ) (E : κ → Effect) : Effect := fun n place x y =>
  match key n with
  | none => y = x
  | some k => E k n place x y

/-- What a walk changes: at each place what is changed from the elements on
the way to it, outermost first. -/
def walk (enter : Tag → Bool) (E : Effect) : Node → List Nat → Node → Node → Prop
  | n, [], x, z => E n [] x z
  | n, i :: place, x, z => ∃ y, E n (i :: place) x y ∧ ∀ c, n.children[i]? = some c →
      if admits enter c = true then walk enter E c place y z else z = y

end Effect

/-- The edit has this effect if it goes through, and the effect is that on the
tree as it was before others have edited it. -/
structure Acts (f : Node → Draft ε Node) (E : Effect) : Prop where
  acts : ∀ n, (f n).failure = none → ∀ place m, n.at? place = some m →
    ∃ m', (f n).value.at? place = some m' ∧ E n place m.top m'.top
  lasts : ∀ n n', nodeGrowth.edits n n' → ∀ place x y, E n' place x y → E n place x y

section Acts

variable {f g : Node → Draft ε Node} {E F : Effect} {enter : Tag → Bool}

theorem acts_done : Acts (Draft.done : Node → Draft ε Node) Effect.same where
  acts _ _ _ m hm := ⟨m, hm, rfl⟩
  lasts _ _ _ _ _ _ h := h

/-- An effect may be stated more weakly, if what is stated lasts under the edits
of others. -/
theorem Acts.mono (hf : Acts f E) (h : ∀ n place x y, E n place x y → F n place x y)
    (hlasts : ∀ n n', nodeGrowth.edits n n' → ∀ place x y, F n' place x y → F n place x y) :
    Acts f F where
  acts n hn place m hm := by
    obtain ⟨m', hm', hE⟩ := hf.acts n hn place m hm
    exact ⟨m', hm', h _ _ _ _ hE⟩
  lasts := hlasts

/-- One edit after the other. -/
theorem Acts.andThen (hf : Acts f E) (hs : Settling nodeGrowth f) (hg : Acts g F) :
    Acts (fun n => (f n).andThen g) (E.comp F) where
  acts n h place m hm := by
    have hnone := failure_of_andThen h
    rw [failure_andThen hnone] at h
    rw [value_andThen hnone]
    obtain ⟨m₁, hm₁, hE⟩ := hf.acts n hnone place m hm
    obtain ⟨m₂, hm₂, hF⟩ := hg.acts _ h place m₁ hm₁
    -- the second edit meets what the first has made of the tree
    exact ⟨m₂, hm₂, _, hE, hg.lasts _ _ (hs.edits n) _ _ _ hF⟩
  lasts n n' hn place x z := by
    rintro ⟨y, hE, hF⟩
    exact ⟨y, hf.lasts _ _ hn _ _ _ hE, hg.lasts _ _ hn _ _ _ hF⟩

/-- An edit that is made where a key is found, chosen by that key, which does
not change. -/
theorem Acts.of_option {κ : Type} {key : Node → Option κ} {edit : κ → Node → Draft ε Node}
    {E : κ → Effect} (hedit : ∀ k, Acts (edit k) (E k))
    (hkey : ∀ n n', nodeGrowth.edits n n' → key n' = key n)
    (hnone : ∀ n, key n = none → Stays f n)
    (hsome : ∀ n k, key n = some k →
      (f n).failure = (edit k n).failure ∧ (f n).value = (edit k n).value) :
    Acts f (Effect.chosen key E) where
  acts n h place m hm := by
    unfold Effect.chosen
    cases hk : key n with
    | none =>
      rw [(hnone n hk).value]
      exact ⟨m, hm, rfl⟩
    | some k =>
      obtain ⟨hfailure, hvalue⟩ := hsome n k hk
      rw [hvalue]
      exact (hedit k).acts n (hfailure ▸ h) place m hm
  lasts n n' hn place x y h := by
    unfold Effect.chosen at h ⊢
    rw [hkey n n' hn] at h
    cases hk : key n with
    | none =>
      rw [hk] at h
      exact h
    | some k =>
      rw [hk] at h
      exact (hedit k).lasts _ _ hn _ _ _ h

/-! ## §3. Walks. -/

/-- Edits that agree on the members of a list edit the list alike. -/
theorem each_congr {α : Type} {f g : α → Draft ε α} {as : List α} (h : ∀ a ∈ as, f a = g a) :
    Draft.each f as = Draft.each g as := by
  induction as with
  | nil => rfl
  | cons a as ih =>
    obtain ⟨ha, has⟩ := List.forall_mem_cons.1 h
    rw [Draft.each, Draft.each, ha, ih has]

/-- Edits that agree on the children of an element edit it alike. -/
theorem editChildren_congr {n : Node} (h : ∀ c ∈ n.children, f c = g c) :
    editChildren f n = editChildren g n := by
  cases n with
  | element tag children close =>
    have hchildren : Draft.each f children = Draft.each g children := each_congr h
    rw [editChildren, editChildren, hchildren]
  | _ => rfl

/-- Walks with edits that agree wherever a property holds that edits keep. -/
theorem visitWithin_congr {P : Node → Prop} (hs : Settling nodeGrowth f)
    (hedits : ∀ n m, P n → nodeGrowth.edits n m → P m) (hchild : ∀ n, P n → ∀ c ∈ n.children, P c)
    (hfg : ∀ n, P n → f n = g n) {n : Node} (hn : P n) (depth : Nat) :
    Node.visitWithin enter f depth n = Node.visitWithin enter g depth n := by
  induction depth generalizing n with
  | zero => rw [visitWithin_zero, visitWithin_zero]
  | succ depth ih =>
    rw [visitWithin_succ, visitWithin_succ, ← hfg n hn]
    have hbelow := hchild _ (hedits n _ hn (hs.edits n))
    unfold Draft.andThen
    cases (f n).failure with
    | some e => rfl
    | none =>
      simp only
      rw [editChildren_congr fun c hc => by rw [ih (hbelow c hc)]]

/-- A list whose edit went through has its members edited. -/
theorem each_getElem? {α : Type} {f : α → Draft ε α} {as : List α}
    (h : (Draft.each f as).failure = none) {i : Nat} {a : α} (ha : as[i]? = some a) :
    (f a).failure = none ∧ (Draft.each f as).value[i]? = some (f a).value := by
  induction as generalizing i with
  | nil => simp at ha
  | cons b rest ih =>
    obtain ⟨hb, hrest⟩ := failure_of_each_cons h
    rw [(each_cons rest hb).2]
    cases i with
    | zero =>
      obtain rfl : b = a := by simpa using ha
      exact ⟨hb, rfl⟩
    | succ i => exact ih hrest (by simpa using ha)

/-- An element whose children were edited has them edited each in its place. -/
theorem editChildren_getElem? {n c : Node} {i : Nat} (h : (editChildren f n).failure = none)
    (hc : n.children[i]? = some c) :
    (f c).failure = none ∧ (editChildren f n).value.children[i]? = some (f c).value := by
  obtain ⟨tag, children, close, rfl⟩ := Node.exists_element_of_children hc
  exact each_getElem? h hc

/-- Edits of what is below an element leave its own tag alone. -/
theorem top_editChildren (n : Node) : (editChildren f n).value.top = n.top := by
  cases n <;> rfl

/-- A walk does nothing to a node that is no element. -/
theorem acts_other (hf : Acts f E) (hother : ∀ n, n.tag? = none → Stays f n) {n m : Node}
    (hn : n.tag? = none) {place : List Nat} (hm : n.at? place = some m) :
    ∃ m', (Draft.done n : Draft ε Node).value.at? place = some m' ∧
      E.walk enter n place m.top m'.top := by
  cases place with
  | nil =>
    cases hm
    obtain ⟨m', hm', hE⟩ := hf.acts n (hother n hn).failure [] n rfl
    rw [(hother n hn).value] at hm'
    exact ⟨m', hm', hE⟩
  | cons i place =>
    obtain ⟨c, hc, -⟩ := Node.at?_cons hm
    obtain ⟨tag, children, close, rfl⟩ := Node.exists_element_of_children hc
    cases hn

section Enter

variable (henter : ∀ t u : Tag, t.Alike grown u → enter u = enter t)
include henter

/-- A walk goes on with an edited node as it does with the node. -/
theorem admits_of_edits {first : Option Text} {n m : Node} (h : n.Alike marked first m) :
    admits enter m = admits enter n :=
  admitted_of_grows henter n m ⟨first, h.mono marked_le_grown⟩

/-- What a walk does to an edited tree it does to the tree before, if this holds
of what it does at each element. -/
theorem Effect.walk_lasts (hE : ∀ n n', nodeGrowth.edits n n' → ∀ place x y,
    E n' place x y → E n place x y) {n n' : Node} (hn : nodeGrowth.edits n n') {place : List Nat}
    {x z : Node} (h : E.walk enter n' place x z) : E.walk enter n place x z := by
  induction place generalizing n n' x with
  | nil => exact hE _ _ hn _ _ _ h
  | cons i place ih =>
    obtain ⟨y, hy, hrest⟩ := h
    refine ⟨y, hE _ _ hn _ _ _ hy, ?_⟩
    intro c hc
    -- the child has grown too, and whether it is entered has not changed
    obtain ⟨c', hc', first, halike⟩ := exists_child_of_alike (hn none) hc
    have hbelow := hrest c' hc'
    rw [admits_of_edits henter halike] at hbelow
    by_cases hadmits : admits enter c = true
    · rw [if_pos hadmits] at hbelow ⊢
      exact ih (fun first' => alike_of_isSome halike (isSome_of_admits hadmits) first') hbelow
    · rw [if_neg hadmits] at hbelow ⊢
      exact hbelow

/-- One step of a walk at a place below its element. -/
theorem exists_step_of_visitWithin (hs : Settling nodeGrowth f) {depth i : Nat} {n c : Node}
    (h : (Node.visitWithin enter f (depth + 1) n).failure = none)
    (hc : n.children[i]? = some c) :
    (f n).failure = none ∧ ∃ c₁, (f n).value.children[i]? = some c₁ ∧
      admits enter c₁ = admits enter c ∧
      (admits enter c = true → nodeGrowth.edits c c₁) ∧
      if admits enter c = true then
        (Node.visitWithin enter f depth c₁).failure = none ∧
          (Node.visitWithin enter f (depth + 1) n).value.children[i]? =
            some (Node.visitWithin enter f depth c₁).value
      else (Node.visitWithin enter f (depth + 1) n).value.children[i]? = some c₁ := by
  have hsome : n.tag?.isSome = true := by
    obtain ⟨tag, children, close, rfl⟩ := Node.exists_element_of_children hc
    rfl
  rw [visitWithin_succ, if_pos hsome] at h ⊢
  have hnone := failure_of_andThen h
  rw [failure_andThen hnone] at h
  rw [value_andThen hnone]
  -- the edit of the node comes first, and the child it leaves is the one that is
  -- visited
  obtain ⟨c₁, hc₁, first, halike⟩ := exists_child_of_alike (hs.edits n none) hc
  have hsame := admits_of_edits henter halike
  have hbelow := editChildren_getElem? h hc₁
  refine ⟨hnone, c₁, hc₁, hsame, fun hadmits first' =>
    alike_of_isSome halike (isSome_of_admits hadmits) first', ?_⟩
  by_cases hadmits : admits enter c = true
  · have hc₁admits : ((c₁.tag?.map enter).getD false) = true := hsame.trans hadmits
    rw [if_pos hadmits]
    simp only [hc₁admits, if_true] at hbelow
    exact hbelow
  · have hc₁admits : ¬ ((c₁.tag?.map enter).getD false) = true := by
      intro h'
      exact hadmits (hsame.symm.trans h')
    rw [if_neg hadmits]
    simp only [hc₁admits] at hbelow
    exact hbelow.2

/-- A walk that is allowed to go deep enough does at a place what its edit does
there, from each element on the way.  The induction is on the depth: one step
edits the element, and the rest of the walk is that below a child. -/
theorem acts_visitWithin (hf : Acts f E) (hs : Settling nodeGrowth f)
    (hother : ∀ n, n.tag? = none → Stays f n) {depth : Nat} {n : Node}
    (hdepth : n.height ≤ depth) (h : (Node.visitWithin enter f depth n).failure = none)
    {place : List Nat} {m : Node} (hm : n.at? place = some m) :
    ∃ m', (Node.visitWithin enter f depth n).value.at? place = some m' ∧
      E.walk enter n place m.top m'.top := by
  induction depth generalizing n m place with
  | zero =>
    -- nothing is nested here, so there is no element
    have hnil : n.tag? = none := by
      cases n with
      | element tag children close => simp [Node.height] at hdepth
      | _ => rfl
    rw [visitWithin_zero]
    exact acts_other hf hother hnil hm
  | succ depth ih =>
    by_cases hsome : n.tag?.isSome = true
    case neg =>
      rw [visitWithin_succ, if_neg hsome]
      exact acts_other hf hother (by simpa using hsome) hm
    cases place with
    | nil =>
      obtain rfl : n = m := Option.some.inj hm
      rw [visitWithin_succ, if_pos hsome] at h ⊢
      have hnone := failure_of_andThen h
      rw [value_andThen hnone]
      obtain ⟨m', hm', hE⟩ := hf.acts n hnone [] n rfl
      cases hm'
      refine ⟨_, rfl, ?_⟩
      rw [top_editChildren]
      exact hE
    | cons i place =>
      obtain ⟨c, hc, hm⟩ := Node.at?_cons hm
      obtain ⟨hnone, c₁, hc₁, hsame, hedits, hstep⟩ :=
        exists_step_of_visitWithin henter hs h hc
      obtain ⟨m₁, hm₁, hE⟩ := hf.acts n hnone (i :: place) m (Node.at?_cons_of hc hm)
      obtain ⟨c₁', hc₁', hm₁⟩ := Node.at?_cons hm₁
      obtain rfl : c₁ = c₁' := Option.some.inj (hc₁.symm.trans hc₁')
      by_cases hadmits : admits enter c = true
      · rw [if_pos hadmits] at hstep
        have hheight : c₁.height ≤ depth := by
          have hlt := Node.height_lt_of_child hc
          rw [height_of_grown ((hedits hadmits none).mono marked_le_grown)]
          omega
        obtain ⟨m₂, hm₂, hwalk⟩ := ih hheight hstep.1 hm₁
        refine ⟨m₂, Node.at?_cons_of hstep.2 hm₂, _, hE, ?_⟩
        intro c' hc'
        obtain rfl := Option.some.inj (hc'.symm.trans hc)
        rw [if_pos hadmits]
        exact Effect.walk_lasts henter hf.lasts (hedits hadmits) hwalk
      · rw [if_neg hadmits] at hstep
        refine ⟨m₁, Node.at?_cons_of hstep hm₁, _, hE, ?_⟩
        intro c' hc'
        obtain rfl := Option.some.inj (hc'.symm.trans hc)
        rw [if_neg hadmits]

/-- A walk does at a place what its edit does there from each element on the
way. -/
theorem Acts.visit (hf : Acts f E) (hs : Settling nodeGrowth f)
    (hother : ∀ n, n.tag? = none → Stays f n) :
    Acts (Node.visit enter f) (E.walk enter) where
  acts _ h _ _ hm := acts_visitWithin henter hf hs hother le_rfl h hm
  lasts _ _ hn _ _ _ := Effect.walk_lasts henter hf.lasts hn

end Enter

end Acts

end QwebReceiver.Template
