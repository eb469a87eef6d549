import QwebReceiver.Proofs.Markup.Place
import QwebReceiver.Proofs.Markup.RoundTrip

/-!
  QwebReceiver.Proofs.Markup.Subtree — a part of a document on its own.

  The text of a form of a derivation is a text that this form derives
  (`derives_of_part`).  What it is read as differs from the part of the whole
  in places only (`unplaced_node`), and writing values into a derivation does
  not look at places (`respell_unplaced`).
-/

namespace QwebReceiver.Markup

open QwebReceiver.Text

/-! ## §1. Parts of a derivation. -/

namespace Form

/-- The forms right below a form. -/
def children : Form → List Form
  | .element _ children _ => children
  | _ => []

/-- The form at a place below a form, by the same indices as the nodes that it
stands for. -/
def at? : List Nat → Form → Option Form
  | [], f => some f
  | i :: place, f => f.children[i]?.bind (at? place)

/-- The form at a place of a derivation.  The first index says which of the
forms side by side it is below. -/
def part? (forms : List Form) : List Nat → Option Form
  | [] => none
  | i :: place => forms[i]?.bind (at? place)

theorem at?_cons {i : Nat} {place : List Nat} {f g : Form} (h : f.at? (i :: place) = some g) :
    ∃ c, f.children[i]? = some c ∧ c.at? place = some g :=
  Option.bind_eq_some_iff.1 h

/-- Only an element has children. -/
theorem exists_element_of_children {f c : Form} {i : Nat} (h : f.children[i]? = some c) :
    ∃ tag children gap, f = .element tag children gap := by
  cases f with
  | element tag children gap => exact ⟨tag, children, gap, rfl⟩
  | _ => simp [children] at h

/-- The node with a number is that of the form with this number, wherever that
form has come to stand. -/
theorem nodes_getElem? (here : Location) {fs : List Form} {i : Nat} {f : Form}
    (h : fs[i]? = some f) : ∃ there, (nodes here fs)[i]? = some (f.node there) := by
  induction fs generalizing here i with
  | nil => simp at h
  | cons g fs ih =>
    cases i with
    | zero =>
      obtain rfl : g = f := by simpa using h
      exact ⟨here, rfl⟩
    | succ i => exact ih (here.after g.write) (by simpa using h)

/-- The node at a place is that of the form at the place. -/
theorem node_at? (here : Location) {place : List Nat} {f g : Form} (h : f.at? place = some g) :
    ∃ there, (f.node here).at? place = some (g.node there) := by
  induction place generalizing f here with
  | nil =>
    obtain rfl : f = g := Option.some.inj h
    exact ⟨here, rfl⟩
  | cons i place ih =>
    obtain ⟨c, hc, hbelow⟩ := at?_cons h
    obtain ⟨tag, children, gap, rfl⟩ := exists_element_of_children hc
    obtain ⟨there, hnode⟩ := nodes_getElem? (here.after (tag.write ++ tagEndMark)) hc
    obtain ⟨there', hat⟩ := ih there hbelow
    exact ⟨there', Node.at?_cons_of hnode hat⟩

/-- Forms side by side are respelled one by one. -/
theorem respellAll_getElem? {fs : List Form} {ns : List Node} {i : Nat} {f : Form} {n : Node}
    (hf : fs[i]? = some f) (hn : ns[i]? = some n) : (respellAll fs ns)[i]? = some (f.respell n) := by
  induction fs generalizing ns i with
  | nil => simp at hf
  | cons g fs ih =>
    cases ns with
    | nil => simp at hn
    | cons m ns =>
      cases i with
      | zero =>
        obtain rfl : g = f := by simpa using hf
        obtain rfl : m = n := by simpa using hn
        rfl
      | succ i => exact ih (by simpa using hf) (by simpa using hn)

/-- A derivation is respelled place by place. -/
theorem respell_at? {place : List Nat} {f g : Form} {n m : Node} (hf : f.at? place = some g)
    (hn : n.at? place = some m) : (f.respell n).at? place = some (g.respell m) := by
  induction place generalizing f n with
  | nil =>
    obtain rfl : f = g := Option.some.inj hf
    obtain rfl : n = m := Option.some.inj hn
    rfl
  | cons i place ih =>
    obtain ⟨c, hc, hfbelow⟩ := at?_cons hf
    obtain ⟨k, hk, hnbelow⟩ := Node.at?_cons hn
    obtain ⟨tag, children, gap, rfl⟩ := exists_element_of_children hc
    obtain ⟨tag', nodes, close, rfl⟩ := Node.exists_element_of_children hk
    exact Option.bind_eq_some_iff.2 ⟨c.respell k, respellAll_getElem? hc hk, ih hfbelow hnbelow⟩

/-! The rules of a part. -/

/-- Whether markup comes next is decided by the first character. -/
theorem atMarkup_append {rest rest' : Text} (h : AtMarkup rest → AtMarkup rest') (w : Text) :
    AtMarkup (w ++ rest) → AtMarkup (w ++ rest') := by
  intro hw
  cases w with
  | nil => exact h hw
  | cons c w => exact hw

mutual

/-- What comes after a form matters only if it is a text. -/
theorem valid_of_atMarkup {rest rest' : Text} (hrest : AtMarkup rest → AtMarkup rest') (f : Form)
    (h : f.Valid rest) : f.Valid rest' := by
  cases f with
  | leaf l =>
    cases l with
    | text v => exact ⟨h.1, h.2.1, hrest h.2.2⟩
    | _ => exact h
  | empty tag => exact h
  | element tag children gap =>
    have hclosing : AtMarkup (writeClosing tag.name gap ++ rest) →
        AtMarkup (writeClosing tag.name gap ++ rest') := fun _ => atMarkup_of_lt _
    exact ⟨h.1, h.2.1, h.2.2.1, validAll_of_atMarkup hclosing children h.2.2.2⟩

/-- What comes after forms matters only if the last one is a text. -/
theorem validAll_of_atMarkup {rest rest' : Text} (hrest : AtMarkup rest → AtMarkup rest')
    (fs : List Form) (h : ValidAll rest fs) : ValidAll rest' fs := by
  cases fs with
  | nil => exact trivial
  | cons f fs =>
    exact ⟨valid_of_atMarkup (atMarkup_append hrest (writeAll fs)) f h.1,
      validAll_of_atMarkup hrest fs h.2⟩

end

/-- Each of some forms side by side keeps its rules before some text. -/
theorem exists_valid_of_getElem? {rest : Text} {fs : List Form} (h : ValidAll rest fs) {i : Nat}
    {f : Form} (hf : fs[i]? = some f) : ∃ rest', f.Valid rest' := by
  induction fs generalizing i with
  | nil => simp at hf
  | cons g fs ih =>
    cases i with
    | zero =>
      obtain rfl : g = f := by simpa using hf
      exact ⟨_, h.1⟩
    | succ i => exact ih h.2 (by simpa using hf)

/-- A form below a form keeps its rules before some text. -/
theorem exists_valid_of_at? {place : List Nat} {rest : Text} {f g : Form} (h : f.Valid rest)
    (hg : f.at? place = some g) : ∃ rest', g.Valid rest' := by
  induction place generalizing f rest with
  | nil =>
    obtain rfl : f = g := Option.some.inj hg
    exact ⟨rest, h⟩
  | cons i place ih =>
    obtain ⟨c, hc, hbelow⟩ := at?_cons hg
    obtain ⟨tag, children, gap, rfl⟩ := exists_element_of_children hc
    obtain ⟨rest', hvalid⟩ := exists_valid_of_getElem? h.2.2.2 hc
    exact ih hvalid hbelow

end Form

/-- The text of a part of a derivation is derived by that part. -/
theorem derives_of_part {content : Text} {forms : List Form} (h : Derives content forms)
    {place : List Nat} {f : Form} (hf : Form.part? forms place = some f) : Derives f.write [f] := by
  cases place with
  | nil => cases hf
  | cons i place =>
    obtain ⟨root, hroot, hf⟩ := Option.bind_eq_some_iff.1 hf
    obtain ⟨_, hvalid⟩ := Form.exists_valid_of_getElem? h.2 hroot
    obtain ⟨_, hvalid⟩ := Form.exists_valid_of_at? hvalid hf
    have hend : AtMarkup [] := stopsAt_nil _
    refine ⟨List.append_nil f.write, ?_, trivial⟩
    exact Form.valid_of_atMarkup (fun _ => hend) f hvalid

/-! ## §2. Trees without places. -/

/-- The span of what is nowhere. -/
def nowhere : Span := ⟨.origin, .origin⟩

/-- The attribute without its place. -/
def Attribute.unplaced (a : Attribute) : Attribute :=
  { a with nameSpan := nowhere, valueSpan := nowhere }

/-- The start tag without its place. -/
def Tag.unplaced (t : Tag) : Tag :=
  { t with attributes := t.attributes.map Attribute.unplaced, span := nowhere }

/-- The character data without its place. -/
def CharData.unplaced (d : CharData) : CharData := { d with span := nowhere }

namespace Node

mutual

/-- The node without its place.  Two nodes that differ in nothing else were
written alike at two places. -/
def unplaced : Node → Node
  | .element tag children close =>
    .element tag.unplaced (unplacedAll children) (close.map fun _ => nowhere)
  | .text d => .text d.unplaced
  | .comment v _ => .comment v nowhere
  | .instruction v _ => .instruction v nowhere
  | .doctype v _ => .doctype v nowhere

/-- The nodes without their places. -/
def unplacedAll : List Node → List Node
  | [] => []
  | n :: ns => n.unplaced :: unplacedAll ns

end

/-- The places are taken out of each node by itself. -/
theorem unplacedAll_eq (ns : List Node) : unplacedAll ns = ns.map unplaced := by
  induction ns with
  | nil => rfl
  | cons n ns ih => rw [unplacedAll, ih, List.map_cons]

end Node

/-- What attributes are read as depends on where they stand in their places
only. -/
theorem unplaced_attributesAt (here there : Location) (as : List AttributeForm) :
    (AttributeForm.attributesAt here as).map Attribute.unplaced =
      (AttributeForm.attributesAt there as).map Attribute.unplaced := by
  induction as generalizing here there with
  | nil => rfl
  | cons a as ih =>
    rw [AttributeForm.attributesAt, AttributeForm.attributesAt, List.map_cons, List.map_cons,
      ih (here.after a.write) (there.after a.write)]
    rfl

/-- What a start tag is read as depends on where it stands in its places only. -/
theorem unplaced_toTag (here there : Location) (mark : Text) (t : TagForm) :
    (t.toTag here mark).unplaced = (t.toTag there mark).unplaced := by
  unfold Tag.unplaced TagForm.toTag
  simp only [Tag.mk.injEq, true_and, and_true]
  exact unplaced_attributesAt _ _ t.attributes

namespace Form

mutual

/-- What a form is read as depends on where it stands in its places only. -/
theorem unplaced_node (here there : Location) (f : Form) :
    (f.node here).unplaced = (f.node there).unplaced := by
  cases f with
  | leaf l => cases l <;> rfl
  | empty tag =>
    rw [node, node, Node.unplaced, Node.unplaced, unplaced_toTag here there]
  | element tag children gap =>
    rw [node, node, Node.unplaced, Node.unplaced, unplaced_toTag here there,
      unplaced_nodes (here.after (tag.write ++ tagEndMark)) (there.after (tag.write ++ tagEndMark))]
    rfl

/-- What forms are read as depends on where they stand in their places only. -/
theorem unplaced_nodes (here there : Location) (fs : List Form) :
    Node.unplacedAll (nodes here fs) = Node.unplacedAll (nodes there fs) := by
  cases fs with
  | nil => rfl
  | cons f fs =>
    rw [nodes, nodes, Node.unplacedAll, Node.unplacedAll, unplaced_node here there f,
      unplaced_nodes (here.after f.write) (there.after f.write) fs]

end

/-- The values of a start tag do not depend on its place. -/
theorem respell_tag_unplaced (t : TagForm) (u : Tag) : t.respell u.unplaced = t.respell u := by
  unfold TagForm.respell Tag.unplaced
  simp only [TagForm.mk.injEq, true_and, and_true]
  rw [List.zipWith_map_right]
  rfl

mutual

/-- The values of a node do not depend on its place. -/
theorem respell_unplaced (f : Form) (n : Node) : f.respell n.unplaced = f.respell n := by
  cases f with
  | leaf l => cases n <;> rfl
  | empty tag =>
    cases n with
    | element u ns close => rw [Node.unplaced, respell, respell, respell_tag_unplaced]
    | _ => rfl
  | element tag children gap =>
    cases n with
    | element u ns close =>
      rw [Node.unplaced, respell, respell, respell_tag_unplaced, respellAll_unplaced children ns]
    | _ => rfl

/-- The values of nodes do not depend on their places. -/
theorem respellAll_unplaced (fs : List Form) (ns : List Node) :
    respellAll fs (Node.unplacedAll ns) = respellAll fs ns := by
  cases fs with
  | nil => cases ns <;> rfl
  | cons f fs =>
    cases ns with
    | nil => rfl
    | cons n ns =>
      rw [Node.unplacedAll, respellAll, respellAll, respell_unplaced f n, respellAll_unplaced fs ns]

end

end Form

end QwebReceiver.Markup
