import Mathlib.Data.List.Infix
import QwebReceiver.Markup.Node

/-!
  QwebReceiver.Proofs.Markup.Place — places in a tree.

  A place in a tree is the way to it from the top, child by child.  `at?` is
  the node there, and `line?` the nodes on the way, innermost first.
-/

namespace QwebReceiver.Markup.Node

/-! ## §1. Nodes at a place. -/

/-- The nodes right below a node. -/
def children : Node → List Node
  | .element _ children _ => children
  | _ => []

/-- The node without what is below it.  What a pass does to one node is said of
its top. -/
def top : Node → Node
  | .element tag _ close => .element tag [] close
  | n => n

/-- The node at a place below a node.  A place is the list of the indices on the
way down. -/
def at? : List Nat → Node → Option Node
  | [], n => some n
  | i :: place, n => n.children[i]?.bind (at? place)

/-- The nodes on the way to a place below a node, innermost first; the node at
the place is the first of them, and the one that is started from is the last. -/
def line? : List Nat → Node → Option (List Node)
  | [], n => some [n]
  | i :: place, n => n.children[i]?.bind fun c => (line? place c).map (· ++ [n])

/-- A place is come to by way of the places on the way to it. -/
theorem at?_append (p q : List Nat) (n : Node) : n.at? (p ++ q) = (n.at? p).bind (at? q) := by
  induction p generalizing n with
  | nil => rfl
  | cons i p ih =>
    show n.children[i]?.bind (at? (p ++ q)) = (n.children[i]?.bind (at? p)).bind (at? q)
    rw [Option.bind_assoc, funext ih]

theorem at?_cons {i : Nat} {place : List Nat} {n m : Node} (h : n.at? (i :: place) = some m) :
    ∃ c, n.children[i]? = some c ∧ c.at? place = some m :=
  Option.bind_eq_some_iff.1 h

theorem at?_cons_of {i : Nat} {place : List Nat} {n c m : Node} (hc : n.children[i]? = some c)
    (h : c.at? place = some m) : n.at? (i :: place) = some m :=
  Option.bind_eq_some_iff.2 ⟨c, hc, h⟩

/-- Only elements have nodes below them. -/
theorem exists_element_of_children {n c : Node} {i : Nat} (h : n.children[i]? = some c) :
    ∃ tag children close, n = .element tag children close := by
  cases n with
  | element tag children close => exact ⟨tag, children, close, rfl⟩
  | _ => simp [children] at h

/-- No node is higher than the nodes it is among. -/
theorem height_le_of_mem {n : Node} {ns : List Node} (h : n ∈ ns) : n.height ≤ heightOf ns := by
  induction ns with
  | nil => cases h
  | cons m ns ih =>
    rw [heightOf]
    rcases List.mem_cons.1 h with rfl | h
    · exact Nat.le_max_left _ _
    · exact Nat.le_trans (ih h) (Nat.le_max_right _ _)

/-- A child is lower than its element, which makes walks down a tree end. -/
theorem height_lt_of_child {n c : Node} {i : Nat} (h : n.children[i]? = some c) :
    c.height < n.height := by
  obtain ⟨tag, children, close, rfl⟩ := exists_element_of_children h
  rw [height]
  exact Nat.lt_succ_of_le (height_le_of_mem (List.mem_of_getElem? h))

/-- The elements of a node are among those of the nodes it is among. -/
theorem descendants_subset {ns : List Node} {c : Node} (hc : c ∈ ns) :
    descendants c ⊆ descendantsOf ns := by
  induction ns with
  | nil => cases hc
  | cons k ns ih =>
    rw [descendantsOf]
    rcases List.mem_cons.1 hc with rfl | hc
    · exact List.subset_append_left _ _
    · exact List.subset_append_of_subset_right _ (ih hc)

/-- An element at a place below a node is one of its elements. -/
theorem mem_descendants_of_at? {place : List Nat} {n : Node} {tag : Tag} {children : List Node}
    {close : Option Span} (h : n.at? place = some (.element tag children close)) :
    ⟨tag, children, close⟩ ∈ descendants n := by
  induction place generalizing n with
  | nil =>
    cases h
    exact List.mem_cons_self
  | cons i place ih =>
    obtain ⟨c, hc, hbelow⟩ := at?_cons h
    obtain ⟨tag', children', close', rfl⟩ := exists_element_of_children hc
    exact List.mem_cons_of_mem _ (descendants_subset (List.mem_of_getElem? hc) (ih hbelow))

/-! ## §2. The way to a place. -/

/-- The line to a place further down ends with the node. -/
theorem line?_cons {i : Nat} {place : List Nat} {n : Node} {line : List Node}
    (h : n.line? (i :: place) = some line) :
    ∃ c below, n.children[i]? = some c ∧ c.line? place = some below ∧ line = below ++ [n] := by
  obtain ⟨c, hc, h⟩ := Option.bind_eq_some_iff.1 h
  obtain ⟨below, hbelow, rfl⟩ := Option.map_eq_some_iff.1 h
  exact ⟨c, below, hc, hbelow, rfl⟩

/-- A line below a child goes on to the node. -/
theorem line?_cons_of {i : Nat} {place : List Nat} {n c : Node} {below : List Node}
    (hc : n.children[i]? = some c) (h : c.line? place = some below) :
    n.line? (i :: place) = some (below ++ [n]) :=
  Option.bind_eq_some_iff.2 ⟨c, hc, Option.map_eq_some_iff.2 ⟨below, h, rfl⟩⟩

/-- Where a node stands there is a line to it, which starts with the node. -/
theorem exists_line_of_at? {place : List Nat} {n m : Node} (h : n.at? place = some m) :
    ∃ above, n.line? place = some (m :: above) := by
  induction place generalizing n with
  | nil =>
    obtain rfl : n = m := Option.some.inj h
    exact ⟨[], rfl⟩
  | cons i place ih =>
    obtain ⟨c, hc, h⟩ := at?_cons h
    obtain ⟨above, habove⟩ := ih h
    exact ⟨above ++ [n], line?_cons_of hc habove⟩

/-- A line is never empty. -/
theorem ne_nil_of_line? {place : List Nat} {n : Node} {line : List Node}
    (h : n.line? place = some line) : line ≠ [] := by
  cases place with
  | nil =>
    cases h
    exact List.cons_ne_nil n []
  | cons i place =>
    obtain ⟨_, below, -, -, rfl⟩ := line?_cons h
    exact List.append_ne_nil_of_right_ne_nil below (List.cons_ne_nil n [])

/-- A line starts with the node at its place. -/
theorem at?_of_line? {place : List Nat} {n m : Node} {above : List Node}
    (h : n.line? place = some (m :: above)) : n.at? place = some m := by
  induction place generalizing n above with
  | nil =>
    cases h
    rfl
  | cons i place ih =>
    obtain ⟨c, below, hc, hbelow, hline⟩ := line?_cons h
    cases below with
    | nil => exact absurd rfl (ne_nil_of_line? hbelow)
    | cons k below =>
      obtain ⟨rfl, -⟩ := List.cons.inj hline
      exact at?_cons_of hc (ih hbelow)

/-- A line ends with the node that it starts from. -/
theorem getLast?_of_line? {place : List Nat} {n : Node} {line : List Node}
    (h : n.line? place = some line) : line.getLast? = some n := by
  cases place with
  | nil =>
    cases h
    rfl
  | cons i place =>
    obtain ⟨c, below, -, -, rfl⟩ := line?_cons h
    simp

/-- A line goes through the places on the way. -/
theorem exists_line_of_append {p q : List Nat} {n e : Node} {line : List Node}
    (he : n.at? p = some e) (h : n.line? (p ++ q) = some line) : ∃ outer inner,
      n.line? p = some (e :: outer) ∧ e.line? q = some inner ∧ line = inner ++ outer := by
  induction p generalizing n line with
  | nil =>
    obtain rfl : n = e := Option.some.inj he
    exact ⟨[], line, rfl, h, (List.append_nil line).symm⟩
  | cons i p ih =>
    obtain ⟨c, hc, he⟩ := at?_cons he
    obtain ⟨c', below, hc', hbelow, rfl⟩ := line?_cons h
    obtain rfl := Option.some.inj (hc.symm.trans hc')
    obtain ⟨outer, inner, hline, hinner, rfl⟩ := ih he hbelow
    exact ⟨outer ++ [n], inner, line?_cons_of hc hline, hinner, List.append_assoc inner outer [n]⟩

/-- The line to a place on the way is the outer part of the whole. -/
theorem exists_suffix_of_append {p q : List Nat} {n e : Node} {line : List Node}
    (he : n.at? p = some e) (h : n.line? (p ++ q) = some line) :
    ∃ outer, n.line? p = some (e :: outer) ∧ e :: outer <:+ line := by
  obtain ⟨outer, inner, hp, hinner, rfl⟩ := exists_line_of_append he h
  obtain ⟨inner', rfl⟩ := List.getLast?_eq_some_iff.1 (getLast?_of_line? hinner)
  exact ⟨outer, hp, inner', by rw [List.append_assoc, List.singleton_append]⟩

/-- The nodes of a line are those at the places on the way. -/
theorem exists_append_of_suffix {place : List Nat} {n m e : Node} {above outer : List Node}
    (h : n.line? place = some (m :: above)) (hsuffix : e :: outer <:+ m :: above) :
    ∃ p q, place = p ++ q ∧ n.line? p = some (e :: outer) ∧ e.at? q = some m := by
  induction place generalizing n m above outer with
  | nil =>
    cases h
    obtain ⟨rfl, rfl⟩ : e = n ∧ outer = [] := by
      simpa using List.suffix_cons_iff.1 hsuffix
    exact ⟨[], [], rfl, rfl, rfl⟩
  | cons i place ih =>
    have hm := at?_of_line? h
    obtain ⟨c, below, hc, hbelow, hline⟩ := line?_cons h
    rw [hline, List.suffix_concat_iff] at hsuffix
    rcases hsuffix with hnil | ⟨inner, heq, hsuffix⟩
    · cases hnil
    -- the suffix is the whole line, or a line of the child
    cases inner with
    | nil =>
      obtain ⟨rfl, rfl⟩ := List.cons.inj heq
      exact ⟨[], i :: place, rfl, rfl, hm⟩
    | cons e' inner =>
      obtain ⟨rfl, rfl⟩ := List.cons.inj heq
      obtain ⟨k, below, rfl⟩ := List.exists_cons_of_ne_nil (ne_nil_of_line? hbelow)
      obtain ⟨rfl, -⟩ := List.cons.inj hline
      obtain ⟨p, q, rfl, hp, hq⟩ := ih hbelow hsuffix
      exact ⟨i :: p, q, rfl, line?_cons_of hc hp, hq⟩

end QwebReceiver.Markup.Node
