import QwebReceiver.Markup.Document

/-!
  QwebReceiver.Markup.Walk — visiting the elements of a subtree one by one.

  A walk keeps the elements whose turn is still to come on a stack.  Its one
  step takes the top element off, and puts the elements right below that one in
  its place, the first of them on top.  No recursion on the tree is involved:
  what a walk visits is `toList_ofElement`.
-/

namespace QwebReceiver.Markup

/-! ## §1. Subtrees. -/

/-- An element and all elements below it, in document order. -/
def Element.subtree (e : Element) : List Element :=
  Node.descendants (.element e.tag e.children e.close)

theorem Element.subtree_eq (e : Element) : e.subtree = e :: Node.descendantsOf e.children := rfl

/-- The elements of some nodes, subtree by subtree. -/
theorem Node.descendantsOf_eq (ns : List Node) :
    Node.descendantsOf ns = (Node.elementsOf ns).flatMap Element.subtree := by
  induction ns with
  | nil => rfl
  | cons n ns ih =>
    rw [Node.descendantsOf, ih]
    cases n <;> rfl

/-! ## §2. Walks. -/

/-- The elements whose turn is still to come; the top of the stack is its last
element. -/
structure Walk where
  stack : List Element

namespace Walk

/-- The walk over an element and all elements below it. -/
def ofElement (e : Element) : Walk := ⟨[e]⟩

/-- The element whose turn it is, and the walk from there on. -/
def next? (w : Walk) : Option (Element × Walk) :=
  match w.stack.getLast? with
  | none => none
  | some e => some (e, ⟨w.stack.dropLast ++ (Node.elementsOf e.children).reverse⟩)

/-- How many elements a walk visits. -/
def size (w : Walk) : Nat := (w.stack.flatMap Element.subtree).length

theorem next?_eq_none_iff {w : Walk} : w.next? = none ↔ w.stack = [] := by
  unfold next?
  cases h : w.stack.getLast? with
  | none => simpa using h
  | some e =>
    simp only [reduceCtorEq, false_iff]
    rintro hnil
    simp [hnil] at h

theorem stack_of_next? {w rest : Walk} {e : Element} (h : w.next? = some (e, rest)) :
    ∃ init, w.stack = init ++ [e] ∧ rest.stack = init ++ (Node.elementsOf e.children).reverse := by
  unfold next? at h
  split at h
  · cases h
  · next x hx =>
    cases h
    obtain ⟨init, hinit⟩ := List.getLast?_eq_some_iff.1 hx
    exact ⟨init, hinit, by simp [hinit]⟩

/-- A step leaves one element less to visit. -/
theorem size_of_next? {w rest : Walk} {e : Element} (h : w.next? = some (e, rest)) :
    rest.size + 1 = w.size := by
  obtain ⟨init, hw, hrest⟩ := stack_of_next? h
  have hbelow : ((Node.elementsOf e.children).reverse.flatMap Element.subtree).length =
      (Node.descendantsOf e.children).length := by
    rw [Node.descendantsOf_eq]
    exact ((List.reverse_perm _).flatMap_right _).length_eq
  rw [size, size, hw, hrest]
  simp only [List.flatMap_append, List.length_append, hbelow, List.flatMap_cons, List.flatMap_nil,
    List.append_nil, Element.subtree_eq, List.length_cons]
  omega

/-- The elements that a walk visits, in the order in which it does. -/
def toList (w : Walk) : List Element :=
  match h : w.next? with
  | none => []
  | some (e, rest) =>
    have : rest.size < w.size := by have := size_of_next? h; omega
    e :: rest.toList
termination_by w.size

/-- What a walk visits, from the top of its stack down. -/
theorem toList_eq (w : Walk) : w.toList = w.stack.reverse.flatMap Element.subtree := by
  fun_induction toList w with
  | case1 w h => rw [next?_eq_none_iff.1 h]; rfl
  | case2 w e rest h hlt ih =>
    obtain ⟨init, hw, hrest⟩ := stack_of_next? h
    rw [ih, hw, hrest]
    simp only [List.reverse_append, List.reverse_reverse, List.flatMap_append, List.reverse_cons,
      List.reverse_nil, List.nil_append, List.flatMap_cons, Element.subtree_eq, Node.descendantsOf_eq,
      List.cons_append]

/-- **A walk over an element visits its subtree.** -/
theorem toList_ofElement (e : Element) : (ofElement e).toList = e.subtree := by
  rw [toList_eq]
  exact List.append_nil _

end Walk

/-- The elements of a document, root by root. -/
theorem Document.elements_eq (d : Document) :
    d.elements = (Node.elementsOf d.nodes).flatMap fun e => (Walk.ofElement e).toList := by
  simp only [Walk.toList_ofElement]
  exact Node.descendantsOf_eq d.nodes

end QwebReceiver.Markup
