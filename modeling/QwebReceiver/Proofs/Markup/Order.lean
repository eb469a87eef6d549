import QwebReceiver.Markup.Walk
import QwebReceiver.Proofs.Markup.Place

/-!
  QwebReceiver.Proofs.Markup.Order — document order.

  The elements of a subtree are told apart by their places, and one place comes
  before another in document order if it does so lexicographically: an element
  comes before those below it, and those below it before what follows it.

    * `mem_places_iff` — `places` are the places of elements;
    * `pairwise_places` — they stand in document order, none of them twice;
    * `map_elementAt?_places` — the subtree is listed by its places.
-/

namespace QwebReceiver.Markup.Node

/-! ## §1. The places of elements. -/

/-- The element at a place below a node. -/
def elementAt? (n : Node) (place : List Nat) : Option Element := (n.at? place).bind element?

theorem elementAt?_cons (n : Node) (i : Nat) (place : List Nat) :
    n.elementAt? (i :: place) = n.children[i]?.bind fun c => c.elementAt? place :=
  Option.bind_assoc ..

mutual

/-- The places of a node that are those of elements, in the order of the walk. -/
def places : Node → List (List Nat)
  | .element _ children _ => [] :: placesFrom 0 children
  | _ => []

/-- The places of elements among some nodes, the first of which is the `i`-th. -/
def placesFrom (i : Nat) : List Node → List (List Nat)
  | [] => []
  | n :: rest => (places n).map (i :: ·) ++ placesFrom (i + 1) rest

end

/-- The places among some nodes start with the number of a node, counted from
`i`. -/
theorem mem_placesFrom_iff {i : Nat} {ns : List Node} {p : List Nat} :
    p ∈ placesFrom i ns ↔ ∃ k n q, ns[k]? = some n ∧ q ∈ places n ∧ p = (i + k) :: q := by
  induction ns generalizing i with
  | nil => simp [placesFrom]
  | cons n ns ih =>
    rw [placesFrom, List.mem_append, List.mem_map, ih]
    constructor
    · rintro (⟨q, hq, rfl⟩ | ⟨k, m, q, hm, hq, rfl⟩)
      · exact ⟨0, n, q, rfl, hq, rfl⟩
      · exact ⟨k + 1, m, q, hm, hq, by rw [Nat.add_assoc, Nat.add_comm 1 k]⟩
    · rintro ⟨k, m, q, hm, hq, rfl⟩
      cases k with
      | zero =>
        obtain rfl : n = m := Option.some.inj hm
        exact .inl ⟨q, hq, rfl⟩
      | succ k => exact .inr ⟨k, m, q, hm, hq, by rw [Nat.add_assoc, Nat.add_comm 1 k]⟩

/-- **The places are those at which an element stands**, whatever the list of
places was computed by. -/
theorem mem_places_iff {n : Node} {p : List Nat} : p ∈ places n ↔ (n.elementAt? p).isSome := by
  induction p generalizing n with
  | nil => cases n <;> simp [places, elementAt?, at?, element?]
  | cons i p ih =>
    -- a place below a node is an index of a child and a place in it
    have hchild : (n.elementAt? (i :: p)).isSome ↔
        ∃ c, n.children[i]? = some c ∧ (c.elementAt? p).isSome := by
      rw [elementAt?_cons]
      cases n.children[i]? <;> simp
    rw [hchild]
    cases n with
    | element tag children close =>
      simp only [places, List.mem_cons, reduceCtorEq, false_or, mem_placesFrom_iff, Nat.zero_add]
      constructor
      · rintro ⟨k, c, q, hc, hq, heq⟩
        obtain ⟨rfl, rfl⟩ := List.cons.inj heq
        exact ⟨c, hc, ih.1 hq⟩
      · rintro ⟨c, hc, hp⟩
        exact ⟨i, c, p, hc, ih.2 hp, rfl⟩
    | _ => simp [places, children]

/-! ## §2. Their order. -/

mutual

/-- **The places stand in document order**, and none stands there twice.  The
order of places compares index by index, an outer place coming before the places
in it. -/
theorem pairwise_places (n : Node) : (places n).Pairwise (· < ·) := by
  cases n with
  | element tag children close =>
    rw [places, List.pairwise_cons]
    refine ⟨?_, pairwise_placesFrom 0 children⟩
    intro p hp
    obtain ⟨k, c, q, -, -, rfl⟩ := mem_placesFrom_iff.1 hp
    exact List.nil_lt_cons _ _
  | _ => exact .nil

/-- The same of nodes side by side, since their places start with rising
numbers. -/
theorem pairwise_placesFrom (i : Nat) (ns : List Node) : (placesFrom i ns).Pairwise (· < ·) := by
  cases ns with
  | nil => exact .nil
  | cons n ns =>
    rw [placesFrom, List.pairwise_append]
    refine ⟨?_, pairwise_placesFrom (i + 1) ns, ?_⟩
    · rw [List.pairwise_map]
      exact (pairwise_places n).imp fun h => List.cons_lt_cons_iff.2 (.inr ⟨rfl, h⟩)
    · intro p hp q hq
      obtain ⟨p', -, rfl⟩ := List.mem_map.1 hp
      obtain ⟨k, c, q', -, -, rfl⟩ := mem_placesFrom_iff.1 hq
      exact List.cons_lt_cons_iff.2 (.inl (by omega))

end

mutual

/-- **A subtree is listed by its places**: each of its elements stands at one
place, in this order. -/
theorem map_elementAt?_places (n : Node) :
    (places n).map n.elementAt? = (descendants n).map some := by
  cases n with
  | element tag children close =>
    rw [places, descendants, List.map_cons, List.map_cons]
    exact congrArg _ (map_elementAt?_placesFrom tag close [] children)
  | _ => rfl

/-- The children of an element that are not `before`, at their places below it. -/
theorem map_elementAt?_placesFrom (tag : Tag) (close : Option Span) (before ns : List Node) :
    (placesFrom before.length ns).map (element tag (before ++ ns) close).elementAt? =
      (descendantsOf ns).map some := by
  cases ns with
  | nil => rfl
  | cons n ns =>
    have hrest := map_elementAt?_placesFrom tag close (before ++ [n]) ns
    rw [List.length_append, List.length_singleton, List.append_assoc, List.singleton_append] at hrest
    have hchild : (element tag (before ++ n :: ns) close).children[before.length]? = some n := by
      simp [children]
    rw [placesFrom, descendantsOf, List.map_append, List.map_append, hrest, List.map_map,
      ← map_elementAt?_places n]
    congr 1
    refine List.map_congr_left fun p _ => ?_
    rw [Function.comp_apply, elementAt?_cons, hchild, Option.bind_some]

end

end QwebReceiver.Markup.Node
