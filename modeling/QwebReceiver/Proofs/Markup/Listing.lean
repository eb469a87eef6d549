import QwebReceiver.Markup.Tree

/-!
  QwebReceiver.Proofs.Markup.Listing — what a tree lists, and what its tokens
  add to it.

  A listing reads a tree in document order: something for each start tag, for
  each closing tag and for each node without nodes below it.  The builder never
  reorders anything.  What it holds, open elements included, is listed in the
  order in which it was placed, so each token adds its share at the end:

    * `builder_step` — one token;
    * `nodes_build` — the tree is listed as what the builder held at the end.
-/

namespace QwebReceiver.Markup

/-- What is listed of a tree, in the order of the text.  Places, values and
headings are three listings of one kind. -/
structure Listing (α : Type) where
  tag : Tag → List α
  close : Span → List α
  /-- Of nodes other than elements. -/
  leaf : Node → List α

namespace Listing

variable {α : Type} (L : Listing α)

/-! ## §1. Trees. -/

mutual

/-- The listing of a node. -/
def node : Node → List α
  | .element tag children close => L.tag tag ++ nodes children ++ close.toList.flatMap L.close
  | n => L.leaf n

/-- The listing of some nodes. -/
def nodes : List Node → List α
  | [] => []
  | n :: rest => node n ++ nodes rest

end

theorem nodes_append (ns ms : List Node) : L.nodes (ns ++ ms) = L.nodes ns ++ L.nodes ms := by
  induction ns with
  | nil => rfl
  | cons n ns ih => rw [List.cons_append, nodes, nodes, ih, List.append_assoc]

theorem nodes_singleton (n : Node) : L.nodes [n] = L.node n := List.append_nil _

/-! ## §2. The builder. -/

end Listing

namespace Builder

/-- Placing a node leaves the start tag that is being read. -/
theorem partialTag_place (b : Builder) (n : Node) : (b.place n).partialTag = b.partialTag := by
  unfold place
  split <;> rfl

/-- Placing a node reports nothing. -/
theorem problems_of_place (b : Builder) (n : Node) : (b.place n).problems = b.problems := by
  unfold place
  split <;> rfl

end Builder

namespace Listing

variable {α : Type} (L : Listing α)

/-- The listing of open elements, which stand innermost first.  Their closing
tags have not been met, so nothing is listed for these. -/
def opened : List OpenElement → List α
  | [] => []
  | e :: outer => opened outer ++ (L.tag e.tag ++ L.nodes e.children)

/-- The listing of what a builder has placed and opened.  It grows at its end
only, token by token. -/
def builder (b : Builder) : List α := L.nodes b.roots ++ L.opened b.stack

/-- A node that is placed is listed at the end. -/
theorem builder_place (b : Builder) (n : Node) :
    L.builder (b.place n) = L.builder b ++ L.node n := by
  unfold Builder.place builder
  cases b.stack with
  | nil => simp [opened, nodes_append, nodes_singleton]
  | cons e outer => simp [opened, nodes_append, nodes_singleton]

/-- Closing the innermost element adds its closing tag. -/
theorem builder_close {b : Builder} {e : OpenElement} {outer : List OpenElement}
    (h : b.stack = e :: outer) (close : Option Span) :
    L.builder (({ b with stack := outer } : Builder).place (.element e.tag e.children close)) =
      L.builder b ++ close.toList.flatMap L.close := by
  rw [builder_place, builder, builder, h]
  simp [opened, node]

/-- What a token adds when it is met outside of a start tag.  A closing tag that
closes nothing adds nothing. -/
def content (b : Builder) (t : Token) : List α :=
  match t.content with
  | .closingTag name =>
    match b.stack with
    | e :: _ => if e.tag.name = name then L.close t.span else []
    | [] => []
  | .text value =>
    L.leaf (.text { value := value.decoded, spelling := value, cdata := false, span := t.span })
  | .cdata value =>
    L.leaf (.text { value, spelling := Spelling.plain value, cdata := true, span := t.span })
  | .comment value => L.leaf (.comment value t.span)
  | .instruction value => L.leaf (.instruction value t.span)
  | .doctype value => L.leaf (.doctype value t.span)
  | _ => []

/-- A token outside of a start tag adds its share at the end. -/
theorem builder_content (b : Builder) (t : Token) :
    L.builder (b.content t) = L.builder b ++ L.content b t := by
  obtain ⟨k, span⟩ := t
  cases k with
  | closingTag name =>
    unfold Builder.content content
    cases hstack : b.stack with
    | nil => exact (List.append_nil _).symm
    | cons e outer =>
      by_cases hname : e.tag.name = name
      · simp only [if_pos hname]
        simpa using L.builder_close hstack (some span)
      · simp only [if_neg hname]
        exact (List.append_nil _).symm
  | text | cdata | comment | instruction | doctype => exact L.builder_place b _
  | _ => exact (List.append_nil _).symm

/-- An attribute of the start tag being read is not listed yet. -/
theorem builder_addAttribute (b : Builder) (p : PartialTag) (name : Text) (nameSpan : Span)
    (quote : Char) (value : Spelling) (valueSpan : Span) :
    L.builder (b.addAttribute p name nameSpan quote value valueSpan) = L.builder b := by
  unfold Builder.addAttribute
  split <;> rfl

/-- What a token adds.  A start tag is listed at its end, when its attributes
are all there. -/
def added (b : Builder) (t : Token) : List α :=
  match b.partialTag, t.content with
  | some p, .tagEnd | some p, .tagEndEmpty => L.tag (Builder.finishTag p t.span)
  | some _, .attributeName _ | some _, .attributeValue _ _ => []
  | _, _ => L.content b t

/-- **A token adds its share at the end.**  Nothing that is listed is taken back
or moved by a later token, which is why an order of tokens becomes an order of
the tree. -/
theorem builder_step (b : Builder) (t : Token) :
    L.builder (b.step t) = L.builder b ++ L.added b t := by
  unfold Builder.step added
  -- outside a tag the token is content; inside one it names an attribute, gives a
  -- value, ends the tag or breaks it off
  cases b.partialTag with
  | none => exact L.builder_content b t
  | some p =>
    obtain ⟨k, span⟩ := t
    cases k with
    | attributeName name => exact (List.append_nil _).symm
    | attributeValue quote value =>
      cases hnaming : p.naming with
      | none =>
        simp only [hnaming]
        exact (List.append_nil _).symm
      | some naming =>
        simp only [hnaming, builder_addAttribute, List.append_nil]
    | tagEnd => simp [builder, opened, nodes]
    | tagEndEmpty =>
      refine (L.builder_place { b with partialTag := none } _).trans ?_
      simp [builder, node, nodes]
    | _ => exact L.builder_content { b with partialTag := none } _

/-! ## §3. The end of the text. -/

/-- Elements that were never closed are listed like others. -/
theorem nodes_unwind (last : List Node) (stack : List OpenElement) :
    L.nodes (Builder.unwind last stack).1 = L.opened stack ++ L.nodes last := by
  induction stack generalizing last with
  | nil => rfl
  | cons e outer ih =>
    rw [Builder.unwind, opened]
    simp only [ih, nodes_singleton]
    simp [node, nodes_append]

/-- **A tree is listed as the builder was in the end.**  Elements that are left
open are closed without adding anything. -/
theorem nodes_build (tokens : List Token) :
    L.nodes (Builder.build tokens).1 = L.builder (tokens.foldl Builder.step {}) := by
  simp only [Builder.build, nodes_append, nodes_unwind, builder]
  simp [nodes]

end Listing
end QwebReceiver.Markup
