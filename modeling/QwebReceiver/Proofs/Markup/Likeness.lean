import QwebReceiver.Markup.Node
import Mathlib.Data.List.Forall2

/-!
  QwebReceiver.Proofs.Markup.Likeness — comparing trees of the same shape.

  An edit replaces values and leaves the shape of a tree alone, and so does
  writing a tree out and reading it again.  A `Likeness` says how the parts of
  two such trees compare, and `Node.AlikeAll` that the trees compare part by
  part: the same nodes in the same order, with the same names and contents.
  How a text compares may depend on whether it stands at the start of an
  element, and on the name of that element.
-/

namespace QwebReceiver.Markup

/-! ## §1. Trees that compare. -/

/-- How the parts of two trees compare.  A text is given the name of the element
whose content it starts, if any, since only there can it be the value of a
patch. -/
structure Likeness where
  attr : Attribute → Attribute → Prop
  text : Option Text → CharData → CharData → Prop
  span : Span → Span → Prop

/-- Start tags that compare: of the same name, with attributes that compare in
the same order. -/
structure Tag.Alike (L : Likeness) (t u : Tag) : Prop where
  name : u.name = t.name
  attributes : List.Forall₂ L.attr t.attributes u.attributes
  span : L.span t.span u.span

namespace Node

mutual

/-- Nodes that compare; `first` is the name of the element whose content they
start, if any. -/
def Alike (L : Likeness) (first : Option Text) : Node → Node → Prop
  | .element tag children close, m =>
    ∃ tag' children' close', m = .element tag' children' close' ∧ tag.Alike L tag' ∧
      AlikeAll L (some tag.name) children children' ∧ Option.Rel L.span close close'
  | .text d, m => ∃ d', m = .text d' ∧ L.text first d d'
  | .comment v s, m => ∃ s', m = .comment v s' ∧ L.span s s'
  | .instruction v s, m => ∃ s', m = .instruction v s' ∧ L.span s s'
  | .doctype v s, m => ∃ s', m = .doctype v s' ∧ L.span s s'

/-- Lists of nodes that compare, one by one.  Only the first of them may be the
text that an element starts with. -/
def AlikeAll (L : Likeness) (first : Option Text) : List Node → List Node → Prop
  | [], ms => ms = []
  | n :: ns, ms => ∃ m ms', ms = m :: ms' ∧ Alike L first n m ∧ AlikeAll L none ns ms'

end

end Node

/-! ## §2. The algebra of likenesses. -/

namespace Likeness

/-- The parts compare with something in between, so that two steps are one
comparison. -/
def comp (L M : Likeness) : Likeness where
  attr a c := ∃ b, L.attr a b ∧ M.attr b c
  text first a c := ∃ b, L.text first a b ∧ M.text first b c
  span a c := ∃ b, L.span a b ∧ M.span b c

/-- Parts that compare in one way compare in the other.  Comparisons of trees
carry over along this. -/
structure Le (L M : Likeness) : Prop where
  attr : ∀ {a b}, L.attr a b → M.attr a b
  text : ∀ {first a b}, L.text first a b → M.text first a b
  span : ∀ {a b}, L.span a b → M.span a b

/-- Every part compares to itself. -/
structure Refl (L : Likeness) : Prop where
  attr : ∀ a, L.attr a a
  text : ∀ first a, L.text first a a
  span : ∀ a, L.span a a

/-- Parts that compare both ways are the same.  Trees that compare both ways are
the same, too. -/
structure Antisymm (L : Likeness) : Prop where
  attr : ∀ {a b}, L.attr a b → L.attr b a → b = a
  text : ∀ {first a b}, L.text first a b → L.text first b a → b = a
  span : ∀ {a b}, L.span a b → L.span b a → b = a

end Likeness

theorem Tag.Alike.refl {L : Likeness} (hL : L.Refl) (t : Tag) : t.Alike L t :=
  ⟨rfl, List.forall₂_same.2 fun a _ => hL.attr a, hL.span _⟩

/-- So do closing tags. -/
theorem close_refl {L : Likeness} (hL : L.Refl) (close : Option Span) :
    Option.Rel L.span close close := by
  cases close with
  | none => exact .none
  | some s => exact .some (hL.span s)

/-- Tags that compare in one way compare in every weaker way. -/
theorem Tag.Alike.mono {L M : Likeness} (h : L.Le M) {t u : Tag} (ht : t.Alike L u) :
    t.Alike M u :=
  ⟨ht.name, ht.attributes.imp fun _ _ hab => h.attr hab, h.span ht.span⟩

/-- So do closing tags. -/
theorem close_mono {L M : Likeness} (h : L.Le M) {c d : Option Span}
    (hc : Option.Rel L.span c d) : Option.Rel M.span c d := by
  cases hc with
  | none => exact .none
  | some hs => exact .some (h.span hs)

/-- Lists that compare by way of a third compare member by member by way of the
third. -/
theorem forall₂_comp {α : Type} {R S : α → α → Prop} {as bs cs : List α}
    (h : List.Forall₂ R as bs) (h' : List.Forall₂ S bs cs) :
    List.Forall₂ (fun a c => ∃ b, R a b ∧ S b c) as cs := by
  induction h generalizing cs with
  | nil =>
    cases h'
    exact .nil
  | cons hab _ ih =>
    cases h' with
    | cons hbc htail => exact .cons ⟨_, hab, hbc⟩ (ih htail)

/-- Tags compare by way of a third in the composite likeness. -/
theorem Tag.Alike.trans {L M : Likeness} {t u v : Tag} (h : t.Alike L u) (h' : u.Alike M v) :
    t.Alike (L.comp M) v := by
  exact ⟨h'.name.trans h.name, forall₂_comp h.attributes h'.attributes, ⟨_, h.span, h'.span⟩⟩

/-- So do closing tags. -/
theorem close_trans {L M : Likeness} {c d e : Option Span} (h : Option.Rel L.span c d)
    (h' : Option.Rel M.span d e) : Option.Rel (L.comp M).span c e := by
  cases h with
  | none =>
    cases h'
    exact .none
  | some hs =>
    cases h' with
    | some hs' => exact .some ⟨_, hs, hs'⟩

namespace Node

mutual

/-- A tree compares to itself if its parts do. -/
theorem Alike.refl {L : Likeness} (hL : L.Refl) (first : Option Text) (n : Node) :
    Alike L first n n := by
  cases n with
  | element tag children close =>
    exact ⟨tag, children, close, rfl, Tag.Alike.refl hL tag,
      AlikeAll.refl hL (some tag.name) children, close_refl hL close⟩
  | text d => exact ⟨d, rfl, hL.text first d⟩
  | comment v s => exact ⟨s, rfl, hL.span s⟩
  | instruction v s => exact ⟨s, rfl, hL.span s⟩
  | doctype v s => exact ⟨s, rfl, hL.span s⟩

/-- So do trees side by side. -/
theorem AlikeAll.refl {L : Likeness} (hL : L.Refl) (first : Option Text) (ns : List Node) :
    AlikeAll L first ns ns := by
  cases ns with
  | nil => rfl
  | cons n ns => exact ⟨n, ns, rfl, Alike.refl hL first n, AlikeAll.refl hL none ns⟩

end

mutual

/-- Trees that compare in one way compare in every weaker way. -/
theorem Alike.mono {L M : Likeness} (hLM : L.Le M) {first : Option Text} {n m : Node}
    (h : Alike L first n m) : Alike M first n m := by
  cases n with
  | element tag children close =>
    obtain ⟨tag', children', close', rfl, htag, hchildren, hclose⟩ := h
    exact ⟨tag', children', close', rfl, htag.mono hLM, AlikeAll.mono hLM hchildren,
      close_mono hLM hclose⟩
  | text d =>
    obtain ⟨d', rfl, hd⟩ := h
    exact ⟨d', rfl, hLM.text hd⟩
  | comment v s =>
    obtain ⟨s', rfl, hs⟩ := h
    exact ⟨s', rfl, hLM.span hs⟩
  | instruction v s =>
    obtain ⟨s', rfl, hs⟩ := h
    exact ⟨s', rfl, hLM.span hs⟩
  | doctype v s =>
    obtain ⟨s', rfl, hs⟩ := h
    exact ⟨s', rfl, hLM.span hs⟩

/-- So do trees side by side. -/
theorem AlikeAll.mono {L M : Likeness} (hLM : L.Le M) {first : Option Text} {ns ms : List Node}
    (h : AlikeAll L first ns ms) : AlikeAll M first ns ms := by
  cases ns with
  | nil => exact h
  | cons n ns =>
    obtain ⟨m, ms', rfl, hn, hns⟩ := h
    exact ⟨m, ms', rfl, Alike.mono hLM hn, AlikeAll.mono hLM hns⟩

end

mutual

/-- Trees compare by way of a third in the composite likeness; the texts at the
start of an element keep the name that they are given, as names are equal. -/
theorem Alike.trans {L M : Likeness} {first : Option Text} {n m k : Node}
    (h : Alike L first n m) (h' : Alike M first m k) : Alike (L.comp M) first n k := by
  cases n with
  | element tag children close =>
    obtain ⟨tag', children', close', rfl, htag, hchildren, hclose⟩ := h
    obtain ⟨tag'', children'', close'', rfl, htag', hchildren', hclose'⟩ := h'
    -- the second step compares the children under the name of the middle element, which
    -- is the same one
    rw [htag.name] at hchildren'
    exact ⟨tag'', children'', close'', rfl, htag.trans htag', AlikeAll.trans hchildren hchildren',
      close_trans hclose hclose'⟩
  | text d =>
    obtain ⟨d', rfl, hd⟩ := h
    obtain ⟨d'', rfl, hd'⟩ := h'
    exact ⟨d'', rfl, d', hd, hd'⟩
  | comment v s =>
    obtain ⟨s', rfl, hs⟩ := h
    obtain ⟨s'', rfl, hs'⟩ := h'
    exact ⟨s'', rfl, s', hs, hs'⟩
  | instruction v s =>
    obtain ⟨s', rfl, hs⟩ := h
    obtain ⟨s'', rfl, hs'⟩ := h'
    exact ⟨s'', rfl, s', hs, hs'⟩
  | doctype v s =>
    obtain ⟨s', rfl, hs⟩ := h
    obtain ⟨s'', rfl, hs'⟩ := h'
    exact ⟨s'', rfl, s', hs, hs'⟩

/-- So do trees side by side. -/
theorem AlikeAll.trans {L M : Likeness} {first : Option Text} {ns ms ks : List Node}
    (h : AlikeAll L first ns ms) (h' : AlikeAll M first ms ks) :
    AlikeAll (L.comp M) first ns ks := by
  cases ns with
  | nil =>
    cases h
    exact h'
  | cons n ns =>
    obtain ⟨m, ms', rfl, hn, hns⟩ := h
    obtain ⟨k, ks', rfl, hm, hms⟩ := h'
    exact ⟨k, ks', rfl, Alike.trans hn hm, AlikeAll.trans hns hms⟩

end

end Node

/-- Lists that compare both ways are equal if members are. -/
theorem forall₂_antisymm {α : Type} {R : α → α → Prop} (hR : ∀ {a b}, R a b → R b a → b = a)
    {as bs : List α} (h : List.Forall₂ R as bs) (h' : List.Forall₂ R bs as) : bs = as := by
  induction h with
  | nil => rfl
  | cons hab _ ih =>
    cases h' with
    | cons hba htail => rw [hR hab hba, ih htail]

/-- Tags that compare both ways are equal if parts are. -/
theorem Tag.Alike.antisymm {L : Likeness} (hL : L.Antisymm) {t u : Tag} (h : t.Alike L u)
    (h' : u.Alike L t) : u = t := by
  obtain ⟨name, attributes, span⟩ := t
  obtain ⟨name', attributes', span'⟩ := u
  have hattributes : attributes' = attributes :=
    forall₂_antisymm hL.attr h.attributes h'.attributes
  have hname : name' = name := h.name
  have hspan : span' = span := hL.span h.span h'.span
  rw [hattributes, hname, hspan]

theorem close_antisymm {L : Likeness} (hL : L.Antisymm) {c d : Option Span}
    (h : Option.Rel L.span c d) (h' : Option.Rel L.span d c) : d = c := by
  cases h with
  | none => rfl
  | some hs =>
    cases h' with
    | some hs' => rw [hL.span hs hs']

namespace Node

mutual

/-- Trees that compare both ways are equal if parts are; so an edit that only
lets values grow, and is undone by another such, has changed nothing. -/
theorem Alike.antisymm {L : Likeness} (hL : L.Antisymm) {first : Option Text} {n m : Node}
    (h : Alike L first n m) (h' : Alike L first m n) : m = n := by
  cases n with
  | element tag children close =>
    obtain ⟨tag', children', close', rfl, htag, hchildren, hclose⟩ := h
    obtain ⟨_, _, _, heq, htag', hchildren', hclose'⟩ := h'
    cases heq
    rw [htag.name] at hchildren'
    rw [htag.antisymm hL htag', AlikeAll.antisymm hL hchildren hchildren',
      close_antisymm hL hclose hclose']
  | text d =>
    obtain ⟨d', rfl, hd⟩ := h
    obtain ⟨_, heq, hd'⟩ := h'
    cases heq
    rw [hL.text hd hd']
  | comment v s =>
    obtain ⟨s', rfl, hs⟩ := h
    obtain ⟨_, heq, hs'⟩ := h'
    cases heq
    rw [hL.span hs hs']
  | instruction v s =>
    obtain ⟨s', rfl, hs⟩ := h
    obtain ⟨_, heq, hs'⟩ := h'
    cases heq
    rw [hL.span hs hs']
  | doctype v s =>
    obtain ⟨s', rfl, hs⟩ := h
    obtain ⟨_, heq, hs'⟩ := h'
    cases heq
    rw [hL.span hs hs']

/-- So are trees side by side. -/
theorem AlikeAll.antisymm {L : Likeness} (hL : L.Antisymm) {first : Option Text}
    {ns ms : List Node} (h : AlikeAll L first ns ms) (h' : AlikeAll L first ms ns) : ms = ns := by
  cases ns with
  | nil => exact h
  | cons n ns =>
    obtain ⟨m, ms', rfl, hn, hns⟩ := h
    obtain ⟨_, _, heq, hm, hms⟩ := h'
    cases heq
    rw [Alike.antisymm hL hn hm, AlikeAll.antisymm hL hns hms]

end

/-! ## §3. Parts of trees that compare. -/

/-- The node at a place compares to the node at that place. -/
theorem AlikeAll.getElem? {L : Likeness} {first : Option Text} {ns ms : List Node}
    (h : AlikeAll L first ns ms) {i : Nat} {n : Node} (hn : ns[i]? = some n) :
    ∃ m, ms[i]? = some m ∧ Alike L (if i = 0 then first else none) n m := by
  induction ns generalizing first ms i with
  | nil => simp at hn
  | cons n' ns ih =>
    obtain ⟨m, ms', rfl, hm, hms⟩ := h
    cases i with
    | zero =>
      obtain rfl : n' = n := by simpa using hn
      exact ⟨m, rfl, hm⟩
    | succ i =>
      obtain ⟨k, hk, halike⟩ := ih hms (by simpa using hn)
      refine ⟨k, hk, ?_⟩
      rw [if_neg (Nat.succ_ne_zero i)]
      -- only the first of the list stands under `first`, the rest are compared without
      -- it
      by_cases hi : i = 0
      · rwa [if_pos hi] at halike
      · rwa [if_neg hi] at halike

/-- Elements that compare, as the nodes do that they are. -/
def ElementAlike (L : Likeness) (e e' : Element) : Prop :=
  e.tag.Alike L e'.tag ∧ AlikeAll L (some e.tag.name) e.children e'.children ∧
    Option.Rel L.span e.close e'.close

mutual

/-- The elements of trees that compare do so one by one. -/
theorem Alike.descendants {L : Likeness} {first : Option Text} {n m : Node}
    (h : Alike L first n m) :
    List.Forall₂ (ElementAlike L) (Node.descendants n) (Node.descendants m) := by
  cases n with
  | element tag children close =>
    obtain ⟨tag', children', close', rfl, htag, hchildren, hclose⟩ := h
    exact .cons ⟨htag, hchildren, hclose⟩ (AlikeAll.descendantsOf hchildren)
  | text d =>
    obtain ⟨d', rfl, -⟩ := h
    exact .nil
  | comment v s =>
    obtain ⟨s', rfl, -⟩ := h
    exact .nil
  | instruction v s =>
    obtain ⟨s', rfl, -⟩ := h
    exact .nil
  | doctype v s =>
    obtain ⟨s', rfl, -⟩ := h
    exact .nil

/-- So do the elements of trees side by side. -/
theorem AlikeAll.descendantsOf {L : Likeness} {first : Option Text} {ns ms : List Node}
    (h : AlikeAll L first ns ms) :
    List.Forall₂ (ElementAlike L) (Node.descendantsOf ns) (Node.descendantsOf ms) := by
  cases ns with
  | nil =>
    obtain rfl : ms = [] := h
    exact .nil
  | cons n ns =>
    obtain ⟨m, ms', rfl, hm, hms⟩ := h
    exact List.rel_append (Alike.descendants hm) (AlikeAll.descendantsOf hms)

end

end Node

/-- Members of lists that compare do so one by one. -/
theorem forall₂_getElem? {α : Type} {R : α → α → Prop} {as bs : List α} (h : List.Forall₂ R as bs)
    {i : Nat} {a : α} (ha : as[i]? = some a) : ∃ b, bs[i]? = some b ∧ R a b := by
  induction h generalizing i with
  | nil => simp at ha
  | cons hab _ ih =>
    cases i with
    | zero =>
      obtain rfl := by simpa using ha
      exact ⟨_, rfl, hab⟩
    | succ i => exact ih (by simpa using ha)

end QwebReceiver.Markup
