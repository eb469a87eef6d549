import QwebReceiver.Proofs.Markup.RoundTrip

/-!
  QwebReceiver.Proofs.Markup.Edit — setting values, writing out, reading back.

  An edit sets the value of an attribute or the leading text of one element,
  which goes by its place in document order.  A sequence of edits changes the
  values it sets and nothing else (`alike_applyAll`, `heads_apply`), so the
  document that is written out is read back as it stands
  (`parse_render_applyAll`).
-/

namespace QwebReceiver.Markup

open QwebReceiver.Text

/-! ## §1. Edits. -/

/-- The character data at the start of some nodes.  Only data that stands there
can be set as the text of an element. -/
def leadingData? : List Node → Option CharData
  | .text data :: _ => some data
  | _ => none

/-- A value set in the `k`-th element of a document, counted in document order. -/
inductive Edit where
  | setAttribute (k : Nat) (name value : Text)
  | setText (k : Nat) (value : Text)

namespace Edit

/-- The element that an edit is made in. -/
def element : Edit → Nat
  | .setAttribute k _ _ => k
  | .setText k _ => k

/-- What an edit does to its element.  An attribute that is not there is not
added. -/
def onNode : Edit → Node → Draft Empty Node
  | .setAttribute _ name value => Node.editTag fun t => .done (t.set name value)
  | .setText _ value => fun n => .done (n.setLeadingText value)

/-- The document with the value set; an element that is not there sets none. -/
def apply (d : Document) (e : Edit) : Document :=
  match d.editAt? e.onNode e.element with
  | none => d
  | some draft => draft.value

/-- A text that is set can be written where it stands: it is not empty, and in a
CDATA section it does not hold the end of the section.  Attributes take every
value. -/
def Admissible (d : Document) : Edit → Prop
  | .setAttribute _ _ _ => True
  | .setText k value => ∀ e data, d.elements[k]? = some e → leadingData? e.children = some data →
      CharData.Writable { data with value }

/-- All values set, from the first to the last.  Setting the same value again
lets the last one count. -/
def applyAll (d : Document) (edits : List Edit) : Document := edits.foldl apply d

/-- Every text can be written where it is set, as the document is when its turn
comes. -/
def AdmissibleAll (d : Document) : List Edit → Prop
  | [] => True
  | e :: edits => e.Admissible d ∧ AdmissibleAll (e.apply d) edits

end Edit

/-! ## §2. What an edit changes. -/

namespace Node

variable {ε : Type} {f : Node → Draft ε Node}

mutual

/-- A node that lacks the `k`-th element has fewer elements, and answers by how
many. -/
theorem length_of_editAt_error {k left : Nat} (n : Node) (h : editAt f k n = .error left) :
    k = (descendants n).length + left := by
  cases n with
  | element tag children close =>
    cases k with
    | zero => simp [editAt] at h
    | succ k =>
      simp only [editAt] at h
      split at h
      · next l hl =>
        cases h
        have hk := length_of_editAtOf_error children hl
        simp only [descendants, List.length_cons]
        omega
      · cases h
  | text d => simpa [editAt, descendants] using h
  | comment v s => simpa [editAt, descendants] using h
  | instruction v s => simpa [editAt, descendants] using h
  | doctype v s => simpa [editAt, descendants] using h

/-- The same of nodes side by side, which are gone through with what is left. -/
theorem length_of_editAtOf_error {k left : Nat} (ns : List Node)
    (h : editAtOf f k ns = .error left) : k = (descendantsOf ns).length + left := by
  cases ns with
  | nil => simpa [editAtOf, descendantsOf] using h
  | cons n ns =>
    simp only [editAtOf] at h
    -- the index passes over the elements of each node and comes out smaller by their
    -- number
    split at h
    · cases h
    · next l hl =>
      split at h
      · next l' hl' =>
        cases h
        have hn := length_of_editAt_error n hl
        have hns := length_of_editAtOf_error ns hl'
        simp only [descendantsOf, List.length_append]
        omega
      · cases h

end

mutual

/-- If the edit of the `k`-th element compares, so does the whole tree. -/
theorem alike_editAt {L : Likeness} (hL : L.Refl) {k : Nat} {first : Option Text} (n : Node)
    {d : Draft ε Node} (h : editAt f k n = .ok d)
    (hf : ∀ e, (descendants n)[k]? = some e → ∀ first, Alike L first
      (.element e.tag e.children e.close) (f (.element e.tag e.children e.close)).value) :
    Alike L first n d.value := by
  cases n with
  | element tag children close =>
    -- the element itself is edited, or one below it
    cases k with
    | zero =>
      simp only [editAt, Except.ok.injEq] at h
      subst h
      exact hf ⟨tag, children, close⟩ rfl first
    | succ k =>
      simp only [editAt] at h
      split at h
      · cases h
      · next draft hdraft =>
        cases h
        exact ⟨tag, draft.value, close, rfl, Tag.Alike.refl hL tag,
          alike_editAtOf hL children hdraft (fun e he => hf e he), close_refl hL close⟩
  | text d => cases h
  | comment v s => cases h
  | instruction v s => cases h
  | doctype v s => cases h

/-- The same of nodes side by side: the nodes before and after the edited one
stay. -/
theorem alike_editAtOf {L : Likeness} (hL : L.Refl) {k : Nat} {first : Option Text}
    (ns : List Node) {d : Draft ε (List Node)} (h : editAtOf f k ns = .ok d)
    (hf : ∀ e, (descendantsOf ns)[k]? = some e → ∀ first, Alike L first
      (.element e.tag e.children e.close) (f (.element e.tag e.children e.close)).value) :
    AlikeAll L first ns d.value := by
  cases ns with
  | nil => cases h
  | cons n ns =>
    simp only [editAtOf] at h
    split at h
    · next draft hdraft =>
      cases h
      refine ⟨draft.value, ns, rfl, alike_editAt hL n hdraft ?_, AlikeAll.refl hL none ns⟩
      intro e he
      apply hf e
      rw [descendantsOf, List.getElem?_append_left (List.getElem?_eq_some_iff.1 he).1]
      exact he
    · next left hleft =>
      split at h
      · cases h
      · next draft hdraft =>
        cases h
        refine ⟨n, draft.value, rfl, Alike.refl hL first n, alike_editAtOf hL ns hdraft ?_⟩
        intro e he
        apply hf e
        -- the index that is left counts from the end of the elements of `n`
        rw [descendantsOf, length_of_editAt_error n hleft,
          List.getElem?_append_right (Nat.le_add_right _ _), Nat.add_sub_cancel_left]
        exact he

end

/-- What an edit can change of an element: its tag and the text at its start.
The heads of all elements, in document order, are what a sequence of edits works
on. -/
def headOf (e : Element) : Tag × Option CharData := (e.tag, leadingData? e.children)

/-- The edit of an element changes its head by `g` and no element below it.  The
head is its tag and the text it starts with. -/
def ChangesHead (f : Node → Draft ε Node) (g : Tag × Option CharData → Tag × Option CharData) :
    Prop :=
  ∀ tag children close, ∃ tag' children',
    (f (.element tag children close)).value = .element tag' children' close ∧
    (tag', leadingData? children') = g (tag, leadingData? children) ∧
    descendantsOf children' = descendantsOf children

/-- To change a member of the first of two lists leaves the second alone. -/
theorem modify_append_left {α : Type} {g : α → α} {k : Nat} {xs : List α} (h : k < xs.length)
    (ys : List α) : (xs ++ ys).modify k g = xs.modify k g ++ ys := by
  induction xs generalizing k with
  | nil => exact absurd h (Nat.not_lt_zero k)
  | cons x xs ih =>
    cases k with
    | zero => rfl
    | succ k =>
      rw [List.cons_append, List.modify_succ_cons, List.modify_succ_cons,
        ih (Nat.lt_of_succ_lt_succ h), List.cons_append]

/-- To change a member of the second of two lists leaves the first alone. -/
theorem modify_append_right {α : Type} (g : α → α) (k : Nat) (xs ys : List α) :
    (xs ++ ys).modify (xs.length + k) g = xs ++ ys.modify k g := by
  induction xs with
  | nil => simp
  | cons x xs ih =>
    rw [List.length_cons, Nat.succ_add, List.cons_append, List.modify_succ_cons, ih, List.cons_append]

mutual

/-- An edit changes the head of its element alone. -/
theorem heads_editAt {g : Tag × Option CharData → Tag × Option CharData} (hf : ChangesHead f g)
    {k : Nat} (n : Node) {d : Draft ε Node} (h : editAt f k n = .ok d) :
    (descendants d.value).map headOf = ((descendants n).map headOf).modify k g ∧
      k < (descendants n).length ∧ ∀ ns, leadingData? (d.value :: ns) = leadingData? (n :: ns) := by
  cases n with
  | element tag children close =>
    cases k with
    | zero =>
      simp only [editAt, Except.ok.injEq] at h
      subst h
      obtain ⟨tag', children', hvalue, hhead, hbelow⟩ := hf tag children close
      rw [hvalue]
      refine ⟨?_, Nat.succ_pos _, fun _ => rfl⟩
      simp only [descendants, List.map_cons, hbelow, List.modify_zero_cons, headOf, hhead]
    | succ k =>
      simp only [editAt] at h
      split at h
      · cases h
      · next draft hdraft =>
        cases h
        -- an edit below leaves the head of this element, as it keeps the text the
        -- children start with
        obtain ⟨hheads, hlt, hleading⟩ := heads_editAtOf hf children hdraft
        refine ⟨?_, Nat.succ_lt_succ hlt, fun _ => rfl⟩
        simp only [Draft.map, descendants, List.map_cons, hheads, List.modify_succ_cons, headOf,
          hleading]
  | text d => cases h
  | comment v s => cases h
  | instruction v s => cases h
  | doctype v s => cases h

/-- The same of nodes side by side; the text at their start stays too, as it
belongs to no element among them. -/
theorem heads_editAtOf {g : Tag × Option CharData → Tag × Option CharData} (hf : ChangesHead f g)
    {k : Nat} (ns : List Node) {d : Draft ε (List Node)} (h : editAtOf f k ns = .ok d) :
    (descendantsOf d.value).map headOf = ((descendantsOf ns).map headOf).modify k g ∧
      k < (descendantsOf ns).length ∧ leadingData? d.value = leadingData? ns := by
  cases ns with
  | nil => cases h
  | cons n ns =>
    simp only [editAtOf] at h
    split at h
    · next draft hdraft =>
      cases h
      obtain ⟨hheads, hlt, hleading⟩ := heads_editAt hf n hdraft
      have hlt' : k < ((descendants n).map headOf).length := by rwa [List.length_map]
      refine ⟨?_, ?_, hleading ns⟩
      · simp only [Draft.map, descendantsOf, List.map_append, hheads, modify_append_left hlt']
      · rw [descendantsOf, List.length_append]
        omega
    · next left hleft =>
      split at h
      · cases h
      · next draft hdraft =>
        cases h
        obtain ⟨hheads, hlt, -⟩ := heads_editAtOf hf ns hdraft
        -- the edit falls behind `n`, at the index that is left
        obtain rfl := length_of_editAt_error n hleft
        have happ := modify_append_right g left ((descendants n).map headOf)
          ((descendantsOf ns).map headOf)
        rw [List.length_map] at happ
        refine ⟨?_, ?_, ?_⟩
        · simp only [Draft.map, descendantsOf, List.map_append, hheads, happ]
        · rw [descendantsOf, List.length_append]
          omega
        · cases n <;> rfl

end

end Node

namespace Edit

/-- What an edit does to the head of its element. -/
def onHead (head : Tag × Option CharData) : Edit → Tag × Option CharData
  | .setAttribute _ name value => (head.1.set name value, head.2)
  | .setText _ value => (head.1, head.2.map fun data => { data with value })

/-- The edits of an element change its head alone. -/
theorem changesHead (e : Edit) : Node.ChangesHead e.onNode fun head => e.onHead head := by
  intro tag children close
  cases e with
  | setAttribute k name value => exact ⟨tag.set name value, children, rfl, rfl, rfl⟩
  | setText k value =>
    cases children with
    | nil => exact ⟨tag, [], rfl, rfl, rfl⟩
    | cons n rest =>
      cases n with
      | text data => exact ⟨tag, .text { data with value } :: rest, rfl, rfl, rfl⟩
      | element t c s => exact ⟨tag, _, rfl, rfl, rfl⟩
      | comment v s => exact ⟨tag, _, rfl, rfl, rfl⟩
      | instruction v s => exact ⟨tag, _, rfl, rfl, rfl⟩
      | doctype v s => exact ⟨tag, _, rfl, rfl, rfl⟩

/-- The heads of a document after an edit: that of the edited element is another
one.  An edit of an element that is not there changes none of them. -/
theorem heads_apply (d : Document) (e : Edit) :
    (e.apply d).elements.map Node.headOf =
      (d.elements.map Node.headOf).modify e.element fun head => e.onHead head := by
  unfold apply Document.editAt?
  cases h : Node.editAtOf e.onNode e.element d.nodes with
  | error left =>
    have hlength : d.elements.length ≤ e.element := by
      rw [Node.length_of_editAtOf_error d.nodes h]
      exact Nat.le_add_right _ _
    exact (List.modify_eq_self (by rwa [List.length_map])).symm
  | ok draft => exact (Node.heads_editAtOf e.changesHead d.nodes h).1

/-- **One edit**: an element keeps its head, unless it is the one that is
edited.  No edit adds an element or takes one away, so the numbers stay. -/
theorem head_apply {d : Document} (e : Edit) {k : Nat} {x : Element}
    (hx : d.elements[k]? = some x) :
    ∃ y, (e.apply d).elements[k]? = some y ∧
      Node.headOf y = if e.element = k then e.onHead (Node.headOf x) else Node.headOf x := by
  have hget : ((e.apply d).elements.map Node.headOf)[k]? =
      some (if e.element = k then e.onHead (Node.headOf x) else Node.headOf x) := by
    rw [heads_apply, List.getElem?_modify, List.getElem?_map, hx]
    rfl
  rw [List.getElem?_map] at hget
  exact Option.map_eq_some_iff.1 hget

/-- Setting an attribute leaves those of other names in their places. -/
theorem getElem?_set_of_ne {t : Tag} {name value : Text} {i : Nat} {a : Attribute}
    (ha : t.attributes[i]? = some a) (hn : a.name ≠ name) :
    (t.set name value).attributes[i]? = some a := by
  show (Tag.set.go name value t.attributes)[i]? = some a
  generalize t.attributes = as at ha
  induction as generalizing i with
  | nil => simp at ha
  | cons b as ih =>
    unfold Tag.set.go
    cases i with
    | zero =>
      obtain rfl : b = a := by simpa using ha
      rw [if_neg hn]
      rfl
    | succ i =>
      have ha' : as[i]? = some a := by simpa using ha
      -- the first attribute of the name is set, which is not the one at `i`
      split
      · simpa using ha'
      · simpa using ih ha'

/-- Edits keep the attributes they do not set, with their spellings. -/
theorem attribute_applyAll {d : Document} {edits : List Edit} {k i : Nat} {x : Element}
    {a : Attribute} (hx : d.elements[k]? = some x) (ha : x.tag.attributes[i]? = some a)
    (hset : ∀ value, setAttribute k a.name value ∉ edits) :
    ∃ y, (applyAll d edits).elements[k]? = some y ∧ y.tag.attributes[i]? = some a := by
  induction edits generalizing d x with
  | nil => exact ⟨x, hx, ha⟩
  | cons e edits ih =>
    obtain ⟨y, hy, hhead⟩ := head_apply e hx
    -- one edit leaves the attribute, and those that follow do not set it either
    refine ih hy ?_ fun value hmem => hset value (List.mem_cons_of_mem _ hmem)
    split at hhead
    · next hk =>
      subst hk
      cases e with
      | setText k value =>
        rw [show y.tag = x.tag from congrArg Prod.fst hhead]
        exact ha
      | setAttribute k name value =>
        rw [show y.tag = x.tag.set name value from congrArg Prod.fst hhead]
        apply getElem?_set_of_ne ha
        rintro rfl
        exact hset value List.mem_cons_self
    · rw [show y.tag = x.tag from congrArg Prod.fst hhead]
      exact ha

/-- Edits keep the leading texts they do not set, with their spellings. -/
theorem text_applyAll {d : Document} {edits : List Edit} {k : Nat} {x : Element} {t : CharData}
    (hx : d.elements[k]? = some x) (ht : leadingData? x.children = some t)
    (hset : ∀ value, setText k value ∉ edits) :
    ∃ y, (applyAll d edits).elements[k]? = some y ∧ leadingData? y.children = some t := by
  induction edits generalizing d x with
  | nil => exact ⟨x, hx, ht⟩
  | cons e edits ih =>
    obtain ⟨y, hy, hhead⟩ := head_apply e hx
    refine ih hy ?_ fun value hmem => hset value (List.mem_cons_of_mem _ hmem)
    split at hhead
    · next hk =>
      subst hk
      cases e with
      | setAttribute k name value => exact (congrArg Prod.snd hhead).trans ht
      | setText k value => exact absurd List.mem_cons_self (hset value)
    · exact (congrArg Prod.snd hhead).trans ht

/-! The values that edits leave. -/

/-- The value that an edit gives to an attribute of the `k`-th element.  Edits
elsewhere and of other names give none. -/
def attributeValue? (k : Nat) (name : Text) : Edit → Option Text
  | .setAttribute k' name' value => if k' = k ∧ name' = name then some value else none
  | .setText _ _ => none

/-- The value that an edit gives to the leading text of the `k`-th element.
Edits elsewhere give none. -/
def textValue? (k : Nat) : Edit → Option Text
  | .setAttribute _ _ _ => none
  | .setText k' value => if k' = k then some value else none

/-- The value that edits leave: the last one of those that are given, or else
the old one. -/
def lastValue (given : Edit → Option Text) (edits : List Edit) (old : Text) : Text :=
  (edits.filterMap given).getLastD old

/-- The value that the first of some edits gives is the old one for those that
follow. -/
theorem lastValue_cons (given : Edit → Option Text) (e : Edit) (edits : List Edit) (old : Text) :
    lastValue given (e :: edits) old = lastValue given edits ((given e).getD old) := by
  unfold lastValue
  cases h : given e with
  | none => rw [List.filterMap_cons_none h, Option.getD_none]
  | some value => rw [List.filterMap_cons_some h, List.getLastD_cons, Option.getD_some]

/-- A value that is set is the one that is read, if the attribute is there. -/
theorem get?_set (t : Tag) (name value other : Text) :
    (t.set name value).get? other =
      if name = other then (t.get? other).map fun _ => value else t.get? other := by
  show ((Tag.set.go name value t.attributes).find? fun a => a.name = other).map Attribute.value = _
  unfold Tag.get?
  induction t.attributes with
  | nil => simp [Tag.set.go]
  | cons a as ih =>
    unfold Tag.set.go
    by_cases hname : a.name = name
    · -- the first attribute of that name is the one that is set
      rw [if_pos hname]
      by_cases hother : name = other
      · simp [hname, hother]
      · have hne : a.name ≠ other := fun h => hother (hname.symm.trans h)
        simp [hne, hother]
    · rw [if_neg hname]
      by_cases hother : a.name = other
      · have hne : name ≠ other := fun h => hname (hother.trans h.symm)
        simp [hother, hne]
      · simpa [hother] using ih

/-- The text at the start of an element is the value of the character data
there. -/
theorem leadingText?_eq (e : Element) :
    e.leadingText? = (leadingData? e.children).map CharData.value := by
  unfold Element.leadingText?
  cases e.children with
  | nil => rfl
  | cons n rest => cases n <;> rfl

/-- What an edit does to the values of the element that it is made in. -/
theorem values_onHead (e : Edit) (head : Tag × Option CharData) :
    (∀ name, (e.onHead head).1.get? name =
      (head.1.get? name).map (e.attributeValue? e.element name).getD) ∧
    (e.onHead head).2.map CharData.value =
      (head.2.map CharData.value).map (e.textValue? e.element).getD := by
  cases e with
  | setAttribute k name value =>
    refine ⟨fun other => ?_, Option.map_id'.symm⟩
    -- setting an attribute changes the value read under its name alone, and adds none
    rw [onHead, get?_set, attributeValue?]
    by_cases hname : name = other
    · rw [if_pos hname, if_pos ⟨rfl, hname⟩]
      rfl
    · rw [if_neg hname, if_neg fun h => hname h.2]
      exact Option.map_id'.symm
  | setText k value =>
    refine ⟨fun _ => Option.map_id'.symm, ?_⟩
    rw [onHead, textValue?, element, if_pos rfl, Option.map_map, Option.map_map]
    rfl

/-- An edit of another element gives no value to the attributes of this one. -/
theorem attributeValue?_of_ne {e : Edit} {k : Nat} (h : e.element ≠ k) (name : Text) :
    e.attributeValue? k name = none := by
  cases e with
  | setAttribute k' name' value => exact if_neg fun hboth => h hboth.1
  | setText k' value => rfl

/-- An edit of another element gives no value to the text of this one. -/
theorem textValue?_of_ne {e : Edit} {k : Nat} (h : e.element ≠ k) : e.textValue? k = none := by
  cases e with
  | setAttribute k' name value => rfl
  | setText k' value => exact if_neg h

/-- What one edit does to the values of an element. -/
theorem values_apply {d : Document} (e : Edit) {k : Nat} {x : Element}
    (hx : d.elements[k]? = some x) :
    ∃ y, (e.apply d).elements[k]? = some y ∧
      (∀ name, y.tag.get? name = (x.tag.get? name).map (e.attributeValue? k name).getD) ∧
      y.leadingText? = x.leadingText?.map (e.textValue? k).getD := by
  obtain ⟨y, hy, hhead⟩ := head_apply e hx
  refine ⟨y, hy, ?_⟩
  rw [leadingText?_eq, leadingText?_eq, show y.tag = (Node.headOf y).1 from rfl,
    show leadingData? y.children = (Node.headOf y).2 from rfl, hhead]
  -- an edit of another element leaves the head of this one
  by_cases hk : e.element = k
  · subst hk
    rw [if_pos rfl]
    exact values_onHead e (Node.headOf x)
  · rw [if_neg hk, textValue?_of_ne hk]
    refine ⟨fun name => ?_, Option.map_id'.symm⟩
    rw [attributeValue?_of_ne hk]
    exact Option.map_id'.symm

/-- **All edits**: each value of an element is the last one that it was given.
A value that is not there is not added by any edit. -/
theorem values_applyAll {d : Document} (edits : List Edit) {k : Nat} {x : Element}
    (hx : d.elements[k]? = some x) :
    ∃ y, (applyAll d edits).elements[k]? = some y ∧
      (∀ name, y.tag.get? name = (x.tag.get? name).map (lastValue (attributeValue? k name) edits)) ∧
      y.leadingText? = x.leadingText?.map (lastValue (textValue? k) edits) := by
  induction edits generalizing d x with
  | nil =>
    exact ⟨x, hx, fun _ => Option.map_id'.symm,
      Option.map_id'.symm⟩
  | cons e edits ih =>
    obtain ⟨y, hy, htag, htext⟩ := values_apply e hx
    -- the values after the first edit are the old ones for the edits that follow
    obtain ⟨z, hz, htag', htext'⟩ := ih hy
    refine ⟨z, hz, fun name => ?_, ?_⟩
    · rw [htag', htag, Option.map_map]
      exact Option.map_congr fun old _ => (lastValue_cons _ e edits old).symm
    · rw [htext', htext, Option.map_map]
      exact Option.map_congr fun old _ => (lastValue_cons _ e edits old).symm

/-! ## §3. Edited documents compare. -/

/-- The attributes of a tag with one value set. -/
theorem alike_set (t : Tag) (name value : Text) : t.Alike Likeness.edited (t.set name value) := by
  refine ⟨rfl, ?_, rfl⟩
  show List.Forall₂ _ t.attributes (Tag.set.go name value t.attributes)
  induction t.attributes with
  | nil => exact .nil
  | cons a as ih =>
    unfold Tag.set.go
    split
    · exact .cons ⟨value, rfl⟩ (List.forall₂_same.2 fun b _ => ⟨b.value, rfl⟩)
    · exact .cons ⟨a.value, rfl⟩ ih

/-- An edit changes values alone. -/
theorem alike_apply {d : Document} {e : Edit} (h : e.Admissible d) :
    Node.AlikeAll Likeness.edited none d.nodes (e.apply d).nodes := by
  have hrefl := Likeness.edited_refl
  unfold apply Document.editAt?
  cases hedit : Node.editAtOf e.onNode e.element d.nodes with
  | error left => exact Node.AlikeAll.refl hrefl none d.nodes
  | ok draft =>
    refine Node.alike_editAtOf hrefl d.nodes hedit ?_
    intro x hx first
    cases e with
    | setAttribute k name value =>
      exact ⟨_, _, _, rfl, alike_set x.tag name value, Node.AlikeAll.refl hrefl _ _,
        close_refl hrefl _⟩
    -- a text is set only where the first child is one
    | setText k value =>
      have hwritable := h x
      obtain ⟨tag, children, close⟩ := x
      cases children with
      | nil => exact Node.Alike.refl hrefl first _
      | cons n rest =>
        cases n with
        | text data =>
          refine ⟨tag, .text { data with value } :: rest, close, rfl, Tag.Alike.refl hrefl tag, ?_,
            close_refl hrefl close⟩
          refine ⟨_, rest, rfl, ⟨_, rfl, ⟨value, rfl⟩, fun _ => hwritable data hx rfl, ?_⟩,
            Node.AlikeAll.refl hrefl none rest⟩
          intro hnone
          cases hnone
        | element t c s => exact Node.Alike.refl hrefl first _
        | comment v s => exact Node.Alike.refl hrefl first _
        | instruction v s => exact Node.Alike.refl hrefl first _
        | doctype v s => exact Node.Alike.refl hrefl first _

/-- Edits change values alone, so the document keeps its shape, its names and
its quotes. -/
theorem alike_applyAll {d : Document} {edits : List Edit} (h : AdmissibleAll d edits) :
    Node.AlikeAll Likeness.edited none d.nodes (applyAll d edits).nodes := by
  induction edits generalizing d with
  | nil => exact Node.AlikeAll.refl Likeness.edited_refl none d.nodes
  | cons e edits ih => exact ((alike_apply h.1).trans (ih h.2)).mono Likeness.edited_trans

/-- An edit leaves the source of the document alone. -/
theorem source_apply (d : Document) (e : Edit) : (e.apply d).source = d.source := by
  unfold apply Document.editAt?
  cases Node.editAtOf e.onNode e.element d.nodes with
  | error left => rfl
  | ok draft => rfl

/-- Edits leave the source of the document alone; the writer takes from there
what they did not touch. -/
theorem source_applyAll (d : Document) (edits : List Edit) :
    (applyAll d edits).source = d.source := by
  induction edits generalizing d with
  | nil => rfl
  | cons e edits ih => exact (ih (e.apply d)).trans (source_apply d e)

end Edit

/-! ## §4. The round trip. -/

/-- The values that the edits do not set are spelled in both documents alike:
attributes, the texts in an element, and the texts outside of any element. -/
def SpellsUnsetAlike (edits : List Edit) (d d₂ : Document) : Prop :=
  (∀ (k : Nat) (x x₂ : Element), d.elements[k]? = some x → d₂.elements[k]? = some x₂ →
    (∀ (i : Nat) (a : Attribute), x.tag.attributes[i]? = some a →
      (∀ value, Edit.setAttribute k a.name value ∉ edits) →
      ∃ a₂, x₂.tag.attributes[i]? = some a₂ ∧ a₂.spelling = a.spelling) ∧
    (∀ (i : Nat) (t : CharData), x.children[i]? = some (.text t) →
      (i = 0 → ∀ value, Edit.setText k value ∉ edits) →
      ∃ t₂, x₂.children[i]? = some (.text t₂) ∧ t₂.spelling = t.spelling)) ∧
  ∀ (i : Nat) (t : CharData), d.nodes[i]? = some (.text t) →
    ∃ t₂, d₂.nodes[i]? = some (.text t₂) ∧ t₂.spelling = t.spelling

/-- The values that are read back are those that the edits leave: for each
attribute and each leading text of the document the last value that it was
given, or the old one. -/
def ReadsBack (edits : List Edit) (d d₂ : Document) : Prop :=
  ∀ (k : Nat) (x : Element), d.elements[k]? = some x → ∃ x₂, d₂.elements[k]? = some x₂ ∧
    (∀ name, x₂.tag.get? name =
      (x.tag.get? name).map (Edit.lastValue (Edit.attributeValue? k name) edits)) ∧
    x₂.leadingText? = x.leadingText?.map (Edit.lastValue (Edit.textValue? k) edits)

/-- A tag that is read again has the same values. -/
theorem get?_of_reread {t u : Tag} (h : t.Alike Likeness.reread u) (name : Text) :
    u.get? name = t.get? name := by
  have hattributes := h.attributes
  unfold Tag.get?
  generalize t.attributes = as, u.attributes = bs at hattributes
  induction hattributes with
  | nil => rfl
  | @cons a b _ _ hab _ ih =>
    obtain ⟨hname, -, hvalue, -⟩ := hab
    by_cases ha : a.name = name
    · simp [ha, hname, hvalue]
    · simpa [ha, hname] using ih

/-- The text at the start of an element that is read again is the same. -/
theorem leadingText?_of_reread {x y : Element} {first : Option Text}
    (h : Node.AlikeAll Likeness.reread first x.children y.children) :
    y.leadingText? = x.leadingText? := by
  obtain ⟨xtag, xchildren, xclose⟩ := x
  obtain ⟨ytag, ychildren, yclose⟩ := y
  cases xchildren with
  | nil =>
    obtain rfl : ychildren = [] := h
    rfl
  | cons n ns =>
    obtain ⟨m, ms, rfl, hm, -⟩ := h
    -- a text is re-read as a text of the same value, any other child as one of its own
    -- kind
    cases n with
    | text data =>
      obtain ⟨data', rfl, -, hvalue, -⟩ := hm
      exact congrArg some hvalue
    | element tag children close =>
      obtain ⟨_, _, _, rfl, -⟩ := hm
      rfl
    | comment v s =>
      obtain ⟨_, rfl, -⟩ := hm
      rfl
    | instruction v s =>
      obtain ⟨_, rfl, -⟩ := hm
      rfl
    | doctype v s =>
      obtain ⟨_, rfl, -⟩ := hm
      rfl

/-- A text that was not changed is spelled as before. -/
theorem text_spelling_of_reread {ns ns' : List Node} {first : Option Text} {i : Nat}
    {t : CharData} (h : Node.AlikeAll Likeness.reread first ns ns')
    (ht : ns[i]? = some (.text t)) (hm : t.isModified = false) :
    ∃ t₂, ns'[i]? = some (.text t₂) ∧ t₂.spelling = t.spelling := by
  obtain ⟨_, hm₂, t₂, rfl, hreread⟩ := h.getElem? ht
  exact ⟨t₂, hm₂, hreread.2.2 hm⟩

/-- A text that does not start the content of an element is not edited. -/
theorem text_of_edited {ns ns' : List Node} {first : Option Text} {i : Nat} {t : CharData}
    (h : Node.AlikeAll Likeness.edited first ns ns') (ht : ns[i]? = some (.text t))
    (hi : i = 0 → first = none) : ns'[i]? = some (.text t) := by
  obtain ⟨_, hm, t', rfl, -, -, hsame⟩ := h.getElem? ht
  rw [hm, hsame (by split; exacts [hi ‹_›, rfl])]

/-- A text of a document that was just read is not changed. -/
theorem isModified_of_fresh {ns : List Node} {first : Option Text} {i : Nat} {t : CharData}
    (h : Node.AlikeAll Likeness.fresh first ns ns) (ht : ns[i]? = some (.text t)) :
    t.isModified = false := by
  obtain ⟨_, -, t', -, -, hm⟩ := h.getElem? ht
  exact hm

/-- The text at the start of some nodes is the first of them. -/
theorem leadingData?_eq_some {ns : List Node} {t : CharData} :
    leadingData? ns = some t ↔ ns[0]? = some (.text t) := by
  cases ns with
  | nil => simp [leadingData?]
  | cons n ns => cases n <;> simp [leadingData?]

/-- The values of the edited document are those that are read back. -/
theorem readsBack_of_reread {d d₂ : Document} (edits : List Edit)
    (h : Node.AlikeAll Likeness.reread none (Edit.applyAll d edits).nodes d₂.nodes) :
    ReadsBack edits d d₂ := by
  intro k x hx
  obtain ⟨y, hy, htag, htext⟩ := Edit.values_applyAll edits hx
  obtain ⟨x₂, hx₂, halike⟩ := forall₂_getElem? h.descendantsOf hy
  refine ⟨x₂, hx₂, fun name => (get?_of_reread halike.1 name).trans (htag name), ?_⟩
  rw [← htext]
  exact leadingText?_of_reread halike.2.1

/-- Whatever values are set, the document that is written out is read back: the
tree is the edited one, each value is the last one that it was given, and the
values that were not set are spelled as before. -/
theorem parse_render_applyAll {source : Source} {d : Document}
    (h : Document.parse source = .ok d) (edits : List Edit)
    (hadmissible : Edit.AdmissibleAll d edits) (url : Text) :
    ∃ d₂, Document.parse ⟨(Edit.applyAll d edits).render, url⟩ = .ok d₂ ∧
      Node.AlikeAll Likeness.reread none (Edit.applyAll d edits).nodes d₂.nodes ∧
      ReadsBack edits d d₂ ∧ SpellsUnsetAlike edits d d₂ := by
  have hedited := Edit.alike_applyAll hadmissible
  have hfresh := fresh_of_parse h
  obtain ⟨d₂, hparse, hreread⟩ :=
    exists_parse_render h (Edit.source_applyAll d edits) hedited url
  refine ⟨d₂, hparse, hreread, readsBack_of_reread edits hreread, ?_, ?_⟩
  · intro k x x₂ hx hx₂
    obtain ⟨_, hxf, hxfresh⟩ := forall₂_getElem? hfresh.descendantsOf hx
    obtain ⟨y, hy, hxy⟩ := forall₂_getElem? hedited.descendantsOf hx
    obtain ⟨_, hz, hyz⟩ := forall₂_getElem? hreread.descendantsOf hy
    obtain rfl := Option.some.inj (hxf.symm.trans hx)
    obtain rfl := Option.some.inj (hz.symm.trans hx₂)
    -- what no edit sets keeps its value and its spelling through the edits, and the
    -- re-read text spells it the same
    constructor
    · intro i a ha hset
      obtain ⟨w, hw, haw⟩ := Edit.attribute_applyAll hx ha hset
      obtain rfl := Option.some.inj (hw.symm.trans hy)
      obtain ⟨_, -, -, hm⟩ := forall₂_getElem? hxfresh.1.attributes ha
      obtain ⟨a₂, ha₂, hra⟩ := forall₂_getElem? hyz.1.attributes haw
      exact ⟨a₂, ha₂, hra.2.2.2 hm⟩
    · intro i t ht hset
      have hm := isModified_of_fresh hxfresh.2.1 ht
      have hty : y.children[i]? = some (.text t) := by
        by_cases hi : i = 0
        · subst hi
          obtain ⟨w, hw, htw⟩ := Edit.text_applyAll hx (leadingData?_eq_some.2 ht) (hset rfl)
          obtain rfl := Option.some.inj (hw.symm.trans hy)
          exact leadingData?_eq_some.1 htw
        · exact text_of_edited hxy.2.1 ht fun hzero => absurd hzero hi
      exact text_spelling_of_reread hyz.2.1 hty hm
  · intro i t ht
    exact text_spelling_of_reread hreread (text_of_edited hedited ht fun _ => rfl)
      (isModified_of_fresh hfresh ht)

/-- The derivation of `<a b="&amp;">t</a>`. -/
def sampleForms : List Form :=
  [.element ⟨['a'], [⟨[' '], ['b'], [], [], '"', [.reference "&amp;".toList '&']⟩], []⟩
    [.leaf (.text [.plain 't'])] []]

/-- The derivation is one of that text. -/
theorem derives_sampleForms : Derives "<a b=\"&amp;\">t</a>".toList sampleForms := by
  have hname : ∀ c, isNameStart c = true → IsName [c] := fun c hc => ⟨c, [], rfl, hc, by simp⟩
  refine ⟨by decide, ⟨⟨hname 'a' (by decide), stopsAt_cons (by decide), ?_, by simp [IsBlank]⟩,
    by decide, by simp [IsBlank], ⟨by simp, ?_, stopsAt_cons rfl⟩, trivial⟩, trivial⟩
  · intro a ha
    obtain rfl := List.mem_singleton.1 ha
    refine ⟨by unfold IsBlank; decide, hname 'b' (by decide), by simp [IsBlank], by simp [IsBlank],
      by decide, ?_⟩
    intro g hg
    obtain rfl := List.mem_singleton.1 hg
    exact ⟨"amp".toList, by decide, by decide⟩
  · intro g hg
    obtain rfl := List.mem_singleton.1 hg
    exact ⟨by decide, by decide⟩

/-- A text with a reference of its own and a value with the quote and the
reference in it are written and read back.  Of the two values that the attribute
is given the last one is read. -/
theorem parse_render_applyAll_sample :
    let edits : List Edit := [.setAttribute 0 ['b'] ['v'], .setText 0 "&lt;".toList,
      .setAttribute 0 ['b'] "\"&<".toList]
    ∃ d d₂ x₂, Document.parse ⟨"<a b=\"&amp;\">t</a>".toList, []⟩ = .ok d ∧
      Document.parse ⟨(Edit.applyAll d edits).render, []⟩ = .ok d₂ ∧
      Node.AlikeAll Likeness.reread none (Edit.applyAll d edits).nodes d₂.nodes ∧
      d₂.elements[0]? = some x₂ ∧ x₂.tag.get? ['b'] = some "\"&<".toList ∧
      x₂.leadingText? = some "&lt;".toList := by
  intro edits
  have hparse : Document.parse ⟨"<a b=\"&amp;\">t</a>".toList, []⟩ = .ok _ :=
    document_of_derives derives_sampleForms
  have hadmissible : Edit.AdmissibleAll ⟨⟨"<a b=\"&amp;\">t</a>".toList, []⟩,
      Form.nodes .origin sampleForms⟩ edits := by
    refine ⟨trivial, ?_, trivial, trivial⟩
    intro x data hx hdata
    obtain rfl := Option.some.inj hx
    obtain rfl := Option.some.inj hdata
    show ("&lt;".toList : Text) ≠ []
    decide
  obtain ⟨d₂, hd₂, hreread, hback, -⟩ := parse_render_applyAll hparse _ hadmissible []
  obtain ⟨x₂, hx₂, htag, htext⟩ := hback 0 _ rfl
  exact ⟨_, d₂, x₂, hparse, hd₂, hreread, hx₂, htag ['b'], htext⟩

end QwebReceiver.Markup
