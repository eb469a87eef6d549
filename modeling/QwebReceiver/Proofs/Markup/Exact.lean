import QwebReceiver.Proofs.Markup.Stored
import QwebReceiver.Proofs.Markup.Subtree

/-!
  QwebReceiver.Proofs.Markup.Exact — the spans of a text and of its tree.

  Places and values are exact whatever the text, with problems or without.  The
  spans of elements are exact where there is no problem: then a derivation says
  where each element is written (`Form.writtenIn_of_nodes`), and the spans of
  what is right below it follow one another (`Form.inOrder_nodes`).

  Main result: `spans_exact`.
-/

namespace QwebReceiver.Markup

open QwebReceiver.Text

/-! ## §1. The spans of forms. -/

/-- A form of the element stands somewhere in the text, and gives the element
the places that it has there. -/
def Element.WrittenIn (e : Element) (content : Text) : Prop :=
  ∃ before f after rest, content = before ++ (Form.write f ++ after) ∧ Form.Valid rest f ∧
    f.node (Location.origin.after before) = .element e.tag e.children e.close

namespace Form

/-- The span of a node lies in the text of its form. -/
theorem span_node_bounds (here : Location) (f : Form) :
    here.offset ≤ (f.node here).span.start.offset ∧
      (f.node here).span.start.offset ≤ (f.node here).span.stop.offset ∧
      (f.node here).span.stop.offset ≤ (here.after f.write).offset := by
  have hwhole (t : Text) (h : f.write = t) (hspan : (f.node here).span = ⟨here, here.after t⟩) :
      here.offset ≤ (f.node here).span.start.offset ∧
        (f.node here).span.start.offset ≤ (f.node here).span.stop.offset ∧
        (f.node here).span.stop.offset ≤ (here.after f.write).offset := by
    rw [hspan, h]
    exact ⟨Nat.le_refl _, by rw [offset_after]; exact Nat.le_add_right _ _, Nat.le_refl _⟩
  cases f with
  | leaf l =>
    cases l with
    | cdata c =>
      -- the span of a CDATA section is that of its inside
      have hspan : (node here (.leaf (.cdata c))).span =
          ⟨here.after cdataStart, (here.after cdataStart).after c⟩ := rfl
      have hwrite : write (.leaf (.cdata c)) = cdataStart ++ c ++ cdataEnd := rfl
      rw [hspan, hwrite]
      simp only [offset_after, utf8Size_append]
      omega
    | _ => exact hwhole _ rfl rfl
  | empty tag => exact hwhole _ rfl rfl
  | element tag children gap =>
    refine hwhole _ rfl ?_
    simp only [node, Node.span, Element.span, Option.getD_some, TagForm.toTag, write,
      Location.after_append]

/-- The spans of nodes side by side follow one another, between the two ends of
their text. -/
theorem inOrder_nodes (here : Location) (fs : List Form) :
    Span.InOrder here.offset (here.after (writeAll fs)).offset ((nodes here fs).map Node.span) := by
  induction fs generalizing here with
  | nil => exact Nat.le_refl _
  | cons f fs ih =>
    obtain ⟨hstart, hspan, hstop⟩ := span_node_bounds here f
    have hrest := ih (here.after f.write)
    rw [← Location.after_append] at hrest
    exact ⟨hstart, hspan, hrest.of_le hstop⟩

mutual

/-- The elements of a form that stands behind `before` are written in the text,
each by the form that it comes from. -/
theorem writtenIn_of_node (before after : Text) (f : Form) {rest : Text} (hf : f.Valid rest)
    {e : Element} (he : e ∈ (f.node (Location.origin.after before)).descendants) :
    e.WrittenIn (before ++ (f.write ++ after)) := by
  cases f with
  | leaf l => cases l <;> cases he
  | empty tag =>
    rcases List.mem_cons.1 he with rfl | he
    · exact ⟨before, .empty tag, after, rest, rfl, hf, rfl⟩
    · cases he
  | element tag children gap =>
    rcases List.mem_cons.1 he with rfl | he
    · exact ⟨before, .element tag children gap, after, rest, rfl, hf, rfl⟩
    · -- an element below stands between the tags
      rw [← Location.after_append] at he
      have hbelow := writtenIn_of_nodes (before ++ (tag.write ++ tagEndMark))
        (writeClosing tag.name gap ++ after) children hf.2.2.2 he
      simpa [write] using hbelow

/-- The same of forms side by side that stand behind `before`. -/
theorem writtenIn_of_nodes (before after : Text) (fs : List Form) {rest : Text}
    (hfs : ValidAll rest fs) {e : Element}
    (he : e ∈ Node.descendantsOf (nodes (Location.origin.after before) fs)) :
    e.WrittenIn (before ++ (writeAll fs ++ after)) := by
  cases fs with
  | nil => cases he
  | cons f fs =>
    rcases List.mem_append.1 he with he | he
    · have hfirst := writtenIn_of_node before (writeAll fs ++ after) f hfs.1 he
      rwa [writeAll, List.append_assoc]
    · rw [← Location.after_append] at he
      have hlater := writtenIn_of_nodes (before ++ f.write) after fs hfs.2 he
      simpa [writeAll] using hlater

end

end Form

/-! ## §2. The spans of elements. -/

/-- The text of an element: from `<` and its name to the end of its empty tag,
or to the end of its closing tag. -/
def Element.Written (e : Element) (before w : Text) : Prop :=
  (∃ inner, w = '<' :: (e.tag.name ++ inner) ++ emptyTagEnd ∧ e.children = [] ∧ e.close = none) ∨
    ∃ inner gap, w = '<' :: (e.tag.name ++ inner) ++ writeClosing e.tag.name gap ∧ IsBlank gap ∧
      e.close = some (Span.over (before ++ '<' :: (e.tag.name ++ inner)) (writeClosing e.tag.name gap))

/-- The span of an element is exact: it is a stretch of the source that reads as
this element, and the spans inside follow one another. -/
structure Element.Spans (content : Text) (e : Element) : Prop where
  /-- It is a stretch of the source, and what is read there alone is the
  element. -/
  stretch : ∃ before w after, content = before ++ (w ++ after) ∧ e.span = Span.over before w ∧
    e.Written before w ∧
    ∃ n, parse w = ([n], []) ∧ n.unplaced = (Node.element e.tag e.children e.close).unplaced
  /-- The spans of its tags and of the nodes between them follow one another in
  it. -/
  inOrder : Span.InOrder e.span.start.offset e.span.stop.offset
    (e.tag.span :: (e.children.map Node.span ++ e.close.toList))

/-- Going on over a text never moves back. -/
theorem offset_le_after (here : Location) (t : Text) : here.offset ≤ (here.after t).offset := by
  rw [offset_after]
  exact Nat.le_add_right _ _

/-- An element without a closing tag that stands behind `before`. -/
theorem spans_empty (before after : Text) (t : TagForm)
    (halone : ∃ n, parse (Form.write (.empty t)) = ([n], []) ∧
      n.unplaced = (Form.node (Location.origin.after before) (.empty t)).unplaced) :
    Element.Spans (before ++ (Form.write (.empty t) ++ after))
      ⟨t.toTag (Location.origin.after before) emptyTagEnd, [], none⟩ where
  stretch := by
    refine ⟨before, _, after, rfl, ?_,
      .inl ⟨AttributeForm.writeAll t.attributes ++ t.trail, ?_, rfl, rfl⟩, halone⟩
    · rw [Span.over, Location.after_append _ before]
      rfl
    · simp [Form.write, TagForm.write, TagForm.toTag]
  inOrder := ⟨Nat.le_refl _, offset_le_after _ _, Nat.le_refl _⟩

/-- An element with a closing tag that stands behind `before`. -/
theorem spans_element (before after : Text) (t : TagForm) (children : List Form) {gap : Text}
    (hgap : IsBlank gap)
    (halone : ∃ n, parse (Form.write (.element t children gap)) = ([n], []) ∧
      n.unplaced = (Form.node (Location.origin.after before) (.element t children gap)).unplaced) :
    Element.Spans (before ++ (Form.write (.element t children gap) ++ after))
      ⟨t.toTag (Location.origin.after before) tagEndMark,
        Form.nodes ((Location.origin.after before).after (t.write ++ tagEndMark)) children,
        some ⟨((Location.origin.after before).after (t.write ++ tagEndMark)).after
            (Form.writeAll children),
          (((Location.origin.after before).after (t.write ++ tagEndMark)).after
            (Form.writeAll children)).after (writeClosing t.name gap)⟩⟩ where
  stretch := by
    obtain ⟨inner, hinner⟩ : ∃ inner, t.write ++ tagEndMark ++ Form.writeAll children =
        '<' :: (t.name ++ inner) :=
      ⟨AttributeForm.writeAll t.attributes ++ t.trail ++ tagEndMark ++ Form.writeAll children,
        by simp [TagForm.write]⟩
    refine ⟨before, _, after, rfl, ?_, .inr ⟨inner, gap, ?_, hgap, ?_⟩, halone⟩
    · simp only [Element.span, Option.getD_some, TagForm.toTag, Span.over, Form.write,
        Location.after_append]
    · exact congrArg (· ++ writeClosing t.name gap) hinner
    · simp only [TagForm.toTag, ← hinner, Span.over, Location.after_append]
  inOrder := by
    refine ⟨Nat.le_refl _, offset_le_after _ _, ?_⟩
    refine (Form.inOrder_nodes _ children).append ?_
    exact ⟨Nat.le_refl _, offset_le_after _ _, Nat.le_refl _⟩

/-- An element that is written in a text has its exact span there. -/
theorem Element.WrittenIn.spans {content : Text} {e : Element} (h : e.WrittenIn content) :
    e.Spans content := by
  obtain ⟨before, f, after, rest, rfl, hf, hnode⟩ := h
  -- the text of the form, read alone, gives the same node, at the places it has there
  have hderives : Derives f.write [f] :=
    ⟨List.append_nil _, Form.valid_of_atMarkup (fun _ => stopsAt_nil _) f hf, trivial⟩
  have halone : ∃ n, parse f.write = ([n], []) ∧
      n.unplaced = (f.node (Location.origin.after before)).unplaced :=
    ⟨f.node .origin, parse_of_derives hderives, Form.unplaced_node _ _ f⟩
  obtain ⟨tag, children, close⟩ := e
  cases f with
  | leaf l => cases l <;> cases hnode
  | empty t =>
    cases hnode
    exact spans_empty before after t halone
  | element t children gap =>
    cases hnode
    exact spans_element before after t children hf.2.2.1 halone

/-- Where there is no problem, the spans of elements are exact. -/
theorem spans_of_parse {content : Text} (h : (parse content).2 = []) {e : Element}
    (he : e ∈ Node.descendantsOf (parse content).1) : e.Spans content := by
  have hread : parse content = ((parse content).1, []) := by rw [← h]
  obtain ⟨forms, hforms⟩ := exists_derives_of_parse hread
  rw [parse_of_derives hforms] at he
  have hwritten := Form.writtenIn_of_nodes [] [] forms hforms.2 he
  rw [List.nil_append, List.append_nil, hforms.1] at hwritten
  exact hwritten.spans

/-! ## §3. Whole texts. -/

mutual

/-- The attributes of an element are among the values of the tree. -/
theorem toValue_mem_node (n : Node) {e : Element} (he : e ∈ n.descendants) {a : Attribute}
    (ha : a ∈ e.tag.attributes) : a.toValue ∈ values.node n := by
  cases n with
  | element tag children close =>
    refine List.mem_append_left _ ?_
    rcases List.mem_cons.1 he with rfl | he
    · exact List.mem_append_left _ (List.mem_map_of_mem ha)
    · exact List.mem_append_right _ (toValue_mem_nodes children he ha)
  | _ => cases he

theorem toValue_mem_nodes (ns : List Node) {e : Element} (he : e ∈ Node.descendantsOf ns)
    {a : Attribute} (ha : a ∈ e.tag.attributes) : a.toValue ∈ values.nodes ns := by
  cases ns with
  | nil => cases he
  | cons n ns =>
    rcases List.mem_append.1 he with he | he
    · exact List.mem_append_left _ (toValue_mem_node n he ha)
    · exact List.mem_append_right _ (toValue_mem_nodes ns he ha)

end

/-- **Spans are exact.**  The places of tokens, of the tree and of problems are
exact; tokens follow one another; values do not overlap, and each is what its
stretch of the source stands for; an attribute ends behind the quote that ends
its value.  Where there is no problem, elements have their own text for a span.
-/
theorem spans_exact (content url : Text) :
    (∀ t ∈ (scan content).1, t.span.start.Exact content ∧ t.span.stop.Exact content) ∧
      (∀ l ∈ locations.nodes (parse content).1, l.Exact content) ∧
      (∀ d ∈ (scan content).2.toList ++ (parse content).2,
        d.span.start.Exact content ∧ d.span.stop.Exact content) ∧
      Span.InOrder 0 (utf8Size content) ((scan content).1.map Token.span) ∧
      (values.nodes (parse content).1).Pairwise
        (fun v w => v.span.stop.offset ≤ w.span.start.offset) ∧
      (∀ v ∈ values.nodes (parse content).1, v.Stored ⟨content, url⟩) ∧
      (∀ e ∈ Node.descendantsOf (parse content).1, ∀ a ∈ e.tag.attributes,
        a.span.stop = ⟨a.valueSpan.stop.offset + 1, a.valueSpan.stop.line,
          a.valueSpan.stop.column + 1⟩) ∧
      ((parse content).2 = [] → ∀ e ∈ Node.descendantsOf (parse content).1, e.Spans content) := by
  obtain ⟨hnodes, hproblems⟩ := exact_of_parse content
  refine ⟨?_, hnodes, ?_, inOrder_scan content, pairwise_values content,
    fun v hv => (stored_of_parse url hv).1, ?_, fun h e he => spans_of_parse h he⟩
  · intro t ht
    have hplaces := exact_of_scan ht
    exact ⟨hplaces _ (by simp [Token.places, Span.places]),
      hplaces _ (by simp [Token.places, Span.places])⟩
  · intro d hd
    -- the problem that stops the reading is the first one of the tree's
    have hd' : d ∈ (parse content).2 := (List.mem_append.1 hd).elim (List.mem_append_left _) id
    exact ⟨hproblems d hd' _ (by simp [Span.places]), hproblems d hd' _ (by simp [Span.places])⟩
  · intro e he a ha
    have hquote := (stored_of_parse url (toValue_mem_nodes _ he ha)).2 a.quote rfl
    rcases hquote with hq | hq <;> rw [Attribute.span, hq] <;> rfl

/-- Two lines, with characters of more than one byte, a reference and an element
in another. -/
def twoLines : Text := "<a b='é&amp;ß'>ä\n <c/><![CDATA[ö]]></a>".toList

/-- Both elements span exactly their own texts. -/
theorem spans_exact_sample :
    (parse twoLines).2 = [] ∧ (Node.descendantsOf (parse twoLines).1).length = 2 ∧
      ∀ e ∈ Node.descendantsOf (parse twoLines).1, e.Spans twoLines := by
  have hread : (parse twoLines).2 = [] := by decide +kernel
  obtain ⟨-, -, -, -, -, -, -, hspans⟩ := spans_exact twoLines []
  exact ⟨hread, by decide +kernel, hspans hread⟩

end QwebReceiver.Markup
