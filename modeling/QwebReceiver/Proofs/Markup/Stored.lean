import QwebReceiver.Proofs.Markup.Extent
import QwebReceiver.Proofs.Markup.Listing

/-!
  QwebReceiver.Proofs.Markup.Stored — the places and the values of a tree.

  The builder makes up no places and no values: it takes them from the tokens,
  drops some together with what they are of, and never reorders them.

  Main results:

    * `exact_of_parse` — the places of a tree are exact, and so are those of
      the problems;
    * `values_sublist` — the values of a tree are values of tokens, in the same
      order;
    * `stored_of_parse` — a value is what its stretch of source stands for.
-/

namespace QwebReceiver

/-- Both places of a span. -/
def Span.places (s : Span) : List Location := [s.start, s.stop]

end QwebReceiver

namespace QwebReceiver.Markup

open QwebReceiver.Text

/-! ## §1. Places. -/

/-- The stretch of a node.  For an element it goes up to the end of its closing
tag, if there is one. -/
def Node.span : Node → Span
  | .element tag children close => Element.span ⟨tag, children, close⟩
  | .text data => data.span
  | .comment _ span | .instruction _ span | .doctype _ span => span

/-- The places of an attribute, the one behind its closing quote included. -/
def Attribute.places (a : Attribute) : List Location :=
  a.nameSpan.places ++ a.valueSpan.places ++ a.span.places

/-- The places of the tags, the attributes and the other nodes of a tree.  What
holds of all of them holds of the places of every token. -/
def locations : Listing Location where
  tag t := t.span.places ++ t.attributes.flatMap Attribute.places
  close span := span.places
  leaf n := n.span.places

/-- The places of a start tag that is being read, those of a name without a
value included. -/
def PartialTag.places (p : PartialTag) : List Location :=
  p.span.places ++ p.attributes.flatMap Attribute.places ++
    (p.naming.map fun naming => naming.2.places).getD []

/-- The places of a token; behind the value of an attribute its closing quote
ends. -/
def Token.places (t : Token) : List Location :=
  t.span.places ++
    match t.content with
    | .attributeValue quote _ => [t.span.stop.step quote]
    | _ => []

/-- All places that a builder holds are of a kind: those it has listed, those of
the tag being read and those of its problems. -/
structure Builder.All (P : Location → Prop) (b : Builder) : Prop where
  listed : ∀ l ∈ locations.builder b, P l
  partialTag : ∀ p, b.partialTag = some p → ∀ l ∈ p.places, P l
  problems : ∀ d ∈ b.problems, ∀ l ∈ d.span.places, P l

section All

variable {P : Location → Prop} {b : Builder} {t : Token}

theorem Builder.All.outside (h : b.All P) : ({ b with partialTag := none } : Builder).All P :=
  ⟨h.listed, fun _ hp => (Option.some_ne_none _ hp.symm).elim, h.problems⟩

/-- A node that is placed brings its own places along, and no others. -/
theorem Builder.All.place (h : b.All P) {n : Node} (hn : ∀ l ∈ locations.node n, P l) :
    (b.place n).All P := by
  refine ⟨?_, ?_, ?_⟩
  · rw [Listing.builder_place]
    exact List.forall_mem_append.2 ⟨h.listed, hn⟩
  · rw [partialTag_place]
    exact h.partialTag
  · rw [problems_of_place]
    exact h.problems

/-- A problem brings the places of its span along. -/
theorem Builder.All.report (h : b.All P) {span : Span} (hspan : ∀ l ∈ span.places, P l)
    (p : Problem) : (b.report p span).All P :=
  ⟨h.listed, h.partialTag, List.forall_mem_append.2 ⟨h.problems, List.forall_mem_singleton.2 hspan⟩⟩

/-- A token outside of a start tag. -/
theorem Builder.All.content (h : b.All P) (ht : ∀ l ∈ t.span.places, P l) : (b.content t).All P := by
  obtain ⟨k, span⟩ := t
  cases k with
  | tagStart name =>
    refine ⟨h.listed, ?_, h.problems⟩
    intro p hp
    cases hp
    simpa [PartialTag.places] using ht
  | closingTag name =>
    unfold Builder.content
    cases hstack : b.stack with
    | nil => exact h.report ht _
    | cons e outer =>
      simp only
      -- the innermost open element takes the end tag, or it is reported
      split
      · refine ⟨?_, ?_, ?_⟩
        · rw [Listing.builder_close _ hstack]
          exact List.forall_mem_append.2 ⟨h.listed, by simpa [locations] using ht⟩
        · rw [partialTag_place]
          exact h.partialTag
        · rw [problems_of_place]
          exact h.problems
      · exact h.report ht _
  | text | cdata | comment | instruction | doctype => exact h.place ht
  | endOfText => exact h
  | _ => exact h.report ht _

/-- **A token brings its own places only.**  What is true of the places of all
tokens is then true of the tree and of the problems. -/
theorem Builder.All.step (h : b.All P) (ht : ∀ l ∈ t.places, P l) : (b.step t).All P := by
  obtain ⟨hspan, hquote⟩ := List.forall_mem_append.1 ht
  unfold Builder.step
  cases hp : b.partialTag with
  | none => exact h.content hspan
  | some p =>
    obtain ⟨hhead, hnaming⟩ := List.forall_mem_append.1 (h.partialTag p hp)
    obtain ⟨htag, hattributes⟩ := List.forall_mem_append.1 hhead
    obtain ⟨k, span⟩ := t
    -- the tag that ends with this token
    have hfinish : ∀ l ∈ locations.tag (finishTag p span), P l := by
      refine List.forall_mem_append.2 ⟨?_, hattributes⟩
      simp only [Span.places, finishTag, List.forall_mem_cons] at htag hspan ⊢
      exact ⟨htag.1, hspan.2⟩
    cases k with
    | attributeName name =>
      refine ⟨h.listed, ?_, h.problems⟩
      intro q hq
      cases hq
      exact List.forall_mem_append.2 ⟨hhead, hspan⟩
    | attributeValue quote value =>
      cases hname : p.naming with
      | none =>
        -- a value without a name drops the start tag, as a token of another kind does
        simp only [hname]
        exact h.outside.content hspan
      | some naming =>
        obtain ⟨name, nameSpan⟩ := naming
        rw [hname] at hnaming
        simp only [hname, addAttribute]
        split
        · have hunnamed :
              ({ b with partialTag := some { p with naming := none } } : Builder).All P := by
            refine ⟨h.listed, ?_, h.problems⟩
            intro q hq
            cases hq
            exact List.forall_mem_append.2 ⟨hhead, by simp⟩
          exact hunnamed.report hnaming _
        · refine ⟨h.listed, ?_, h.problems⟩
          intro q hq
          cases hq
          have hvalue : ∀ l ∈ Attribute.places ⟨name, value.decoded, quote, value, nameSpan, span⟩,
              P l := by
            simp only [Attribute.places, Attribute.span, Span.places, Option.map_some,
              Option.getD_some, List.forall_mem_append, List.forall_mem_cons] at hnaming hspan hquote ⊢
            exact ⟨⟨hnaming, hspan⟩, hnaming.1, hquote⟩
          simp only [PartialTag.places, List.flatMap_append, List.forall_mem_append,
            List.flatMap_singleton]
          exact ⟨⟨htag, hattributes, hvalue⟩, by simp⟩
    | tagEnd =>
      refine ⟨?_, fun _ hq => (Option.some_ne_none _ hq.symm).elim, h.problems⟩
      simp only [Listing.builder, Listing.opened, Listing.nodes, List.append_nil,
        ← List.append_assoc]
      exact List.forall_mem_append.2 ⟨h.listed, hfinish⟩
    | tagEndEmpty => exact h.outside.place (by simpa [Listing.node, Listing.nodes] using hfinish)
    | _ => exact h.outside.content hspan

/-- The same of some tokens. -/
theorem Builder.All.foldl {ts : List Token} (h : b.All P) (hts : ∀ t ∈ ts, ∀ l ∈ t.places, P l) :
    (ts.foldl Builder.step b).All P := by
  induction ts generalizing b with
  | nil => exact h
  | cons t ts ih =>
    obtain ⟨ht, hts⟩ := List.forall_mem_cons.1 hts
    exact ih (h.step ht) hts

/-- Elements that were never closed are reported at their start tags. -/
theorem places_unwind {last : List Node} {stack : List OpenElement}
    (h : ∀ l ∈ locations.opened stack, P l) :
    ∀ d ∈ (Builder.unwind last stack).2, ∀ l ∈ d.span.places, P l := by
  induction stack generalizing last with
  | nil => simp [Builder.unwind]
  | cons e outer ih =>
    obtain ⟨houter, he⟩ := List.forall_mem_append.1 h
    intro d hd
    rcases List.mem_cons.1 hd with rfl | hd
    · intro l hl
      exact he l (List.mem_append_left _ (List.mem_append_left _ hl))
    · exact ih houter d hd

/-- The places of a tree and of its problems are places of the tokens. -/
theorem places_build {ts : List Token} (hts : ∀ t ∈ ts, ∀ l ∈ t.places, P l) :
    (∀ l ∈ locations.nodes (Builder.build ts).1, P l) ∧
      ∀ d ∈ (Builder.build ts).2, ∀ l ∈ d.span.places, P l := by
  have hstart : Builder.All P {} := by
    refine ⟨?_, fun _ hp => (Option.some_ne_none _ hp.symm).elim, ?_⟩ <;>
      simp [Listing.builder, Listing.nodes, Listing.opened]
  have hall := hstart.foldl hts
  refine ⟨?_, ?_⟩
  · rw [Listing.nodes_build]
    exact hall.listed
  · simp only [Builder.build, List.forall_mem_append]
    exact ⟨hall.problems, places_unwind (List.forall_mem_append.1 hall.listed).2⟩

end All

/-- A word that stands in the text has exact places. -/
theorem exact_over {content before w after : Text} (h : content = before ++ (w ++ after)) :
    ∀ l ∈ (Span.over before w).places, l.Exact content := by
  subst h
  simp only [Span.places, Span.over, List.forall_mem_cons]
  refine ⟨Location.exact_after _ _, ?_, by simp⟩
  rw [← List.append_assoc]
  exact Location.exact_after _ _

/-- The places of tokens are exact: behind a value stands its quote. -/
theorem exact_of_scan {content : Text} {t : Token} (ht : t ∈ (scan content).1) :
    ∀ l ∈ t.places, l.Exact content := by
  obtain ⟨before, w, after, hcontent, hspan, hreads⟩ := exists_stretch_of_scan ht
  have hplaces : ∀ l ∈ t.span.places, l.Exact content := by
    rw [hspan]
    exact exact_over hcontent
  refine List.forall_mem_append.2 ⟨hplaces, ?_⟩
  obtain ⟨k, span⟩ := t
  cases k with
  | attributeValue quote v =>
    obtain ⟨-, -, -, hquote⟩ := hreads
    obtain ⟨r, rfl⟩ := List.head?_eq_some_iff.1 hquote
    obtain rfl : span = Span.over before w := hspan
    refine List.forall_mem_singleton.2 ?_
    -- the value ends right before its quote
    have hstop : (Span.over before w).stop.step quote =
        Location.origin.after (before ++ w ++ [quote]) := by
      rw [Location.after_append _ (before ++ w), Location.after_singleton]
      rfl
    show Location.Exact content ((Span.over before w).stop.step quote)
    rw [hstop, hcontent, show before ++ (w ++ quote :: r) = before ++ w ++ [quote] ++ r by simp]
    exact Location.exact_after _ _
  | _ => exact List.forall_mem_nil _

/-- **The places of a tree and of all problems are exact**, since each is a
place of some token of the scan. -/
theorem exact_of_parse (content : Text) :
    (∀ l ∈ locations.nodes (parse content).1, l.Exact content) ∧
      ∀ d ∈ (parse content).2, ∀ l ∈ d.span.places, l.Exact content := by
  obtain ⟨hnodes, hproblems⟩ := places_build (P := fun l => l.Exact content)
    fun t ht => exact_of_scan ht
  refine ⟨hnodes, List.forall_mem_append.2 ⟨?_, hproblems⟩⟩
  intro d hd
  obtain ⟨-, a, b, ha, hb, hspan⟩ := failure_scan (Option.mem_toList.1 hd)
  rw [hspan]
  simp only [Span.places, Cursor.spanTo, List.forall_mem_cons]
  exact ⟨Location.exact_of_reaches ha, Location.exact_of_reaches (ha.trans hb), by simp⟩

/-! ## §2. Values. -/

/-- A value in a tree or in a token: its stretch of the source, and whether the
text of that stands for itself; the quote it stands in, if it is that of an
attribute. -/
structure Value where
  value : Text
  span : Span
  verbatim : Bool
  quote? : Option Char

/-- The value of an attribute as one of the values of a tree. -/
def Attribute.toValue (a : Attribute) : Value := ⟨a.value, a.valueSpan, false, some a.quote⟩

/-- Character data as one of the values of a tree. -/
def CharData.toValue (d : CharData) : Value := ⟨d.value, d.span, d.cdata, none⟩

/-- The values of a tree: those of attributes, texts and CDATA sections, in the
order of the text. -/
def values : Listing Value where
  tag t := t.attributes.map Attribute.toValue
  close _ := []
  leaf
    | .text data => [data.toValue]
    | _ => []

/-- The value of a token.  Tokens of other kinds have none, and their text is
not decoded. -/
def Token.value? (t : Token) : Option Value :=
  match t.content with
  | .attributeValue quote v => some ⟨v.decoded, t.span, false, some quote⟩
  | .text v => some ⟨v.decoded, t.span, false, none⟩
  | .cdata c => some ⟨c, t.span, true, none⟩
  | _ => none

/-- The value is what the text of its stretch stands for.  In a CDATA section
the text stands for itself. -/
def Value.Stored (v : Value) (source : Source) : Prop :=
  if v.verbatim then v.span.text source = v.value else Decodes (v.span.text source) v.value

/-- The values that a builder has met and not lost, those of the tag being read
included. -/
def Builder.values (b : Builder) : List Value :=
  Markup.values.builder b ++
    (b.partialTag.map fun p => p.attributes.map Attribute.toValue).getD []

section Values

variable {b : Builder} {t : Token}

theorem values_of_none (h : b.partialTag = none) : b.values = values.builder b := by
  rw [Builder.values, h]
  exact List.append_nil _

/-- In a start tag the values of its attributes come last. -/
theorem values_of_some {p : PartialTag} (h : b.partialTag = some p) :
    b.values = values.builder b ++ p.attributes.map Attribute.toValue := by
  rw [Builder.values, h]
  rfl

/-- A token outside of a start tag adds its value. -/
theorem values_content (h : b.partialTag = none) :
    (b.content t).values.Sublist (values.builder b ++ t.value?.toList) := by
  have hlisted := values.builder_content b t
  obtain ⟨k, span⟩ := t
  -- the start tag that may be begun has no values yet
  have hnone : (b.content ⟨k, span⟩).values = values.builder (b.content ⟨k, span⟩) := by
    cases k with
    | tagStart name => exact List.append_nil _
    | closingTag name =>
      refine values_of_none ?_
      unfold Builder.content
      cases b.stack with
      | nil => exact h
      | cons e outer =>
        simp only
        split
        · rw [Builder.partialTag_place]
          exact h
        · exact h
    | text | cdata | comment | instruction | doctype =>
      exact values_of_none ((b.partialTag_place _).trans h)
    | _ => exact values_of_none h
  rw [hnone, hlisted]
  refine (List.Sublist.refl _).append ?_
  cases k with
  | closingTag name =>
    unfold Listing.content
    cases b.stack with
    | nil => exact List.nil_sublist _
    | cons e outer =>
      simp only
      split <;> exact List.nil_sublist _
  | text | cdata => exact List.Sublist.refl _
  | _ => exact List.nil_sublist _

/-- **A token adds its value at the end**, if it adds any.  A value is lost only
with a start tag that is broken off. -/
theorem values_step (b : Builder) (t : Token) :
    (b.step t).values.Sublist (b.values ++ t.value?.toList) := by
  unfold Builder.step
  cases hp : b.partialTag with
  | none =>
    rw [values_of_none hp]
    exact values_content hp
  | some p =>
    have hvalues := values_of_some hp
    -- a start tag that is not ended loses its attributes
    have hlost (k : TokenContent) (span : Span) :
        (({ b with partialTag := none } : Builder).content ⟨k, span⟩).values.Sublist
          (b.values ++ (Token.value? ⟨k, span⟩).toList) := by
      refine (values_content rfl).trans ?_
      rw [hvalues]
      exact (List.sublist_append_left _ _).append (List.Sublist.refl _)
    obtain ⟨k, span⟩ := t
    cases k with
    | attributeName name =>
      rw [hvalues]
      exact List.sublist_append_left _ _
    | attributeValue quote value =>
      cases hname : p.naming with
      | none =>
        simp only [hname]
        exact hlost _ _
      | some naming =>
        simp only [hname, Builder.addAttribute]
        rw [hvalues, List.append_assoc]
        split
        · exact (List.Sublist.refl _).append (List.sublist_append_left _ _)
        · refine (List.Sublist.refl _).append ?_
          rw [Option.map_some, Option.getD_some, List.map_append]
          exact List.Sublist.refl _
    | tagEnd =>
      rw [hvalues]
      simp [Builder.values, Listing.builder, Listing.opened, Listing.nodes, values,
        Builder.finishTag, Token.value?]
    | tagEndEmpty =>
      have hplaced := values.builder_place { b with partialTag := none }
        (.element (Builder.finishTag p span) [] none)
      rw [values_of_none (Builder.partialTag_place _ _), hplaced, hvalues]
      simp [Listing.builder, Listing.node, Listing.nodes, values, Builder.finishTag, Token.value?]
    | _ => exact hlost _ _

/-- The values that a builder holds are values of the tokens that it took, in
their order.  Some may be lost on the way, none is made up. -/
theorem values_foldl (b : Builder) (ts : List Token) :
    (ts.foldl Builder.step b).values.Sublist (b.values ++ ts.filterMap Token.value?) := by
  -- values may be lost at each step, so only a sublist is kept along the way
  induction ts generalizing b with
  | nil => exact List.sublist_append_left _ _
  | cons t ts ih =>
    refine (ih (b.step t)).trans ?_
    have hstep := (values_step b t).append (List.Sublist.refl (ts.filterMap Token.value?))
    rw [List.append_assoc] at hstep
    cases hv : t.value? <;> simpa [List.filterMap_cons, hv] using hstep

end Values

/-- **The values of a tree are values of tokens**, in the same order and each
from a token of its own. -/
theorem values_sublist (content : Text) :
    (values.nodes (parse content).1).Sublist ((scan content).1.filterMap Token.value?) := by
  show (values.nodes (Builder.build (scan content).1).1).Sublist _
  rw [Listing.nodes_build]
  exact (List.sublist_append_left _ _).trans (values_foldl {} (scan content).1)

/-- The values of a tree do not overlap. -/
theorem pairwise_values (content : Text) :
    (values.nodes (parse content).1).Pairwise fun v w => v.span.stop.offset ≤ w.span.start.offset := by
  have htokens := List.pairwise_map.1 (inOrder_scan content).pairwise
  refine List.Pairwise.sublist (values_sublist content) ?_
  refine List.Pairwise.filterMap Token.value? ?_ htokens
  have hspan {t : Token} {v : Value} (h : t.value? = some v) : v.span = t.span := by
    obtain ⟨k, span⟩ := t
    cases k <;> cases h <;> rfl
  intro t u htu v hv w hw
  rw [hspan hv, hspan hw]
  exact htu

/-- **A value is what its stretch of the source stands for**; the quote of an
attribute is one of two. -/
theorem stored_of_parse {content : Text} (url : Text) {v : Value}
    (hv : v ∈ values.nodes (parse content).1) :
    v.Stored ⟨content, url⟩ ∧ ∀ q, v.quote? = some q → q = '"' ∨ q = '\'' := by
  -- every value of the tree was a token of the scanner
  obtain ⟨t, ht, hvalue⟩ := List.mem_filterMap.1 ((values_sublist content).subset hv)
  obtain ⟨before, w, after, rfl, hspan, hreads⟩ := exists_stretch_of_scan ht
  obtain ⟨k, span⟩ := t
  obtain rfl : span = Span.over before w := hspan
  cases k with
  | attributeValue quote s =>
    cases hvalue
    obtain ⟨-, hdecodes, hquote, -⟩ := hreads
    refine ⟨?_, ?_⟩
    · show Decodes ((Span.over before w).text _) _
      rw [Span.text_over]
      exact hdecodes
    · intro q hq
      cases hq
      exact hquote
  | text s =>
    cases hvalue
    refine ⟨?_, fun q hq => by cases hq⟩
    show Decodes ((Span.over before w).text _) _
    rw [Span.text_over]
    exact hreads.2
  | cdata c =>
    cases hvalue
    refine ⟨?_, fun q hq => by cases hq⟩
    show (Span.over before w).text _ = c
    rw [Span.text_over]
    exact hreads
  | _ => cases hvalue

end QwebReceiver.Markup
