import QwebReceiver.Proofs.Markup.Extent
import QwebReceiver.Proofs.Markup.Listing

/-!
  QwebReceiver.Proofs.Markup.Stream — the order of tokens, and what the tree
  makes of it.

  The reader returns the tokens of a start tag in the order in which the
  builder of the tree takes them.  `Site` says where in that order one stands:

    outside    of start tags; any token but those of a tag may come
    in a tag   a name or the end of the tag comes next
    named      the value of the attribute comes next

  The reader stays in this order whatever the text (`ordered_scanFrom`); a
  problem can only end it early, inside of a tag.  The builder is then at the
  same site after each token (`takes_step`), finds a place for each, and loses no
  element but one whose start tag was never ended.

  Main result: `scan_placed`.
-/

namespace QwebReceiver.Markup

open QwebReceiver.Text

/-! ## §1. The order of tokens. -/

/-- A place between two tokens.  Inside of a tag it matters whether a name is
waiting for its value. -/
inductive Site where
  | outside
  | inTag
  | named
  deriving Repr, DecidableEq

namespace Site

/-- Where one stands after a token, if it may come here.  The end of the text
may come at no site. -/
def next? : Site → TokenContent → Option Site
  | .outside, .tagStart _ => some .inTag
  | .outside, .closingTag _ | .outside, .text _ | .outside, .cdata _ | .outside, .comment _
  | .outside, .instruction _ | .outside, .doctype _ => some .outside
  | .inTag, .attributeName _ => some .named
  | .named, .attributeValue _ _ => some .inTag
  | .inTag, .tagEnd | .inTag, .tagEndEmpty => some .outside
  | _, _ => none

/-- Where one stands after some tokens, if they come in order.  A scan gives
tokens for which this is defined. -/
def run? : Site → List Token → Option Site
  | s, [] => some s
  | s, t :: ts => (s.next? t.content).bind fun s' => run? s' ts

/-- Where one stands after more tokens depends only on where one stood before
them. -/
theorem run?_append {s s' : Site} {ts : List Token} (h : s.run? ts = some s') (us : List Token) :
    s.run? (ts ++ us) = s'.run? us := by
  induction ts generalizing s with
  | nil =>
    obtain rfl : s = s' := Option.some.inj h
    rfl
  | cons t ts ih =>
    obtain ⟨u, hu, h⟩ := Option.bind_eq_some_iff.1 h
    rw [List.cons_append, run?, hu]
    exact ih h

end Site

/-- The tokens of a scan come in order from a site on, and lead to another site
if no problem stops the reading. -/
def Scan.Ordered (s : Scan) (start stop : Site) : Prop :=
  ∃ last, start.run? s.tokens = some last ∧ (s.failure = none → last = stop)

/-- A scan after another one that met no problem. -/
theorem Scan.Ordered.append {s t : Scan} {start middle stop : Site} (hs : s.Ordered start middle)
    (hok : s.failure = none) (ht : t.Ordered middle stop) :
    ({ t with tokens := s.tokens ++ t.tokens } : Scan).Ordered start stop := by
  obtain ⟨_, hrun, hmiddle⟩ := hs
  obtain rfl := hmiddle hok
  obtain ⟨last, hlast, hstop⟩ := ht
  exact ⟨last, (Site.run?_append hrun _).trans hlast, hstop⟩

/-- A construct between two marks is one token, which may come outside of tags. -/
theorem ordered_scanMarked (c : Cursor) (lead : Nat) (mark : String) (construct : Construct)
    {token : Text → TokenContent} (h : ∀ content, Site.outside.next? (token content) = some .outside) :
    (scanMarked c lead mark construct token).Ordered .outside .outside := by
  simp only [scanMarked]
  split
  · exact ⟨.outside, rfl, fun _ => rfl⟩
  · exact ⟨.outside, by simp [Site.run?, h], fun _ => rfl⟩

theorem ordered_scanCdata (c : Cursor) : (scanCdata c).Ordered .outside .outside := by
  simp only [scanCdata]
  split <;> exact ⟨.outside, rfl, fun _ => rfl⟩

theorem ordered_scanDoctype (c : Cursor) : (scanDoctype c).Ordered .outside .outside := by
  simp only [scanDoctype]
  split <;> exact ⟨.outside, rfl, fun _ => rfl⟩

/-- A text is one token outside of tags. -/
theorem ordered_scanText (c : Cursor) : (scanText c).Ordered .outside .outside := by
  simp only [scanText]
  split <;> exact ⟨.outside, rfl, fun _ => rfl⟩

/-- A closing tag is one token outside of tags. -/
theorem ordered_scanClosingTag (c : Cursor) : (scanClosingTag c).Ordered .outside .outside := by
  simp only [scanClosingTag]
  split
  · exact ⟨.outside, rfl, fun _ => rfl⟩
  · split <;> exact ⟨.outside, rfl, fun _ => rfl⟩

/-- An attribute that a problem stops has a name and no value. -/
theorem ordered_scanAttribute (c : Cursor) (n : Nat) :
    (scanAttribute c n).Ordered .inTag .inTag := by
  have hnamed {s : Scan} {d : Diagnostic}
      (htokens : s.tokens = [⟨.attributeName (c.rest.take n), c.spanTo (c.skip n)⟩])
      (hfailure : s.failure = some d) : s.Ordered .inTag .inTag := by
    refine ⟨.named, by rw [htokens]; rfl, ?_⟩
    intro hok
    rw [hfailure] at hok
    cases hok
  -- only the attribute with a closed quote goes on, every other way out is a failure
  simp only [scanAttribute]
  split
  · split
    · split
      · split
        · exact hnamed rfl rfl
        · split
          · exact ⟨.inTag, rfl, fun _ => rfl⟩
          · split <;> exact hnamed rfl rfl
      · exact hnamed rfl rfl
    · exact hnamed rfl rfl
  · exact hnamed rfl rfl

/-- The rest of a start tag leads out of the tag, unless a problem stops it
there. -/
theorem ordered_scanTagRest (c : Cursor) : (scanTagRest c).Ordered .inTag .outside := by
  fun_induction scanTagRest c with
  | case1 => exact ⟨.outside, rfl, fun _ => rfl⟩
  | case2 => exact ⟨.outside, rfl, fun _ => rfl⟩
  | case3 => exact ⟨.inTag, rfl, fun h => by cases h⟩
  | case4 c d _ _ n _ s p hp =>
    -- the problem with an attribute is that of the tag, so where it stops does not matter
    obtain ⟨last, hlast, -⟩ := ordered_scanAttribute d n
    refine ⟨last, hlast, ?_⟩
    intro hok
    rw [hp] at hok
    cases hok
  | case5 c d _ _ n _ s hok _ t ih => exact (ordered_scanAttribute d n).append hok ih

/-- A start tag leads into the tag and out of it again. -/
theorem ordered_scanStartTag (c : Cursor) : (scanStartTag c).Ordered .outside .outside := by
  simp only [scanStartTag]
  split
  · exact ⟨.outside, rfl, fun _ => rfl⟩
  · obtain ⟨last, hlast, hstop⟩ := ordered_scanTagRest _
    exact ⟨last, hlast, hstop⟩

/-- Whatever construct is met, its tokens start and end outside of tags. -/
theorem ordered_scanConstruct (c : Cursor) : (scanConstruct c).Ordered .outside .outside := by
  unfold scanConstruct
  split
  · exact ordered_scanMarked c _ _ _ fun _ => rfl
  split
  · exact ordered_scanCdata c
  split
  · exact ordered_scanDoctype c
  split
  · exact ordered_scanMarked c _ _ _ fun _ => rfl
  split
  · exact ordered_scanClosingTag c
  split
  · exact ordered_scanStartTag c
  · exact ordered_scanText c

/-- **The tokens of a text come in order**, up to its end or to a problem.  No
reading is assumed to succeed here. -/
theorem ordered_scanFrom (c : Cursor) : (scanFrom c).Ordered .outside .outside := by
  fun_induction scanFrom c with
  | case1 => exact ⟨.outside, rfl, fun _ => rfl⟩
  | case2 c => exact ordered_scanConstruct c
  | case3 c _ s hok _ t ih => exact (ordered_scanConstruct c).append hok ih

/-! ## §2. The builder, site by site. -/

/-- The builder is at the site, as its unfinished tag shows. -/
def Site.At (b : Builder) : Site → Prop
  | .outside => b.partialTag = none
  | .inTag => ∃ p, b.partialTag = some p ∧ p.naming = none
  | .named => ∃ p naming, b.partialTag = some p ∧ p.naming = some naming

/-- The name of each start tag, and where it starts.  By these the elements of
the tree are told among the tokens. -/
def headings : Listing (Text × Location) where
  tag t := [(t.name, t.span.start)]
  close _ := []
  leaf _ := []

/-- The name and the start of an element. -/
def Element.heading (e : Element) : Text × Location := (e.tag.name, e.tag.span.start)

mutual

/-- The headings of a node are those of all elements in it, in document order. -/
theorem headings_node (n : Node) : headings.node n = n.descendants.map Element.heading := by
  cases n with
  | element tag children close =>
    rw [Listing.node, Node.descendants, List.map_cons, headings_nodes children]
    cases close <;> exact List.append_nil _
  | _ => rfl

/-- The headings of nodes are those of all elements in them, in document order. -/
theorem headings_nodes (ns : List Node) :
    headings.nodes ns = (Node.descendantsOf ns).map Element.heading := by
  cases ns with
  | nil => rfl
  | cons n ns =>
    rw [Listing.nodes, Node.descendantsOf, List.map_append, headings_node n, headings_nodes ns]

end

/-- The start tags that a builder has met and not lost. -/
def Builder.begun (b : Builder) : List (Text × Location) :=
  headings.builder b ++ (b.partialTag.map fun p => (p.name, p.span.start)).toList

/-- The start tag that begins with a token. -/
def Token.begun (t : Token) : List (Text × Location) :=
  match t.content with
  | .tagStart name => [(name, t.span.start)]
  | _ => []

/-- Whether a problem is one of the tree. -/
def Problem.ofTree : Problem → Bool
  | .unexpectedClosingTag _ | .duplicateAttribute _ | .unclosedElement _ => true
  | _ => false

/-- The builder takes a token that comes in order: it gets to the next site,
loses no element, and reports problems of the tree only. -/
structure Builder.Takes (b : Builder) (t : Token) (s : Site) : Prop where
  site : s.At (b.step t)
  begun : (b.step t).begun = b.begun ++ t.begun
  problems : ∀ d ∈ (b.step t).problems, d ∈ b.problems ∨ d.problem.ofTree = true

section Takes

variable {b : Builder} {t : Token} {s s' : Site}

/-- No token but one of a start tag has a heading. -/
theorem headings_content (b : Builder) (t : Token) : headings.content b t = [] := by
  obtain ⟨k, span⟩ := t
  cases k with
  | closingTag name =>
    unfold Listing.content
    cases b.stack with
    | nil => rfl
    | cons e outer => exact ite_self []
  | _ => rfl

theorem begun_of_none (h : b.partialTag = none) : b.begun = headings.builder b := by
  rw [Builder.begun, h]
  exact List.append_nil _

/-- A node that is placed outside of start tags. -/
theorem takes_place (hb : b.partialTag = none) {n : Node} (hstep : b.step t = b.place n)
    (ht : t.begun = []) (hn : headings.node n = []) : b.Takes t .outside := by
  have hpartial : (b.step t).partialTag = none := by rw [hstep, b.partialTag_place, hb]
  refine ⟨hpartial, ?_, ?_⟩
  · rw [begun_of_none hpartial, begun_of_none hb, hstep, Listing.builder_place, hn, ht]
  · intro d hd
    rw [hstep, b.problems_of_place] at hd
    exact .inl hd

/-- Outside of start tags. -/
theorem takes_outside (hb : b.partialTag = none) (h : Site.outside.next? t.content = some s') :
    b.Takes t s' := by
  obtain ⟨k, span⟩ := t
  have hstep : b.step ⟨k, span⟩ = b.content ⟨k, span⟩ := by rw [Builder.step, hb]
  cases k with
  | tagStart name =>
    cases h
    refine ⟨?_, ?_, ?_⟩ <;> rw [hstep]
    · exact ⟨_, rfl, rfl⟩
    · rw [begun_of_none hb]
      rfl
    · exact fun d hd => .inl hd
  | closingTag name =>
    cases h
    have hreport : ∀ d ∈ (b.report (.unexpectedClosingTag name) span).problems,
        d ∈ b.problems ∨ d.problem.ofTree = true := by
      intro d hd
      rcases List.mem_append.1 hd with hd | hd
      · exact .inl hd
      · exact .inr (by rw [List.mem_singleton.1 hd]; rfl)
    -- whether the tag closes an element or is reported, no start tag is begun
    obtain ⟨hpartial, hproblems⟩ : (b.content ⟨.closingTag name, span⟩).partialTag = none ∧
        ∀ d ∈ (b.content ⟨.closingTag name, span⟩).problems,
          d ∈ b.problems ∨ d.problem.ofTree = true := by
      unfold Builder.content
      cases b.stack with
      | nil => exact ⟨hb, hreport⟩
      | cons e outer =>
        simp only
        split
        · rw [Builder.partialTag_place, Builder.problems_of_place]
          exact ⟨hb, fun d hd => .inl hd⟩
        · exact ⟨hb, hreport⟩
    refine ⟨?_, ?_, ?_⟩ <;> rw [hstep]
    · exact hpartial
    · rw [begun_of_none hpartial, begun_of_none hb, Listing.builder_content, headings_content]
      rfl
    · exact hproblems
  | text | cdata | comment | instruction | doctype =>
    cases h
    exact takes_place hb hstep rfl rfl
  | _ => cases h

/-- In a start tag that tag is the last one begun. -/
theorem begun_of_some {p : PartialTag} (h : b.partialTag = some p) :
    b.begun = headings.builder b ++ [(p.name, p.span.start)] := by
  rw [Builder.begun, h]
  rfl

/-- The end of a start tag. -/
theorem takes_end {p : PartialTag} (hp : b.partialTag = some p)
    (hadded : headings.added b t = [(p.name, p.span.start)]) (ht : t.begun = [])
    (hpartial : (b.step t).partialTag = none) (hproblems : (b.step t).problems = b.problems) :
    b.Takes t .outside := by
  refine ⟨hpartial, ?_, ?_⟩
  · rw [begun_of_none hpartial, begun_of_some hp, Listing.builder_step, hadded, ht, List.append_nil]
  · rw [hproblems]
    exact fun d hd => .inl hd

/-- Behind the name of a start tag or behind an attribute. -/
theorem takes_inTag (hb : Site.inTag.At b) (h : Site.inTag.next? t.content = some s') :
    b.Takes t s' := by
  obtain ⟨p, hp, -⟩ := hb
  obtain ⟨k, span⟩ := t
  -- inside a tag only a name or an end may come, so the other tokens have no next site
  cases k with
  | attributeName name =>
    cases h
    have hstep : b.step ⟨.attributeName name, span⟩ =
        { b with partialTag := some { p with naming := some (name, span) } } := by
      simp only [Builder.step, hp]
    refine ⟨?_, ?_, ?_⟩ <;> rw [hstep]
    · exact ⟨_, _, rfl, rfl⟩
    · exact (begun_of_some hp).symm.trans (List.append_nil _).symm
    · exact fun d hd => .inl hd
  | tagEnd =>
    cases h
    refine takes_end hp ?_ rfl ?_ ?_
    · simp only [Listing.added, hp]
      rfl
    · simp only [Builder.step, hp]
    · simp only [Builder.step, hp]
  | tagEndEmpty =>
    cases h
    refine takes_end hp ?_ rfl ?_ ?_
    · simp only [Listing.added, hp]
      rfl
    · simp only [Builder.step, hp, Builder.partialTag_place]
    · simp only [Builder.step, hp, Builder.problems_of_place]
  | _ => cases h

/-- Behind the name of an attribute. -/
theorem takes_named (hb : Site.named.At b) (h : Site.named.next? t.content = some s') :
    b.Takes t s' := by
  obtain ⟨p, ⟨name, nameSpan⟩, hp, hnaming⟩ := hb
  obtain ⟨k, span⟩ := t
  cases k with
  | attributeValue quote value =>
    cases h
    -- added to the tag, or reported as a duplicate: the tag goes on either way
    have hstep : b.step ⟨.attributeValue quote value, span⟩ =
        b.addAttribute p name nameSpan quote value span := by
      simp only [Builder.step, hp, hnaming]
    refine ⟨?_, ?_, ?_⟩ <;> rw [hstep] <;> unfold Builder.addAttribute <;> split
    · exact ⟨_, rfl, rfl⟩
    · exact ⟨_, rfl, rfl⟩
    · exact (begun_of_some hp).symm.trans (List.append_nil _).symm
    · exact (begun_of_some hp).symm.trans (List.append_nil _).symm
    · intro d hd
      rcases List.mem_append.1 hd with hd | hd
      · exact .inl hd
      · exact .inr (by rw [List.mem_singleton.1 hd]; rfl)
    · exact fun d hd => .inl hd
  | _ => cases h

/-- **A token that comes in order finds its place.**  The builder then stands at
the next site, and it reports nothing that is the fault of the order. -/
theorem takes_step (hb : s.At b) (h : s.next? t.content = some s') : b.Takes t s' := by
  cases s with
  | outside => exact takes_outside hb h
  | inTag => exact takes_inTag hb h
  | named => exact takes_named hb h

/-- The same of some tokens. -/
theorem takes_run {ts : List Token} (hb : s.At b) (h : s.run? ts = some s') :
    s'.At (ts.foldl Builder.step b) ∧
      (ts.foldl Builder.step b).begun = b.begun ++ ts.flatMap Token.begun ∧
      ∀ d ∈ (ts.foldl Builder.step b).problems, d ∈ b.problems ∨ d.problem.ofTree = true := by
  induction ts generalizing b s with
  | nil =>
    obtain rfl : s = s' := Option.some.inj h
    exact ⟨hb, (List.append_nil _).symm, fun d hd => .inl hd⟩
  | cons t ts ih =>
    obtain ⟨u, hu, h⟩ := Option.bind_eq_some_iff.1 h
    have htakes := takes_step hb hu
    obtain ⟨hat, hbegun, hproblems⟩ := ih htakes.site h
    refine ⟨hat, ?_, ?_⟩
    · rw [List.foldl_cons, hbegun, htakes.begun, List.flatMap_cons, List.append_assoc]
    · intro d hd
      -- a problem is from the first step or from the steps that follow
      rcases hproblems d hd with hd | hd
      · exact htakes.problems d hd
      · exact .inr hd

end Takes

/-! ## §3. Whole texts. -/

/-- The end of the text drops the start tag that was never ended, and nothing
else. -/
theorem headings_endOfText (b : Builder) (span : Span) :
    headings.builder (b.step ⟨.endOfText, span⟩) = headings.builder b := by
  rw [Listing.builder_step]
  have hadded : headings.added b ⟨.endOfText, span⟩ = [] := by
    unfold Listing.added
    cases b.partialTag <;> rfl
  rw [hadded, List.append_nil]

/-- The end of the text is no problem by itself. -/
theorem problems_endOfText (b : Builder) (span : Span) :
    (b.step ⟨.endOfText, span⟩).problems = b.problems := by
  unfold Builder.step
  cases b.partialTag <;> rfl

/-- Elements that were never closed are problems of the tree. -/
theorem ofTree_unwind {last : List Node} {stack : List OpenElement} :
    ∀ d ∈ (Builder.unwind last stack).2, d.problem.ofTree = true := by
  induction stack generalizing last with
  | nil => simp [Builder.unwind]
  | cons e outer ih =>
    intro d hd
    rcases List.mem_cons.1 hd with rfl | hd
    · rfl
    · exact ih d hd

/-- Character data: text, the inside of a CDATA section, or the value of an
attribute. -/
def TokenContent.isData : TokenContent → Bool
  | .text _ | .cdata _ | .attributeValue _ _ => true
  | _ => false

theorem Spelling.raw_plain (t : Text) : raw (plain t) = t := by
  induction t with
  | nil => rfl
  | cons c t ih => exact congrArg (c :: ·) ih

/-- Character data has a spelling, and that is the text of the token. -/
theorem exists_spelling_of_scan {content url : Text} {t : Token} (ht : t ∈ (scan content).1)
    (hdata : t.content.isData = true) :
    ∃ v, t.content.spelling? = some v ∧ t.span.text ⟨content, url⟩ = v.raw := by
  obtain ⟨before, w, after, rfl, hspan, hreads⟩ := exists_stretch_of_scan ht
  rw [hspan, Span.text_over]
  obtain ⟨k, span⟩ := t
  cases k with
  | text v => exact ⟨v, rfl, hreads.1⟩
  | attributeValue quote v => exact ⟨v, rfl, hreads.1⟩
  | cdata c =>
    obtain rfl : w = c := hreads
    exact ⟨_, rfl, (Spelling.raw_plain w).symm⟩
  | _ => cases hdata

/-- **Every token finds its place.**  Whatever the text, its tokens come in the
order of `Site` up to the end or to the one problem that stops the reading, and
only that problem may end them inside of a start tag, which the end of the text
then follows.  All character data is spelled.  So the tree reports problems of
its own only, after that problem, and has an element for each start tag, in
order, but for the one that was not ended. -/
theorem scan_placed (content url : Text) :
    ∃ tokens last site dropped,
      (scan content).1 = tokens ++ [⟨.endOfText, last⟩] ∧
      Site.run? .outside tokens = some site ∧
      ((scan content).2 = none → site = .outside) ∧
      (∀ t ∈ tokens, t.content.isData = true →
        ∃ v, t.content.spelling? = some v ∧ t.span.text ⟨content, url⟩ = v.raw) ∧
      (parse content).2 = (scan content).2.toList ++ (Builder.build (scan content).1).2 ∧
      (∀ d, (scan content).2 = some d → d.problem.stops = true) ∧
      (∀ d ∈ (Builder.build (scan content).1).2, d.problem.ofTree = true) ∧
      (∀ d ∈ (parse content).2, ∀ kind, d.problem ≠ .misplacedToken kind) ∧
      tokens.flatMap Token.begun =
        (Node.descendantsOf (parse content).1).map Element.heading ++ dropped ∧
      dropped.length ≤ 1 ∧ (dropped = [] ↔ site = .outside) := by
  obtain ⟨site, hrun, hsite⟩ := ordered_scanFrom (.ofText content)
  obtain ⟨hat, hbegun, hproblems⟩ := takes_run (b := {}) (s := .outside) rfl hrun
  set tokens := (scanFrom (.ofText content)).tokens with htokens
  set b := tokens.foldl Builder.step {} with hb
  set last := (scanFrom (.ofText content)).cursor.spanTo (scanFrom (.ofText content)).cursor with hlast
  have hscan : (scan content).1 = tokens ++ [⟨.endOfText, last⟩] := rfl
  have hfold : (scan content).1.foldl Builder.step {} = b.step ⟨.endOfText, last⟩ := by
    rw [hscan, List.foldl_append]
    rfl
  -- the problems of the tree are those that the builder reports, and the unclosed elements
  have htree : ∀ d ∈ (Builder.build (scan content).1).2, d.problem.ofTree = true := by
    intro d hd
    simp only [Builder.build, hfold, problems_endOfText] at hd
    rcases List.mem_append.1 hd with hd | hd
    · exact (hproblems d hd).resolve_left List.not_mem_nil
    · exact ofTree_unwind d hd
  have hstops : ∀ d, (scan content).2 = some d → d.problem.stops = true :=
    fun d hd => (failure_scan hd).1
  refine ⟨tokens, last, site, (b.partialTag.map fun p => (p.name, p.span.start)).toList, hscan,
    hrun, hsite, ?_, rfl, hstops, htree, ?_, ?_, ?_, ?_⟩
  · intro t ht
    exact exists_spelling_of_scan (by rw [hscan]; exact List.mem_append_left _ ht)
  · intro d hd kind hkind
    rcases List.mem_append.1 hd with hd | hd
    · have h := hstops d (Option.mem_toList.1 hd)
      rw [hkind] at h
      cases h
    · have h := htree d hd
      rw [hkind] at h
      cases h
  · have hnodes : headings.nodes (parse content).1 = headings.builder b := by
      show headings.nodes (Builder.build (scan content).1).1 = headings.builder b
      rw [Listing.nodes_build, hfold, headings_endOfText]
    rw [← headings_nodes, hnodes]
    exact hbegun.symm
  · cases b.partialTag <;> simp
  · cases site with
    | outside => simp [show b.partialTag = none from hat]
    | inTag =>
      obtain ⟨p, hp, -⟩ := hat
      simp [hp]
    | named =>
      obtain ⟨p, n, hp, -⟩ := hat
      simp [hp]

end QwebReceiver.Markup
