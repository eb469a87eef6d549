import QwebReceiver.Proofs.Markup.Insertion
import QwebReceiver.Proofs.Template.Idempotent
import QwebReceiver.Proofs.Template.Owner

/-!
  QwebReceiver.Proofs.Template.Insertion — what qualifying writes into a text.

  A value that has grown was edited by insertions, of characters that are
  written as themselves.  So the derivation of what is written out is that of
  the source with insertions in values (`extendsAll_respellAll`): every other
  character of the source, and every reference, stands where it stood.
-/

namespace QwebReceiver.Template

open QwebReceiver.Markup QwebReceiver.Expr

/-! ## §1. Values that have grown. -/

/-- The marks of a text are insertions of characters that marks may hold. -/
theorem inserts_new {after before : Text} {A : MarkedText} (h : A.Valid after before) :
    Inserts Insertable A.old A.new := by
  induction A generalizing before with
  | nil => exact .nil
  | cons p A ih =>
    obtain ⟨ins, c⟩ := p
    rw [MarkedText.new_cons, MarkedText.old_cons]
    refine Inserts.append_insert ?_ (.keep c (ih h.2))
    rcases h.1 with rfl | ⟨-, hmark⟩
    · intro x hx
      cases hx
    · exact hmark.insertable

/-- What has grown has characters inserted, pass after pass. -/
theorem inserts_of_grows {s t : Text} (h : Grows s t) : Inserts Insertable s t := by
  induction h with
  | refl => exact Inserts.refl s
  | tail _ hmark ih =>
    obtain ⟨A, hv, rfl, rfl⟩ := hmark
    exact ih.trans (inserts_new hv)

/-- No character of markup is inserted. -/
theorem not_mem_markup {c : Char} (hc : Insertable c) : c ∉ ['<', '>', '&', '"', '\''] := by
  have hall : ∀ d ∈ ['<', '>', '&', '"', '\''],
      Text.isIdentifierPart d = false ∧ d ≠ '.' ∧ d ≠ ':' ∧ d ≠ ' ' := by decide
  intro hmem
  exact not_insertable (hall c hmem).1 (hall c hmem).2 hc

/-- A character that marks may hold is written as itself, whatever the quote. -/
theorem escapeGlyph_of_insertable (quote : Option Char) (c : Char) (hc : Insertable c) :
    Spelling.escapeGlyph quote c = .plain c := by
  have hmarkup := not_mem_markup hc
  simp only [List.mem_cons, List.not_mem_nil, or_false, not_or] at hmarkup
  obtain ⟨hlt, -, hamp, hquot, hapos⟩ := hmarkup
  rw [Spelling.escapeGlyph, if_neg hamp, if_neg hlt, if_neg fun h => hquot h.1,
    if_neg fun h => hapos h.1]

/-! ## §2. Documents that have grown. -/

/-- Where a text may be inserted into: at the start of a patch that names an
attribute and stands below a selector, which is at or below an element that
inherits. -/
def StartsPatch (around : List TagForm) (k : Nat) : Prop :=
  startsPatch [k] (around.map fun t => (Form.empty t).node .origin) = true

/-- An element whose start tag has this form. -/
def Opened (t : TagForm) (n : Node) : Prop :=
  ∃ here mark children close, n = .element (t.toTag here mark) children close

/-- A start tag on its own has the heading of the element that it starts. -/
theorem sameHeading_of_opened {t : TagForm} {n : Node} (h : Opened t n) :
    SameHeading ((Form.empty t).node .origin) n := by
  obtain ⟨here, mark, children, close, rfl⟩ := h
  refine ⟨_, _, rfl, rfl, rfl, ?_⟩
  simp only [TagForm.toTag, names_attributesAt]

/-- A text in those elements starts a patch if it does so by their start tags. -/
theorem startsPatch_eq_false {around : List TagForm} {outer : List Node} {k : Nat}
    (h : List.Forall₂ Opened around outer) (hk : ¬ StartsPatch around k) :
    startsPatch [k] outer = false := by
  have hsame : List.Forall₂ SameHeading (around.map fun t => (Form.empty t).node .origin) outer :=
    List.forall₂_map_left_iff.2 (h.imp fun _ _ => sameHeading_of_opened)
  rw [startsPatch_congr hsame]
  exact Bool.not_eq_true _ ▸ hk

/-- The texts at or below a node at which no patch starts stand in the other node
as well.  `outer` are the elements around both, and `k` is their place there. -/
def KeepsTexts (outer : List Node) (k : Nat) (n m : Node) : Prop :=
  ∀ place data above, n.line? place = some (.text data :: above) →
    startsPatch (k :: place) (above ++ outer) = false → m.at? place = some (.text data)

/-- The same of nodes side by side, of which the first has the place `k`. -/
def KeepsTextsAll (outer : List Node) (k : Nat) (ns ms : List Node) : Prop :=
  ∀ i n m, ns[i]? = some n → ms[i]? = some m → KeepsTexts outer (k + i) n m

section Keeps

variable {outer ns ms children children' : List Node} {k : Nat} {n m : Node} {tag tag' : Tag}
  {close close' : Option Span}

/-- A text at which no patch starts is kept as it is. -/
theorem KeepsTexts.text {data : CharData} (h : KeepsTexts outer k (.text data) m)
    (hk : startsPatch [k] outer = false) : m = .text data :=
  Option.some.inj (h [] data [] rfl hk)

/-- In elements of which this holds it holds of what is right below them. -/
theorem KeepsTexts.below
    (h : KeepsTexts outer k (.element tag children close) (.element tag' children' close')) :
    KeepsTextsAll (.element tag children close :: outer) 0 children children' := by
  intro i c c' hc hc' place data above hline hstarts
  rw [Nat.zero_add] at hstarts
  have hat := h (i :: place) data (above ++ [.element tag children close])
    (Node.line?_cons_of hc hline) ?_
  · obtain ⟨_, hc'', hat⟩ := Node.at?_cons hat
    obtain rfl := Option.some.inj (hc'.symm.trans hc'')
    exact hat
  · rw [List.append_assoc]
    simpa [startsPatch] using hstarts

theorem KeepsTextsAll.head (h : KeepsTextsAll outer k (n :: ns) (m :: ms)) :
    KeepsTexts outer k n m := h 0 n m rfl rfl

/-- And it holds of those behind the first, each with its place. -/
theorem KeepsTextsAll.tail (h : KeepsTextsAll outer k (n :: ns) (m :: ms)) :
    KeepsTextsAll outer (k + 1) ns ms := by
  intro i n' m' hn hm
  have hkeeps := h (i + 1) n' m' hn hm
  rwa [show k + (i + 1) = k + 1 + i by omega] at hkeeps

/-- Qualifying a document leaves its texts alone but for the starts of patches. -/
theorem keepsTextsAll_qualifyDocument {vars : CorpusVars} {d : Document}
    (h : (qualifyDocument vars d).failure = none) :
    KeepsTextsAll [] 0 d.nodes (qualifyDocument vars d).value.nodes := by
  intro i n m hn hm place data above hline hstarts
  rw [Nat.zero_add, List.append_nil] at hstarts
  have hdline : d.line? (i :: place) = some (.text data :: above) :=
    Option.bind_eq_some_iff.2 ⟨n, hn, hline⟩
  obtain ⟨n', above', hline', value, rfl, hsame⟩ := rewritten_qualifyDocument h hdline
  obtain ⟨m', hm', hline'⟩ := Option.bind_eq_some_iff.1 hline'
  obtain rfl := Option.some.inj (hm.symm.trans hm')
  rw [Node.at?_of_line? hline', hsame (.inr hstarts)]

end Keeps

/-- Attributes that have grown are written with insertions in their values. -/
theorem extends_attributes {here : Location} {as : List AttributeForm} {us : List Attribute}
    (h : List.Forall₂ marked.attr (AttributeForm.attributesAt here as) us) :
    List.Forall₂ (AttributeForm.Extends Insertable) as (List.zipWith AttributeForm.respell as us) := by
  induction as generalizing here us with
  | nil =>
    cases h
    exact .nil
  | cons a as ih =>
    cases h with
    | cons hab hrest =>
      obtain ⟨⟨v, rfl⟩, hv, -⟩ := hab
      refine .cons ⟨_, rfl, ?_⟩ (ih hrest)
      exact Spelling.inserts_respell (escapeGlyph_of_insertable _) (inserts_of_grows hv)

theorem extends_tag {here : Location} {mark : Text} {t : TagForm} {u : Tag}
    (h : (t.toTag here mark).Alike marked u) : t.Extends Insertable (t.respell u) :=
  ⟨_, rfl, extends_attributes h.attributes⟩

/-- A leaf that has grown is written with insertions if it starts a patch, and
as it was if it does not. -/
theorem extends_leaf {here : Location} {l : Leaf} {first : Option Text} {n : Node}
    {around : List TagForm} {outer : List Node} {k : Nat}
    (houter : List.Forall₂ Opened around outer) (h : (l.node here).Alike marked first n)
    (hkeeps : KeepsTexts outer k (l.node here) n) :
    (Form.leaf l).Extends Insertable StartsPatch around k ((Form.leaf l).respell n) := by
  cases l with
  | text v =>
    obtain ⟨_, rfl, ⟨value, rfl⟩, hgrows, -⟩ := h
    refine ⟨_, rfl, _, rfl, ?_, ?_⟩
    · exact Spelling.inserts_respell (escapeGlyph_of_insertable _) (inserts_of_grows hgrows)
    -- a text that does not start a patch is left as it is
    · intro hother
      have hsame : value = v.decoded :=
        congrArg CharData.value (Node.text.inj (hkeeps.text (startsPatch_eq_false houter hother)))
      show v.respell value none = v
      rw [hsame, Spelling.respell_decoded]
  | cdata c =>
    obtain ⟨_, rfl, ⟨value, rfl⟩, hgrows, -⟩ := h
    refine ⟨_, rfl, _, rfl, inserts_of_grows hgrows, fun hother => ?_⟩
    exact congrArg CharData.value (Node.text.inj (hkeeps.text (startsPatch_eq_false houter hother)))
  | comment c =>
    obtain ⟨s, rfl, -⟩ := h
    exact ⟨_, rfl, rfl⟩
  | instruction c =>
    obtain ⟨s, rfl, -⟩ := h
    exact ⟨_, rfl, rfl⟩
  | declaration c =>
    obtain ⟨s, rfl, -⟩ := h
    exact ⟨_, rfl, rfl⟩

mutual

/-- A form that has grown is written with insertions.  The induction goes down
to the leaves, and takes the start tags around along, for what starts a patch is
decided by them. -/
theorem extends_respell {here : Location} (f : Form) {first : Option Text} {n : Node}
    {around : List TagForm} {outer : List Node} {k : Nat}
    (houter : List.Forall₂ Opened around outer) (h : (f.node here).Alike marked first n)
    (hkeeps : KeepsTexts outer k (f.node here) n) :
    f.Extends Insertable StartsPatch around k (f.respell n) := by
  cases f with
  | leaf l => exact extends_leaf houter h hkeeps
  | empty tag =>
    obtain ⟨u, _, _, rfl, htag, -, -⟩ := h
    exact ⟨_, rfl, extends_tag htag⟩
  | element tag children gap =>
    obtain ⟨u, nodes, close, rfl, htag, hchildren, -⟩ := h
    refine ⟨_, _, rfl, extends_tag htag, ?_⟩
    exact extendsAll_respellAll children (.cons ⟨_, _, _, _, rfl⟩ houter) hchildren hkeeps.below

/-- The derivation of a document that has grown is the one it was read by, with
insertions in values. -/
theorem extendsAll_respellAll {here : Location} (fs : List Form) {first : Option Text}
    {ns : List Node} {around : List TagForm} {outer : List Node} {k : Nat}
    (houter : List.Forall₂ Opened around outer)
    (h : Node.AlikeAll marked first (Form.nodes here fs) ns)
    (hkeeps : KeepsTextsAll outer k (Form.nodes here fs) ns) :
    Form.ExtendsAll Insertable StartsPatch around k fs (Form.respellAll fs ns) := by
  cases fs with
  | nil =>
    obtain rfl : ns = [] := h
    rfl
  | cons f fs =>
    obtain ⟨n, ns', rfl, hn, hns⟩ := h
    exact ⟨_, _, rfl, extends_respell f houter hn hkeeps.head,
      extendsAll_respellAll fs houter hns hkeeps.tail⟩

end

/-- What a document that has grown is written as derives as its source did. -/
theorem exists_extends_render {source : Source} {d d' : Document}
    (h : Document.parse source = .ok d) (hsource : d'.source = d.source)
    (hmarked : Node.AlikeAll marked none d.nodes d'.nodes)
    (hkeeps : KeepsTextsAll [] 0 d.nodes d'.nodes) :
    ∃ forms forms', Derives source.content forms ∧ Derives d'.render forms' ∧
      Form.ExtendsAll Insertable StartsPatch [] 0 forms forms' := by
  obtain ⟨forms, hforms, rfl⟩ := exists_derives_of_document h
  refine ⟨forms, Form.respellAll forms d'.nodes, hforms, ?_,
    extendsAll_respellAll forms .nil hmarked hkeeps⟩
  rw [Document.render, hsource]
  exact derives_respellAll hforms (hmarked.mono marked_le_edited)

/-! ## §3. Writing along the spelling. -/

mutual

/-- Every value of the node can be written along its spelling, so that it is
never written anew as a whole. -/
def Aligned : Node → Prop
  | .element tag children _ =>
    (∀ a ∈ tag.attributes, (a.spelling.aligned (some a.quote) a.value).isSome = true) ∧
      AlignedAll children
  | .text d => d.cdata = false → (d.spelling.aligned none d.value).isSome = true
  | _ => True

/-- Every value of the nodes can be written along its spelling. -/
def AlignedAll : List Node → Prop
  | [] => True
  | n :: ns => Aligned n ∧ AlignedAll ns

end

/-- An attribute that was just read has the value that it is spelled to have. -/
theorem decoded_eq_of_attribute {a : Attribute} (h : a.isModified = false) :
    a.spelling.decoded = a.value := (bne_eq_false_iff_eq.1 h).symm

theorem decoded_eq_of_charData {d : CharData} (h : d.isModified = false) :
    d.spelling.decoded = d.value := (bne_eq_false_iff_eq.1 h).symm

/-- The values of attributes that have grown can be written along their
spellings. -/
theorem aligned_attributes {as bs : List Attribute}
    (h : List.Forall₂ (Likeness.fresh.comp marked).attr as bs) :
    ∀ b ∈ bs, (b.spelling.aligned (some b.quote) b.value).isSome = true := by
  induction h with
  | nil =>
    intro b hb
    cases hb
  | cons hab _ ih =>
    refine List.forall_mem_cons.2 ⟨?_, ih⟩
    obtain ⟨a, ⟨rfl, hfresh⟩, ⟨v, rfl⟩, hv, -⟩ := hab
    refine Spelling.isSome_aligned (escapeGlyph_of_insertable _) ?_
    show Inserts Insertable a.spelling.decoded v
    rw [decoded_eq_of_attribute hfresh]
    exact inserts_of_grows hv

mutual

/-- The values of a document that was read can be written along their
spellings after they have grown. -/
theorem aligned_of_grown {n m : Node} {first : Option Text}
    (h : n.Alike (Likeness.fresh.comp marked) first m) : Aligned m := by
  cases n with
  | element tag children close =>
    obtain ⟨tag', children', close', rfl, htag, hchildren, -⟩ := h
    exact ⟨aligned_attributes htag.attributes, alignedAll_of_grown hchildren⟩
  | text d =>
    obtain ⟨d', rfl, d'', ⟨rfl, hfresh⟩, ⟨v, rfl⟩, hv, -⟩ := h
    intro _
    refine Spelling.isSome_aligned (escapeGlyph_of_insertable _) ?_
    show Inserts Insertable d''.spelling.decoded v
    rw [decoded_eq_of_charData hfresh]
    exact inserts_of_grows hv
  | comment v s =>
    obtain ⟨s', rfl, -⟩ := h
    trivial
  | instruction v s =>
    obtain ⟨s', rfl, -⟩ := h
    trivial
  | doctype v s =>
    obtain ⟨s', rfl, -⟩ := h
    trivial

/-- So can those of nodes side by side. -/
theorem alignedAll_of_grown {ns ms : List Node} {first : Option Text}
    (h : Node.AlikeAll (Likeness.fresh.comp marked) first ns ms) : AlignedAll ms := by
  cases ns with
  | nil =>
    obtain rfl : ms = [] := h
    trivial
  | cons n ns =>
    obtain ⟨m, ms', rfl, hn, hns⟩ := h
    exact ⟨aligned_of_grown hn, alignedAll_of_grown hns⟩

end

/-! ## §4. Texts. -/

/-- Qualifying a text inserts into it.  The text derives as it did, with
characters inserted in the values of attributes and in the character data that
starts a patch; these are parts of identifiers, periods, colons and blanks,
and never markup.  Every reference is left as it is written, and every value
can be written along its spelling, so that none is ever escaped anew. -/
theorem qualifyText_inserts {vars : CorpusVars} {content out : Text}
    (h : (qualifyText vars content).outcome = .ok out) :
    content.Sublist out ∧
    (∃ forms forms', Derives content forms ∧ Derives out forms' ∧
      Form.ExtendsAll Insertable StartsPatch [] 0 forms forms' ∧
      Form.referencesAll forms' = Form.referencesAll forms) ∧
    (∀ c, Insertable c → c ∉ ['<', '>', '&', '"', '\'']) ∧
    ∃ d, Document.parse ⟨content, defaultUrl⟩ = .ok d ∧
      (qualifyDocument vars d).value.render = out ∧
      AlignedAll (qualifyDocument vars d).value.nodes := by
  obtain ⟨d, hparse, hfailure, rfl⟩ := editText_eq_ok_iff.1 h
  obtain ⟨hsource, hmarked⟩ := alike_qualifyDocument vars d
  have haligned := alignedAll_of_grown ((fresh_of_parse hparse).trans hmarked)
  -- the two texts are written forms of one shape, and all the rest is read off them
  obtain ⟨forms, forms', hforms, hforms', hextends⟩ := exists_extends_render hparse hsource hmarked
    (keepsTextsAll_qualifyDocument hfailure)
  have hsublist := Form.writeAll_sublist hextends
  rw [hforms.1, hforms'.1] at hsublist
  exact ⟨hsublist, ⟨forms, forms', hforms, hforms', hextends, Form.referencesAll_eq hextends⟩,
    fun c => not_mem_markup, d, hparse, rfl, haligned⟩

/-- A reference stays between what is inserted before it and after it. -/
theorem qualifyText_inserts_sample :
    (qualifyText {} "<a t-if='x&lt;{y}'/>".toList).outcome =
        .ok "<a t-if='this.x&lt;{y: this.y}'/>".toList ∧
      ∃ forms forms', Derives "<a t-if='x&lt;{y}'/>".toList forms ∧
        Derives "<a t-if='this.x&lt;{y: this.y}'/>".toList forms' ∧
        Form.ExtendsAll Insertable StartsPatch [] 0 forms forms' ∧
        Form.referencesAll forms' = Form.referencesAll forms := by
  have h : (qualifyText {} "<a t-if='x&lt;{y}'/>".toList).outcome =
      .ok "<a t-if='this.x&lt;{y: this.y}'/>".toList := by
    decide +kernel
  exact ⟨h, (qualifyText_inserts h).2.1⟩

end QwebReceiver.Template
