import QwebReceiver.Proofs.Markup.Likeness
import QwebReceiver.Proofs.Markup.Respell

/-!
  QwebReceiver.Proofs.Markup.RoundTrip — an edited document is read back.

  Take a derivation and a tree that differs from the derivation's tree in
  values only.  Respelling the values gives a derivation again
  (`validAll_respellAll`), its text is what the splice writes
  (`rewrites_respellAll`), and its tree is the edited tree
  (`reread_respellAll`).  So writing an edited document out and reading it
  again gives the document back, whatever values were set.
-/

namespace QwebReceiver.Markup

open QwebReceiver.Text

/-! ## §1. Edited trees and trees read back. -/

/-- Character data that can be written where it stands: text is not empty, and
a CDATA section does not hold its own end. -/
def CharData.Writable (d : CharData) : Prop :=
  if d.cdata then ¬ cdataEnd <:+: d.value else d.value ≠ []

/-- The same tree but for its values; character data stays writable, and only
what starts the content of an element changes. -/
def Likeness.edited : Likeness where
  attr a b := ∃ value, b = { a with value }
  text first d e := (∃ value, e = { d with value }) ∧ (d.Writable → e.Writable) ∧
    (first = none → e = d)
  span s t := t = s

/-- The same tree read from another place: names, quotes and values are equal,
and a value that was not changed is spelled as before. -/
def Likeness.reread : Likeness where
  attr a b := b.name = a.name ∧ b.quote = a.quote ∧ b.value = a.value ∧
    (a.isModified = false → b.spelling = a.spelling)
  text _ d e := e.cdata = d.cdata ∧ e.value = d.value ∧
    (d.isModified = false → e.spelling = d.spelling)
  span _ _ := True

/-- A tree that nobody edited is an edited tree. -/
theorem Likeness.edited_refl : Likeness.edited.Refl where
  attr a := ⟨a.value, rfl⟩
  text _ d := ⟨⟨d.value, rfl⟩, id, fun _ => rfl⟩
  span _ := rfl

/-- Edits after edits are edits.  A value may change any number of times; what
stays writable is asked of the last one. -/
theorem Likeness.edited_trans : (Likeness.edited.comp Likeness.edited).Le Likeness.edited where
  attr := by
    rintro a _ ⟨_, ⟨v, rfl⟩, w, rfl⟩
    exact ⟨w, rfl⟩
  text := by
    rintro first d _ ⟨_, ⟨⟨v, rfl⟩, hv, hv'⟩, ⟨w, rfl⟩, hw, hw'⟩
    exact ⟨⟨w, rfl⟩, fun hd => hw (hv hd), fun hfirst => (hw' hfirst).trans (hv' hfirst)⟩
  span := by
    rintro a c ⟨b, rfl, rfl⟩
    rfl

/-! ## §2. Respelled derivations. -/

/-- The attribute with another value. -/
def AttributeForm.respell (a : AttributeForm) (u : Attribute) : AttributeForm :=
  { a with value := a.value.respell u.value (some a.quote) }

/-- The start tag with the values of another one, attribute by attribute.
Blanks and quotes are kept. -/
def TagForm.respell (t : TagForm) (u : Tag) : TagForm :=
  { t with attributes := List.zipWith AttributeForm.respell t.attributes u.attributes }

/-- The leaf with another value, if it has one.  A CDATA section is written as
it is, without references. -/
def Leaf.respell (value : Text) : Leaf → Leaf
  | .cdata _ => .cdata value
  | .text v => .text (v.respell value none)
  | l => l

namespace Form

mutual

/-- The form with the values of a node.  This is what the text of the edited
document derives from. -/
def respell : Form → Node → Form
  | .leaf l, .text d => .leaf (l.respell d.value)
  | .empty tag, .element u _ _ => .empty (tag.respell u)
  | .element tag children gap, .element u nodes _ =>
    .element (tag.respell u) (respellAll children nodes) gap
  | f, _ => f

/-- The forms with the values of some nodes. -/
def respellAll : List Form → List Node → List Form
  | f :: fs, n :: ns => f.respell n :: respellAll fs ns
  | fs, _ => fs

end

end Form

/-! ## §3. The text of a respelled derivation. -/

/-- An attribute is rewritten in its value alone. -/
theorem rewrites_attribute {here : Location} {a : AttributeForm} {u : Attribute}
    (h : Likeness.edited.attr (a.toAttribute here) u) :
    Rewrites here.offset a.write (a.respell u).write (Replacement.ofAttribute? u).toList := by
  obtain ⟨v, rfl⟩ := h
  -- a value that is the one written makes no replacement and keeps its spelling
  by_cases hm : v = a.value.decoded
  · have hsame : a.respell { a.toAttribute here with value := v } = a := by
      show { a with value := a.value.respell v (some a.quote) } = a
      rw [hm, Spelling.respell_decoded]
    have hes : Replacement.ofAttribute? { a.toAttribute here with value := v } = none := by
      simp [Replacement.ofAttribute?, Attribute.isModified, AttributeForm.toAttribute, hm]
    rw [hsame, hes]
    exact Rewrites.refl _ _
  · have hnew : (a.respell { a.toAttribute here with value := v }).write =
        a.opening ++ (a.value.encode v (some a.quote) ++ [a.quote]) := by
      rw [← Spelling.raw_respell]
      simp [AttributeForm.respell, AttributeForm.write, AttributeForm.opening]
    have hes : Replacement.ofAttribute? { a.toAttribute here with value := v } =
        some ⟨here.offset + utf8Size a.opening,
          here.offset + utf8Size a.opening + utf8Size a.value.raw,
          a.value.encode v (some a.quote)⟩ := by
      simp only [Replacement.ofAttribute?, Attribute.isModified, AttributeForm.toAttribute,
        Replacement.ofSpan, offset_after, bne_iff_ne, ne_eq, hm, not_false_eq_true, if_true]
    rw [hnew, hes, AttributeForm.write, List.append_assoc]
    exact Rewrites.keep _ (Rewrites.change _ _ (Rewrites.refl _ _))

/-- Attributes are rewritten in their values alone. -/
theorem rewrites_attributes {here : Location} {as : List AttributeForm} {us : List Attribute}
    (h : List.Forall₂ Likeness.edited.attr (AttributeForm.attributesAt here as) us) :
    Rewrites here.offset (AttributeForm.writeAll as)
      (AttributeForm.writeAll (List.zipWith AttributeForm.respell as us))
      (us.filterMap Replacement.ofAttribute?) := by
  induction as generalizing here us with
  | nil =>
    cases h
    exact .nil _
  | cons a as ih =>
    rw [AttributeForm.attributesAt] at h
    obtain ⟨u, us', hu, hus, rfl⟩ := List.forall₂_cons_left_iff.1 h
    have hfirst := rewrites_attribute hu
    have hrest := ih hus
    rw [offset_after] at hrest
    have hes : (u :: us').filterMap Replacement.ofAttribute? =
        (Replacement.ofAttribute? u).toList ++ us'.filterMap Replacement.ofAttribute? := by
      cases hr : Replacement.ofAttribute? u <;> simp [hr]
    -- the replacements of the first attribute come in front of those of the rest
    rw [hes]
    exact hfirst.append hrest

/-- A start tag is rewritten in the values of its attributes alone. -/
theorem rewrites_tag {here : Location} {t : TagForm} {mark : Text} {u : Tag}
    (h : (t.toTag here mark).Alike Likeness.edited u) :
    Rewrites here.offset t.write (t.respell u).write
      (u.attributes.filterMap Replacement.ofAttribute?) := by
  have hattributes := rewrites_attributes h.attributes
  rw [offset_after] at hattributes
  have hold : t.write = ('<' :: t.name) ++ (AttributeForm.writeAll t.attributes ++ t.trail) := by
    simp [TagForm.write]
  have hnew : (t.respell u).write = ('<' :: t.name) ++
      (AttributeForm.writeAll (t.respell u).attributes ++ t.trail) := by
    simp [TagForm.write, TagForm.respell]
  rw [hold, hnew]
  have happ := hattributes.append (Rewrites.refl _ t.trail)
  rw [List.append_nil] at happ
  exact Rewrites.keep _ happ

/-- A leaf is rewritten in its value alone. -/
theorem rewrites_leaf {here : Location} {l : Leaf} {first : Option Text} {n : Node}
    (h : (l.node here).Alike Likeness.edited first n) :
    Rewrites here.offset l.write (Form.respell (.leaf l) n).write (Replacement.ofNode n) := by
  cases l with
  | comment c =>
    obtain ⟨s, rfl, -⟩ := h
    exact Rewrites.refl _ _
  | instruction c =>
    obtain ⟨s, rfl, -⟩ := h
    exact Rewrites.refl _ _
  | declaration c =>
    obtain ⟨s, rfl, -⟩ := h
    exact Rewrites.refl _ _
  | cdata c =>
    obtain ⟨d, rfl, ⟨v, rfl⟩, -⟩ := h
    show Rewrites here.offset (cdataStart ++ c ++ cdataEnd) (cdataStart ++ v ++ cdataEnd) _
    rw [List.append_assoc, List.append_assoc]
    refine Rewrites.keep _ ?_
    -- a value that is the one written makes no replacement
    by_cases hm : v = c
    · have hes : Replacement.ofNode (.text ⟨v, Spelling.plain c, true,
          ⟨here.after cdataStart, (here.after cdataStart).after c⟩⟩) = [] := by
        simp [Replacement.ofNode, Replacement.ofCharData?, CharData.isModified, hm,
          Spelling.decoded_plain]
      rw [hm] at hes ⊢
      rw [hes]
      exact Rewrites.refl _ _
    · have hes : Replacement.ofNode (.text ⟨v, Spelling.plain c, true,
          ⟨here.after cdataStart, (here.after cdataStart).after c⟩⟩) =
          [⟨here.offset + utf8Size cdataStart, here.offset + utf8Size cdataStart + utf8Size c,
            v⟩] := by
        simp [Replacement.ofNode, Replacement.ofCharData?, CharData.isModified, hm,
          Spelling.decoded_plain, Replacement.ofSpan, offset_after]
      rw [hes]
      exact Rewrites.change _ _ (Rewrites.refl _ _)
  | text t =>
    obtain ⟨d, rfl, ⟨v, rfl⟩, -⟩ := h
    show Rewrites here.offset t.raw (Spelling.raw (t.respell v none)) _
    by_cases hm : v = t.decoded
    · have hes : Replacement.ofNode (.text ⟨v, t, false, ⟨here, here.after t.raw⟩⟩) = [] := by
        simp [Replacement.ofNode, Replacement.ofCharData?, CharData.isModified, hm]
      rw [hes, hm, Spelling.respell_decoded]
      exact Rewrites.refl _ _
    · have hes : Replacement.ofNode (.text ⟨v, t, false, ⟨here, here.after t.raw⟩⟩) =
          [⟨here.offset, here.offset + utf8Size t.raw, t.encode v none⟩] := by
        simp [Replacement.ofNode, Replacement.ofCharData?, CharData.isModified, hm,
          Replacement.ofSpan, offset_after]
      rw [hes, Spelling.raw_respell]
      exact Rewrites.single _ _ _

mutual

/-- A form is rewritten in its values alone. -/
theorem Form.rewrites_respell {here : Location} (f : Form) {first : Option Text} {n : Node}
    (h : (f.node here).Alike Likeness.edited first n) :
    Rewrites here.offset f.write (f.respell n).write (Replacement.ofNode n) := by
  cases f with
  | leaf l => exact rewrites_leaf h
  | empty tag =>
    obtain ⟨u, children, close, rfl, htag, hchildren, -⟩ := h
    obtain rfl : children = [] := hchildren
    have happ := (rewrites_tag htag).append (Rewrites.refl _ emptyTagEnd)
    exact happ
  | element tag children gap =>
    obtain ⟨u, nodes, close, rfl, htag, hchildren, -⟩ := h
    -- the tags around the children are kept, up to the attributes of the start tag
    have hinside := Form.rewrites_respellAll children hchildren
    rw [offset_after, utf8Size_append] at hinside
    have hstart := (rewrites_tag htag).append (Rewrites.refl _ tagEndMark)
    rw [List.append_nil] at hstart
    have happ := (hstart.append (by rwa [utf8Size_append])).append
      (Rewrites.refl _ (writeClosing tag.name gap))
    rw [List.append_nil] at happ
    exact happ

/-- Forms side by side are rewritten in their values alone; the text of the
first one moves the others. -/
theorem Form.rewrites_respellAll {here : Location} (fs : List Form) {first : Option Text}
    {ns : List Node} (h : Node.AlikeAll Likeness.edited first (Form.nodes here fs) ns) :
    Rewrites here.offset (Form.writeAll fs) (Form.writeAll (Form.respellAll fs ns))
      (Replacement.ofNodes ns) := by
  cases fs with
  | nil =>
    obtain rfl : ns = [] := h
    exact .nil _
  | cons f fs =>
    obtain ⟨n, ns', rfl, hn, hns⟩ := h
    have hrest := Form.rewrites_respellAll fs hns
    rw [offset_after] at hrest
    exact (Form.rewrites_respell f hn).append hrest

end

/-! ## §4. The rules of a respelled derivation. -/

/-- Markup or the end of the text comes next.  A text may only be written where
this holds behind it. -/
def AtMarkup (t : Text) : Prop := StopsAt (fun c => !stopsText c) t

theorem atMarkup_of_lt (t : Text) : AtMarkup ('<' :: t) := stopsAt_cons rfl

/-- The end of a CDATA section is the first one if its content does not hold
one: the mark cannot start in the content and end in the mark. -/
theorem firstEnd_cdata_iff (c : Text) : FirstEnd cdataEnd c ↔ ¬ cdataEnd <:+: c := by
  constructor
  · rintro h ⟨a, b, rfl⟩
    refine h a.length (by simp [cdataEnd]) ?_
    refine ⟨b ++ cdataEnd, ?_⟩
    simp [List.append_assoc]
  · intro h k hk hp
    have hdrop : (c ++ cdataEnd).drop k = c.drop k ++ cdataEnd :=
      List.drop_append_of_le_length (Nat.le_of_lt hk)
    rw [hdrop] at hp
    have hsuffix : c.drop k <:+ c := List.drop_suffix k c
    have hpos : 0 < (c.drop k).length := by
      rw [List.length_drop]
      omega
    generalize c.drop k = s at hp hsuffix hpos
    -- the end mark has three characters, so from the second last one on it reaches into
    -- the mark behind the content
    rcases s with _ | ⟨x, _ | ⟨y, _ | ⟨z, s⟩⟩⟩
    · simp at hpos
    · simp [cdataEnd] at hp
    · simp [cdataEnd] at hp
    · apply h
      have hpre : cdataEnd <+: x :: y :: z :: s := by
        refine List.prefix_of_prefix_length_le hp (List.prefix_append _ _) ?_
        simp [cdataEnd]
      exact hpre.isInfix.trans hsuffix.isInfix

/-- Respelling an attribute keeps its rules, whatever the value: what would end
it is escaped. -/
theorem valid_respell_attribute {a : AttributeForm} (h : a.Valid) (u : Attribute) :
    (a.respell u).Valid :=
  ⟨h.lead, h.name, h.beforeSign, h.afterSign, h.quote,
    Spelling.valid_respell (Spelling.escapes_stopsValue h.quote) h.value u.value⟩

/-- Respelling attributes keeps their rules, their names, and how they start. -/
theorem valid_respell_attributes {L : Likeness} {here : Location} {as : List AttributeForm}
    {us : List Attribute} (h : List.Forall₂ L.attr (AttributeForm.attributesAt here as) us)
    (hv : ∀ a ∈ as, a.Valid) :
    (∀ a ∈ List.zipWith AttributeForm.respell as us, a.Valid) ∧
      (List.zipWith AttributeForm.respell as us).map AttributeForm.name =
        as.map AttributeForm.name := by
  induction as generalizing here us with
  | nil => simp
  | cons a as ih =>
    rw [AttributeForm.attributesAt] at h
    obtain ⟨u, us', -, hus, rfl⟩ := List.forall₂_cons_left_iff.1 h
    obtain ⟨ha, has⟩ := List.forall_mem_cons.1 hv
    obtain ⟨hvalid, hnames⟩ := ih hus has
    refine ⟨List.forall_mem_cons.2 ⟨valid_respell_attribute ha u, hvalid⟩, ?_⟩
    show a.name :: _ = a.name :: _
    rw [hnames]

/-- What follows the beginning of an attribute does not matter. -/
theorem stopsAt_of_opening {p : Char → Bool} {a : AttributeForm} {r s : Text}
    (h : StopsAt p (a.opening ++ r)) : StopsAt p (a.opening ++ s) := by
  have hne : a.opening ≠ [] := by simp [AttributeForm.opening]
  obtain ⟨c, t, ht⟩ := List.exists_cons_of_ne_nil hne
  rw [ht] at h ⊢
  exact stopsAt_cons (h c rfl)

/-- Respelling a start tag keeps its rules, and its attributes keep their names
and stay distinct. -/
theorem valid_respell_tag {here : Location} {t : TagForm} {mark : Text} {u : Tag}
    (h : (t.toTag here mark).Alike Likeness.edited u) (hv : t.Valid) (hd : t.Distinct) :
    (t.respell u).Valid ∧ (t.respell u).Distinct := by
  obtain ⟨hvalid, hnames⟩ := valid_respell_attributes h.attributes hv.attributes
  refine ⟨⟨hv.name, ?_, hvalid, hv.trail⟩, ?_⟩
  · -- the text behind the name starts as before: with the blanks of an attribute or its name
    have hmax := hv.maximal
    have hattributes := h.attributes
    obtain ⟨name, as, trail⟩ := t
    cases as with
    | nil => exact hmax
    | cons a as =>
      rw [TagForm.toTag, AttributeForm.attributesAt] at hattributes
      obtain ⟨x, xs, -, -, hxs⟩ := List.forall₂_cons_left_iff.1 hattributes
      simp only [TagForm.respell, hxs, List.zipWith_cons_cons, AttributeForm.writeAll_cons,
        AttributeForm.write, List.append_assoc] at hmax ⊢
      exact stopsAt_of_opening hmax
  · show ((List.zipWith AttributeForm.respell t.attributes u.attributes).map
      AttributeForm.name).Nodup
    rw [hnames]
    exact hd

/-- Respelling a leaf keeps its rules, before any text that starts as the old
one did, and its kind. -/
theorem valid_respell_leaf {here : Location} {l : Leaf} {first : Option Text} {n : Node}
    (h : (l.node here).Alike Likeness.edited first n) {rest rest' : Text} (hv : l.Valid rest)
    (hrest : AtMarkup rest → AtMarkup rest') :
    (Form.respell (.leaf l) n).Valid rest' ∧
      (AtMarkup (l.write ++ rest) → AtMarkup ((Form.respell (.leaf l) n).write ++ rest')) := by
  cases l with
  | comment c =>
    obtain ⟨s, rfl, -⟩ := h
    exact ⟨hv, fun _ => atMarkup_of_lt _⟩
  | instruction c =>
    obtain ⟨s, rfl, -⟩ := h
    exact ⟨hv, fun _ => atMarkup_of_lt _⟩
  | declaration c =>
    obtain ⟨s, rfl, -⟩ := h
    exact ⟨hv, fun _ => atMarkup_of_lt _⟩
  | cdata c =>
    obtain ⟨d, rfl, ⟨v, rfl⟩, hw, -⟩ := h
    have hv' : ¬ cdataEnd <:+: v := hw ((firstEnd_cdata_iff c).1 hv)
    exact ⟨(firstEnd_cdata_iff v).2 hv', fun _ => atMarkup_of_lt _⟩
  | text t =>
    obtain ⟨d, rfl, ⟨v, rfl⟩, hw, -⟩ := h
    obtain ⟨hne, hvalid, hstop⟩ := hv
    have hold : t.decoded ≠ [] := by
      -- the new text decodes to the new value, which is not empty
      intro hnil
      exact hne (List.map_eq_nil_iff.1 hnil)
    have hnew : v ≠ [] := hw hold
    refine ⟨⟨?_, Spelling.valid_respell Spelling.escapes_stopsText hvalid v, hrest hstop⟩, ?_⟩
    · intro hnil
      have hdecoded := Spelling.decoded_respell t v none
      rw [hnil] at hdecoded
      exact hnew hdecoded.symm
    · -- a text does not start with markup
      intro hmark
      obtain ⟨c, r, hc, hlt⟩ := exists_cons_of_text hne hvalid
      have hstops : AtMarkup (t.raw ++ rest) := hmark
      rw [hc] at hstops
      exact absurd (by simpa [stopsText] using hstops c rfl) hlt

mutual

/-- Respelling a form keeps its rules. -/
theorem Form.valid_respell {here : Location} (f : Form) {first : Option Text} {n : Node}
    (h : (f.node here).Alike Likeness.edited first n) {rest rest' : Text} (hv : f.Valid rest)
    (hrest : AtMarkup rest → AtMarkup rest') :
    (f.respell n).Valid rest' ∧
      (AtMarkup (f.write ++ rest) → AtMarkup ((f.respell n).write ++ rest')) := by
  cases f with
  | leaf l => exact valid_respell_leaf h hv hrest
  | empty tag =>
    obtain ⟨u, children, close, rfl, htag, -, -⟩ := h
    exact ⟨valid_respell_tag htag hv.1 hv.2, fun _ => atMarkup_of_lt _⟩
  | element tag children gap =>
    obtain ⟨u, nodes, close, rfl, htag, hchildren, -⟩ := h
    obtain ⟨htv, htd, hgap, hcv⟩ := hv
    obtain ⟨htv', htd'⟩ := valid_respell_tag htag htv htd
    -- behind the children comes the end tag, which is markup before and after
    have hclosing : AtMarkup (writeClosing tag.name gap ++ rest) →
        AtMarkup (writeClosing tag.name gap ++ rest') := fun _ => atMarkup_of_lt _
    have hinside := Form.validAll_respellAll children hchildren hcv hclosing
    exact ⟨⟨htv', htd', hgap, hinside.1⟩, fun _ => atMarkup_of_lt _⟩

/-- Respelling forms keeps their rules.  A text must stay before markup, so that
it is also shown that markup comes next where it did. -/
theorem Form.validAll_respellAll {here : Location} (fs : List Form) {first : Option Text}
    {ns : List Node} (h : Node.AlikeAll Likeness.edited first (Form.nodes here fs) ns)
    {rest rest' : Text} (hv : Form.ValidAll rest fs) (hrest : AtMarkup rest → AtMarkup rest') :
    Form.ValidAll rest' (Form.respellAll fs ns) ∧
      (AtMarkup (Form.writeAll fs ++ rest) →
        AtMarkup (Form.writeAll (Form.respellAll fs ns) ++ rest')) := by
  cases fs with
  | nil =>
    obtain rfl : ns = [] := h
    exact ⟨trivial, hrest⟩
  | cons f fs =>
    obtain ⟨n, ns', rfl, hn, hns⟩ := h
    obtain ⟨hall, hmark⟩ := Form.validAll_respellAll fs hns hv.2 hrest
    -- from the last form to the first, since a text asks what follows it
    obtain ⟨hf, hfmark⟩ := Form.valid_respell f hn hv.1 hmark
    refine ⟨⟨hf, hall⟩, ?_⟩
    simp only [Form.writeAll, Form.respellAll, List.append_assoc]
    exact hfmark

end

/-! ## §5. The tree of a respelled derivation. -/

/-- A respelled attribute is read as the edited one, at any place. -/
theorem reread_attribute {here here' : Location} {a : AttributeForm} {u : Attribute}
    (h : Likeness.edited.attr (a.toAttribute here) u) :
    Likeness.reread.attr u ((a.respell u).toAttribute here') := by
  obtain ⟨v, rfl⟩ := h
  refine ⟨rfl, rfl, Spelling.decoded_respell _ v _, ?_⟩
  intro hm
  have hv : v = a.value.decoded := by
    simpa [Attribute.isModified, AttributeForm.toAttribute] using hm
  show a.value.respell v (some a.quote) = a.value
  rw [hv, Spelling.respell_decoded]

/-- Respelled attributes are read as the edited ones, in their order. -/
theorem reread_attributes {here here' : Location} {as : List AttributeForm} {us : List Attribute}
    (h : List.Forall₂ Likeness.edited.attr (AttributeForm.attributesAt here as) us) :
    List.Forall₂ Likeness.reread.attr us
      (AttributeForm.attributesAt here' (List.zipWith AttributeForm.respell as us)) := by
  induction as generalizing here here' us with
  | nil =>
    cases h
    exact .nil
  | cons a as ih =>
    rw [AttributeForm.attributesAt] at h
    obtain ⟨u, us', hu, hus, rfl⟩ := List.forall₂_cons_left_iff.1 h
    exact .cons (reread_attribute hu) (ih hus)

/-- A respelled start tag is read as the edited one. -/
theorem reread_tag {here here' : Location} {t : TagForm} {mark : Text} {u : Tag}
    (h : (t.toTag here mark).Alike Likeness.edited u) :
    u.Alike Likeness.reread ((t.respell u).toTag here' mark) :=
  ⟨h.name.symm, reread_attributes h.attributes, trivial⟩

/-- A respelled leaf is read as the edited one; what has no value is read as it
was. -/
theorem reread_leaf {here here' : Location} {l : Leaf} {first : Option Text} {n : Node}
    (h : (l.node here).Alike Likeness.edited first n) :
    n.Alike Likeness.reread first ((Form.respell (.leaf l) n).node here') := by
  cases l with
  | comment c =>
    obtain ⟨s, rfl, -⟩ := h
    exact ⟨_, rfl, trivial⟩
  | instruction c =>
    obtain ⟨s, rfl, -⟩ := h
    exact ⟨_, rfl, trivial⟩
  | declaration c =>
    obtain ⟨s, rfl, -⟩ := h
    exact ⟨_, rfl, trivial⟩
  | cdata c =>
    obtain ⟨d, rfl, ⟨v, rfl⟩, -⟩ := h
    refine ⟨_, rfl, rfl, rfl, ?_⟩
    intro hm
    have hv : v = c := by
      simpa [CharData.isModified, Spelling.decoded_plain] using hm
    show Spelling.plain v = Spelling.plain c
    rw [hv]
  -- an unchanged text is written as before, and so re-read with the same spelling
  | text t =>
    obtain ⟨d, rfl, ⟨v, rfl⟩, -⟩ := h
    refine ⟨_, rfl, rfl, Spelling.decoded_respell t v none, ?_⟩
    intro hm
    have hv : v = t.decoded := by
      simpa [CharData.isModified] using hm
    show t.respell v none = t
    rw [hv, Spelling.respell_decoded]

mutual

/-- A respelled form has the edited node. -/
theorem Form.reread_respell {here here' : Location} (f : Form) {first : Option Text} {n : Node}
    (h : (f.node here).Alike Likeness.edited first n) :
    n.Alike Likeness.reread first ((f.respell n).node here') := by
  cases f with
  | leaf l => exact reread_leaf h
  | empty tag =>
    obtain ⟨u, children, close, rfl, htag, hchildren, hclose⟩ := h
    obtain rfl : children = [] := hchildren
    cases hclose
    exact ⟨_, [], none, rfl, reread_tag htag, rfl, .none⟩
  | element tag children gap =>
    obtain ⟨u, nodes, close, rfl, htag, hchildren, hclose⟩ := h
    cases hclose
    refine ⟨_, _, _, rfl, reread_tag htag, ?_, .some trivial⟩
    rw [htag.name]
    exact Form.reread_respellAll children hchildren

/-- Respelled forms are read as the edited nodes, at whatever place they come to
stand. -/
theorem Form.reread_respellAll {here here' : Location} (fs : List Form) {first : Option Text}
    {ns : List Node} (h : Node.AlikeAll Likeness.edited first (Form.nodes here fs) ns) :
    Node.AlikeAll Likeness.reread first ns (Form.nodes here' (Form.respellAll fs ns)) := by
  cases fs with
  | nil =>
    obtain rfl : ns = [] := h
    rfl
  | cons f fs =>
    obtain ⟨n, ns', rfl, hn, hns⟩ := h
    exact ⟨_, _, rfl, Form.reread_respell f hn, Form.reread_respellAll fs hns⟩

end

/-- An edited tree of a derivation is written as the respelled derivation,
which derives what is written. -/
theorem derives_respellAll {content : Text} {forms : List Form} (h : Derives content forms)
    {ns : List Node} (hns : Node.AlikeAll Likeness.edited none (Form.nodes .origin forms) ns) :
    Derives (Replacement.splice 0 content (Replacement.ofNodes ns)) (Form.respellAll forms ns) := by
  obtain ⟨rfl, hvalid⟩ := h
  refine ⟨?_, (Form.validAll_respellAll forms hns hvalid id).1⟩
  exact ((Form.rewrites_respellAll forms hns).splice).symm

/-- A document that differs in values from one that was read is written out so
that it is read back. -/
theorem exists_parse_render {source : Source} {d d' : Document}
    (h : Document.parse source = .ok d) (hsource : d'.source = d.source)
    (halike : Node.AlikeAll Likeness.edited none d.nodes d'.nodes) (url : Text) :
    ∃ d₂, Document.parse ⟨d'.render, url⟩ = .ok d₂ ∧
      Node.AlikeAll Likeness.reread none d'.nodes d₂.nodes := by
  obtain ⟨forms, hforms, rfl⟩ := exists_derives_of_document h
  have hderives := derives_respellAll hforms halike
  have hrender : d'.render = Replacement.splice 0 source.content (Replacement.ofNodes d'.nodes) := by
    rw [Document.render, hsource]
  rw [← hrender] at hderives
  exact ⟨_, document_of_derives hderives, Form.reread_respellAll forms halike⟩

/-! ## §6. Trees as they were read. -/

/-- The same tree, in which no value was changed.  A document that was just
parsed is one. -/
def Likeness.fresh : Likeness where
  attr a b := b = a ∧ a.isModified = false
  text _ d e := e = d ∧ d.isModified = false
  span s t := t = s

/-- Attributes of a derivation have the values that they were read with. -/
theorem fresh_attributes (here : Location) (as : List AttributeForm) :
    List.Forall₂ Likeness.fresh.attr (AttributeForm.attributesAt here as)
      (AttributeForm.attributesAt here as) := by
  refine List.forall₂_same.2 ?_
  intro a ha
  refine ⟨rfl, ?_⟩
  induction as generalizing here with
  | nil => cases ha
  | cons b as ih =>
    rcases List.mem_cons.1 ha with rfl | ha
    · simp [Attribute.isModified, AttributeForm.toAttribute]
    · exact ih _ ha

mutual

/-- The tree of a derivation holds the values that were read. -/
theorem Form.fresh_node (here : Location) (f : Form) (first : Option Text) :
    (f.node here).Alike Likeness.fresh first (f.node here) := by
  cases f with
  | leaf l =>
    cases l with
    | comment c => exact ⟨_, rfl, rfl⟩
    | instruction c => exact ⟨_, rfl, rfl⟩
    | declaration c => exact ⟨_, rfl, rfl⟩
    | cdata c => exact ⟨_, rfl, rfl, by simp [CharData.isModified, Spelling.decoded_plain]⟩
    | text v => exact ⟨_, rfl, rfl, by simp [CharData.isModified]⟩
  | empty tag => exact ⟨_, _, _, rfl, ⟨rfl, fresh_attributes _ _, rfl⟩, rfl, .none⟩
  | element tag children gap =>
    exact ⟨_, _, _, rfl, ⟨rfl, fresh_attributes _ _, rfl⟩, Form.fresh_nodes _ children _, .some rfl⟩

/-- The nodes of a derivation have the values that they were read with. -/
theorem Form.fresh_nodes (here : Location) (fs : List Form) (first : Option Text) :
    Node.AlikeAll Likeness.fresh first (Form.nodes here fs) (Form.nodes here fs) := by
  cases fs with
  | nil => rfl
  | cons f fs => exact ⟨_, _, rfl, Form.fresh_node here f first, Form.fresh_nodes _ fs none⟩

end

/-- A document that was read holds the values that were read. -/
theorem fresh_of_parse {source : Source} {d : Document} (h : Document.parse source = .ok d) :
    Node.AlikeAll Likeness.fresh none d.nodes d.nodes := by
  obtain ⟨forms, -, rfl⟩ := exists_derives_of_document h
  exact Form.fresh_nodes .origin forms none

/-- Where no value changed, no attribute is replaced. -/
theorem filterMap_of_fresh {as : List Attribute} (h : List.Forall₂ Likeness.fresh.attr as as) :
    as.filterMap Replacement.ofAttribute? = [] := by
  rw [List.filterMap_eq_nil_iff]
  intro a ha
  have hfresh := List.forall₂_same.1 h a ha
  rw [Replacement.ofAttribute?, hfresh.2]
  rfl

mutual

/-- A tree as it was read has nothing to replace. -/
theorem ofNode_of_fresh {n : Node} {first : Option Text} (h : n.Alike Likeness.fresh first n) :
    Replacement.ofNode n = [] := by
  cases n with
  | element tag children close =>
    obtain ⟨_, _, _, heq, htag, hchildren, -⟩ := h
    cases heq
    rw [Replacement.ofNode, filterMap_of_fresh htag.attributes, ofNodes_of_fresh hchildren]
    rfl
  | text d =>
    obtain ⟨_, heq, hd⟩ := h
    cases heq
    rw [Replacement.ofNode, Replacement.ofCharData?, hd.2]
    rfl
  | _ => rfl

/-- Where no value changed, nothing of the source is replaced. -/
theorem ofNodes_of_fresh {ns : List Node} {first : Option Text}
    (h : Node.AlikeAll Likeness.fresh first ns ns) : Replacement.ofNodes ns = [] := by
  cases ns with
  | nil => rfl
  | cons n ns =>
    obtain ⟨_, _, heq, hn, hns⟩ := h
    cases heq
    rw [Replacement.ofNodes, ofNode_of_fresh hn, ofNodes_of_fresh hns]
    rfl

end

/-- A document that was read is written out as it was. -/
theorem render_of_parse {source : Source} {d : Document} (h : Document.parse source = .ok d) :
    d.render = source.content := by
  rw [Document.render, ofNodes_of_fresh (fresh_of_parse h)]
  obtain ⟨forms, -, rfl⟩ := exists_derives_of_document h
  rfl

end QwebReceiver.Markup
