import QwebReceiver.Proofs.Markup.RoundTrip

/-!
  QwebReceiver.Proofs.Markup.Insertion — writing a value with insertions.

  A value that was edited by insertions is written along its spelling.  The
  writer takes the first character that can be the next one of the spelling
  for it, which need not be the one that was there before the edit.  It does
  not matter: the characters that are left over are the inserted ones, or
  equal to them (`Inserts.of_cons`), so the writer comes to the end of the
  spelling, and every reference of the spelling is written as it was.
-/

namespace QwebReceiver.Markup

/-! ## §1. Insertions. -/

/-- The second list is the first one with members inserted for which `P` holds. -/
inductive Inserts {α : Type} (P : α → Prop) : List α → List α → Prop where
  | nil : Inserts P [] []
  | keep (a : α) {s t : List α} (h : Inserts P s t) : Inserts P (a :: s) (a :: t)
  | insert {a : α} (ha : P a) {s t : List α} (h : Inserts P s t) : Inserts P s (a :: t)

namespace Inserts

variable {α : Type} {P : α → Prop} {s t u : List α}

theorem refl (s : List α) : Inserts P s s := by
  induction s with
  | nil => exact .nil
  | cons a s ih => exact .keep a ih

/-- Insertions may be made one after the other. -/
theorem trans (h : Inserts P s t) (h' : Inserts P t u) : Inserts P s u := by
  induction h' generalizing s with
  | nil => exact h
  | keep a _ ih =>
    cases h with
    | keep _ h => exact .keep a (ih h)
    | insert ha h => exact .insert ha (ih h)
  | insert ha _ ih => exact .insert ha (ih h)

/-- Some members may be inserted in front, if each of them may. -/
theorem append_insert {ins : List α} (hins : ∀ a ∈ ins, P a) (h : Inserts P s t) :
    Inserts P s (ins ++ t) := by
  induction ins with
  | nil => exact h
  | cons a ins ih =>
    obtain ⟨ha, hrest⟩ := List.forall_mem_cons.1 hins
    exact .insert ha (ih hrest)

/-- A member that might have been inserted can be taken for one that was. -/
theorem of_cons {a : α} (ha : P a) (h : Inserts P (a :: s) t) : Inserts P s t := by
  generalize hx : a :: s = x at h
  induction h with
  | nil => cases hx
  | keep b h _ =>
    cases hx
    exact .insert ha h
  | insert hb _ ih => exact .insert hb (ih hx)

/-- What was there is found in what there is now. -/
theorem sublist (h : Inserts P s t) : s.Sublist t := by
  induction h with
  | nil => exact .slnil
  | keep a _ ih => exact ih.cons_cons a
  | insert _ _ ih => exact ih.cons _

end Inserts

/-! ## §2. Spellings. -/

/-- A glyph that was inserted: a character that stands for itself. -/
def Glyph.Inserted (P : Char → Prop) : Glyph → Prop
  | .plain c => P c
  | .reference _ _ => False

namespace Spelling

variable {P : Char → Prop} {quote : Option Char} {s t : Spelling} {value : Text}

/-- The references of a spelling, as they are written. -/
def references (s : Spelling) : List Text :=
  s.filterMap fun g =>
    match g with
    | .plain _ => none
    | .reference raw _ => some raw

/-- A value with insertions is written along its spelling, if what is inserted
needs no escaping: each inserted character stands for itself. -/
theorem exists_respell? (hplain : ∀ c, P c → escapeGlyph quote c = .plain c)
    (h : Inserts P s.decoded value) :
    ∃ t, respell? quote s value = some t ∧ Inserts (Glyph.Inserted P) s t := by
  fun_induction respell? quote s value with
  | case1 => exact ⟨[], rfl, .nil⟩
  | case2 g s => cases h
  | case3 c r ih =>
    cases h with
    | insert hc h =>
      obtain ⟨t, ht, hinserts⟩ := ih h
      rw [ht, hplain c hc]
      exact ⟨_, rfl, .insert (show Glyph.Inserted P (.plain c) from hc) hinserts⟩
  | case4 g s r ih =>
    -- the writer keeps the glyph here, even if this character was inserted
    have hrest : Inserts P (decoded s) r := by
      cases h with
      | keep _ h => exact h
      | insert hc h => exact h.of_cons hc
    obtain ⟨t, ht, hinserts⟩ := ih hrest
    rw [ht]
    exact ⟨_, rfl, .keep g hinserts⟩
  | case5 g s c r hne ih =>
    cases h with
    | keep _ h => exact absurd rfl hne
    | insert hc h =>
      obtain ⟨t, ht, hinserts⟩ := ih h
      rw [ht, hplain c hc]
      exact ⟨_, rfl, .insert (show Glyph.Inserted P (.plain c) from hc) hinserts⟩

/-- So the new spelling is the old one with glyphs inserted. -/
theorem inserts_respell (hplain : ∀ c, P c → escapeGlyph quote c = .plain c)
    (h : Inserts P s.decoded value) : Inserts (Glyph.Inserted P) s (s.respell value quote) := by
  obtain ⟨t, ht, hinserts⟩ := exists_respell? hplain h
  rw [respell, ht]
  exact hinserts

/-- So the writer never falls back to escaping the whole value. -/
theorem isSome_aligned (hplain : ∀ c, P c → escapeGlyph quote c = .plain c)
    (h : Inserts P s.decoded value) : (aligned quote s value).isSome = true := by
  obtain ⟨t, ht, -⟩ := exists_respell? hplain h
  rw [aligned_eq_respell?, ht]
  rfl

/-- The text of a spelling is found in the text of the spelling with insertions. -/
theorem raw_sublist (h : Inserts (Glyph.Inserted P) s t) : (raw s).Sublist (raw t) := by
  induction h with
  | nil => exact .slnil
  | keep g _ ih => exact (List.Sublist.refl g.raw).append ih
  | insert _ _ ih => exact ih.trans (List.sublist_append_right _ _)

/-- Insertions keep every reference as it is written, in its place. -/
theorem references_eq (h : Inserts (Glyph.Inserted P) s t) : references t = references s := by
  induction h with
  | nil => rfl
  | keep g _ ih =>
    cases g with
    | plain c => exact ih
    | reference raw c => exact congrArg (raw :: ·) ih
  | @insert g hg _ _ _ ih =>
    cases g with
    | plain c => exact ih
    | reference raw c => exact absurd hg id

end Spelling

/-! ## §3. Derivations. -/

section Extends

variable (P : Char → Prop) (held : List TagForm → Nat → Prop)

/-- The same attribute with insertions in its value. -/
def AttributeForm.Extends (a b : AttributeForm) : Prop :=
  ∃ value, b = { a with value } ∧ Inserts (Glyph.Inserted P) a.value value

/-- The same start tag with insertions in the values of its attributes. -/
def TagForm.Extends (t u : TagForm) : Prop :=
  ∃ attributes, u = { t with attributes } ∧
    List.Forall₂ (AttributeForm.Extends P) t.attributes attributes

/-- The same leaf, with insertions if it is character data at a place where these
are `held`.  The place is given by the start tags around it, innermost first,
and by how many nodes stand before it in the innermost element. -/
def Leaf.Extends (around : List TagForm) (k : Nat) : Leaf → Leaf → Prop
  | .text v, m => ∃ w, m = .text w ∧ Inserts (Glyph.Inserted P) v w ∧ (¬ held around k → w = v)
  | .cdata c, m => ∃ w, m = .cdata w ∧ Inserts P c w ∧ (¬ held around k → w = c)
  | l, m => m = l

namespace Form

mutual

/-- The same derivation with insertions in values: in those of attributes, and
in the character data at places where insertions are `held`.  `around` are the
start tags around the form, and `k` is its place among its siblings. -/
def Extends (around : List TagForm) (k : Nat) : Form → Form → Prop
  | .leaf l, g => ∃ m, g = .leaf m ∧ l.Extends P held around k m
  | .empty tag, g => ∃ tag', g = .empty tag' ∧ tag.Extends P tag'
  | .element tag children gap, g =>
    ∃ tag' children', g = .element tag' children' gap ∧ tag.Extends P tag' ∧
      ExtendsAll (tag :: around) 0 children children'

/-- The same derivations side by side with insertions in values; `k` is the
place of the first of them. -/
def ExtendsAll (around : List TagForm) (k : Nat) : List Form → List Form → Prop
  | [], gs => gs = []
  | f :: fs, gs =>
    ∃ g gs', gs = g :: gs' ∧ Extends around k f g ∧ ExtendsAll around (k + 1) fs gs'

end

end Form

end Extends

section Written

variable {P : Char → Prop} {held : List TagForm → Nat → Prop}

/-- The text of an attribute is found in its text with insertions: its name, the
blanks and the quotes stay. -/
theorem AttributeForm.write_sublist {a b : AttributeForm} (h : a.Extends P b) :
    a.write.Sublist b.write := by
  obtain ⟨value, rfl, hvalue⟩ := h
  exact ((List.Sublist.refl _).append (Spelling.raw_sublist hvalue)).append (List.Sublist.refl _)

/-- The same of the attributes of a tag, one by one. -/
theorem AttributeForm.writeAll_sublist {as bs : List AttributeForm}
    (h : List.Forall₂ (AttributeForm.Extends P) as bs) :
    (AttributeForm.writeAll as).Sublist (AttributeForm.writeAll bs) := by
  induction h with
  | nil => exact List.Sublist.refl _
  | cons hab _ ih => exact (AttributeForm.write_sublist hab).append ih

/-- The text of a start tag is found in its text with insertions. -/
theorem TagForm.write_sublist {t u : TagForm} (h : t.Extends P u) : t.write.Sublist u.write := by
  obtain ⟨attributes, rfl, hattributes⟩ := h
  refine List.Sublist.cons_cons '<' ?_
  exact ((List.Sublist.refl _).append (AttributeForm.writeAll_sublist hattributes)).append
    (List.Sublist.refl _)

/-- Insertions leave the name of a tag alone, so its closing tag stays the same. -/
theorem TagForm.Extends.name {t u : TagForm} (h : t.Extends P u) : u.name = t.name := by
  obtain ⟨attributes, rfl, -⟩ := h
  rfl

/-- The text of a leaf is found in its text with insertions, also where these
are not held and it has none. -/
theorem Leaf.write_sublist {l m : Leaf} {around : List TagForm} {k : Nat}
    (h : l.Extends P held around k m) :
    l.write.Sublist m.write := by
  -- a text and a CDATA section are extended, every other leaf is the same on both sides
  cases l with
  | text v =>
    obtain ⟨w, rfl, hw, -⟩ := h
    exact Spelling.raw_sublist hw
  | cdata c =>
    obtain ⟨w, rfl, hw, -⟩ := h
    exact ((List.Sublist.refl _).append hw.sublist).append (List.Sublist.refl _)
  | comment c =>
    obtain rfl : m = _ := h
    exact List.Sublist.refl _
  | instruction c =>
    obtain rfl : m = _ := h
    exact List.Sublist.refl _
  | declaration c =>
    obtain rfl : m = _ := h
    exact List.Sublist.refl _

namespace Form

mutual

/-- What a derivation writes is a subsequence of what it writes with insertions. -/
theorem write_sublist {f g : Form} {around : List TagForm} {k : Nat}
    (h : f.Extends P held around k g) :
    f.write.Sublist g.write := by
  cases f with
  | leaf l =>
    obtain ⟨m, rfl, hm⟩ := h
    exact Leaf.write_sublist hm
  | empty tag =>
    obtain ⟨tag', rfl, htag⟩ := h
    exact (TagForm.write_sublist htag).append (List.Sublist.refl _)
  | element tag children gap =>
    obtain ⟨tag', children', rfl, htag, hchildren⟩ := h
    rw [write, write, htag.name]
    exact (((TagForm.write_sublist htag).append (List.Sublist.refl _)).append
      (writeAll_sublist hchildren)).append (List.Sublist.refl _)

/-- The same of derivations side by side, one by one. -/
theorem writeAll_sublist {fs gs : List Form} {around : List TagForm} {k : Nat}
    (h : ExtendsAll P held around k fs gs) : (writeAll fs).Sublist (writeAll gs) := by
  cases fs with
  | nil =>
    obtain rfl : gs = [] := h
    exact List.Sublist.refl _
  | cons f fs =>
    obtain ⟨g, gs', rfl, hf, hfs⟩ := h
    exact (write_sublist hf).append (writeAll_sublist hfs)

end

end Form

end Written

/-! ## §4. References. -/

/-- The references in the attributes of a start tag. -/
def TagForm.references (t : TagForm) : List Text := t.attributes.flatMap fun a => a.value.references

/-- The references in a leaf. -/
def Leaf.references : Leaf → List Text
  | .text v => v.references
  | _ => []

namespace Form

mutual

/-- The references in a derivation as they are written, in the order of the
text. -/
def references : Form → List Text
  | .leaf l => l.references
  | .empty tag => tag.references
  | .element tag children _ => tag.references ++ referencesAll children

/-- The references in derivations side by side. -/
def referencesAll : List Form → List Text
  | [] => []
  | f :: fs => f.references ++ referencesAll fs

end

end Form

section References

variable {P : Char → Prop} {held : List TagForm → Nat → Prop}

/-- Insertions keep the references in attributes. -/
theorem AttributeForm.references_eq {as bs : List AttributeForm}
    (h : List.Forall₂ (AttributeForm.Extends P) as bs) :
    (bs.flatMap fun a => a.value.references) = as.flatMap fun a => a.value.references := by
  induction h with
  | nil => rfl
  | cons hab _ ih =>
    obtain ⟨value, rfl, hvalue⟩ := hab
    rw [List.flatMap_cons, List.flatMap_cons, ih, Spelling.references_eq hvalue]

theorem TagForm.references_eq {t u : TagForm} (h : t.Extends P u) :
    u.references = t.references := by
  obtain ⟨attributes, rfl, hattributes⟩ := h
  exact AttributeForm.references_eq hattributes

/-- Insertions keep the references in a leaf. -/
theorem Leaf.references_eq {l m : Leaf} {around : List TagForm} {k : Nat}
    (h : l.Extends P held around k m) :
    m.references = l.references := by
  cases l with
  | text v =>
    obtain ⟨w, rfl, hw, -⟩ := h
    exact Spelling.references_eq hw
  | cdata c =>
    obtain ⟨w, rfl, -⟩ := h
    rfl
  | comment c =>
    obtain rfl : m = _ := h
    rfl
  | instruction c =>
    obtain rfl : m = _ := h
    rfl
  | declaration c =>
    obtain rfl : m = _ := h
    rfl

namespace Form

mutual

/-- The same of one derivation, by its start tag and its content. -/
theorem references_eq {f g : Form} {around : List TagForm} {k : Nat}
    (h : f.Extends P held around k g) :
    g.references = f.references := by
  cases f with
  | leaf l =>
    obtain ⟨m, rfl, hm⟩ := h
    exact Leaf.references_eq hm
  | empty tag =>
    obtain ⟨tag', rfl, htag⟩ := h
    exact TagForm.references_eq htag
  | element tag children gap =>
    obtain ⟨tag', children', rfl, htag, hchildren⟩ := h
    rw [references, references, TagForm.references_eq htag, referencesAll_eq hchildren]

/-- Insertions keep the references of a derivation, each as it is written. -/
theorem referencesAll_eq {fs gs : List Form} {around : List TagForm} {k : Nat}
    (h : ExtendsAll P held around k fs gs) : referencesAll gs = referencesAll fs := by
  cases fs with
  | nil =>
    obtain rfl : gs = [] := h
    rfl
  | cons f fs =>
    obtain ⟨g, gs', rfl, hf, hfs⟩ := h
    rw [referencesAll, referencesAll, references_eq hf, referencesAll_eq hfs]

end

end Form

end References

end QwebReceiver.Markup
