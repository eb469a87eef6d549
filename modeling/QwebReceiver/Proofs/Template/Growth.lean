import QwebReceiver.Proofs.Expr.Growth
import QwebReceiver.Proofs.Markup.RoundTrip
import QwebReceiver.Template.Qualify

/-!
  QwebReceiver.Proofs.Template.Growth — documents whose values have grown.

  Qualifying a document lets its values grow and changes nothing else
  (`Likeness.marked`).  Reading the result again gives a document in which the
  values are the same and the places are not; `Likeness.grown` is coarse enough
  for both.  What a walk over a document decides by does not change when values
  grow: the names that a template binds, the template that a patch is for,
  whether an element is a component.  One decision does change, whether a patch
  holds an expression, and it changes in one direction only
  (`isExpressionPatch_of_grows`).
-/

namespace QwebReceiver.Template

open QwebReceiver.Text QwebReceiver.Markup QwebReceiver.Expr MarkedText

/-! ## §1. Words that values are searched for. -/

/-- A word that ends with a character which marks do not hold. -/
theorem foreign_concat {w : Text} {c : Char} (hw : '.' ∉ w) (hc : ¬ Insertable c) :
    Foreign (w ++ [c]) := by
  refine ⟨?_, c, by simp, hc⟩
  intro hdot
  rcases List.mem_append.1 hdot with h | h
  · exact hw h
  · rw [List.mem_singleton] at h
    exact hc (Or.inr (Or.inl h.symm))

/-- A word that ends with a character which marks do not hold is in a marked
text only where it was in the text. -/
theorem reflects_concat {w : Text} {c : Char} (hw : '.' ∉ w) (hc : ¬ Insertable c) :
    Reflects (w ++ [c]) := by
  induction w with
  | nil => exact reflects_cons (foreign_concat hw hc) reflects_nil
  | cons d w ih =>
    have hrest : '.' ∉ w := fun h => hw (List.mem_cons_of_mem d h)
    exact reflects_cons (foreign_concat hw hc) (ih hrest)

theorem not_insertable_hyphen : ¬ Insertable '-' := not_insertable (by decide) (by decide)

theorem not_insertable_slash : ¬ Insertable '/' := not_insertable (by decide) (by decide)

/-- Marks do not make an event of an attribute name. -/
theorem reflects_eventStart : Reflects eventStart :=
  reflects_concat (w := "t-on".toList) (by decide) not_insertable_hyphen

theorem reflects_computedStart : Reflects computedStart :=
  reflects_concat (w := "t-att".toList) (by decide) not_insertable_hyphen

/-- The name of the component attribute has a hyphen. -/
theorem foreign_componentAttr : Foreign componentAttr :=
  ⟨by decide, '-', by decide, not_insertable_hyphen⟩

/-- Marks do not write the name of the component attribute. -/
theorem reflects_componentAttr : Reflects componentAttr := by
  have hword : Reflects "component".toList :=
    reflects_word (by decide) (by decide) (by decide)
  have hhyphen : Foreign "-component".toList := ⟨by decide, '-', by decide, not_insertable_hyphen⟩
  exact reflects_cons foreign_componentAttr (reflects_cons hhyphen hword)

/-- Marks do not make a selector look for a component. -/
theorem reflects_selectsComponent {c : Char} (hc : isAsciiUpper c = true) :
    Reflects ['/', '/', c] := by
  have hdot : c ≠ '.' := by
    rintro rfl
    cases hc
  have ht : c ≠ 't' := by
    rintro rfl
    cases hc
  have hstart : isIdentifierStart c = true := by simp [isIdentifierStart, isAsciiLetter, hc]
  have hword : Reflects [c] := by
    refine reflects_word hstart (by simp) ?_
    intro hpre
    exact ht (List.cons_prefix_cons.1 hpre).1
  -- a slash is never inserted, so both slashes stand where they stood before
  have hslash : ∀ w, '.' ∉ w → Foreign ('/' :: w) := by
    intro w hw
    exact ⟨by simp [hw], '/', by simp, not_insertable_slash⟩
  have hone := reflects_cons (hslash [c] (by simp [hdot.symm])) hword
  exact reflects_cons (hslash ['/', c] (by simp [hdot.symm])) hone

/-- A text occurs in another one if it is part of it. -/
theorem occursIn_eq_true_iff {w t : Text} : occursIn w t = true ↔ w <:+: t := by
  induction t with
  | nil => simp [occursIn]
  | cons c r ih =>
    rw [occursIn, Bool.or_eq_true, ih, List.isPrefixOf_iff_prefix, List.infix_cons_iff]

/-- A text that marks have reached holds a period. -/
theorem new_eq_old_of_not_mem {after before : Text} {A : MarkedText} (hv : Valid after before A)
    (h : '.' ∉ new A) : new A = old A := by
  induction A generalizing before with
  | nil => rfl
  | cons p A ih =>
    obtain ⟨ins, c⟩ := p
    rw [new_cons] at h
    rcases hv.1 with rfl | ⟨-, hmark⟩
    · show c :: new A = c :: old A
      rw [ih hv.2 fun hdot => h (List.mem_cons_of_mem c hdot)]
    · obtain ⟨init, rfl⟩ := hmark.exists_init
      exact absurd (by simp) h

/-! ## §2. Whether a patch holds an expression. -/

/-- A marked name is that of a directive only if the name is. -/
theorem isDirective_of_marks {s t : Text} (h : Marks s t) (ht : isDirective t = true) :
    isDirective s = true := by
  have hplain : ∀ w ∈ directives, '.' ∉ w := by decide
  obtain ⟨A, hv, rfl, rfl⟩ := h
  rw [← new_eq_old_of_not_mem hv (hplain _ (List.contains_iff_mem.1 ht))]
  exact ht

theorem isPrefixOf_of_marks {w s t : Text} (hw : Reflects w) (h : Marks s t)
    (ht : w.isPrefixOf t = true) : w.isPrefixOf s = true :=
  List.isPrefixOf_iff_prefix.2 (prefix_of_marks hw h (List.isPrefixOf_iff_prefix.1 ht))

/-- A marked selector mentions the component attribute only if the selector
does. -/
theorem occursIn_componentAttr_of_marks {s t : Text} (h : Marks s t)
    (ht : occursIn componentAttr t = true) : occursIn componentAttr s = true :=
  occursIn_eq_true_iff.2
    (infix_of_marks foreign_componentAttr reflects_componentAttr h (occursIn_eq_true_iff.1 ht))

/-- A selector looks for a component if a capital letter stands behind its
slashes. -/
theorem selectsComponent_iff {t : Text} :
    selectsComponent t = true ↔ ∃ c, isAsciiUpper c = true ∧ ['/', '/', c] <+: t := by
  constructor
  · intro h
    unfold selectsComponent at h
    split at h
    · next c r => exact ⟨c, h, r, rfl⟩
    · cases h
  · rintro ⟨c, hc, r, rfl⟩
    exact hc

theorem selectsComponent_of_marks {s t : Text} (h : Marks s t) (ht : selectsComponent t = true) :
    selectsComponent s = true := by
  obtain ⟨c, hc, hpre⟩ := selectsComponent_iff.1 ht
  exact selectsComponent_iff.2 ⟨c, hc, prefix_of_marks (reflects_selectsComponent hc) h hpre⟩

/-- A patch whose name and selector have grown holds an expression only if it
held one before. -/
theorem isExpressionPatch_of_grows {name name' selector selector' : Text} (hname : Grows name name')
    (hselector : Grows selector selector') (h : isExpressionPatch name' selector' = true) :
    isExpressionPatch name selector = true := by
  simp only [isExpressionPatch, Bool.or_eq_true] at h ⊢
  rcases h with (((h | h) | h) | h) | h
  · exact Or.inl (Or.inl (Or.inl (Or.inl (hname.reflect isDirective_of_marks h))))
  · exact Or.inl (Or.inl (Or.inl (Or.inr
      (hname.reflect (isPrefixOf_of_marks reflects_eventStart) h))))
  · exact Or.inl (Or.inl (Or.inr (hname.reflect (isPrefixOf_of_marks reflects_computedStart) h)))
  · exact Or.inl (Or.inr (hselector.reflect occursIn_componentAttr_of_marks h))
  · exact Or.inr (hselector.reflect selectsComponent_of_marks h)

/-! ## §3. Documents that compare. -/

/-- The attributes that hold the name of a template or of a variable.  No pass
touches them, so the scopes stay the same. -/
def namingAttrs : List Text := [nameAttr, inheritAttr, setAttr, asAttr, slotScopeAttr]

/-- The same document but for values that have grown: those of attributes that
hold no name, and the text at the start of a patch. -/
def marked : Likeness where
  attr a b := (∃ value, b = { a with value }) ∧ Grows a.value b.value ∧
    (a.name ∈ namingAttrs → b.value = a.value)
  text first d e := (∃ value, e = { d with value }) ∧ Grows d.value e.value ∧
    (first ≠ some patchTag → e = d)
  span s t := t = s

/-- A document of the same shape, read from another place, whose values are
the same or have grown. -/
def grown : Likeness where
  attr a b := b.name = a.name ∧ Grows a.value b.value ∧ (a.name ∈ namingAttrs → b.value = a.value)
  text _ d e := Grows d.value e.value
  span _ _ := True

/-- A document compares to itself as one in which nothing has grown. -/
theorem marked_refl : marked.Refl where
  attr a := ⟨⟨a.value, rfl⟩, Grows.refl _, fun _ => rfl⟩
  text _ d := ⟨⟨d.value, rfl⟩, Grows.refl _, fun _ => rfl⟩
  span _ := rfl

/-- What has grown from what has grown has grown from the first. -/
theorem marked_trans : (marked.comp marked).Le marked where
  attr := by
    rintro a _ ⟨_, ⟨⟨v, rfl⟩, hv, hname⟩, ⟨w, rfl⟩, hw, hname'⟩
    exact ⟨⟨w, rfl⟩, hv.trans hw, fun h => (hname' h).trans (hname h)⟩
  text := by
    rintro first d _ ⟨_, ⟨⟨v, rfl⟩, hv, hfirst⟩, ⟨w, rfl⟩, hw, hfirst'⟩
    exact ⟨⟨w, rfl⟩, hv.trans hw, fun h => (hfirst' h).trans (hfirst h)⟩
  span := by
    rintro a c ⟨b, rfl, rfl⟩
    rfl

/-- Documents that have grown into each other are equal. -/
theorem marked_antisymm : marked.Antisymm where
  attr := by
    rintro a _ ⟨⟨v, rfl⟩, hv, -⟩ ⟨-, hw, -⟩
    obtain rfl : v = a.value := hv.antisymm hw
    rfl
  text := by
    rintro first d _ ⟨⟨v, rfl⟩, hv, -⟩ ⟨-, hw, -⟩
    obtain rfl : v = d.value := hv.antisymm hw
    rfl
  span := by
    rintro a b rfl -
    rfl

/-- Documents may be read from other places again and again. -/
theorem grown_trans : (grown.comp grown).Le grown where
  attr := by
    rintro a c ⟨b, ⟨hname, hv, hnaming⟩, hname', hw, hnaming'⟩
    refine ⟨hname'.trans hname, hv.trans hw, fun h => ?_⟩
    rw [hnaming' (hname ▸ h), hnaming h]
  text := by
    rintro first d f ⟨e, hv, hw⟩
    exact hv.trans hw
  span _ := trivial

/-- A document with values that have grown is one that has grown where it
stands. -/
theorem marked_le_grown : marked.Le grown where
  attr := by
    rintro a _ ⟨⟨v, rfl⟩, hv, hname⟩
    exact ⟨rfl, hv, hname⟩
  text := by
    rintro first d e ⟨-, hv, -⟩
    exact hv
  span _ := trivial

/-- A document that is read again has values that are the same. -/
theorem reread_le_grown : Likeness.reread.Le grown where
  attr := by
    rintro a b ⟨hname, -, hvalue, -⟩
    exact ⟨hname, hvalue ▸ Grows.refl _, fun _ => hvalue⟩
  text := by
    rintro first d e ⟨-, hvalue, -⟩
    show Grows d.value e.value
    rw [hvalue]
    exact Grows.refl _
  span _ := trivial

/-- The end of a CDATA section has a character that marks do not have. -/
theorem foreign_cdataEnd : Foreign cdataEnd :=
  foreign_concat (w := "]]".toList) (by decide) (not_insertable (by decide) (by decide))

theorem reflects_cdataEnd : Reflects cdataEnd :=
  reflects_concat (w := "]]".toList) (by decide) (not_insertable (by decide) (by decide))

/-- Character data that has grown can be written where it stood. -/
theorem writable_of_grows {d : CharData} {value : Text} (h : Grows d.value value)
    (hd : d.Writable) : CharData.Writable { d with value } := by
  unfold CharData.Writable at hd ⊢
  by_cases hcdata : d.cdata = true
  · rw [if_pos hcdata] at hd ⊢
    intro hend
    exact hd (h.reflect (infix_of_marks foreign_cdataEnd reflects_cdataEnd) hend)
  · rw [if_neg hcdata] at hd ⊢
    intro hnil
    have hlen := h.length_le
    rw [show value = [] from hnil] at hlen
    exact hd (List.eq_nil_of_length_eq_zero (by simpa using hlen))

/-- A document with values that have grown is an edited one: what starts a patch
can be written where it stood. -/
theorem marked_le_edited : marked.Le Likeness.edited where
  attr := by
    rintro a _ ⟨h, -, -⟩
    exact h
  text := by
    rintro first d _ ⟨⟨v, rfl⟩, hv, hfirst⟩
    exact ⟨⟨v, rfl⟩, writable_of_grows hv, fun hnone => hfirst (by simp [hnone])⟩
  span h := h

/-! ## §4. What a walk decides by. -/

section Related

variable {α β : Type} {R : α → α → Prop} {g : α → β}

/-- What does not differ in two things that compare does not differ in options
of them. -/
theorem map_eq_of_rel (hg : ∀ a b, R a b → g b = g a) {x y : Option α} (h : Option.Rel R x y) :
    y.map g = x.map g := by
  cases h with
  | none => rfl
  | some hab => exact congrArg some (hg _ _ hab)

/-- What does not differ in things that compare does not differ in lists of
them. -/
theorem map_eq_of_forall₂ (hg : ∀ a b, R a b → g b = g a) {as bs : List α}
    (h : List.Forall₂ R as bs) : bs.map g = as.map g := by
  induction h with
  | nil => rfl
  | cons hab _ ih => rw [List.map_cons, List.map_cons, hg _ _ hab, ih]

/-- Lists of things that compare both have a member of a kind, or none of them
has. -/
theorem any_eq_of_forall₂ {p : α → Bool} (hp : ∀ a b, R a b → p b = p a) {as bs : List α}
    (h : List.Forall₂ R as bs) : bs.any p = as.any p := by
  have hmap := congrArg (List.any · id) (map_eq_of_forall₂ hp h)
  simpa only [List.any_map, Function.id_comp] using hmap

end Related

section Tags

variable {t u : Tag}

/-- Growing neither adds attributes nor takes any away. -/
theorem has_of_grown (h : t.Alike grown u) (name : Text) : u.has name = t.has name :=
  any_eq_of_forall₂ (fun _ _ hab => by rw [hab.1]) h.attributes

/-- An attribute is there with a value that may have grown, or is not there. -/
theorem find?_of_grown {as bs : List Attribute} (h : List.Forall₂ grown.attr as bs) (name : Text) :
    Option.Rel grown.attr (as.find? fun a => a.name = name) (bs.find? fun a => a.name = name) := by
  induction h with
  | nil => exact .none
  | @cons a b as bs hab _ ih =>
    by_cases hname : a.name = name
    · rw [List.find?_cons_of_pos (by simpa using hname),
        List.find?_cons_of_pos (by simpa [hab.1] using hname)]
      exact .some hab
    · rw [List.find?_cons_of_neg (by simpa using hname),
        List.find?_cons_of_neg (by simpa [hab.1] using hname)]
      exact ih

/-- An attribute of a grown tag has a value that has grown from the value it
had. -/
theorem get?_grows (h : t.Alike grown u) (name : Text) :
    Option.Rel Grows (t.get? name) (u.get? name) := by
  unfold Tag.get?
  have hfind := find?_of_grown h.attributes name
  revert hfind
  generalize (t.attributes.find? fun a => a.name = name) = x
  generalize (u.attributes.find? fun a => a.name = name) = y
  rintro (hab | _)
  · exact .some hab.2.1
  · exact .none

/-- A name stays as it is. -/
theorem get?_of_grown (h : t.Alike grown u) {name : Text} (hname : name ∈ namingAttrs) :
    u.get? name = t.get? name := by
  unfold Tag.get?
  have hfind := find?_of_grown h.attributes name
  have hnamed : ∀ a, (t.attributes.find? fun a => a.name = name) = some a → a.name = name :=
    fun a ha => by simpa using List.find?_some ha
  revert hfind hnamed
  generalize (t.attributes.find? fun a => a.name = name) = x
  generalize (u.attributes.find? fun a => a.name = name) = y
  rintro (@⟨a, b, hab⟩ | _) hnamed
  · exact congrArg some (hab.2.2 (hnamed a rfl ▸ hname))
  · rfl

/-- A template stays one, and nothing becomes one. -/
theorem isTemplate_of_grown (h : t.Alike grown u) : isTemplate u = isTemplate t :=
  has_of_grown h nameAttr

theorem isComponent_of_grown (h : t.Alike grown u) : isComponent u = isComponent t := by
  rw [isComponent, isComponent, h.name, has_of_grown h]

/-- A tag binds the same names when its values grow, for it binds them by names. -/
theorem tagBindings_of_grown (h : t.Alike grown u) : tagBindings u = tagBindings t := by
  simp only [tagBindings, Tag.nonEmpty?]
  rw [get?_of_grown h (show setAttr ∈ namingAttrs by decide),
    get?_of_grown h (show slotScopeAttr ∈ namingAttrs by decide),
    get?_of_grown h (show asAttr ∈ namingAttrs by decide)]

end Tags

section Nodes

variable {first : Option Text}

/-- An element grows into an element of the same name. -/
theorem tag?_of_grown {n m : Node} (h : n.Alike grown first m) :
    Option.Rel (Tag.Alike grown) n.tag? m.tag? := by
  cases n with
  | element tag children close =>
    obtain ⟨tag', children', close', rfl, htag, -, -⟩ := h
    exact .some htag
  | text d =>
    obtain ⟨d', rfl, -⟩ := h
    exact .none
  | comment v s =>
    obtain ⟨s', rfl, -⟩ := h
    exact .none
  | instruction v s =>
    obtain ⟨s', rfl, -⟩ := h
    exact .none
  | doctype v s =>
    obtain ⟨s', rfl, -⟩ := h
    exact .none

/-- What is read off the start tag of an element, if it does not change when
values grow. -/
theorem tag?_map_of_grown {α : Type} {g : Tag → α}
    (hg : ∀ t u : Tag, t.Alike grown u → g u = g t) {n m : Node} (h : n.Alike grown first m) :
    m.tag?.map g = n.tag?.map g := by
  exact map_eq_of_rel hg (tag?_of_grown h)

/-- The value of a naming attribute of a node does not grow. -/
theorem tag?_bind_of_grown {name : Text} (hname : name ∈ namingAttrs) {n m : Node}
    (h : n.Alike grown first m) : m.tag?.bind (·.get? name) = n.tag?.bind (·.get? name) := by
  have htag := tag?_of_grown h
  revert htag
  generalize n.tag? = x
  generalize m.tag? = y
  rintro (htag | _)
  · exact get?_of_grown htag hname
  · rfl

mutual

/-- A tree does not get higher when its values grow. -/
theorem height_of_grown {first : Option Text} {n m : Node} (h : n.Alike grown first m) :
    m.height = n.height := by
  cases n with
  | element tag children close =>
    obtain ⟨tag', children', close', rfl, -, hchildren, -⟩ := h
    rw [Node.height, Node.height, heightOf_of_grown hchildren]
  | text d =>
    obtain ⟨d', rfl, -⟩ := h
    rfl
  | comment v s =>
    obtain ⟨s', rfl, -⟩ := h
    rfl
  | instruction v s =>
    obtain ⟨s', rfl, -⟩ := h
    rfl
  | doctype v s =>
    obtain ⟨s', rfl, -⟩ := h
    rfl

/-- Nor do trees side by side. -/
theorem heightOf_of_grown {first : Option Text} {ns ms : List Node}
    (h : Node.AlikeAll grown first ns ms) : Node.heightOf ms = Node.heightOf ns := by
  cases ns with
  | nil =>
    obtain rfl : ms = [] := h
    rfl
  | cons n ns =>
    obtain ⟨m, ms', rfl, hn, hns⟩ := h
    rw [Node.heightOf, Node.heightOf, height_of_grown hn, heightOf_of_grown hns]

end

mutual

/-- The tags within a template stay those within it. -/
theorem tagsWithin_of_grown {first : Option Text} {enter : Tag → Bool}
    (henter : ∀ t u : Tag, t.Alike grown u → enter u = enter t) {n m : Node}
    (h : n.Alike grown first m) :
    List.Forall₂ (Tag.Alike grown) (n.tagsWithin enter) (m.tagsWithin enter) := by
  cases n with
  | element tag children close =>
    obtain ⟨tag', children', close', rfl, htag, hchildren, -⟩ := h
    exact .cons htag (tagsWithinOf_of_grown henter hchildren)
  | text d =>
    obtain ⟨d', rfl, -⟩ := h
    exact .nil
  | comment v s =>
    obtain ⟨s', rfl, -⟩ := h
    exact .nil
  | instruction v s =>
    obtain ⟨s', rfl, -⟩ := h
    exact .nil
  | doctype v s =>
    obtain ⟨s', rfl, -⟩ := h
    exact .nil

/-- The tags within trees side by side stay within them. -/
theorem tagsWithinOf_of_grown {first : Option Text} {enter : Tag → Bool}
    (henter : ∀ t u : Tag, t.Alike grown u → enter u = enter t) {ns ms : List Node}
    (h : Node.AlikeAll grown first ns ms) :
    List.Forall₂ (Tag.Alike grown) (Node.tagsWithinOf enter ns) (Node.tagsWithinOf enter ms) := by
  cases ns with
  | nil =>
    obtain rfl : ms = [] := h
    exact .nil
  | cons n ns =>
    obtain ⟨m, ms', rfl, hn, hns⟩ := h
    rw [Node.tagsWithinOf, Node.tagsWithinOf, tag?_map_of_grown henter hn]
    refine List.rel_append ?_ (tagsWithinOf_of_grown henter hns)
    -- both lists enter the same nodes
    by_cases hadmitted : (n.tag?.map enter).getD false = true
    · rw [if_pos hadmitted, if_pos hadmitted]
      exact tagsWithin_of_grown henter hn
    · rw [if_neg hadmitted, if_neg hadmitted]
      exact .nil

end

theorem enter_of_grown (t u : Tag) (h : t.Alike grown u) : (!isTemplate u) = !isTemplate t := by
  rw [isTemplate_of_grown h]

/-- A template binds the same names when values grow. -/
theorem boundNames_of_grown {n m : Node} (h : n.Alike grown first m) :
    boundNames m = boundNames n := by
  have htags := tagsWithin_of_grown enter_of_grown h
  rw [boundNames, boundNames, List.flatMap_def, List.flatMap_def,
    map_eq_of_forall₂ (fun _ _ htag => tagBindings_of_grown htag) htags]

/-- A document has a named template or has none. -/
theorem any_isTemplate_of_grown {ns ms : List Node} (h : Node.AlikeAll grown first ns ms) :
    ((Node.descendantsOf ms).any fun e => isTemplate e.tag) =
      (Node.descendantsOf ns).any fun e => isTemplate e.tag :=
  any_eq_of_forall₂ (fun _ _ helement => isTemplate_of_grown helement.1) h.descendantsOf

end Nodes

end QwebReceiver.Template
