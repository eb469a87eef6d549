import QwebReceiver.Proofs.Markup.Lexeme

/-!
  QwebReceiver.Proofs.Markup.Derivation — a document is read exactly if its
  grammar derives it.

  Between the lexemes and the tree stands a second machine, `OpenForms`: it
  collects lexemes into forms, with the elements that are still open on a
  stack.  It is deterministic, loses no lexeme, and the builder of the tree
  runs in step with it:

    * `run_lexemesAll` — the lexemes of forms are collected into these forms;
    * `lexemes_of_run` — what was collected is what was read;
    * `builder_run`, `problems_of_run` — the builder holds the nodes of the
      forms collected, and reports a problem where the machine stops.

  `parse_ok_iff_derives` says that the reader accepts a text exactly if forms
  derive it, and returns their nodes; the forms are unique.
-/

namespace QwebReceiver.Markup

/-! ## §1. The lexemes of a form. -/

namespace Form

mutual

/-- The lexemes of a form.  An element gives those of its two tags with those of
its children between them. -/
def lexemes : Form → List Lexeme
  | .leaf l => [.leaf l]
  | .empty tag => [.opening tag true]
  | .element tag children gap =>
    .opening tag false :: (lexemesAll children ++ [.closing tag.name gap])

/-- The lexemes of forms side by side. -/
def lexemesAll : List Form → List Lexeme
  | [] => []
  | f :: rest => lexemes f ++ lexemesAll rest

end

/-- The lexemes of forms side by side are those of the forms, one after the
other. -/
theorem lexemesAll_append (fs gs : List Form) :
    lexemesAll (fs ++ gs) = lexemesAll fs ++ lexemesAll gs := by
  induction fs with
  | nil => rfl
  | cons f fs ih => simp [lexemesAll, ih]

end Form

theorem Lexeme.writeAll_append (xs ys : List Lexeme) :
    writeAll (xs ++ ys) = writeAll xs ++ writeAll ys := List.flatMap_append

theorem Lexeme.writeAll_cons (x : Lexeme) (xs : List Lexeme) :
    writeAll (x :: xs) = x.write ++ writeAll xs := rfl

mutual

/-- The lexemes of a form spell its text. -/
theorem Form.writeAll_lexemes (f : Form) : Lexeme.writeAll f.lexemes = f.write := by
  cases f with
  | leaf l => exact List.append_nil _
  | empty tag => exact List.append_nil _
  | element tag children gap =>
    have hchildren := Form.writeAll_lexemesAll children
    simp only [Form.lexemes, Form.write, Lexeme.writeAll_cons, Lexeme.writeAll_append, hchildren,
      Lexeme.write, endMark, Bool.false_eq_true, if_false, List.append_assoc]
    simp [Lexeme.writeAll]

/-- The lexemes of forms side by side spell their text. -/
theorem Form.writeAll_lexemesAll (fs : List Form) :
    Lexeme.writeAll (Form.lexemesAll fs) = Form.writeAll fs := by
  cases fs with
  | nil => rfl
  | cons f fs =>
    rw [Form.lexemesAll, Form.writeAll, Lexeme.writeAll_append, Form.writeAll_lexemes f,
      Form.writeAll_lexemesAll fs]

end

/-- The names of the attributes of a start tag differ.  Nothing is asked of
other lexemes. -/
def Lexeme.Distinct : Lexeme → Prop
  | .opening tag _ => tag.Distinct
  | _ => True

/-- Lexemes keep their rules before the text of those that follow. -/
theorem Lexeme.validAll_append (rest : Text) (xs ys : List Lexeme) :
    ValidAll rest (xs ++ ys) ↔ ValidAll (writeAll ys ++ rest) xs ∧ ValidAll rest ys := by
  induction xs with
  | nil => simp [ValidAll]
  | cons x xs ih =>
    simp only [List.cons_append, ValidAll, ih, writeAll_append, List.append_assoc, and_assoc]

mutual

/-- The rules of a form are those of its lexemes. -/
theorem Form.valid_iff_lexemes (f : Form) (rest : Text) :
    f.Valid rest ↔ Lexeme.ValidAll rest f.lexemes ∧ ∀ x ∈ f.lexemes, x.Distinct := by
  cases f with
  | leaf l =>
    simp [Form.Valid, Form.lexemes, Lexeme.ValidAll, Lexeme.Valid, Lexeme.writeAll, Lexeme.Distinct]
  | empty tag => simp [Form.Valid, Form.lexemes, Lexeme.ValidAll, Lexeme.Valid, Lexeme.Distinct]
  | element tag children gap =>
    -- the children are read in front of the end tag, which is the text their validity
    -- asks about
    have hchildren := Form.validAll_iff_lexemes children (writeClosing tag.name gap ++ rest)
    have hclosing : Lexeme.writeAll [Lexeme.closing tag.name gap] = writeClosing tag.name gap :=
      List.append_nil _
    simp only [Form.Valid, Form.lexemes, Lexeme.ValidAll, Lexeme.Valid, Lexeme.validAll_append,
      hclosing, hchildren, List.forall_mem_cons, List.forall_mem_append, and_true]
    constructor
    · rintro ⟨htag, hdistinct, hgap, hvalid, hall⟩
      exact ⟨⟨htag, hvalid, htag.name, hgap⟩, hdistinct, hall, trivial, by simp⟩
    · rintro ⟨⟨htag, hvalid, -, hgap⟩, hdistinct, hall, -, -⟩
      exact ⟨htag, hdistinct, hgap, hvalid, hall⟩

/-- The rules of forms side by side are those of their lexemes, and that no
start tag has two attributes of one name. -/
theorem Form.validAll_iff_lexemes (fs : List Form) (rest : Text) :
    Form.ValidAll rest fs ↔
      Lexeme.ValidAll rest (Form.lexemesAll fs) ∧ ∀ x ∈ Form.lexemesAll fs, x.Distinct := by
  cases fs with
  | nil => simp [Form.ValidAll, Form.lexemesAll, Lexeme.ValidAll]
  | cons f fs =>
    rw [Form.ValidAll, Form.lexemesAll, Lexeme.validAll_append, Form.writeAll_lexemesAll,
      List.forall_mem_append, Form.valid_iff_lexemes f, Form.validAll_iff_lexemes fs rest]
    exact and_and_and_comm

end

/-! ## §2. Collecting lexemes into forms. -/

instance (t : TagForm) : Decidable t.Distinct :=
  inferInstanceAs (Decidable (t.attributes.map AttributeForm.name).Nodup)

/-- An open element: the forms that stand before it, and its start tag. -/
structure Frame where
  before : List Form
  tag : TagForm

/-- The open elements, innermost first, and the forms collected in the
innermost one. -/
structure OpenForms where
  frames : List Frame
  current : List Form

namespace OpenForms

/-- Nothing is open and nothing was read. -/
def start : OpenForms := ⟨[], []⟩

/-- One more form side by side with the last ones. -/
def add (z : OpenForms) (f : Form) : OpenForms := { z with current := z.current ++ [f] }

/-- One lexeme; `none` if it breaks a rule of the tree: two attributes of one
name, or a closing tag that does not close the innermost open element. -/
def step (z : OpenForms) : Lexeme → Option OpenForms
  | .leaf l => some (z.add (.leaf l))
  | .opening tag empty =>
    if tag.Distinct then
      some (if empty then z.add (.empty tag) else ⟨⟨z.current, tag⟩ :: z.frames, []⟩)
    else none
  | .closing name gap =>
    match z.frames with
    | [] => none
    | e :: outer =>
      if e.tag.name = name then some ⟨outer, e.before ++ [.element e.tag z.current gap]⟩ else none

/-- Some lexemes, from the first to the last.  The run stops with nothing at the
first lexeme that may not come there. -/
def run (z : OpenForms) : List Lexeme → Option OpenForms
  | [] => some z
  | x :: rest =>
    match z.step x with
    | none => none
    | some z' => z'.run rest

theorem run_cons {z z' : OpenForms} {x : Lexeme} (h : z.step x = some z') (xs : List Lexeme) :
    z.run (x :: xs) = z'.run xs := by
  rw [run, h]

/-- A run that comes to an end has taken its first step. -/
theorem exists_of_run_cons {z z' : OpenForms} {x : Lexeme} {xs : List Lexeme}
    (h : z.run (x :: xs) = some z') : ∃ w, z.step x = some w ∧ w.run xs = some z' := by
  cases hx : z.step x with
  | none =>
    rw [run, hx] at h
    cases h
  | some w =>
    rw [run_cons hx] at h
    exact ⟨w, rfl, h⟩

/-- A run over some lexemes goes on with those that follow. -/
theorem run_append {z z' : OpenForms} {xs : List Lexeme} (h : z.run xs = some z')
    (ys : List Lexeme) : z.run (xs ++ ys) = z'.run ys := by
  induction xs generalizing z with
  | nil =>
    cases h
    rfl
  | cons x xs ih =>
    obtain ⟨w, hx, hxs⟩ := exists_of_run_cons h
    rw [List.cons_append, run_cons hx]
    exact ih hxs

mutual

/-- The lexemes of a form are collected into the form. -/
theorem run_lexemes (z : OpenForms) (f : Form) (h : ∀ x ∈ f.lexemes, x.Distinct) :
    z.run f.lexemes = some (z.add f) := by
  cases f with
  | leaf l => rfl
  | empty tag =>
    have htag : tag.Distinct := h _ List.mem_cons_self
    simp [Form.lexemes, run, step, htag]
  | element tag children gap =>
    have htag : tag.Distinct := h _ List.mem_cons_self
    have hchildren : ∀ x ∈ Form.lexemesAll children, x.Distinct := by
      intro x hx
      exact h x (List.mem_cons_of_mem _ (List.mem_append_left _ hx))
    have hopen : z.step (.opening tag false) = some ⟨⟨z.current, tag⟩ :: z.frames, []⟩ := by
      simp [step, htag]
    have hinside := run_lexemesAll ⟨⟨z.current, tag⟩ :: z.frames, []⟩ children hchildren
    -- the start tag opens a frame, the children are added to it, the end tag closes it
    rw [Form.lexemes, run_cons hopen, run_append hinside]
    simp [run, step, add]

/-- The lexemes of forms side by side are collected into these forms. -/
theorem run_lexemesAll (z : OpenForms) (fs : List Form)
    (h : ∀ x ∈ Form.lexemesAll fs, x.Distinct) :
    z.run (Form.lexemesAll fs) = some { z with current := z.current ++ fs } := by
  cases fs with
  | nil => simp [Form.lexemesAll, run]
  | cons f fs =>
    have hf : ∀ x ∈ f.lexemes, x.Distinct := fun x hx => h x (List.mem_append_left _ hx)
    have hfs : ∀ x ∈ Form.lexemesAll fs, x.Distinct := fun x hx => h x (List.mem_append_right _ hx)
    rw [Form.lexemesAll, run_append (run_lexemes z f hf), run_lexemesAll (z.add f) fs hfs]
    simp [add]

end

/-- The lexemes before the content of the innermost open element, the start tags
of all open elements included. -/
def lexemesBefore : List Frame → List Lexeme
  | [] => []
  | e :: outer => lexemesBefore outer ++ Form.lexemesAll e.before ++ [.opening e.tag false]

/-- The lexemes read so far. -/
def lexemes (z : OpenForms) : List Lexeme := lexemesBefore z.frames ++ Form.lexemesAll z.current

/-- A step reads its lexeme. -/
theorem lexemes_of_step {z z' : OpenForms} {x : Lexeme} (h : z.step x = some z') :
    z'.lexemes = z.lexemes ++ [x] ∧ x.Distinct := by
  cases x with
  | leaf l =>
    cases h
    refine ⟨?_, trivial⟩
    simp [lexemes, add, Form.lexemesAll_append, Form.lexemesAll, Form.lexemes]
  | opening tag empty =>
    -- a start tag is taken only if no attribute name comes twice
    by_cases htag : tag.Distinct
    · rw [step, if_pos htag, Option.some.injEq] at h
      refine ⟨?_, htag⟩
      subst h
      cases empty with
      | false => simp [lexemes, lexemesBefore, Form.lexemesAll]
      | true => simp [lexemes, add, Form.lexemesAll_append, Form.lexemesAll, Form.lexemes]
    · rw [step, if_neg htag] at h
      cases h
  | closing name gap =>
    obtain ⟨frames, current⟩ := z
    cases frames with
    | nil => cases h
    | cons e outer =>
      -- an end tag is taken only by the innermost open element of its name
      by_cases hname : e.tag.name = name
      · simp only [step, if_pos hname, Option.some.injEq] at h
        refine ⟨?_, trivial⟩
        subst h hname
        simp [lexemes, lexemesBefore, Form.lexemesAll_append, Form.lexemesAll, Form.lexemes]
      · simp only [step, if_neg hname] at h
        cases h

/-- What was collected is what was read: a run neither loses a lexeme nor adds
one. -/
theorem lexemes_of_run {z z' : OpenForms} {xs : List Lexeme} (h : z.run xs = some z') :
    z'.lexemes = z.lexemes ++ xs ∧ ∀ x ∈ xs, x.Distinct := by
  induction xs generalizing z with
  | nil =>
    cases h
    simp
  | cons x xs ih =>
    obtain ⟨w, hx, hxs⟩ := exists_of_run_cons h
    obtain ⟨hw, hdistinct⟩ := lexemes_of_step hx
    obtain ⟨hz, hall⟩ := ih hxs
    refine ⟨by simp [hz, hw], ?_⟩
    exact List.forall_mem_cons.2 ⟨hdistinct, hall⟩

end OpenForms

/-! ## §3. The builder. -/

namespace Builder

/-- Placing a node reports nothing. -/
theorem problems_place (b : Builder) (n : Node) : b.problems <+: (b.place n).problems := by
  unfold place
  split <;> exact List.prefix_rfl

/-- A token outside of a start tag keeps the problems reported before. -/
theorem problems_content (b : Builder) (t : Token) : b.problems <+: (b.content t).problems := by
  unfold content
  split
  · exact List.prefix_rfl
  · split
    -- an end tag: the innermost open element takes it, or it is reported
    · next e outer _ =>
      split
      · exact problems_place { b with stack := outer } _
      · exact List.prefix_append _ _
    · exact List.prefix_append _ _
  · exact problems_place b _
  · exact problems_place b _
  · exact problems_place b _
  · exact problems_place b _
  · exact problems_place b _
  · exact List.prefix_rfl
  · exact List.prefix_append _ _

/-- A token keeps the problems reported before. -/
theorem problems_step (b : Builder) (t : Token) : b.problems <+: (b.step t).problems := by
  unfold step
  split
  · exact problems_content b t
  · simp only
    split
    · exact List.prefix_rfl
    · split
      · unfold addAttribute
        split
        · exact List.prefix_append _ _
        · exact List.prefix_rfl
      · exact problems_content { b with partialTag := none } t
    · exact List.prefix_rfl
    · exact problems_place { b with partialTag := none } _
    · exact problems_content { b with partialTag := none } t

/-- A problem stays reported, whatever tokens follow. -/
theorem problems_foldl (b : Builder) (ts : List Token) :
    b.problems <+: (ts.foldl step b).problems := by
  induction ts generalizing b with
  | nil => exact List.prefix_rfl
  | cons t ts ih => exact (problems_step b t).trans (ih (b.step t))

/-- A problem once reported stays. -/
theorem problems_foldl_ne_nil {b : Builder} (h : b.problems ≠ []) (ts : List Token) :
    (ts.foldl step b).problems ≠ [] := by
  intro hnil
  have hpre := problems_foldl b ts
  rw [hnil] at hpre
  exact h (List.prefix_nil.1 hpre)

/-- Inside a start tag whose attributes so far are these, and whose next
attribute has no name yet. -/
def inTag (b : Builder) (p : PartialTag) (attributes : List Attribute) : Builder :=
  { b with partialTag := some { p with attributes, naming := none } }

/-- An attribute whose name is new is added. -/
theorem step_attribute {here : Location} (b : Builder) (p : PartialTag) {as : List Attribute}
    {a : AttributeForm} (h : ∀ x ∈ as, x.name ≠ a.name) :
    (a.tokens here).foldl step (b.inTag p as) = b.inTag p (as ++ [a.toAttribute here]) := by
  have hany : (as.any fun x => x.name = a.name) = false := by
    rw [List.any_eq_false]
    intro x hx
    simpa using h x hx
  simp [AttributeForm.tokens, inTag, step, addAttribute, hany, AttributeForm.toAttribute]

/-- An attribute whose name is there already is reported. -/
theorem step_duplicate {here : Location} (b : Builder) (p : PartialTag) {as : List Attribute}
    {a : AttributeForm} (h : ∃ x ∈ as, x.name = a.name) :
    ((a.tokens here).foldl step (b.inTag p as)).problems ≠ [] := by
  have hany : (as.any fun x => x.name = a.name) = true := by
    obtain ⟨x, hx, hname⟩ := h
    exact List.any_eq_true.2 ⟨x, hx, by simpa using hname⟩
  simp [AttributeForm.tokens, inTag, step, addAttribute, hany, report]

/-- Attributes with new names are added; a name that is not new is reported. -/
theorem step_attributes (here : Location) (b : Builder) (p : PartialTag) (as : List Attribute)
    (forms : List AttributeForm) (has : (as.map Attribute.name).Nodup) :
    if (as.map Attribute.name ++ forms.map AttributeForm.name).Nodup then
      (AttributeForm.tokensAt here forms).foldl step (b.inTag p as) =
        b.inTag p (as ++ AttributeForm.attributesAt here forms)
    else ((AttributeForm.tokensAt here forms).foldl step (b.inTag p as)).problems ≠ [] := by
  induction forms generalizing here as with
  | nil => simp [AttributeForm.tokensAt, AttributeForm.attributesAt, has]
  | cons a forms ih =>
    rw [AttributeForm.tokensAt, List.foldl_append]
    -- a name that is already there is reported, and a report is never taken back
    by_cases ha : ∃ x ∈ as, x.name = a.name
    · have hdup : ¬ (as.map Attribute.name ++ (a :: forms).map AttributeForm.name).Nodup := by
        intro hnodup
        obtain ⟨x, hx, hname⟩ := ha
        exact (List.nodup_append.1 hnodup).2.2 x.name (List.mem_map_of_mem hx) a.name (by simp) hname
      rw [if_neg hdup]
      exact problems_foldl_ne_nil (step_duplicate b p ha) _
    · have hnew : ∀ x ∈ as, x.name ≠ a.name := fun x hx hname => ha ⟨x, hx, hname⟩
      -- a new name is appended, which keeps the names read so far distinct for the
      -- induction
      have hnext : ((as ++ [a.toAttribute here]).map Attribute.name).Nodup := by
        rw [List.map_append, List.nodup_append]
        refine ⟨has, by simp, ?_⟩
        intro x hx y hy
        obtain ⟨z, hz, rfl⟩ := List.mem_map.1 hx
        obtain rfl : y = a.name := by simpa [AttributeForm.toAttribute] using hy
        exact hnew z hz
      have hnames : (as ++ [a.toAttribute here]).map Attribute.name ++ forms.map AttributeForm.name =
          as.map Attribute.name ++ (a :: forms).map AttributeForm.name := by
        simp [AttributeForm.toAttribute]
      have hih := ih (here.after a.write) (as ++ [a.toAttribute here]) hnext
      rw [hnames] at hih
      rw [step_attribute b p hnew, AttributeForm.attributesAt]
      simpa using hih

end Builder

namespace OpenForms

/-- Where the content of the innermost open element starts. -/
def inside (frames : List Frame) : Location :=
  Location.origin.after (Lexeme.writeAll (lexemesBefore frames))

/-- The place reached. -/
def here (z : OpenForms) : Location := Location.origin.after (Lexeme.writeAll z.lexemes)

/-- The elements that are open, with the nodes placed in each.  They are found
at the locations that the lexemes before them lead to. -/
def stackOf : List Frame → List Form → List OpenElement
  | [], _ => []
  | e :: outer, current =>
    ⟨e.tag.toTag (here ⟨outer, e.before⟩) tagEndMark,
      Form.nodes (inside (e :: outer)) current⟩ :: stackOf outer e.before

/-- The forms outside of any open element, which come before the outermost start
tag that is open. -/
def rootsOf : List Frame → List Form → List Form
  | [], current => current
  | e :: outer, _ => rootsOf outer e.before

/-- The builder that holds the nodes of what was collected.  Reading tokens and
collecting forms are compared through it. -/
def builder (z : OpenForms) : Builder where
  roots := Form.nodes .origin (rootsOf z.frames z.current)
  stack := stackOf z.frames z.current

/-- The place reached is behind the forms collected in the innermost open
element. -/
theorem here_eq (frames : List Frame) (current : List Form) :
    here ⟨frames, current⟩ = (inside frames).after (Form.writeAll current) := by
  rw [here, lexemes, Lexeme.writeAll_append, Form.writeAll_lexemesAll, Location.after_append]
  rfl

/-- The content of an open element starts behind its start tag. -/
theorem inside_cons (e : Frame) (outer : List Frame) :
    inside (e :: outer) = (here ⟨outer, e.before⟩).after (e.tag.write ++ tagEndMark) := by
  have hopening : Lexeme.writeAll [.opening e.tag false] = e.tag.write ++ tagEndMark :=
    List.append_nil _
  rw [inside, here, lexemesBefore, Lexeme.writeAll_append, hopening, Location.after_append]
  rfl

/-- A form that is added places its node. -/
theorem place_node (z : OpenForms) (f : Form) :
    z.builder.place (f.node z.here) = (z.add f).builder := by
  obtain ⟨frames, current⟩ := z
  have hnodes : ∀ here, Form.nodes here (current ++ [f]) =
      Form.nodes here current ++ [f.node (here.after (Form.writeAll current))] := by
    intro here
    rw [Form.nodes_append]
    rfl
  cases frames with
  | nil =>
    rw [here_eq]
    simp only [builder, add, rootsOf, stackOf, Builder.place, hnodes]
    rfl
  | cons e outer =>
    rw [here_eq]
    simp only [builder, add, rootsOf, stackOf, Builder.place, hnodes]

/-- A start tag is read with the attributes its form stands for; one with two
attributes of one name is reported. -/
theorem builder_opening (z : OpenForms) (tag : TagForm) (empty : Bool) :
    if tag.Distinct then
      ((Lexeme.opening tag empty).tokens z.here).foldl Builder.step z.builder =
        if empty then z.builder.place (.element (tag.toTag z.here emptyTagEnd) [] none)
        else { z.builder with
          stack := { tag := tag.toTag z.here tagEndMark } :: z.builder.stack }
    else (((Lexeme.opening tag empty).tokens z.here).foldl Builder.step z.builder).problems ≠ [] := by
  have hstart : z.builder.step ⟨.tagStart tag.name, ⟨z.here, z.here.after ('<' :: tag.name)⟩⟩ =
      z.builder.inTag { name := tag.name, span := ⟨z.here, z.here.after ('<' :: tag.name)⟩ } [] := rfl
  have hattributes := Builder.step_attributes (z.here.after ('<' :: tag.name)) z.builder
    { name := tag.name, span := ⟨z.here, z.here.after ('<' :: tag.name)⟩ } [] tag.attributes (by simp)
  simp only [Lexeme.tokens, List.foldl_cons, List.foldl_append, List.foldl_nil, hstart]
  by_cases htag : tag.Distinct
  · have hdistinct : (([] : List Attribute).map Attribute.name ++
        tag.attributes.map AttributeForm.name).Nodup := htag
    rw [if_pos hdistinct] at hattributes
    rw [if_pos htag, hattributes]
    -- the mark that ends the tag decides between an empty element and an open one
    have hstop : (z.here.after tag.write).after (endMark empty) =
        z.here.after (tag.write ++ endMark empty) := (Location.after_append _ _ _).symm
    cases empty with
    | false =>
      rw [hstop]
      rfl
    | true =>
      rw [hstop]
      rfl
  · have hdistinct : ¬ (([] : List Attribute).map Attribute.name ++
        tag.attributes.map AttributeForm.name).Nodup := htag
    rw [if_neg hdistinct] at hattributes
    rw [if_neg htag]
    exact Builder.problems_foldl_ne_nil hattributes [_]

/-- The builder goes on in step with the machine. -/
theorem builder_step {z z' : OpenForms} {x : Lexeme} (h : z.step x = some z') :
    (x.tokens z.here).foldl Builder.step z.builder = z'.builder := by
  cases x with
  | leaf l =>
    cases h
    rw [← place_node z (.leaf l)]
    cases l <;> rfl
  | opening tag empty =>
    have htag : tag.Distinct := (lexemes_of_step h).2
    have hopening := builder_opening z tag empty
    rw [if_pos htag] at hopening
    rw [step, if_pos htag, Option.some.injEq] at h
    rw [hopening]
    cases empty with
    | true =>
      obtain rfl : z.add (.empty tag) = z' := h
      exact place_node z (.empty tag)
    | false =>
      obtain rfl : (⟨⟨z.current, tag⟩ :: z.frames, []⟩ : OpenForms) = z' := h
      rfl
  | closing name gap =>
    obtain ⟨frames, current⟩ := z
    cases frames with
    | nil => cases h
    | cons e outer =>
      by_cases hname : e.tag.name = name
      · simp only [step, if_pos hname, Option.some.injEq] at h
        subst hname
        obtain rfl : add ⟨outer, e.before⟩ (.element e.tag current gap) = z' := h
        rw [← place_node ⟨outer, e.before⟩ (.element e.tag current gap)]
        -- the closing tag closes the innermost element, whose nodes are in place
        have hclose : ((Lexeme.closing e.tag.name gap).tokens (here ⟨e :: outer, current⟩)).foldl
            Builder.step (builder ⟨e :: outer, current⟩) =
            (builder ⟨outer, e.before⟩).place (.element
              (e.tag.toTag (here ⟨outer, e.before⟩) tagEndMark)
              (Form.nodes (inside (e :: outer)) current)
              (some ⟨here ⟨e :: outer, current⟩,
                (here ⟨e :: outer, current⟩).after (writeClosing e.tag.name gap)⟩)) := by
          simp [Lexeme.tokens, Builder.step, builder, Builder.content, stackOf, rootsOf,
            TagForm.toTag]
        rw [hclose, here_eq (e :: outer) current, inside_cons]
        rfl
      · simp only [step, if_neg hname] at h
        cases h

/-- Where the machine stops, the builder reports a problem; so what the one
refuses the other does not accept. -/
theorem problems_of_step {z : OpenForms} {x : Lexeme} (h : z.step x = none) :
    ((x.tokens z.here).foldl Builder.step z.builder).problems ≠ [] := by
  cases x with
  | leaf l => cases h
  | opening tag empty =>
    -- the step refuses a start tag only for a name that comes twice
    have htag : ¬ tag.Distinct := by
      intro htag
      rw [step, if_pos htag] at h
      cases h
    have hopening := builder_opening z tag empty
    rw [if_neg htag] at hopening
    exact hopening
  | closing name gap =>
    obtain ⟨frames, current⟩ := z
    cases frames with
    | nil => exact List.cons_ne_nil _ _
    | cons e outer =>
      have hname : e.tag.name ≠ name := by
        intro hname
        simp [step, hname] at h
      have hother : ((e.tag.toTag (here ⟨outer, e.before⟩) tagEndMark).name = name) = False :=
        eq_false hname
      simp [Lexeme.tokens, Builder.step, builder, Builder.content, stackOf, hother, Builder.report]

/-- The place reached moves on by the text of the lexeme. -/
theorem here_of_step {z z' : OpenForms} {x : Lexeme} (h : z.step x = some z') :
    z'.here = z.here.after x.write := by
  rw [here, (lexemes_of_step h).1, Lexeme.writeAll_append, Location.after_append]
  simp [Lexeme.writeAll, here]

/-- The builder runs in step with the machine: at every point it holds the nodes
of what the machine has collected. -/
theorem builder_run {z z' : OpenForms} {xs : List Lexeme} (h : z.run xs = some z') :
    (Lexeme.tokensAt z.here xs).foldl Builder.step z.builder = z'.builder := by
  induction xs generalizing z with
  | nil =>
    cases h
    rfl
  | cons x xs ih =>
    obtain ⟨w, hx, hxs⟩ := exists_of_run_cons h
    rw [Lexeme.tokensAt, List.foldl_append, builder_step hx, ← here_of_step hx]
    exact ih hxs

/-- Where the machine stops somewhere, the builder reports a problem. -/
theorem problems_of_run {z : OpenForms} {xs : List Lexeme} (h : z.run xs = none) :
    ((Lexeme.tokensAt z.here xs).foldl Builder.step z.builder).problems ≠ [] := by
  induction xs generalizing z with
  | nil => cases h
  | cons x xs ih =>
    rw [Lexeme.tokensAt, List.foldl_append]
    cases hx : z.step x with
    | none => exact Builder.problems_foldl_ne_nil (problems_of_step hx) _
    | some w =>
      rw [run_cons hx] at h
      rw [builder_step hx, ← here_of_step hx]
      exact ih h

end OpenForms

/-! ## §4. The reader and the grammar. -/

/-- The tokens of a text that lexemes spell. -/
theorem scan_write {xs : List Lexeme} (h : Lexeme.ValidAll [] xs) :
    ∃ span, scan (Lexeme.writeAll xs) = (Lexeme.tokensAt .origin xs ++ [⟨.endOfText, span⟩], none) := by
  have hread := scanFrom_write .origin h
  simp only [scan, Cursor.ofText, hread]
  exact ⟨_, rfl⟩

/-- The end of the text changes nothing outside of a start tag. -/
theorem Builder.step_endOfText {b : Builder} (h : b.partialTag = none) (span : Span) :
    b.step ⟨.endOfText, span⟩ = b := by
  simp [Builder.step, h, Builder.content]

/-- Forms derive a text: they spell it and keep the rules.  Neither the scanner
nor the builder is named in this. -/
def Derives (content : Text) (forms : List Form) : Prop :=
  Form.writeAll forms = content ∧ Form.ValidAll [] forms

/-- What forms derive is read without a problem, as their nodes. -/
theorem parse_of_derives {content : Text} {forms : List Form} (h : Derives content forms) :
    parse content = (Form.nodes .origin forms, []) := by
  obtain ⟨rfl, hvalid⟩ := h
  obtain ⟨hlexemes, hdistinct⟩ := (Form.validAll_iff_lexemes forms []).1 hvalid
  obtain ⟨span, hscan⟩ := scan_write hlexemes
  have hbuild := OpenForms.builder_run (OpenForms.run_lexemesAll .start forms hdistinct)
  have hfold : (Lexeme.tokensAt .origin (Form.lexemesAll forms)).foldl Builder.step {} =
      { roots := Form.nodes .origin forms } := hbuild
  rw [Form.writeAll_lexemesAll] at hscan
  have hend := Builder.step_endOfText
    (show ({ roots := Form.nodes .origin forms } : Builder).partialTag = none from rfl) span
  simp only [parse, hscan, Builder.build, List.foldl_append, hfold, List.foldl_cons, List.foldl_nil,
    hend]
  simp [Builder.unwind]

/-- Where the reader finds no problem, forms derive the text, and the nodes are
those of the forms. -/
theorem exists_derives_of_parse {content : Text} {nodes : List Node}
    (h : parse content = (nodes, [])) : ∃ forms, Derives content forms := by
  -- the scanner gave up nowhere, so the text is a sequence of valid lexemes
  have hfailure : (scanFrom (.ofText content)).failure = none := by
    have hproblems := congrArg Prod.snd h
    simp only [parse, scan, List.append_eq_nil_iff, Option.toList_eq_nil_iff] at hproblems
    exact hproblems.1
  obtain ⟨xs, hxs, hvalid⟩ := exists_lexemes_of_scanFrom hfailure
  obtain rfl : content = Lexeme.writeAll xs := hxs
  obtain ⟨span, hscan⟩ := scan_write hvalid
  have hproblems := congrArg Prod.snd h
  simp only [parse, hscan, Builder.build, List.foldl_append, List.foldl_cons, List.foldl_nil,
    Option.toList_none, List.nil_append, List.append_eq_nil_iff] at hproblems
  obtain ⟨hbuild, hunwind⟩ := hproblems
  -- the builder follows the run over open forms: where the run refuses a lexeme it
  -- reports a problem, and no problem was reported
  cases hrun : OpenForms.start.run xs with
  | none =>
    exfalso
    have hne := OpenForms.problems_of_run hrun
    exact Builder.problems_foldl_ne_nil hne [⟨.endOfText, span⟩] hbuild
  | some z =>
    have hfold : (Lexeme.tokensAt .origin xs).foldl Builder.step {} = z.builder :=
      OpenForms.builder_run hrun
    rw [hfold, Builder.step_endOfText rfl] at hunwind
    obtain ⟨hlexemes, hdistinct⟩ := OpenForms.lexemes_of_run hrun
    obtain ⟨frames, current⟩ := z
    cases frames with
    -- an element that is still open is reported at the end of the text
    | cons e outer => simp [OpenForms.builder, OpenForms.stackOf, Builder.unwind] at hunwind
    | nil =>
      have hxs' : xs = Form.lexemesAll current := hlexemes.symm
      subst hxs'
      exact ⟨current, (Form.writeAll_lexemesAll current).symm,
        (Form.validAll_iff_lexemes current []).2 ⟨hvalid, hdistinct⟩⟩

/-- A text is derived by one list of forms: it has one sequence of lexemes, and
these are collected in one way. -/
theorem derives_unique {content : Text} {fs gs : List Form} (hf : Derives content fs)
    (hg : Derives content gs) : fs = gs := by
  obtain ⟨hfw, hfv⟩ := hf
  obtain ⟨hgw, hgv⟩ := hg
  obtain ⟨hfl, hfd⟩ := (Form.validAll_iff_lexemes fs []).1 hfv
  obtain ⟨hgl, hgd⟩ := (Form.validAll_iff_lexemes gs []).1 hgv
  have hlexemes : Form.lexemesAll fs = Form.lexemesAll gs := by
    apply Lexeme.writeAll_unique hfl hgl
    rw [Form.writeAll_lexemesAll, Form.writeAll_lexemesAll, hfw, hgw]
  -- the machine is deterministic, so equal lexemes are collected into equal forms
  have hrun := OpenForms.run_lexemesAll .start fs hfd
  rw [hlexemes, OpenForms.run_lexemesAll .start gs hgd] at hrun
  simp only [Option.some.injEq, OpenForms.mk.injEq] at hrun
  exact hrun.2.symm

/-- A document that was read has a derivation, and its tree is that of the
derivation. -/
theorem exists_derives_of_document {source : Source} {d : Document}
    (h : Document.parse source = .ok d) :
    ∃ forms, Derives source.content forms ∧ d = ⟨source, Form.nodes .origin forms⟩ := by
  unfold Document.parse at h
  split at h
  · next nodes hnodes =>
    obtain ⟨forms, hforms⟩ := exists_derives_of_parse hnodes
    rw [parse_of_derives hforms, Prod.mk.injEq] at hnodes
    cases h
    exact ⟨forms, hforms, by rw [hnodes.1]⟩
  · cases h

/-- A source with a derivation is read, as the tree of the derivation. -/
theorem document_of_derives {source : Source} {forms : List Form}
    (h : Derives source.content forms) :
    Document.parse source = .ok ⟨source, Form.nodes .origin forms⟩ := by
  rw [Document.parse, parse_of_derives h]

/-- The reader accepts a text exactly if the grammar derives it, and returns
the tree of a derivation; there is never more than one derivation. -/
theorem parse_ok_iff_derives (source : Source) (d : Document) :
    (Document.parse source = .ok d ↔
      ∃ forms, Derives source.content forms ∧ d = ⟨source, Form.nodes .origin forms⟩) ∧
    ∀ forms forms', Derives source.content forms → Derives source.content forms' →
      forms = forms' := by
  refine ⟨⟨exists_derives_of_document, ?_⟩, fun fs gs hf hg => derives_unique hf hg⟩
  rintro ⟨forms, hforms, rfl⟩
  exact document_of_derives hforms

end QwebReceiver.Markup
