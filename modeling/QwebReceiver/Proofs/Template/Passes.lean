import QwebReceiver.Proofs.Template.Place

/-!
  QwebReceiver.Proofs.Template.Passes — attributes kind by kind, and at once.

  A template is walked once for each kind of attribute.  An attribute has one
  kind at most, and no walk changes which kind an attribute is of, so the walks
  do what a single walk does that qualifies each attribute by its kind
  (`result_qualifyKinds`).  The two may differ in the failure they report, for
  a walk stops at the first one it meets; they do not differ in whether there
  is one.
-/

namespace QwebReceiver.Template

open QwebReceiver.Markup

variable {ε α β : Type}

/-! ## §1. Results. -/

/-- The value of an edit that went through, and nothing if it failed.  Which
failure came first is left out, so passes can be exchanged. -/
def result (d : Draft ε α) : Option α := if d.failure.isNone = true then some d.value else none

/-- An edit has a result if it went through, and that is its value. -/
theorem result_eq_some_iff {d : Draft ε α} {a : α} :
    result d = some a ↔ d.failure = none ∧ d.value = a := by
  unfold result
  cases d.failure with
  | none => simp
  | some e => simp

/-- An edit that failed has none. -/
theorem result_eq_none_iff {d : Draft ε α} : result d = none ↔ d.failure ≠ none := by
  unfold result
  cases d.failure with
  | none => simp
  | some e => simp

theorem result_done (a : α) : result (Draft.done a : Draft ε α) = some a := rfl

/-- What is made of the value is made of the result. -/
theorem result_map (f : α → β) (d : Draft ε α) : result (d.map f) = (result d).map f := by
  unfold result Draft.map
  cases d.failure with
  | none => rfl
  | some e => rfl

/-- Two edits go through if the first does, and the second on what the first
made. -/
theorem result_andThen (d : Draft ε α) (f : α → Draft ε α) :
    result (d.andThen f) = (result d).bind fun a => result (f a) := by
  unfold Draft.andThen
  cases h : d.failure with
  | none => simp [result, h]
  | some e => simp [result, h]

/-- An edit of a list goes through if it does for each member. -/
theorem result_each (f : α → Draft ε α) (as : List α) :
    result (Draft.each f as) = as.mapM fun a => result (f a) := by
  induction as with
  | nil => rfl
  | cons a rest ih =>
    rw [List.mapM_cons, ← ih]
    -- the first failure ends both, the list and the options
    cases h : (f a).failure with
    | none =>
      obtain ⟨hfailure, hvalue⟩ := each_cons rest h
      unfold result
      rw [hfailure, hvalue, h]
      cases (Draft.each f rest).failure with
      | none => rfl
      | some e => rfl
    | some e =>
      rw [each_cons_of_failure rest h, result_map]
      have hnone : result (f a) = none := result_eq_none_iff.2 (by simp [h])
      rw [hnone]
      rfl

/-- Edits one after the other, from the first of a list on. -/
theorem result_foldl {ι : Type} (step : ι → α → Draft ε α) (l : List ι) (d : Draft ε α) :
    result (l.foldl (fun d i => d.andThen (step i)) d) =
      l.foldl (fun r i => r.bind fun a => result (step i a)) (result d) := by
  induction l generalizing d with
  | nil => rfl
  | cons i l ih => rw [List.foldl_cons, List.foldl_cons, ih, result_andThen]

/-- Functions that agree on a list make the same of it. -/
theorem mapM_congr {f g : α → Option β} {as : List α} (h : ∀ a ∈ as, f a = g a) :
    as.mapM f = as.mapM g := by
  induction as with
  | nil => rfl
  | cons a rest ih =>
    rw [List.mapM_cons, List.mapM_cons, h a List.mem_cons_self,
      ih fun b hb => h b (List.mem_cons_of_mem a hb)]

/-- A list that is gone through twice is gone through once. -/
theorem mapM_bind_mapM {f g : α → Option α} (as : List α) :
    (as.mapM f).bind (fun bs => bs.mapM g) = as.mapM fun a => (f a).bind g := by
  induction as with
  | nil => rfl
  | cons a rest ih =>
    rw [List.mapM_cons, List.mapM_cons, ← ih]
    cases f a with
    | none => rfl
    | some b =>
      cases rest.mapM f with
      | none => cases hg : g b <;> simp [hg]
      | some bs =>
        show (b :: bs).mapM g = _
        rw [List.mapM_cons]
        rfl

/-! ## §2. Walks that edit tags. -/

mutual

/-- Replaces the tags that a walk comes to, if all of them can be replaced.  Two
passes of this kind merge into one. -/
def retag? (enter : Tag → Bool) (φ : Tag → Option Tag) : Node → Option Node
  | .element tag children close =>
    (φ tag).bind fun tag => (retagAll? enter φ children).map fun children =>
      .element tag children close
  | n => some n

/-- Replaces the tags in those nodes that a walk goes on with. -/
def retagAll? (enter : Tag → Bool) (φ : Tag → Option Tag) : List Node → Option (List Node)
  | [] => some []
  | n :: rest =>
    (if admits enter n = true then retag? enter φ n else some n).bind fun n =>
      (retagAll? enter φ rest).map (n :: ·)

end

section Retag

variable {enter : Tag → Bool} {φ ψ : Tag → Option Tag}

/-- Nodes side by side are retagged one by one, as far as the walk goes on with
them. -/
theorem retagAll?_eq (ns : List Node) : retagAll? enter φ ns =
    ns.mapM fun n => if admits enter n = true then retag? enter φ n else some n := by
  induction ns with
  | nil => rfl
  | cons n ns ih =>
    rw [retagAll?, List.mapM_cons, ih]
    simp only [Option.bind_eq_bind, Option.pure_def, Option.map_eq_bind, Function.comp_def]

/-- A walk that edits tags is their replacement. -/
theorem result_visitWithin {g : Tag → Draft ε Tag} {depth : Nat} {n : Node}
    (hdepth : n.height ≤ depth) :
    result (Node.visitWithin enter (Node.editTag g) depth n) =
      retag? enter (fun t => result (g t)) n := by
  induction depth generalizing n with
  | zero =>
    cases n with
    | element tag children close => simp [Node.height] at hdepth
    | _ => rfl
  | succ depth ih =>
    cases n with
    | element tag children close =>
      -- the children are those that the node had before its tag was edited
      have hbelow : ∀ c ∈ children,
          result (if admits enter c = true then Node.visitWithin enter (Node.editTag g) depth c
            else .done c) =
          if admits enter c = true then retag? enter (fun t => result (g t)) c else some c := by
        intro c hc
        have hheight : c.height ≤ depth := by
          have hle := Node.height_le_of_mem hc
          rw [Node.height] at hdepth
          omega
        by_cases hadmits : admits enter c = true
        · rw [if_pos hadmits, if_pos hadmits]
          exact ih hheight
        · rw [if_neg hadmits, if_neg hadmits]
          rfl
      have hchildren : result (Draft.each (fun c => if admits enter c = true then
          Node.visitWithin enter (Node.editTag g) depth c else .done c) children) =
          retagAll? enter (fun t => result (g t)) children := by
        rw [result_each, retagAll?_eq]
        exact mapM_congr hbelow
      rw [visitWithin_succ]
      show result ((Node.editTag g _).andThen _) = _
      rw [result_andThen, Node.editTag, result_map, retag?]
      cases result (g tag) with
      | none => rfl
      | some tag' =>
        show result (editChildren _ (.element tag' children close)) = _
        rw [editChildren, result_map]
        exact congrArg (Option.map fun children => Node.element tag' children close) hchildren
    | _ => rfl

/-- A walk that edits tags is their replacement, wherever it is told to go on. -/
theorem result_visit (g : Tag → Draft ε Tag) (n : Node) :
    result (Node.visit enter (Node.editTag g) n) = retag? enter (fun t => result (g t)) n :=
  result_visitWithin le_rfl

mutual

/-- To replace every tag by itself changes nothing. -/
theorem retag?_some (n : Node) : retag? enter some n = some n := by
  cases n with
  | element tag children close =>
    rw [retag?, retagAll?_some children]
    rfl
  | _ => rfl

/-- Nor does it change nodes side by side. -/
theorem retagAll?_some (ns : List Node) : retagAll? enter some ns = some ns := by
  cases ns with
  | nil => rfl
  | cons n ns =>
    rw [retagAll?, retag?_some n, retagAll?_some ns, ite_self]
    rfl

end

mutual

/-- Tags that are replaced twice are replaced once. -/
theorem retag?_bind (henter : ∀ t u, φ t = some u → enter u = enter t) (n : Node) :
    (retag? enter φ n).bind (retag? enter ψ) = retag? enter (fun t => (φ t).bind ψ) n := by
  cases n with
  | element tag children close =>
    rw [retag?, retag?, ← retagAll?_bind henter children]
    cases φ tag with
    | none => rfl
    | some tag' =>
      cases retagAll? enter φ children with
      | none => cases hψ : ψ tag' <;> simp [hψ]
      | some children' => simp [retag?]
  | _ => rfl

/-- Tags that are replaced twice are replaced once, in nodes side by side. -/
theorem retagAll?_bind (henter : ∀ t u, φ t = some u → enter u = enter t) (ns : List Node) :
    (retagAll? enter φ ns).bind (retagAll? enter ψ) =
      retagAll? enter (fun t => (φ t).bind ψ) ns := by
  cases ns with
  | nil => rfl
  | cons n ns =>
    rw [retagAll?, retagAll?, ← retagAll?_bind henter ns]
    have hn := retag?_bind henter n
    by_cases hadmits : admits enter n = true
    · rw [if_pos hadmits, if_pos hadmits, ← hn]
      cases hm : retag? enter φ n with
      | none => rfl
      | some m =>
        -- the first pass keeps whether the node is entered, so the second enters the
        -- same ones
        have hsame : admits enter m = true := by
          cases n with
          | element tag children close =>
            rw [retag?] at hm
            obtain ⟨u, hu, hm⟩ := Option.bind_eq_some_iff.1 hm
            obtain ⟨children', -, rfl⟩ := Option.map_eq_some_iff.1 hm
            exact (henter _ _ hu).trans hadmits
          | _ => cases hadmits
        cases retagAll? enter φ ns with
        | none => cases retag? enter ψ m <;> simp
        | some ms =>
          show retagAll? enter ψ (m :: ms) = _
          rw [retagAll?, if_pos hsame]
          rfl
    · rw [if_neg hadmits, if_neg hadmits]
      cases retagAll? enter φ ns with
      | none => rfl
      | some ms =>
        show retagAll? enter ψ (n :: ms) = _
        rw [retagAll?, if_neg hadmits]
        rfl

end

/-- Replacements chained along a list. -/
theorem foldl_retag? {ι : Type} {step : ι → Tag → Option Tag}
    (henter : ∀ i t u, step i t = some u → enter u = enter t) (l : List ι)
    (hφ : ∀ t u, φ t = some u → enter u = enter t) (n : Node) :
    l.foldl (fun r i => r.bind (retag? enter (step i))) (retag? enter φ n) =
      retag? enter (fun t => l.foldl (fun r i => r.bind (step i)) (φ t)) n := by
  induction l generalizing φ with
  | nil => rfl
  | cons i l ih =>
    rw [List.foldl_cons, retag?_bind hφ]
    refine ih ?_
    intro t u hu
    obtain ⟨v, hv, hu⟩ := Option.bind_eq_some_iff.1 hu
    exact (henter i v u hu).trans (hφ t v hv)

end Retag

/-! ## §3. Kinds. -/

/-- Qualifies each attribute of a tag by its kind, all kinds at once. -/
def qualifyTag (bound : NameSet) (t : Tag) : Draft ValueError Tag :=
  qualifyAttributes
    (fun name => (attributeKind? name (isComponent t)).map AttributeKind.qualifier) bound t

/-- Qualifies the attributes of a template in one walk.  The passes kind by kind
come to the same. -/
def qualifyOwn (bound : NameSet) (root : Node) : Draft ValueError Node :=
  root.visit (fun t => !isTemplate t) (Node.editTag (qualifyTag bound))

/-- Qualifies the attributes of a template kind by kind, which is how the
compiler does it. -/
def qualifyKinds (bound : NameSet) (root : Node) : Draft ValueError Node :=
  kindOrder.foldl (fun d kind => d.andThen (qualifyKind kind bound)) (Draft.done root)

/-- Qualifies the attributes of one kind of a tag, and leaves those of other
kinds. -/
def qualifyTagKind (bound : NameSet) (kind : AttributeKind) (t : Tag) : Draft ValueError Tag :=
  qualifyAttributes
    (fun name => if attributeKind? name (isComponent t) = some kind then some kind.qualifier
      else none) bound t

section Kinds

variable {bound : NameSet} {element : Text} {component : Bool}

/-- The attributes of a tag are qualified one by one. -/
theorem result_qualifyAttributes (select : Text → Option Qualifier) (t : Tag) :
    result (qualifyAttributes select bound t) =
      (t.attributes.mapM fun a => result (editAttribute select bound t.name a)).map
        fun attributes => { t with attributes } := by
  rw [qualifyAttributes, result_map]
  exact congrArg _ (result_each (editAttribute select bound t.name) t.attributes)

/-- An attribute keeps its name. -/
theorem name_of_editAttribute {select : Text → Option Qualifier} {a b : Attribute}
    (h : result (editAttribute select bound element a) = some b) : b.name = a.name := by
  obtain ⟨-, rfl⟩ := result_eq_some_iff.1 h
  cases hs : select a.name with
  | none => rw [editAttribute_of_none hs]; rfl
  | some qualify => rw [editAttribute_of_some hs]; rfl

/-- The edit of an attribute by its kind. -/
def editByKind (bound : NameSet) (element : Text) (component : Bool) (a : Attribute) :
    Option Attribute :=
  result (editAttribute (fun name => (attributeKind? name component).map AttributeKind.qualifier)
    bound element a)

/-- The edit of an attribute, if it is of that kind.  An attribute has one kind
at most, so at most one pass changes it. -/
def editOfKind (bound : NameSet) (element : Text) (component : Bool) (kind : AttributeKind)
    (a : Attribute) : Option Attribute :=
  result (editAttribute (fun name => if attributeKind? name component = some kind then
    some kind.qualifier else none) bound element a)

/-- An edit of one kind edits attributes of this kind and leaves all others
alone. -/
theorem editOfKind_eq (kind : AttributeKind) (a : Attribute) :
    editOfKind bound element component kind a =
      if attributeKind? a.name component = some kind then editByKind bound element component a
      else some a := by
  unfold editOfKind editByKind editAttribute
  by_cases h : attributeKind? a.name component = some kind
  · rw [if_pos h]
    simp only [h, if_true, Option.map_some]
  · rw [if_neg h]
    simp only [h, if_false]
    rfl

/-- An attribute of no kind is left alone. -/
theorem editByKind_of_none {a : Attribute} (h : attributeKind? a.name component = none) :
    editByKind bound element component a = some a := by
  unfold editByKind
  rw [editAttribute_of_none (by rw [h]; rfl)]
  rfl

/-- After a failure nothing is edited. -/
theorem foldl_bind_none {ι : Type} (step : ι → α → Option α) (l : List ι) :
    l.foldl (fun r i => r.bind (step i)) none = none := by
  induction l with
  | nil => rfl
  | cons i l ih => exact ih

/-- Kind after kind, an attribute is edited by its own kind alone. -/
theorem foldl_editOfKind {kinds : List AttributeKind} (hnodup : kinds.Nodup) (a : Attribute) :
    kinds.foldl (fun r kind => r.bind (editOfKind bound element component kind)) (some a) =
      if ∃ kind ∈ kinds, attributeKind? a.name component = some kind then
        editByKind bound element component a
      else some a := by
  induction kinds generalizing a with
  | nil => simp
  | cons kind kinds ih =>
    obtain ⟨hkind, hnodup⟩ := List.nodup_cons.1 hnodup
    rw [List.foldl_cons, Option.bind_some, editOfKind_eq]
    by_cases h : attributeKind? a.name component = some kind
    · rw [if_pos h, if_pos ⟨kind, List.mem_cons_self, h⟩]
      cases hedit : editByKind bound element component a with
      | none => exact foldl_bind_none _ _
      | some b =>
        -- the other kinds leave it alone: its name is the same
        rw [ih hnodup, if_neg]
        rintro ⟨kind', hmem, hb⟩
        rw [name_of_editAttribute hedit, h] at hb
        exact hkind (Option.some.inj hb ▸ hmem)
    · rw [if_neg h, ih hnodup]
      congr 1
      simp [h]

/-- Kind after kind, an attribute is edited as if its own kind were the only
one; each kind stands in the order once. -/
theorem foldl_editOfKind_kindOrder (a : Attribute) :
    kindOrder.foldl (fun r kind => r.bind (editOfKind bound element component kind)) (some a) =
      editByKind bound element component a := by
  rw [foldl_editOfKind (by decide)]
  cases h : attributeKind? a.name component with
  | none => rw [editByKind_of_none h]; simp
  | some kind =>
    refine if_pos ⟨kind, ?_, rfl⟩
    cases kind <;> decide

/-- Which attributes a tag has is a matter of their names. -/
theorem has_congr {t u : Tag} (h : u.attributes.map Attribute.name = t.attributes.map Attribute.name)
    (name : Text) : u.has name = t.has name := by
  have hany : ∀ v : Tag, v.has name = (v.attributes.map Attribute.name).any fun n => n = name := by
    intro v
    rw [List.any_map]
    rfl
  rw [hany, hany, h]

theorem has_of_names {t : Tag} {attributes : List Attribute}
    (h : attributes.map Attribute.name = t.attributes.map Attribute.name) (name : Text) :
    Tag.has { t with attributes } name = t.has name :=
  has_congr h name

/-- Whether a tag is that of a component depends on the names of its
attributes. -/
theorem isComponent_of_names {t : Tag} {attributes : List Attribute}
    (h : attributes.map Attribute.name = t.attributes.map Attribute.name) :
    isComponent { t with attributes } = isComponent t := by
  unfold isComponent
  rw [has_of_names h]

/-- Edits that keep names keep those of all attributes. -/
theorem names_of_mapM {F : Attribute → Option Attribute}
    (hF : ∀ a b, F a = some b → b.name = a.name) {as bs : List Attribute}
    (h : as.mapM F = some bs) : bs.map Attribute.name = as.map Attribute.name := by
  induction as generalizing bs with
  | nil => cases h; rfl
  | cons a as ih =>
    rw [List.mapM_cons] at h
    obtain ⟨b, hb, h⟩ := Option.bind_eq_some_iff.1 h
    obtain ⟨cs, hcs, h⟩ := Option.bind_eq_some_iff.1 h
    cases h
    rw [List.map_cons, List.map_cons, hF a b hb, ih hcs]

/-- The kinds of a tag, one after the other, are those of its attributes. -/
theorem foldl_qualifyTagKind {F : Attribute → Option Attribute}
    (hF : ∀ a b, F a = some b → b.name = a.name) (kinds : List AttributeKind) (t : Tag) :
    kinds.foldl (fun r kind => r.bind fun t => result (qualifyTagKind bound kind t))
        ((t.attributes.mapM F).map fun attributes => { t with attributes }) =
      (t.attributes.mapM fun a => kinds.foldl
        (fun r kind => r.bind (editOfKind bound t.name (isComponent t) kind)) (F a)).map
        fun attributes => { t with attributes } := by
  induction kinds generalizing F with
  | nil => rfl
  | cons kind kinds ih =>
    simp only [List.foldl_cons]
    rw [← ih (F := fun a => (F a).bind (editOfKind bound t.name (isComponent t) kind))]
    · congr 1
      rw [← mapM_bind_mapM]
      cases hm : t.attributes.mapM F with
      | none => rfl
      | some as =>
        show result (qualifyTagKind bound kind { t with attributes := as }) = _
        -- names are kept, so the tag is a component for a later kind if it was one
        rw [qualifyTagKind, isComponent_of_names (names_of_mapM hF hm), result_qualifyAttributes]
        rfl
    · intro a c hc
      obtain ⟨b, hb, hc⟩ := Option.bind_eq_some_iff.1 hc
      exact (name_of_editAttribute hc).trans (hF a b hb)

/-- The walks for the kinds, taken at one tag, are one edit of it. -/
theorem result_qualifyTag (t : Tag) :
    kindOrder.foldl (fun r kind => r.bind fun t => result (qualifyTagKind bound kind t))
      (some t) = result (qualifyTag bound t) := by
  have hsome : some t = (t.attributes.mapM some).map fun attributes => { t with attributes } := by
    have hmap : t.attributes.mapM some = some t.attributes := by
      induction t.attributes with
      | nil => rfl
      | cons a as ih => rw [List.mapM_cons, ih]; rfl
    rw [hmap]
    rfl
  have hfold := @foldl_qualifyTagKind bound some (by rintro a _ ⟨⟩; rfl) kindOrder t
  rw [← hsome] at hfold
  rw [hfold, qualifyTag, result_qualifyAttributes]
  simp only [foldl_editOfKind_kindOrder]
  rfl

/-- A tag that is qualified is that of a template if it was so before. -/
theorem isTemplate_of_qualifyTagKind {kind : AttributeKind} {t u : Tag}
    (h : result (qualifyTagKind bound kind t) = some u) : isTemplate u = isTemplate t := by
  rw [qualifyTagKind, result_qualifyAttributes] at h
  obtain ⟨as, has, rfl⟩ := Option.map_eq_some_iff.1 h
  exact has_of_names (names_of_mapM (fun _ _ => name_of_editAttribute) has) nameAttr

/-- **The walks for the kinds are one walk.**  Each attribute has one kind at
most, so the walks do not meet in any of them. -/
theorem result_qualifyKinds (bound : NameSet) (root : Node) :
    result (qualifyKinds bound root) = result (qualifyOwn bound root) := by
  have hkind : ∀ kind n, result (qualifyKind kind bound n) =
      retag? (fun t => !isTemplate t) (fun t => result (qualifyTagKind bound kind t)) n :=
    fun kind n => result_visit (qualifyTagKind bound kind) n
  rw [qualifyKinds, result_foldl, result_done, ← @retag?_some (fun t => !isTemplate t) root]
  simp only [hkind]
  rw [foldl_retag? _ kindOrder, qualifyOwn, result_visit]
  · simp only [result_qualifyTag]
  · rintro t _ ⟨⟩
    rfl
  · intro kind t u hu
    rw [isTemplate_of_qualifyTagKind hu]

end Kinds

end QwebReceiver.Template
