import QwebReceiver.Proofs.Markup.Order
import QwebReceiver.Proofs.Template.VarMap
import QwebReceiver.Template.Corpus

/-!
  QwebReceiver.Proofs.Template.Content — what the maps of a corpus hold.

  Gathering a document is a sequence of additions, each of some variables to
  one template.  Where an addition stands among the others decides when its
  template comes up first (`names_addAll`), and nothing else: what a template
  holds in the end is a union (`holds_addAll`).

  Main results:

    * `addCalls_gathers` — `outside` gains what is set below calls;
    * `addTemplates_gathers` — `inside` gains what templates bind, and the
      templates that are inherited from;
    * `aggregate_gathers` — both, over elements in document order.
-/

namespace QwebReceiver.Template

open QwebReceiver.Markup

/-! ## §1. Sequences of additions. -/

namespace VarMap

variable {m : VarMap} {n x : Text}

/-- The map has a variable for a template.  An entry without variables holds
none. -/
def Holds (m : VarMap) (n x : Text) : Prop := ∃ s, m.get? n = some s ∧ x ∈ s

/-- Adds variables to templates, one after the other.  Each pass over a document
is of this form, with a list of its own. -/
def addAll (m : VarMap) (additions : List (Text × List Text)) : VarMap :=
  additions.foldl (fun m a => m.add a.1 a.2) m

/-- An addition gives its template the variables, and leaves the other templates
as they are. -/
theorem holds_add {name : Text} {vars : List Text} :
    (m.add name vars).Holds n x ↔ m.Holds n x ∨ n = name ∧ x ∈ vars := by
  unfold Holds
  rw [add, get?_adjust]
  by_cases h : n = name
  · subst h
    cases m.get? n <;> simp [or_comm]
  · simp [h]

/-- What a template holds is a union over the additions. -/
theorem holds_addAll {additions : List (Text × List Text)} :
    (m.addAll additions).Holds n x ↔ m.Holds n x ∨ ∃ a ∈ additions, n = a.1 ∧ x ∈ a.2 := by
  unfold addAll
  induction additions generalizing m with
  | nil => simp
  | cons a l ih => rw [List.foldl_cons, ih, holds_add, List.exists_mem_cons_iff, or_assoc]

/-- Names that are added one after the other: those that are new, each once, in
the order in which they first occur. -/
theorem foldl_addName_eq (l before : List Text) :
    l.foldl addName before = before ++ (l.filter (· ∉ before)).eraseDups := by
  -- what is known grows with each new name, so `before` is generalized
  induction l generalizing before with
  | nil => simp
  | cons y l ih =>
    rw [List.foldl_cons, ih]
    by_cases hy : y ∈ before
    · rw [addName_of_mem hy, List.filter_cons_of_neg (by simpa using hy)]
    · rw [addName_of_not_mem hy, List.filter_cons_of_pos (by simpa using hy), List.eraseDups_cons,
        List.append_assoc, List.singleton_append, List.filter_filter]
      -- the rest is filtered by what is known with `y`, or by what was known and then by `y`
      congr 3
      refine List.filter_congr fun z _ => ?_
      by_cases hz : z = y <;> simp [hz]

/-- The templates come up in the order in which they are first added to, behind
those that were there. -/
theorem names_addAll {additions : List (Text × List Text)} :
    (m.addAll additions).names =
      m.names ++ ((additions.map Prod.fst).filter (· ∉ m.names)).eraseDups := by
  rw [← foldl_addName_eq]
  unfold addAll
  induction additions generalizing m with
  | nil => rfl
  | cons a l ih => rw [List.foldl_cons, ih, names_add, List.map_cons, List.foldl_cons]

/-- A map that gains variables: `mentioned` are the templates that come up, in
order, and `gained n x` says that the template `n` gains the variable `x`. -/
structure Gains (m m' : VarMap) (mentioned : List Text) (gained : Text → Text → Prop) : Prop where
  /-- Old entries stay in place; those of new templates follow in the order in
  which the templates first come up. -/
  names : m'.names = m.names ++ (mentioned.filter (· ∉ m.names)).eraseDups
  /-- No variable is lost, and no other is gained. -/
  holds : ∀ n x, m'.Holds n x ↔ m.Holds n x ∨ gained n x

end VarMap

/-! ## §2. What a tag says. -/

/-- The tag has the attribute, with this text between the blank margins of its
value, and the text is not empty. -/
def Says (t : Tag) (attr x : Text) : Prop := (∃ v, t.get? attr = some v ∧ v.trim = x) ∧ x ≠ []

/-- The tag calls a template; the name is taken as it is. -/
def Calls (t : Tag) (n : Text) : Prop := t.get? callAttr = some n ∧ n ≠ []

/-- The tag sets a variable; the name is taken as it is. -/
def Sets (t : Tag) (x : Text) : Prop := t.get? setAttr = some x ∧ x ≠ []

/-- The tag is that of a template of this name.  The identifier counts only
where no name is given. -/
inductive Names (t : Tag) (n : Text) : Prop where
  | byName (h : Says t "t-name".toList n)
  | byId (hname : ∀ m, ¬ Says t "t-name".toList m) (htag : t.name = "template".toList)
      (h : Says t "id".toList n)

/-- The tag is that of a loop, in either of the two spellings. -/
def Loops (t : Tag) : Prop :=
  (t.get? "t-foreach".toList).isSome ∨ (t.get? "t-for-each".toList).isSome

/-- The tag binds a variable for the patches of its template.  A loop binds its
item, its index and what is derived from these. -/
inductive Binds (t : Tag) : Text → Prop where
  | set {x : Text} (h : Says t "t-set".toList x) : Binds t x
  | item {y : Text} (hloop : Loops t) (h : Says t "t-as".toList y) : Binds t y
  | companion {y stem : Text} (hloop : Loops t) (h : Says t "t-as".toList y)
      (hstem : stem ∈ ["_index", "_first", "_last", "_value"].map String.toList) :
      Binds t (y ++ stem)
  | index {x : Text} (hloop : Loops t) (h : Says t "t-foreach-index".toList x) : Binds t x
  | otherIndex {x : Text} (hloop : Loops t) (hindex : ∀ y, ¬ Says t "t-foreach-index".toList y)
      (h : Says t "t-index".toList x) : Binds t x

section Tags

variable {t : Tag} {attr n x : Text}

/-- A value counts unless it is empty. -/
theorem nonEmpty?_eq_some_iff : t.nonEmpty? attr = some x ↔ t.get? attr = some x ∧ x ≠ [] := by
  simp [Tag.nonEmpty?, Option.filter_eq_some_iff]

theorem trimmed?_eq_some_iff : trimmed? t attr = some x ↔ Says t attr x := by
  simp [trimmed?, Says, Option.filter_eq_some_iff]

theorem trimmed?_eq_none_iff : trimmed? t attr = none ↔ ∀ x, ¬ Says t attr x := by
  simp only [Option.eq_none_iff_forall_ne_some, ne_eq, trimmed?_eq_some_iff]

/-- A value of its own, or else another one. -/
theorem trimmed?_or_eq_some_iff {other : Option Text} :
    (trimmed? t attr).or other = some x ↔
      Says t attr x ∨ (∀ y, ¬ Says t attr y) ∧ other = some x := by
  rw [Option.or_eq_some_iff, trimmed?_eq_some_iff, trimmed?_eq_none_iff]

/-- The name that is read is that of the template. -/
theorem templateName?_eq_some_iff : templateName? t = some n ↔ Names t n := by
  have hid : (if t.name = "template".toList then trimmed? t "id".toList else none) = some n ↔
      t.name = "template".toList ∧ Says t "id".toList n := by
    rw [Option.ite_none_right_eq_some, trimmed?_eq_some_iff]
  rw [templateName?, trimmed?_or_eq_some_iff, hid]
  constructor
  · rintro (h | ⟨hname, htag, h⟩)
    · exact .byName h
    · exact .byId hname htag h
  · rintro (h | ⟨hname, htag, h⟩)
    · exact .inl h
    · exact .inr ⟨hname, htag, h⟩

/-- What is taken for a loop is one. -/
theorem isLoop_eq_true_iff : isLoop t = true ↔ Loops t := by
  have hhas (name : Text) : t.has name = (t.get? name).isSome := by
    rw [Tag.get?, Option.isSome_map, List.isSome_find?, Tag.has]
  rw [isLoop, Bool.or_eq_true, hhas, hhas]
  exact Iff.rfl

/-- A loop binds its variable, and the names that are made of it. -/
theorem mem_loopNames_iff {y : Text} :
    x ∈ loopNames y ↔ x = y ∨ ∃ stem ∈ companionEnds, x = y ++ stem := by
  rw [loopNames, List.mem_cons, List.mem_map]
  exact or_congr_right (exists_congr fun stem => and_congr_right fun _ => eq_comm)

/-- The names gathered from a tag are those that it binds for patches. -/
theorem mem_insideNames_iff : x ∈ insideNames t ↔ Binds t x := by
  have hset : x ∈ (trimmed? t setAttr).toList ↔ Says t "t-set".toList x := by
    rw [Option.mem_toList, trimmed?_eq_some_iff]
    rfl
  have hitem : x ∈ ((trimmed? t asAttr).map loopNames).getD [] ↔
      ∃ y, Says t "t-as".toList y ∧ x ∈ loopNames y := by
    show _ ↔ ∃ y, Says t asAttr y ∧ x ∈ loopNames y
    simp only [← trimmed?_eq_some_iff]
    cases trimmed? t asAttr <;> simp
  have hindex : x ∈ ((trimmed? t "t-foreach-index".toList).or (trimmed? t "t-index".toList)).toList ↔
      Says t "t-foreach-index".toList x ∨
        (∀ y, ¬ Says t "t-foreach-index".toList y) ∧ Says t "t-index".toList x := by
    rw [Option.mem_toList, trimmed?_or_eq_some_iff, trimmed?_eq_some_iff]
  -- the definition, clause by clause; what is left is to name the clauses
  have hmem : x ∈ insideNames t ↔ Says t "t-set".toList x ∨ Loops t ∧
      ((∃ y, Says t "t-as".toList y ∧ x ∈ loopNames y) ∨ Says t "t-foreach-index".toList x ∨
        (∀ y, ¬ Says t "t-foreach-index".toList y) ∧ Says t "t-index".toList x) := by
    rw [insideNames, List.mem_append, hset, ← isLoop_eq_true_iff, ← hitem, ← hindex]
    cases isLoop t <;> simp
  rw [hmem]
  constructor
  · rintro (h | ⟨hloop, ⟨y, h, hx⟩ | h | ⟨hnone, h⟩⟩)
    · exact .set h
    · obtain rfl | ⟨stem, hstem, rfl⟩ := mem_loopNames_iff.1 hx
      · exact .item hloop h
      · exact .companion hloop h hstem
    · exact .index hloop h
    · exact .otherIndex hloop hnone h
  · rintro (h | ⟨hloop, h⟩ | ⟨hloop, h, hstem⟩ | ⟨hloop, h⟩ | ⟨hloop, hnone, h⟩)
    · exact .inl h
    · exact .inr ⟨hloop, .inl ⟨_, h, mem_loopNames_iff.2 (.inl rfl)⟩⟩
    · exact .inr ⟨hloop, .inl ⟨_, h, mem_loopNames_iff.2 (.inr ⟨_, hstem, rfl⟩)⟩⟩
    · exact .inr ⟨hloop, .inr (.inl h)⟩
    · exact .inr ⟨hloop, .inr (.inr ⟨hnone, h⟩)⟩

end Tags

/-! ## §3. What a document adds. -/

/-- What a call adds: the variables set below it, for the template that is
called. -/
def callAdditions (e : Element) : List (Text × List Text) :=
  (e.tag.nonEmpty? callAttr).toList.map fun target => (target, setNames e)

/-- A call is gathered by its additions. -/
theorem addCall_eq (m : VarMap) (e : Element) : addCall m e = m.addAll (callAdditions e) := by
  unfold addCall callAdditions
  cases e.tag.nonEmpty? callAttr <;> rfl

/-- What a patch or a template adds.  A patch adds its target without variables,
so that the target is known. -/
def templateAdditions (e : Element) : List (Text × List Text) :=
  (trimmed? e.tag inheritAttr).toList.map (fun target => (target, [])) ++
    (templateName? e.tag).toList.map fun name => (name, e.subtree.flatMap fun f => insideNames f.tag)

theorem addTemplate_eq (m : VarMap) (e : Element) :
    addTemplate m e = m.addAll (templateAdditions e) := by
  unfold addTemplate templateAdditions
  cases trimmed? e.tag inheritAttr <;> cases templateName? e.tag <;> rfl

/-- Steps that are sequences of additions, one after the other. -/
theorem foldl_eq_addAll {step : VarMap → Element → VarMap}
    {additions : Element → List (Text × List Text)}
    (h : ∀ m e, step m e = m.addAll (additions e)) (es : List Element) (m : VarMap) :
    es.foldl step m = m.addAll (es.flatMap additions) := by
  induction es generalizing m with
  | nil => rfl
  | cons e es ih =>
    rw [List.foldl_cons, ih, h, List.flatMap_cons, VarMap.addAll, VarMap.addAll, VarMap.addAll,
      List.foldl_append]

/-- What a sequence of elements adds. -/
theorem gains_addAll (m : VarMap) (es : List Element) (additions : Element → List (Text × List Text))
    (gained : Text → Text → Prop)
    (h : ∀ n x, (∃ e ∈ es, ∃ a ∈ additions e, n = a.1 ∧ x ∈ a.2) ↔ gained n x) :
    m.Gains (m.addAll (es.flatMap additions)) (es.flatMap fun e => (additions e).map Prod.fst)
      gained where
  names := by rw [VarMap.names_addAll, List.map_flatMap]
  holds n x := by
    rw [VarMap.holds_addAll, ← h]
    simp only [List.mem_flatMap]
    refine or_congr_right ⟨?_, ?_⟩
    · rintro ⟨a, ⟨e, he, ha⟩, hax⟩
      exact ⟨e, he, a, ha, hax⟩
    · rintro ⟨e, he, a, ha, hax⟩
      exact ⟨a, ⟨e, he, ha⟩, hax⟩

/-- **The map of callers gains what is set below calls.**  A call without
variables still gives its template an entry, in the order of the document. -/
theorem addCalls_gathers (m : VarMap) (d : Document) :
    m.Gains (addCalls m d) (d.elements.flatMap fun e => (e.tag.nonEmpty? callAttr).toList)
      fun n x => ∃ e ∈ d.elements, Calls e.tag n ∧ ∃ f ∈ e.subtree, Sets f.tag x := by
  have hset {e : Element} {x : Text} : x ∈ setNames e ↔ ∃ f ∈ e.subtree, Sets f.tag x := by
    rw [setNames, List.mem_filterMap]
    simp only [nonEmpty?_eq_some_iff]
    rfl
  -- the pass adds one list of names for each element, so only the membership is left to
  -- spell out
  have h := gains_addAll m d.elements callAdditions
    (fun n x => ∃ e ∈ d.elements, Calls e.tag n ∧ ∃ f ∈ e.subtree, Sets f.tag x)
    fun n x => exists_congr fun e => and_congr_right fun _ => by
      simp only [callAdditions, List.mem_map, Option.mem_toList, nonEmpty?_eq_some_iff, ← hset]
      constructor
      · rintro ⟨a, ⟨target, htarget, rfl⟩, rfl, hx⟩
        exact ⟨htarget, hx⟩
      · rintro ⟨hn, hx⟩
        exact ⟨_, ⟨n, hn, rfl⟩, rfl, hx⟩
  rw [addCalls, foldl_eq_addAll addCall_eq]
  simpa [callAdditions, Function.comp_def] using h

/-- **The map of templates gains what templates bind**; a patch only makes the
template it inherits from known. -/
theorem addTemplates_gathers (m : VarMap) (d : Document) :
    m.Gains (addTemplates m d)
      (d.elements.flatMap fun e =>
        (trimmed? e.tag inheritAttr).toList ++ (templateName? e.tag).toList)
      fun n x => ∃ e ∈ d.elements, Names e.tag n ∧ ∃ f ∈ e.subtree, Binds f.tag x := by
  have h := gains_addAll m d.elements templateAdditions
    (fun n x => ∃ e ∈ d.elements, Names e.tag n ∧ ∃ f ∈ e.subtree, Binds f.tag x)
    fun n x => exists_congr fun e => and_congr_right fun _ => by
      simp only [templateAdditions, List.mem_append, List.mem_map, Option.mem_toList,
        templateName?_eq_some_iff, ← mem_insideNames_iff]
      constructor
      -- a target gets an entry without names, so a name comes from a template's own
      -- subtree
      · rintro ⟨a, ⟨target, -, rfl⟩ | ⟨name, hname, rfl⟩, rfl, hx⟩
        · cases hx
        · exact ⟨hname, List.mem_flatMap.1 hx⟩
      · rintro ⟨hn, hx⟩
        exact ⟨_, .inr ⟨n, hn, rfl⟩, rfl, List.mem_flatMap.2 hx⟩
  rw [addTemplates, foldl_eq_addAll addTemplate_eq]
  simpa [templateAdditions, Function.comp_def] using h

/-! ## §4. The corpus. -/

/-- **What gathering a document does to the maps**, and in which order the
elements of the document come up: the walk over a root visits each element
below it once, at its place, and the places stand in document order. -/
theorem aggregate_gathers (v : CorpusVars) (d : Document) :
    v.outside.Gains (v.aggregate d).outside
      (d.elements.filterMap fun e => e.tag.nonEmpty? callAttr)
      (fun n x => ∃ e ∈ d.elements, Calls e.tag n ∧ ∃ f ∈ e.subtree, Sets f.tag x) ∧
    v.inside.Gains (v.aggregate d).inside
      (d.elements.flatMap fun e =>
        (trimmed? e.tag inheritAttr).toList ++ (templateName? e.tag).toList)
      (fun n x => ∃ e ∈ d.elements, Names e.tag n ∧ ∃ f ∈ e.subtree, Binds f.tag x) ∧
    (d.elements = (Node.elementsOf d.nodes).flatMap fun e => (Walk.ofElement e).toList) ∧
    ∀ e : Element,
      (Walk.ofElement e).toList = e.subtree ∧
      ∃ places : List (List Nat), places.Pairwise (· < ·) ∧
        (∀ p, p ∈ places ↔ ((Node.element e.tag e.children e.close).elementAt? p).isSome) ∧
        places.map (Node.element e.tag e.children e.close).elementAt? =
          (Walk.ofElement e).toList.map some := by
  have houtside := addCalls_gathers v.outside d
  rw [← List.filterMap_eq_flatMap_toList] at houtside
  refine ⟨houtside, addTemplates_gathers v.inside d, d.elements_eq, fun e => ?_⟩
  have hwalk := Walk.toList_ofElement e
  refine ⟨hwalk, Node.places (.element e.tag e.children e.close), Node.pairwise_places _,
    fun p => Node.mem_places_iff, ?_⟩
  rw [hwalk]
  exact Node.map_elementAt?_places _

end QwebReceiver.Template
