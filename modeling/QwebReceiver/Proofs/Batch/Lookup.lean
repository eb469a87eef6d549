import QwebReceiver.Proofs.Batch.Aggregate
import QwebReceiver.Proofs.Expr.Qualify
import QwebReceiver.Proofs.Template.Content
import QwebReceiver.Proofs.Template.Selectors

/-!
  QwebReceiver.Proofs.Batch.Lookup — the entries that patches look up.

  Names are gathered without their blank margins, but a patch looks up the
  value of its `t-inherit` as it stands.  So the lookup finds an entry exactly
  if that value has no blank margins.

  Main results:

    * `mem_names_corpusOf_iff`, `holds_corpusOf_iff` — which templates the files
      of a corpus make known, and what they hold;
    * `exists_entry_of_inherit` — what a patch finds;
    * `lookup_misses` — a patch that does not find its template.
-/

namespace QwebReceiver.Text

/-- A text without its margins has no margins left. -/
theorem trim_trim (t : Text) : t.trim.trim = t.trim := by
  rcases Expr.exists_margins t with hblank | ⟨before, body, after, rfl, hb, ha, hne, hhead, hlast⟩
  · have hnil : t.trim = [] := Expr.margins_of_blank hblank
    rw [hnil]
    rfl
  · have htrim : (before ++ (body ++ after)).trim = body :=
      congrArg (·.2.1) (Expr.margins_eq hb ha hne hhead hlast)
    have hbody : Text.margins ([] ++ (body ++ [])) = ([], body, []) :=
      Expr.margins_eq (by simp) (by simp) hne hhead hlast
    rw [List.nil_append, List.append_nil] at hbody
    rw [htrim]
    exact congrArg (·.2.1) hbody

end QwebReceiver.Text

namespace QwebReceiver.Template

open QwebReceiver.Markup

/-! ## §1. Names without margins. -/

section Tags

variable {t : Tag} {attr n : Text}

theorem Says.trim_eq (h : Says t attr n) : n.trim = n := by
  obtain ⟨⟨v, -, rfl⟩, -⟩ := h
  exact v.trim_trim

/-- A template goes by names without margins, whether by its name or by its id. -/
theorem Names.trim_eq : Names t n → n.trim = n
  | .byName h => h.trim_eq
  | .byId _ _ h => h.trim_eq

end Tags

namespace VarMap

variable {m m' : VarMap} {n : Text}

theorem mem_names_iff : n ∈ m.names ↔ (m.get? n).isSome := by
  rw [← Option.ne_none_iff_isSome, ne_eq, get?_eq_none, not_not]
  rfl

theorem Gains.mem_names_iff {mentioned : List Text} {gained : Text → Text → Prop}
    (h : m.Gains m' mentioned gained) : n ∈ m'.names ↔ n ∈ m.names ∨ n ∈ mentioned := by
  rw [h.names, List.mem_append, List.mem_eraseDups, List.mem_filter]
  by_cases hn : n ∈ m.names <;> simp [hn]

end VarMap
end QwebReceiver.Template

namespace QwebReceiver.Batch

open QwebReceiver.Markup QwebReceiver.Template

/-! ## §2. What a corpus knows. -/

section Corpus

variable {v : CorpusVars} {content : Text} {contents : List Text} {n x : Text}

/-- An element of one of the texts, as far as these are documents.  Texts that
cannot be read have no elements and so no part in what is looked up. -/
def InCorpus (contents : List Text) (e : Element) : Prop :=
  ∃ c ∈ contents, ∃ d, readDocument c defaultUrl = .ok d ∧ e ∈ d.elements

/-- The element makes a template known: its own, by the name it gives, or one
that it inherits from.  Either gives the template an entry in the map. -/
def Mentions (e : Element) (n : Text) : Prop := Says e.tag inheritAttr n ∨ Names e.tag n

/-- The element is a template of this name that binds the variable, itself or in
an element below it. -/
def Offers (e : Element) (n x : Text) : Prop := Names e.tag n ∧ ∃ f ∈ e.subtree, Binds f.tag x

/-- An element of a corpus is one of its first text, if that is a document, or
one of the other texts. -/
theorem exists_inCorpus_cons {p : Element → Prop} :
    (∃ e, InCorpus (content :: contents) e ∧ p e) ↔
      (∃ d, readDocument content defaultUrl = .ok d ∧ ∃ e ∈ d.elements, p e) ∨
        ∃ e, InCorpus contents e ∧ p e := by
  unfold InCorpus
  constructor
  · rintro ⟨e, ⟨c, hc, d, hd, he⟩, hp⟩
    rcases List.mem_cons.1 hc with rfl | hc
    · exact .inl ⟨d, hd, e, he, hp⟩
    · exact .inr ⟨e, ⟨c, hc, d, hd, he⟩, hp⟩
  · rintro (⟨d, hd, e, he, hp⟩ | ⟨e, ⟨c, hc, d, hd, he⟩, hp⟩)
    · exact ⟨e, ⟨content, List.mem_cons_self, d, hd, he⟩, hp⟩
    · exact ⟨e, ⟨c, List.mem_cons_of_mem _ hc, d, hd, he⟩, hp⟩

/-- The templates that one text makes known, beside those that are known. -/
theorem mem_names_gatherText_iff : n ∈ (gatherText v content).inside.names ↔
    n ∈ v.inside.names ∨
      ∃ d, readDocument content defaultUrl = .ok d ∧ ∃ e ∈ d.elements, Mentions e n := by
  unfold gatherText
  cases readDocument content defaultUrl with
  | error e => simp
  | ok d =>
    have hmentions (e : Element) : Mentions e n ↔
        n ∈ (trimmed? e.tag inheritAttr).toList ++ (templateName? e.tag).toList := by
      rw [Mentions, List.mem_append, Option.mem_toList, Option.mem_toList, trimmed?_eq_some_iff,
        templateName?_eq_some_iff]
    have hgains := (addTemplates_gathers v.inside d).mem_names_iff (n := n)
    simp only [List.mem_flatMap, ← hmentions] at hgains
    simp only [Except.ok.injEq, exists_eq_left']
    exact hgains

/-- The variables that one text adds to a template, beside those it has. -/
theorem holds_gatherText_iff : (gatherText v content).inside.Holds n x ↔
    v.inside.Holds n x ∨
      ∃ d, readDocument content defaultUrl = .ok d ∧ ∃ e ∈ d.elements, Offers e n x := by
  unfold gatherText
  cases readDocument content defaultUrl with
  | error e => simp
  | ok d =>
    simp only [Except.ok.injEq, exists_eq_left']
    exact (addTemplates_gathers v.inside d).holds n x

/-- **The templates that a corpus makes known** are those that an element of one
of its texts mentions, by a run along the texts. -/
theorem mem_names_corpusOf_iff : n ∈ (corpusOf contents).inside.names ↔
    ∃ e, InCorpus contents e ∧ Mentions e n := by
  -- a text is gathered into what the texts before it left, so any maps may come first
  have hrun (v : CorpusVars) : n ∈ (contents.foldl gatherText v).inside.names ↔
      n ∈ v.inside.names ∨ ∃ e, InCorpus contents e ∧ Mentions e n := by
    induction contents generalizing v with
    | nil => simp [InCorpus]
    | cons c contents ih =>
      rw [List.foldl_cons, ih, mem_names_gatherText_iff, exists_inCorpus_cons, or_assoc]
  exact (hrun {}).trans (or_iff_right List.not_mem_nil)

/-- **The variables that a corpus gathers** are those that an element of one of
its texts offers under the name of the template. -/
theorem holds_corpusOf_iff : (corpusOf contents).inside.Holds n x ↔
    ∃ e, InCorpus contents e ∧ Offers e n x := by
  have hrun (v : CorpusVars) : (contents.foldl gatherText v).inside.Holds n x ↔
      v.inside.Holds n x ∨ ∃ e, InCorpus contents e ∧ Offers e n x := by
    induction contents generalizing v with
    | nil => simp [InCorpus]
    | cons c contents ih =>
      rw [List.foldl_cons, ih, holds_gatherText_iff, exists_inCorpus_cons, or_assoc]
  refine (hrun {}).trans (or_iff_right ?_)
  rintro ⟨s, hs, -⟩
  cases hs

/-- No template is known by a name with blank margins, as every name is gathered
without them. -/
theorem get?_of_trim_ne (h : n.trim ≠ n) : (corpusOf contents).inside.get? n = none := by
  by_contra hn
  obtain ⟨e, -, hsays | hnames⟩ :=
    mem_names_corpusOf_iff.1 (VarMap.mem_names_iff.2 (Option.ne_none_iff_isSome.1 hn))
  · exact h hsays.trim_eq
  · exact h hnames.trim_eq

end Corpus

/-! ## §3. What patches look up. -/

/-- The patches at and below an element see the variables of `found`: their
selectors these alone, and their values these and the `bound` ones.  If nothing
is found, qualifying selectors alone does nothing here. -/
structure Sees (inside : VarMap) (n : Node) (target : Text) (found : Option NameSet) : Prop where
  templates (bound : NameSet) : qualifyInheriting bound inside n =
    (Draft.noting .trace
      s!"patches of {target.str} use {(found.getD ∅).size} inherited variables" n).andThen
      (Node.visitAll (qualifySelectorElement (found.getD ∅) (bound.union (found.getD ∅))))
  selectors : editKnown inside n =
    found.elim (.done n) fun inherited => n.visitAll (editSelectorOnly inherited)

/-- An element sees the entry of the template that it names, taken as it stands
in the value of its `t-inherit`. -/
theorem sees_get? (inside : VarMap) {n : Node} {target : Text}
    (h : n.tag?.bind (·.get? inheritAttr) = some target) :
    Sees inside n target (inside.get? target) where
  templates bound := by
    unfold qualifyInheriting
    simp only [h]
  selectors := by
    rw [editKnown, known?, h, Option.bind_some]
    cases inside.get? target <;> rfl

/-- **What a patch finds.**  The corpus has an entry for the template that an
element inherits from, with the variables of all templates of that name; the
element sees it if the value of its `t-inherit` has no blank margins, and
nothing otherwise. -/
theorem exists_entry_of_inherit {sources : List Source} {v : CorpusVars}
    (hv : (aggregateSources sources).outcome = .ok v) {e : Element}
    (he : InCorpus (sources.map Source.content) e) {target : Text}
    (htarget : e.tag.get? inheritAttr = some target) (hblank : target.trim ≠ []) :
    ∃ entry, v.inside.get? target.trim = some entry ∧
      (∀ x, x ∈ entry ↔ ∃ f, InCorpus (sources.map Source.content) f ∧ Offers f target.trim x) ∧
      v.inside.get? target = (if target.trim = target then some entry else none) ∧
      Sees v.inside (.element e.tag e.children e.close) target (v.inside.get? target) := by
  rw [outcome_aggregateSources] at hv
  obtain rfl := Except.ok.inj hv
  -- the element itself makes the trimmed name known
  have hknown : target.trim ∈ (corpusOf (sources.map Source.content)).inside.names :=
    mem_names_corpusOf_iff.2 ⟨e, he, .inl ⟨⟨target, htarget, rfl⟩, hblank⟩⟩
  obtain ⟨entry, hentry⟩ := Option.isSome_iff_exists.1 (VarMap.mem_names_iff.1 hknown)
  refine ⟨entry, hentry, fun x => ?_, ?_, sees_get? _ htarget⟩
  · rw [← holds_corpusOf_iff]
    constructor
    · exact fun hx => ⟨entry, hentry, hx⟩
    · rintro ⟨s, hs, hx⟩
      obtain rfl := Option.some.inj (hs.symm.trans hentry)
      exact hx
  -- the raw name is looked up: it is found if it has no margins, and else it is in no
  -- map
  · split
    · next htrim => rw [← htrim, hentry]
    · next htrim => exact get?_of_trim_ne htrim

/-! ## §4. A template and its patch. -/

/-- A template that sets a variable. -/
def settingBase : Text := "<t t-name='a'><t t-set='x'/></t>".toList

/-- A patch of the template `target`, `clause` being what its selector looks
for.  The target is written as it stands, blanks included, which is what the
lookup depends on. -/
def settingPatch (target clause : String) : Text :=
  "<t t-name='p' t-inherit='".toList ++ target.toList ++ "'><xpath expr=\"//t[@t-if='".toList ++
    clause.toList ++ "']\"/></t>".toList

/-- The files of the template and of a patch of `target`. -/
def settingFiles (target : String) : List Source :=
  [⟨"a.xml".toList, settingBase⟩, ⟨"p.xml".toList, settingPatch target "x and y"⟩]

/-- A text that is read, with an element that passes a test; so the samples
below find their elements by evaluation. -/
theorem exists_of_any_read {content : Text} {p : Element → Bool}
    (h : (readDocument content defaultUrl).toOption.any (fun d => d.elements.any p) = true) :
    ∃ d, readDocument content defaultUrl = .ok d ∧ ∃ e ∈ d.elements, p e = true := by
  cases hd : readDocument content defaultUrl with
  | error err =>
    rw [hd] at h
    cases h
  | ok d =>
    rw [hd] at h
    exact ⟨d, rfl, List.any_eq_true.1 h⟩

/-- The patch names its template without margins, and finds the variable. -/
theorem exists_entry_of_inherit_sample :
    ∃ v entry, (aggregateSources (settingFiles "a")).outcome = .ok v ∧
      v.inside.get? "a".toList = some entry ∧ "x".toList ∈ entry := by
  -- the patch is the first element of its file, and the template that of its own
  obtain ⟨hpatch, hbase⟩ :
      (readDocument (settingPatch "a" "x and y") defaultUrl).toOption.any (fun d =>
        d.elements.any fun e => e.tag.get? inheritAttr = some "a".toList) = true ∧
      (readDocument settingBase defaultUrl).toOption.any (fun d =>
        d.elements.any fun e => templateName? e.tag = some "a".toList ∧
          e.subtree.any fun f => "x".toList ∈ insideNames f.tag) = true := by
    decide +kernel
  obtain ⟨d, hd, e, he, htarget⟩ := exists_of_any_read hpatch
  obtain ⟨d', hd', f, hf, hp⟩ := exists_of_any_read hbase
  obtain ⟨hname, hsub⟩ := of_decide_eq_true hp
  obtain ⟨g, hg, hx⟩ := List.any_eq_true.1 hsub
  have htrim : Text.trim "a".toList = "a".toList := by decide
  obtain ⟨entry, hentry, hmem, -, -⟩ := exists_entry_of_inherit
    (outcome_aggregateSources (settingFiles "a")) ⟨_, by simp [settingFiles], d, hd, he⟩
    (of_decide_eq_true htarget) (by decide)
  refine ⟨_, entry, outcome_aggregateSources _, htrim ▸ hentry, (hmem _).2 ⟨f, ?_, ?_, g, hg, ?_⟩⟩
  · exact ⟨_, by simp [settingFiles], d', hd', hf⟩
  · exact templateName?_eq_some_iff.1 (hname.trans (congrArg some htrim.symm))
  · exact mem_insideNames_iff.1 (of_decide_eq_true hx)

/-- The patch names its template with margins, and does not find it: its
selector is qualified as if the template bound nothing, and left alone where
only selectors of known templates are qualified. -/
theorem lookup_misses :
    ∃ v, (aggregateSources (settingFiles " a ")).outcome = .ok v ∧
      v.inside.get? "a".toList = some (NameSet.ofList ["x".toList]) ∧
      v.inside.get? " a ".toList = none ∧
      (∃ d, readDocument (settingPatch " a " "x and y") defaultUrl = .ok d ∧
        ∃ e ∈ d.elements, e.tag.get? inheritAttr = some " a ".toList) ∧
      (qualifyText v (settingPatch " a " "x and y")).outcome =
        .ok (settingPatch " a " "this.x and this.y") ∧
      (qualifyTextSelectors v.inside (settingPatch " a " "x and y")).outcome =
        .ok (settingPatch " a " "x and y") := by
  have hpatch : (readDocument (settingPatch " a " "x and y") defaultUrl).toOption.any (fun d =>
      d.elements.any fun e => e.tag.get? inheritAttr = some " a ".toList) = true := by
    decide +kernel
  obtain ⟨d, hd, e, he, htarget⟩ := exists_of_any_read hpatch
  exact ⟨_, outcome_aggregateSources _, by decide +kernel, by decide +kernel,
    ⟨d, hd, e, he, of_decide_eq_true htarget⟩, by decide +kernel, by decide +kernel⟩

end QwebReceiver.Batch
