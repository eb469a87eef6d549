import QwebReceiver.Proofs.Template.Place
import QwebReceiver.Proofs.Template.VarMap

/-!
  QwebReceiver.Proofs.Template.Corpus — what a document adds to a corpus, and
  what it takes from one.

  Main results:

    * `CorpusVars.aggregate_eq_merge` — a document adds to the maps what it
      would add to empty ones, entries in order;
    * `CorpusVars.isLUB_merge` — merging corpora is their least upper bound, in
      the order of what their maps hold;
    * `qualifyText_congr` — qualifying a text reads its corpus by name, and
      what callers set only by the names of the text's own templates.
-/

namespace QwebReceiver.Template

open QwebReceiver.Markup

/-! ## §1. Corpora by what they hold. -/

namespace CorpusVars

variable {v w : CorpusVars}

/-- The same readings of both maps.  The order of the names in a map may differ,
which no reading shows. -/
def Agrees (v w : CorpusVars) : Prop :=
  (∀ name, v.outside.get? name = w.outside.get? name) ∧
    ∀ name, v.inside.get? name = w.inside.get? name

instance : Preorder CorpusVars where
  le v w := v.outside ≤ w.outside ∧ v.inside ≤ w.inside
  le_refl v := ⟨le_refl v.outside, le_refl v.inside⟩
  le_trans _ _ _ h h' := ⟨h.1.trans h'.1, h.2.trans h'.2⟩

theorem le_def : v ≤ w ↔ v.outside ≤ w.outside ∧ v.inside ≤ w.inside := Iff.rfl

/-- Corpora that hold the same agree. -/
theorem agrees_iff : v.Agrees w ↔ v ≤ w ∧ w ≤ v := by
  rw [Agrees, ← VarMap.le_antisymm_iff_get?, ← VarMap.le_antisymm_iff_get?, le_def, le_def]
  exact and_and_and_comm

theorem empty_le (v : CorpusVars) : {} ≤ v :=
  ⟨VarMap.empty_le v.outside, VarMap.empty_le v.inside⟩

/-- Merging is the least upper bound of what two corpora hold. -/
theorem isLUB_merge (v w : CorpusVars) : IsLUB {v, w} (v.merge w) := by
  have houtside := VarMap.isLUB_merge v.outside w.outside
  have hinside := VarMap.isLUB_merge v.inside w.inside
  constructor
  · rintro u (rfl | rfl)
    · exact ⟨houtside.1 (by simp), hinside.1 (by simp)⟩
    · exact ⟨houtside.1 (by simp), hinside.1 (by simp)⟩
  · intro u hu
    have hv : v ≤ u := hu (by simp)
    have hw : w ≤ u := hu (by simp)
    refine ⟨houtside.2 ?_, hinside.2 ?_⟩
    · rintro m (rfl | rfl)
      · exact hv.1
      · exact hw.1
    · rintro m (rfl | rfl)
      · exact hv.2
      · exact hw.2

theorem le_merge_left (v w : CorpusVars) : v ≤ v.merge w := (isLUB_merge v w).1 (by simp)

/-- Merging loses nothing of what is merged. -/
theorem le_merge_right (v w : CorpusVars) : w ≤ v.merge w := (isLUB_merge v w).1 (by simp)

/-- What is above two corpora is above what they are merged to. -/
theorem merge_le {u : CorpusVars} (hv : v ≤ u) (hw : w ≤ u) : v.merge w ≤ u := by
  refine (isLUB_merge v w).2 ?_
  rintro x (rfl | rfl)
  · exact hv
  · exact hw

end CorpusVars

/-! ## §2. What a document adds. -/

/-- What a call adds may as well be added after merging. -/
theorem merge_addCall (m n : VarMap) (e : Element) :
    m.merge (addCall n e) = addCall (m.merge n) e := by
  unfold addCall
  cases e.tag.nonEmpty? callAttr with
  | none => rfl
  | some target => exact VarMap.merge_add m n target _

/-- What a template adds may as well be added after merging. -/
theorem merge_addTemplate (m n : VarMap) (e : Element) :
    m.merge (addTemplate n e) = addTemplate (m.merge n) e := by
  unfold addTemplate
  cases trimmed? e.tag inheritAttr with
  | none =>
    cases templateName? e.tag with
    | none => rfl
    | some name => exact VarMap.merge_add m n name _
  | some target =>
    -- the patched template has an entry too, made before that of the patch
    simp only [VarMap.ensure_eq_add]
    cases templateName? e.tag with
    | none => exact VarMap.merge_add m n target []
    | some name =>
      simp only
      rw [VarMap.merge_add, VarMap.merge_add]

/-- Additions that may each be made after merging may all be. -/
theorem merge_foldl {add : VarMap → Element → VarMap}
    (h : ∀ (m n : VarMap) e, m.merge (add n e) = add (m.merge n) e) (m n : VarMap) (l : List Element) :
    m.merge (l.foldl add n) = l.foldl add (m.merge n) := by
  induction l generalizing n with
  | nil => rfl
  | cons e l ih => rw [List.foldl_cons, List.foldl_cons, ih, h]

/-- **A document adds its own maps**, entries in the order in which they come
up. -/
theorem CorpusVars.aggregate_eq_merge (v : CorpusVars) (d : Document) :
    v.aggregate d = v.merge (({} : CorpusVars).aggregate d) := by
  have hcalls : v.outside.merge (addCalls ∅ d) = addCalls v.outside d :=
    merge_foldl merge_addCall v.outside ∅ d.elements
  have htemplates : v.inside.merge (addTemplates ∅ d) = addTemplates v.inside d :=
    merge_foldl merge_addTemplate v.inside ∅ d.elements
  show (⟨_, _⟩ : CorpusVars) = ⟨v.outside.merge (addCalls ∅ d), v.inside.merge (addTemplates ∅ d)⟩
  rw [hcalls, htemplates]

/-! ## §3. What a document takes. -/

section Takes

variable {v w : CorpusVars} {m n : VarMap}

/-- The patches of a template are qualified alike against maps that read the
same. -/
theorem qualifyInheriting_congr (h : ∀ name, m.get? name = n.get? name) (bound : NameSet) :
    qualifyInheriting bound m = qualifyInheriting bound n := by
  funext node
  unfold qualifyInheriting
  split
  · rfl
  · next target _ => rw [h target]

/-- A template is qualified alike against maps that read the same. -/
theorem qualifyTemplate_congr (h : ∀ name, m.get? name = n.get? name) (bound : NameSet) :
    qualifyTemplate bound m = qualifyTemplate bound n := by
  funext node
  unfold qualifyTemplate
  rw [qualifyInheriting_congr h]

/-- Two corpora say the same of what the callers set for the templates that a
node names. -/
def SameCallers (v w : CorpusVars) (n : Node) : Prop :=
  ∀ e ∈ n.descendants, ∀ name, e.tag.get? nameAttr = some name →
    v.outside.get? name = w.outside.get? name

/-- Names are not edited, so that what is said of the templates that a node
names stays said. -/
theorem SameCallers.of_edits {n m : Node} (h : SameCallers v w n) (hnm : nodeGrowth.edits n m) :
    SameCallers v w m := by
  -- edits keep the names of templates, so no other entry is asked for
  have hpairs := ((hnm none).mono marked_le_grown).descendants
  intro e' he' name hname
  obtain ⟨i, hi⟩ := List.getElem?_of_mem he'
  obtain ⟨e, he, halike⟩ := forall₂_getElem? hpairs.flip hi
  have hsame := get?_of_grown halike.1 (show nameAttr ∈ namingAttrs by decide)
  exact h e (List.mem_of_getElem? he) name (hsame.symm.trans hname)

/-- What is said of the templates that a node names is said of those below it. -/
theorem SameCallers.child {n : Node} (h : SameCallers v w n) : ∀ c ∈ n.children, SameCallers v w c := by
  intro c hc e he
  cases n with
  | element tag children close => exact h e (List.mem_cons_of_mem _ (Node.descendants_subset hc he))
  | _ => cases hc

/-- Named templates are qualified alike by corpora that say the same of them. -/
theorem qualifyNamed_congr (h : ∀ name, v.inside.get? name = w.inside.get? name) {n : Node}
    (hn : SameCallers v w n) : qualifyNamed v n = qualifyNamed w n := by
  unfold qualifyNamed
  split
  · rfl
  · next name hname =>
    cases n with
    | element tag children close =>
      have hcallers := hn ⟨tag, children, close⟩ List.mem_cons_self name hname
      simp only [hcallers, qualifyTemplate_congr h]
    | _ => cases hname

/-- A root without a name is qualified alike by maps that read the same: callers
cannot name it. -/
theorem qualifyAnonymous_congr (h : ∀ name, v.inside.get? name = w.inside.get? name) :
    qualifyAnonymous v = qualifyAnonymous w := by
  funext n
  unfold qualifyAnonymous
  cases n with
  | element tag children close => simp only [qualifyTemplate_congr h]
  | _ => rfl

/-- A document is qualified in the same way against corpora that read the same,
as far as the document reads them. -/
theorem qualifyDocument_congr (h : ∀ name, v.inside.get? name = w.inside.get? name) {d : Document}
    (hd : ∀ n ∈ d.nodes, SameCallers v w n) : qualifyDocument v d = qualifyDocument w d := by
  unfold qualifyDocument
  split
  · unfold Document.editRoots
    rw [each_congr fun n hn => ?_]
    exact visitWithin_congr (settling_qualifyNamed v) (fun _ _ => SameCallers.of_edits)
      (fun _ => SameCallers.child) (fun _ => qualifyNamed_congr h) (hd n hn) n.height
  · rw [qualifyAnonymous_congr h]

/-- **A text reads its corpus by name.**  Two corpora that agree name by name
qualify it in the same way, in whatever order their entries stand. -/
theorem qualifyText_congr (h : v.Agrees w) (content : Text) :
    qualifyText v content = qualifyText w content := by
  have hdocument : qualifyDocument v = qualifyDocument w :=
    funext fun d => qualifyDocument_congr h.2 fun n _ e _ name _ => h.1 name
  rw [qualifyText, qualifyText, hdocument]

end Takes

end QwebReceiver.Template
