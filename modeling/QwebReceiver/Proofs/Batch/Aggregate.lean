import QwebReceiver.Batch.Run
import QwebReceiver.Proofs.Template.Corpus
import QwebReceiver.Template.CorpusFileReading

/-!
  QwebReceiver.Proofs.Batch.Aggregate — the variables of many files.

  A file adds its own maps to those of a corpus, or nothing if it is no
  document.  So the maps of some files are the least upper bound of the files'
  own maps (`isLUB_corpusOf`), and depend on which contents there are and on
  nothing else: not on their order, not on how often a content occurs, not on
  whether the maps of some of the files went through a corpus file
  (`aggregateSources_of_contents`).
-/

namespace QwebReceiver.Batch

open QwebReceiver.Template

/-! ## §1. The maps of some files. -/

/-- Adds the variables of a text that is a document; a text that is none adds
nothing. -/
def gatherText (v : CorpusVars) (content : Text) : CorpusVars :=
  match readDocument content defaultUrl with
  | .ok d => v.aggregate d
  | .error _ => v

/-- The variables of some texts, added to empty maps from the first text to the
last. -/
def corpusOf (contents : List Text) : CorpusVars := contents.foldl gatherText {}

/-- Adding the variables of a file does not fail; a file that is no document
only leaves a warning. -/
theorem outcome_gather (v : CorpusVars) (s : Source) :
    (gather v s).outcome = .ok (gatherText v s.content) := by
  unfold gather aggregateText gatherText
  cases readDocument s.content defaultUrl with
  | error e => rfl
  | ok d => rfl

/-- Adding the variables of many files, with the notes left out, is a fold over
their contents. -/
theorem outcome_foldlM_gather (sources : List Source) (v : CorpusVars) :
    (sources.foldlM gather v).outcome = .ok ((sources.map Source.content).foldl gatherText v) := by
  induction sources generalizing v with
  | nil => rfl
  | cons s sources ih =>
    rw [List.foldlM_cons, Traced.outcome_bind, outcome_gather]
    exact ih (gatherText v s.content)

/-- Gathering the variables of files does not fail. -/
theorem outcome_aggregateSources (sources : List Source) :
    (aggregateSources sources).outcome = .ok (corpusOf (sources.map Source.content)) := by
  unfold aggregateSources
  rw [Traced.outcome_bind, outcome_foldlM_gather]
  rfl

/-- The variables of a run are those of its files, with those of its corpus
file merged into them; only a corpus file that cannot be loaded makes it fail. -/
theorem outcome_corpusVars (t : Files.FileTree) (o : Options) (sources : List Source) :
    (corpusVars t o sources).outcome =
      match o.vars with
      | none => .ok (corpusOf (sources.map Source.content))
      | some p => (loadVars t p).map (corpusOf (sources.map Source.content)).merge := by
  unfold corpusVars
  rw [Traced.outcome_bind, outcome_aggregateSources]
  cases o.vars with
  | none => rfl
  | some p => rfl

/-! ## §2. The least upper bound. -/

/-- The maps that each of some texts has for itself.  A text that is no document
has none and drops out, so the set is what the aggregate is the least upper
bound of. -/
def ownVars (contents : List Text) : Set CorpusVars :=
  {u | ∃ c ∈ contents, ∃ d, readDocument c defaultUrl = .ok d ∧ u = ({} : CorpusVars).aggregate d}

theorem ownVars_congr {fs gs : List Text} (h : ∀ c, c ∈ fs ↔ c ∈ gs) : ownVars fs = ownVars gs := by
  unfold ownVars
  simp only [h]

/-- Maps that hold what is there and what the text adds hold the maps with the
text. -/
theorem gatherText_le {v u : CorpusVars} {content : Text} (hv : v ≤ u)
    (h : ∀ d, readDocument content defaultUrl = .ok d → ({} : CorpusVars).aggregate d ≤ u) :
    gatherText v content ≤ u := by
  unfold gatherText
  cases hread : readDocument content defaultUrl with
  | error e => exact hv
  | ok d =>
    show v.aggregate d ≤ u
    rw [CorpusVars.aggregate_eq_merge]
    exact CorpusVars.merge_le hv (h d hread)

/-- Adding a text takes nothing away. -/
theorem le_gatherText (v : CorpusVars) (content : Text) : v ≤ gatherText v content := by
  unfold gatherText
  cases readDocument content defaultUrl with
  | error e => exact le_refl v
  | ok d =>
    show v ≤ v.aggregate d
    rw [CorpusVars.aggregate_eq_merge]
    exact CorpusVars.le_merge_left v _

/-- **The maps of some texts are the least that hold what each text adds.**  A
least upper bound does not know in which order its members came, and that is how
the order of the files drops out. -/
theorem isLUB_corpusOf (contents : List Text) : IsLUB (ownVars contents) (corpusOf contents) := by
  -- each text is added to the maps of those before it
  have hlub : ∀ v : CorpusVars,
      IsLUB (insert v (ownVars contents)) (contents.foldl gatherText v) := by
    induction contents with
    | nil =>
      intro v
      have hnone : ownVars [] = ∅ := by
        ext u
        simp [ownVars]
      rw [hnone, insert_empty_eq]
      exact isLUB_singleton
    | cons c contents ih =>
      intro v
      rw [List.foldl_cons]
      have hrest := ih (gatherText v c)
      constructor
      · rintro u (rfl | ⟨c', hc', d, hd, rfl⟩)
        · exact (le_gatherText u c).trans (hrest.1 (Set.mem_insert _ _))
        · rcases List.mem_cons.1 hc' with rfl | hc'
          · refine le_trans ?_ (hrest.1 (Set.mem_insert _ _))
            rw [gatherText, hd]
            show _ ≤ v.aggregate d
            rw [CorpusVars.aggregate_eq_merge v]
            exact CorpusVars.le_merge_right v _
          · exact hrest.1 (Set.mem_insert_of_mem _ ⟨c', hc', d, hd, rfl⟩)
      · intro u hu
        refine hrest.2 ?_
        rintro x (rfl | ⟨c', hc', d, hd, rfl⟩)
        · refine gatherText_le (hu (Set.mem_insert _ _)) ?_
          intro d hd
          exact hu (Set.mem_insert_of_mem _ ⟨c, List.mem_cons_self, d, hd, rfl⟩)
        · exact hu (Set.mem_insert_of_mem _ ⟨c', List.mem_cons_of_mem c hc', d, hd, rfl⟩)
  constructor
  · intro u hu
    exact (hlub {}).1 (Set.mem_insert_of_mem _ hu)
  · intro u hu
    refine (hlub {}).2 ?_
    rintro x (rfl | hx)
    · exact CorpusVars.empty_le u
    · exact hu hx

/-- Texts of which there are the same have maps that agree, as both are the
least upper bound of the same maps. -/
theorem corpusOf_agrees {fs gs : List Text} (h : ∀ c, c ∈ fs ↔ c ∈ gs) :
    (corpusOf fs).Agrees (corpusOf gs) := by
  have hfs := isLUB_corpusOf fs
  have hgs := isLUB_corpusOf gs
  rw [ownVars_congr h] at hfs
  exact CorpusVars.agrees_iff.2 ⟨hfs.2 hgs.1, hgs.2 hfs.1⟩

/-- Maps of some of the texts may be merged into those of the others; a text may
be on both sides. -/
theorem merge_corpusOf_agrees {fs as bs : List Text} (h : ∀ c, c ∈ fs ↔ c ∈ as ∨ c ∈ bs) :
    ((corpusOf bs).merge (corpusOf as)).Agrees (corpusOf fs) := by
  refine CorpusVars.agrees_iff.2 ⟨CorpusVars.merge_le ?_ ?_, (isLUB_corpusOf fs).2 ?_⟩
  · refine (isLUB_corpusOf bs).2 ?_
    rintro u ⟨c, hc, d, hd, rfl⟩
    exact (isLUB_corpusOf fs).1 ⟨c, (h c).2 (.inr hc), d, hd, rfl⟩
  · refine (isLUB_corpusOf as).2 ?_
    rintro u ⟨c, hc, d, hd, rfl⟩
    exact (isLUB_corpusOf fs).1 ⟨c, (h c).2 (.inl hc), d, hd, rfl⟩
  · rintro u ⟨c, hc, d, hd, rfl⟩
    rcases (h c).1 hc with hc | hc
    · exact ((isLUB_corpusOf as).1 ⟨c, hc, d, hd, rfl⟩).trans (CorpusVars.le_merge_right _ _)
    · exact ((isLUB_corpusOf bs).1 ⟨c, hc, d, hd, rfl⟩).trans (CorpusVars.le_merge_left _ _)

/-! ## §3. Texts that are no documents. -/

/-- Whether a text can be read as a document. -/
def isDocument (content : Text) : Bool := (readDocument content defaultUrl).isOk

/-- A text that is no document leaves the maps as they are. -/
theorem gatherText_of_not_isDocument {content : Text} (h : isDocument content = false)
    (v : CorpusVars) : gatherText v content = v := by
  unfold isDocument at h
  unfold gatherText
  cases hread : readDocument content defaultUrl with
  | error e => rfl
  | ok d =>
    rw [hread] at h
    cases h

/-- Only documents count: without the other texts the maps are equal, entry by
entry. -/
theorem corpusOf_filter (contents : List Text) :
    corpusOf (contents.filter isDocument) = corpusOf contents := by
  unfold corpusOf
  generalize ({} : CorpusVars) = v
  induction contents generalizing v with
  | nil => rfl
  | cons c contents ih =>
    by_cases hc : isDocument c = true
    · rw [List.filter_cons_of_pos hc, List.foldl_cons, List.foldl_cons, ih]
    · rw [List.filter_cons_of_neg hc, List.foldl_cons, ih,
        gatherText_of_not_isDocument (Bool.not_eq_true _ ▸ hc)]

/-! ## §4. Gathering. -/

/-- **The maps of some files depend on which contents there are.**  Files with
the same contents, in whatever order and however often, have maps that read the
same, and against them every text is qualified in the same way; files that are
no documents may be left out; maps that were written to a corpus file and read
back may be merged into those of the other files.  A document adds its own
maps, also as to the order of the entries. -/
theorem aggregateSources_of_contents :
    (∀ fs gs : List Source, (∀ c, c ∈ fs.map Source.content ↔ c ∈ gs.map Source.content) →
      ∃ v w, (aggregateSources fs).outcome = .ok v ∧ (aggregateSources gs).outcome = .ok w ∧
        v.Agrees w ∧ ∀ content, qualifyText v content = qualifyText w content) ∧
    (∀ fs : List Source, (aggregateSources (fs.filter fun s => isDocument s.content)).outcome =
      (aggregateSources fs).outcome) ∧
    (∀ fs as bs : List Source,
      (∀ c, c ∈ fs.map Source.content ↔
        c ∈ as.map Source.content ∨ c ∈ bs.map Source.content) →
      ∃ v a b read, (aggregateSources fs).outcome = .ok v ∧ (aggregateSources as).outcome = .ok a ∧
        (aggregateSources bs).outcome = .ok b ∧ CorpusVars.ofJson a.toJson = .ok read ∧
        (b.merge read).Agrees v) ∧
    ∀ (v : CorpusVars) (d : Markup.Document),
      v.aggregate d = v.merge (({} : CorpusVars).aggregate d) := by
  refine ⟨?_, ?_, ?_, CorpusVars.aggregate_eq_merge⟩
  -- order and repetition: gathering is a least upper bound of what each text has
  · intro fs gs h
    have hagrees := corpusOf_agrees h
    exact ⟨_, _, outcome_aggregateSources fs, outcome_aggregateSources gs, hagrees,
      qualifyText_congr hagrees⟩
  · intro fs
    have hfilter : (fs.filter fun s => isDocument s.content).map Source.content =
        (fs.map Source.content).filter isDocument := by
      rw [List.filter_map]
      rfl
    rw [outcome_aggregateSources, outcome_aggregateSources, hfilter, corpusOf_filter]
  -- a split corpus: one half goes through its file and is merged into the other
  · intro fs as bs h
    exact ⟨_, _, _, _, outcome_aggregateSources fs, outcome_aggregateSources as,
      outcome_aggregateSources bs, CorpusVars.ofJson_toJson _, merge_corpusOf_agrees h⟩

/-- A call in one file and the template that it calls in the other.  What the
call sets is known to the template only if both files are gathered. -/
def callSample : List Source :=
  [⟨"a.xml".toList, "<t t-call='p'><t t-set='v'/></t>".toList⟩,
    ⟨"b.xml".toList, "<t t-name='p' t-esc='v + w'/>".toList⟩]

/-- The template sees what the call sets, wherever the call stands, and also if
the maps of the call come from a corpus file. -/
theorem aggregateSources_of_contents_sample :
    (∀ c, c ∈ callSample.map Source.content ↔
      c ∈ (callSample.reverse ++ callSample).map Source.content) ∧
    (∃ v w, (aggregateSources callSample).outcome = .ok v ∧
      (aggregateSources (callSample.reverse ++ callSample)).outcome = .ok w ∧ v.Agrees w ∧
      v.outside.get? "p".toList = some (NameSet.ofList ["v".toList]) ∧
      (qualifyText w "<t t-name='p' t-esc='v + w'/>".toList).outcome =
        .ok "<t t-name='p' t-esc='v + this.w'/>".toList) ∧
    ∃ v a b read, (aggregateSources callSample).outcome = .ok v ∧
      (aggregateSources (callSample.take 1)).outcome = .ok a ∧
      (aggregateSources (callSample.drop 1)).outcome = .ok b ∧
      CorpusVars.ofJson a.toJson = .ok read ∧ (b.merge read).Agrees v := by
  obtain ⟨hsame, -, hsplit, -⟩ := aggregateSources_of_contents
  have hcontents : ∀ c, c ∈ callSample.map Source.content ↔
      c ∈ (callSample.reverse ++ callSample).map Source.content := by
    intro c
    simp
  refine ⟨hcontents, ?_, ?_⟩
  · obtain ⟨v, w, hv, hw, hagrees, hqualify⟩ := hsame _ _ hcontents
    obtain rfl := Except.ok.inj ((outcome_aggregateSources callSample).symm.trans hv)
    refine ⟨_, w, hv, hw, hagrees, by decide +kernel, ?_⟩
    rw [← hqualify]
    decide +kernel
  -- the two halves of the list are the list
  · refine hsplit callSample _ _ ?_
    intro c
    rw [← List.mem_append, ← List.map_append, List.take_append_drop]

end QwebReceiver.Batch
