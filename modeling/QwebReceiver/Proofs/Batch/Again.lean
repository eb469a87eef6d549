import QwebReceiver.Proofs.Batch.Aggregate
import QwebReceiver.Proofs.Batch.Run
import QwebReceiver.Proofs.Template.Gathering

/-!
  QwebReceiver.Proofs.Batch.Again — upgrading twice.

  A second run gathers its variables from files that the first one has changed.
  It comes to maps that differ from the first ones only in entries for names
  that hold expressions (`near_corpusOf`), and no template has such a name.  So
  each text is qualified as before (`qualifyText_rewrite`), and the second run
  reports the failures of the first, and no changes (`upgrade_again`).

  The corpus file that a run is given must not be one of the files that the
  run changes: `upgrade_again_varies` is a corpus file that is a template too.
-/

namespace QwebReceiver.Batch

open QwebReceiver.Files QwebReceiver.Template QwebReceiver.Markup
open FileTree

/-! ## §1. Corpora that differ in names with expressions. -/

/-- A text whose templates have names without expressions, and in which no
`template` element names a component. -/
def isRegular (content : Text) : Bool :=
  match readDocument content defaultUrl with
  | .error _ => true
  | .ok d => d.elements.all fun e =>
      ((e.tag.get? nameAttr).all fun name => !Expr.opens name) &&
        !(e.tag.name = "template".toList && e.tag.has componentAttr)

/-- Reading a text as a document is parsing it under the default name; only the
errors are put in another form. -/
theorem readDocument_eq_ok_iff {content : Text} {d : Document} :
    readDocument content defaultUrl = .ok d ↔ Document.parse ⟨content, defaultUrl⟩ = .ok d := by
  unfold readDocument
  cases Document.parse ⟨content, defaultUrl⟩ with
  | error problems => simp
  | ok d' => simp

/-- What `isRegular` says of a text, for each element of the document that the
text is read as. -/
theorem regular_of_readDocument {content : Text} {d : Document} (h : isRegular content = true)
    (hd : readDocument content defaultUrl = .ok d) {e : Element} (he : e ∈ d.elements) :
    (∀ name, e.tag.get? nameAttr = some name → Expr.opens name = false) ∧
      (e.tag.name = "template".toList → e.tag.has componentAttr = false) := by
  rw [isRegular, hd] at h
  have hboth := List.all_eq_true.1 h e he
  rw [Bool.and_eq_true] at hboth
  constructor
  · intro name hname
    simpa [hname] using hboth.1
  · intro hname
    simpa [hname] using hboth.2

/-- The first corpus differs from the second at most in the entries of calls for
names that hold expressions. -/
structure Near (v w : CorpusVars) : Prop where
  outside : SameClosed v.outside w.outside
  inside : v.inside = w.inside

section Near

variable {v w : CorpusVars} {d d' : Document}

/-- Every corpus is near itself; this is where gathering starts from. -/
theorem Near.refl (v : CorpusVars) : Near v v := ⟨fun _ _ => rfl, rfl⟩

/-- Corpora that are near stay so when the same maps are merged into both, which
is what a corpus file does to the maps of the two runs. -/
theorem Near.merge (h : Near v w) (u : CorpusVars) : Near (v.merge u) (w.merge u) := by
  constructor
  · intro name hname
    show (v.outside.merge u.outside).get? name = (w.outside.merge u.outside).get? name
    rw [VarMap.get?_merge, VarMap.get?_merge, h.outside name hname]
  · show v.inside.merge u.inside = w.inside.merge u.inside
    rw [h.inside]

/-- Corpora that are near stay so when a document is added to one and its
rewritten form to the other.  Only a component in a `template` element could
make a difference to the inner map, and that is excluded. -/
theorem Near.aggregate (h : Near v w) (hd : List.Forall₂ SteadyElement d.elements d'.elements)
    (hcomponent : ∀ e ∈ d.elements, e.tag.name = "template".toList → e.tag.has componentAttr = false) :
    Near (v.aggregate d') (w.aggregate d) := by
  constructor
  · exact addCalls_of_steady hd h.outside
  · show addTemplates v.inside d' = addTemplates w.inside d
    rw [h.inside, addTemplates_of_steady hd hcomponent]

/-- An element is a steady form of itself; needed for texts that were not
changed. -/
theorem steadyElement_refl (e : Element) : SteadyElement e e :=
  List.forall₂_same.2 fun x _ => Steady.refl x.tag

end Near

/-! ## §2. Texts after a run. -/

/-- What a run makes of a text: what it is qualified to, or the text itself if
it cannot be qualified, since a file that fails keeps its content. -/
def rewrite (vars : CorpusVars) (content : Text) : Text :=
  match (qualifyText vars content).outcome with
  | .ok out => out
  | .error _ => content

section Rewrite

variable {v w vars : CorpusVars} {content : Text}

/-- What is gathered from a text that was rewritten, if it is gathered into
corpora that are near. -/
theorem Near.gatherText (h : Near v w) (hregular : isRegular content = true) :
    Near (gatherText v (rewrite vars content)) (gatherText w content) := by
  have hsame : Near (Batch.gatherText v content) (Batch.gatherText w content) := by
    unfold Batch.gatherText
    cases hread : readDocument content defaultUrl with
    | error e => exact h
    | ok d =>
      show Near (v.aggregate d) (w.aggregate d)
      refine h.aggregate (List.forall₂_same.2 fun e _ => steadyElement_refl e) ?_
      exact fun e he => (regular_of_readDocument hregular hread he).2
  unfold rewrite
  cases hout : (qualifyText vars content).outcome with
  | error e => exact hsame
  | ok out =>
    -- the new text is another document, from which the same is gathered
    obtain ⟨d, d₂, hparse, hparse₂, hsteady, -⟩ := steady_of_qualifyText hout
    rw [← readDocument_eq_ok_iff] at hparse hparse₂
    simp only [Batch.gatherText, hparse, hparse₂]
    exact h.aggregate hsteady fun e he => (regular_of_readDocument hregular hparse he).2

/-- **The maps of rewritten texts** are those of the texts, but for names that
hold expressions. -/
theorem near_corpusOf (vars : CorpusVars) {contents : List Text}
    (hregular : ∀ c ∈ contents, isRegular c = true) :
    Near (corpusOf (contents.map (rewrite vars))) (corpusOf contents) := by
  have hfold : ∀ v w, Near v w →
      Near ((contents.map (rewrite vars)).foldl gatherText v) (contents.foldl gatherText w) := by
    induction contents with
    | nil => exact fun _ _ h => h
    | cons c contents ih =>
      obtain ⟨hc, hrest⟩ := List.forall_mem_cons.1 hregular
      exact fun v w h => ih hrest _ _ (h.gatherText hc)
  exact hfold {} {} (Near.refl {})

/-- A document with regular names reads both corpora alike: it looks up calls
only by the names of its templates, and none of these holds an expression. -/
theorem Near.qualifyDocument_eq {d : Document} (h : Near v w)
    (hnames : ∀ e ∈ d.elements, ∀ name, e.tag.get? nameAttr = some name → Expr.opens name = false) :
    qualifyDocument v d = qualifyDocument w d := by
  refine qualifyDocument_congr (fun name => by rw [h.inside]) ?_
  intro n hn e he name hname
  exact h.outside name (hnames e (Node.descendants_subset hn he) name hname)

/-- **To qualify a rewritten text** comes to what it came to before, against all
corpora that are near. -/
theorem qualifyText_rewrite (h : Near v vars) (hregular : isRegular content = true) :
    (qualifyText v (rewrite vars content)).outcome = (qualifyText vars content).outcome := by
  unfold rewrite
  cases hout : (qualifyText vars content).outcome with
  | error e =>
    -- the text is as it was, and fails in the same way
    show (qualifyText v content).outcome = .error e
    rw [← hout, qualifyText, qualifyText, editText, editText]
    cases hread : readDocument content defaultUrl with
    | error e => rfl
    | ok d =>
      have hsame := h.qualifyDocument_eq fun e he => (regular_of_readDocument hregular hread he).1
      simp only [hsame]
  | ok out =>
    -- the new text has nothing left to qualify, and its templates have the old names
    obtain ⟨d, d₂, hparse, hparse₂, hsteady, hstays⟩ := steady_of_qualifyText hout
    rw [← readDocument_eq_ok_iff] at hparse
    have hnames : ∀ e ∈ d₂.elements, ∀ name, e.tag.get? nameAttr = some name →
        Expr.opens name = false := by
      intro e₂ he₂ name hname
      obtain ⟨i, hi⟩ := List.getElem?_of_mem he₂
      obtain ⟨e, he, hee₂⟩ : ∃ e, d.elements[i]? = some e ∧ SteadyElement e e₂ :=
        forall₂_getElem? hsteady.flip hi
      have hsame := hee₂.tag.get?_gathered (show nameAttr ∈ gatheredAttrs by decide)
      exact (regular_of_readDocument hregular hparse (List.mem_of_getElem? he)).1 name
        (hsame.symm.trans hname)
    refine editText_eq_ok_iff.2 ⟨d₂, hparse₂, ?_⟩
    rw [h.qualifyDocument_eq hnames, hstays.value]
    exact ⟨hstays.failure, render_of_parse hparse₂⟩

end Rewrite

/-! ## §3. Files after a run. -/

section Files

variable {t u : FileTree} {vars v : CorpusVars} {paths : List Path} {p : Path}

/-- The paths of a run depend on the shape of the tree, and not on what the
files hold. -/
theorem collect_of_sameShape (h : SameShape t u) (c : Config) (roots : List Path) :
    collect u c roots = collect t c roots := by
  have hpattern : searchPattern u = searchPattern t := by
    funext root pattern
    have hfile : u.isFile = t.isFile := funext h.isFile_eq
    unfold searchPattern
    rw [h.paths_eq, hfile]
  have hroot : searchRoot u c = searchRoot t c := by
    funext root
    unfold searchRoot
    rw [h.isFile_eq, h.isDirectory_eq, hpattern]
  unfold collect
  rw [hroot]

/-- Every file of a run holds what the run made of its text, provided that all
that was to be written could be. -/
theorem readText?_apply
    (hwritable : ∀ x ∈ (reported false t (qualifyText vars) paths).failed, x.2 ≠ .unwritable)
    (hp : p ∈ paths) :
    ((reported false t (qualifyText vars) paths).apply t).readText? p =
      (t.readText? p).map (rewrite vars) := by
  have hsettled := settled_eq_verdict hwritable hp
  have hkept : (∀ s, verdict t (qualifyText vars) p ≠ .changed s) →
      ((reported false t (qualifyText vars) paths).apply t).readText? p = t.readText? p := by
    intro hne
    rw [readText?, readText?, read?_apply_of_not_changed fun s hs => hne s (hsettled.symm.trans hs)]
  -- a file that was not read, could not be qualified or stayed as it is was
  -- not written
  cases hread : t.readText? p with
  | none =>
    rw [hkept fun s hs => ?_, hread, Option.map_none]
    obtain ⟨old, hold, -⟩ := verdict_eq_changed_iff.1 hs
    rw [hread] at hold
    cases hold
  | some s =>
    rw [Option.map_some, rewrite]
    cases hout : (qualifyText vars s).outcome with
    | error e =>
      rw [hkept fun new hnew => ?_, hread]
      obtain ⟨old, hold, hnew, -⟩ := verdict_eq_changed_iff.1 hnew
      obtain rfl := Option.some.inj (hread.symm.trans hold)
      rw [hout] at hnew
      cases hnew
    | ok out =>
      by_cases hsame : out = s
      · rw [hkept fun new hnew => ?_, hread, hsame]
        obtain ⟨old, hold, hnew, hne⟩ := verdict_eq_changed_iff.1 hnew
        obtain rfl := Option.some.inj (hread.symm.trans hold)
        exact hne ((Except.ok.inj (hout.symm.trans hnew)).symm.trans hsame)
      · -- only here was something written
        have hverdict := verdict_eq_changed_iff.2 ⟨s, hread, hout, hsame⟩
        have hmem : (p, Outcome.changed out) ∈ (reported false t (qualifyText vars) paths).outcomes :=
          mem_reported.2 ⟨hp, (hsettled.trans hverdict).symm⟩
        obtain ⟨place, hplace, -⟩ := exists_file_of_readText? hread
        exact readText?_of_resolve? ((sameShape_apply.resolve?_eq p).trans hplace)
          (entryAt?_apply hmem hplace)

/-- The readable files of a run, after it: the same paths in the same order,
each with the rewritten content. -/
theorem readable_of_rewrite (h : ∀ p ∈ paths, u.readText? p = (t.readText? p).map (rewrite vars)) :
    readable u paths = (readable t paths).map fun s => ⟨s.path, rewrite vars s.content⟩ := by
  unfold readable
  rw [List.map_filterMap]
  refine List.filterMap_congr fun p hp => ?_
  rw [h p hp]
  cases t.readText? p with
  | none => rfl
  | some s => rfl

/-- What becomes of an outcome when the run is made once more on the tree it
left.  A file that was changed is unchanged now, and every other outcome is as
it was. -/
def Outcome.again : Outcome → Outcome
  | .changed _ => .unchanged
  | o => o

/-- A file that was changed holds what it is qualified to, so it does not change
again. -/
@[simp] theorem again_changed (s : Text) : (Outcome.changed s).again = .unchanged := rfl

@[simp] theorem again_unchanged : Outcome.unchanged.again = .unchanged := rfl

/-- A file that failed is as it was, and fails again for the same cause. -/
@[simp] theorem again_failed (cause : Failure) : (Outcome.failed cause).again = .failed cause := rfl

/-- The verdict on a file that holds what a run made of its text, against a
corpus that is near the one of that run. -/
theorem verdict_again (hread : u.readText? p = (t.readText? p).map (rewrite vars)) (hv : Near v vars)
    (hregular : ∀ s, t.readText? p = some s → isRegular s = true) :
    verdict u (qualifyText v) p = (verdict t (qualifyText vars) p).again := by
  unfold verdict
  rw [hread]
  cases hs : t.readText? p with
  | none => rfl
  | some s =>
    rw [Option.map_some]
    simp only [qualifyText_rewrite hv (hregular s hs)]
    cases hout : (qualifyText vars s).outcome with
    | error e => rfl
    | ok out =>
      have hrewrite : rewrite vars s = out := by rw [rewrite, hout]
      simp only [Outcome.ofResult, hrewrite, if_true]
      split <;> rfl

/-- The report on files that hold what a run made of their texts lists the same
files in the same order. -/
theorem reported_again (hv : Near v vars)
    (hregular : ∀ s ∈ readable t paths, isRegular s.content = true)
    (hread : ∀ p ∈ paths, u.readText? p = (t.readText? p).map (rewrite vars))
    (hwritable : ∀ x ∈ (reported false t (qualifyText vars) paths).failed, x.2 ≠ .unwritable) :
    (reported false u (qualifyText v) paths).outcomes =
      (reported false t (qualifyText vars) paths).outcomes.map fun x => (x.1, x.2.again) := by
  have hsettled : ∀ p ∈ paths, settled false u (qualifyText v) p =
      (settled false t (qualifyText vars) p).again := by
    intro p hp
    have hverdict : verdict u (qualifyText v) p = (verdict t (qualifyText vars) p).again := by
      refine verdict_again (hread p hp) hv fun s hs => ?_
      exact hregular ⟨p, s⟩ (List.mem_filterMap.2 ⟨p, hp, by rw [hs]; rfl⟩)
    rw [settled_eq_verdict hwritable hp, settled, hverdict]
    cases verdict t (qualifyText vars) p <;> rfl
  -- the same files can be read, so the report lists the files in the same order
  have hnone : ∀ p ∈ paths, (u.readText? p).isNone = (t.readText? p).isNone := by
    intro p hp
    rw [hread p hp, Option.isNone_map]
  have hsome : ∀ p ∈ paths, (u.readText? p).isSome = (t.readText? p).isSome := by
    intro p hp
    rw [hread p hp, Option.isSome_map]
  unfold reported unreadable
  rw [List.map_map, List.filter_congr hnone, List.filter_congr hsome]
  refine List.map_congr_left fun p hp => ?_
  have hp : p ∈ paths := by
    rcases List.mem_append.1 hp with hp | hp
    · exact (List.mem_filter.1 hp).1
    · exact (List.mem_filter.1 hp).1
  show (p, _) = (p, _)
  rw [hsettled p hp]

/-- A report in which all that was to be changed has been: the changed files of
the first report now count as unchanged, and the failures are the same. -/
theorem report_again {r r' : Report} (h : r'.outcomes = r.outcomes.map fun x => (x.1, x.2.again)) :
    r'.changed = [] ∧ r'.unchanged = r.succeeded ∧ r'.failed = r.failed := by
  obtain ⟨outcomes⟩ := r
  obtain ⟨outcomes'⟩ := r'
  obtain rfl : outcomes' = _ := h
  unfold Report.succeeded Report.changed Report.changes Report.unchanged Report.failed
  -- each outcome adds one to the count it is of, and its repetition one to the count of
  -- unchanged files or of failed ones
  induction outcomes with
  | nil => exact ⟨rfl, rfl, rfl⟩
  | cons x l ih =>
    obtain ⟨p, o⟩ := x
    obtain ⟨hchanged, hunchanged, hfailed⟩ := ih
    simp only [List.length_map] at hunchanged
    cases o with
    | changed s =>
      refine ⟨hchanged, ?_, hfailed⟩
      simp only [List.map_cons, again_changed, List.countP_cons, List.filterMap_cons, List.length_cons,
        List.length_map, decide_true, reduceCtorEq, decide_false, Bool.false_eq_true, if_true, if_false,
        hunchanged]
      omega
    | unchanged =>
      refine ⟨hchanged, ?_, hfailed⟩
      simp only [List.map_cons, again_unchanged, List.countP_cons, List.filterMap_cons, List.length_map,
        decide_true, if_true, hunchanged]
      omega
    | failed cause =>
      refine ⟨hchanged, ?_, ?_⟩
      · simp only [List.map_cons, again_failed, List.countP_cons, List.filterMap_cons, List.length_map,
          reduceCtorEq, decide_false, Bool.false_eq_true, if_false, hunchanged]
        omega
      · simp only [List.map_cons, again_failed, List.filterMap_cons, hfailed]

end Files

/-! ## §4. Upgrading again. -/

section Again

variable {t u : FileTree} {c : Config} {o : Options} {vars : CorpusVars} {sources : List Source}
  {paths : List Path}

/-- What an upgrade comes to when its paths and variables are there: the report
on these paths, and in a real run the tree with the changes of the report. -/
theorem upgrade_of_plan (hcollect : collect t c o.roots = .ok paths)
    (hvars : (corpusVars t o (readable t paths)).outcome = .ok vars) :
    (upgrade c o).outcome t = .ok (reported o.dryRun t (qualifyText vars) paths) ∧
      (upgrade c o).after t =
        if o.dryRun then t else (reported false t (qualifyText vars) paths).apply t := by
  have hfixed : (fixTemplates t o (readable t paths)).outcome = .ok (qualifyText vars) := by
    rw [fixTemplates, Traced.outcome_bind, hvars]
    rfl
  rcases run_cases (t := t) (f := fun t => plan c o.roots (fixTemplates t o) t) o.dryRun rfl with
    ⟨e, hplan, -⟩ | ⟨paths', qualify, hcollect', hfix, -, hrun⟩
  · rw [plan_eq_ok_iff.2 ⟨paths, qualifyText vars, hcollect, hfixed, rfl⟩] at hplan
    cases hplan
  · obtain rfl := Except.ok.inj (hcollect.symm.trans hcollect')
    obtain rfl := Except.ok.inj (hfixed.symm.trans hfix)
    exact hrun

/-- An upgrade that comes to a report has collected its paths and gathered its
variables. -/
theorem exists_plan_of_upgrade {r : Report} (h : (upgrade c o).outcome t = .ok r) :
    ∃ paths vars, collect t c o.roots = .ok paths ∧
      (corpusVars t o (readable t paths)).outcome = .ok vars := by
  rcases run_cases (t := t) (f := fun t => plan c o.roots (fixTemplates t o) t) o.dryRun rfl with
    ⟨e, -, hout, -⟩ | ⟨paths, qualify, hcollect, hfix, -⟩
  · cases hout.symm.trans h
  · obtain ⟨vars, hvars, -⟩ := exists_vars_of_fixTemplates hfix
    exact ⟨paths, vars, hcollect, hvars⟩

/-- The variables that a run goes by, gathered from rewritten files: there are
some if there were before, and they are near the ones before. -/
theorem exists_near_corpusVars (w : CorpusVars) (hvars : (corpusVars t o sources).outcome = .ok vars)
    (hload : ∀ p ∈ o.vars, loadVars u p = loadVars t p)
    (hregular : ∀ s ∈ sources, isRegular s.content = true) :
    ∃ v, (corpusVars u o (sources.map fun s => ⟨s.path, rewrite w s.content⟩)).outcome = .ok v ∧
      Near v vars := by
  have hcontents : (sources.map fun s => (⟨s.path, rewrite w s.content⟩ : Source)).map Source.content =
      (sources.map Source.content).map (rewrite w) := by
    rw [List.map_map, List.map_map]
    rfl
  -- the contents are rewritten one by one, and gathering from a rewritten text gathers
  -- the same up to names that hold expressions
  have hnear := near_corpusOf w (List.forall_mem_map.2 hregular)
  rw [outcome_corpusVars] at hvars ⊢
  rw [hcontents]
  cases hp : o.vars with
  | none =>
    rw [hp] at hvars
    obtain rfl := Except.ok.inj hvars
    exact ⟨_, rfl, hnear⟩
  | some p =>
    simp only [hp] at hvars ⊢
    obtain ⟨extra, hextra, rfl⟩ := map_eq_ok_iff.1 hvars
    rw [hload p hp, hextra]
    exact ⟨_, rfl, hnear.merge extra⟩

/-- A corpus file to which no changed path leads is loaded as before. -/
theorem loadVars_apply {p : Path}
    (h : ∀ q ∈ (reported false t (qualifyText vars) paths).changed, t.resolve? q ≠ t.resolve? p) :
    loadVars ((reported false t (qualifyText vars) paths).apply t) p = loadVars t p := by
  rw [loadVars, loadVars, readText?, readText?, read?_apply h]

end Again

/-- **Upgrading twice changes nothing.**  If a run ends with a report, could
write what it had to, and did not change its own corpus file, a second run ends
with a report too: no file changes, and the same files fail for the same
causes. -/
theorem upgrade_again {t : FileTree} {c : Config} {o : Options} {r : Report}
    (h : (upgrade c o).outcome t = .ok r) (hdry : o.dryRun = false)
    (hwritable : ∀ x ∈ r.failed, x.2 ≠ .unwritable)
    (hregular : ∀ paths, collect t c o.roots = .ok paths →
      ∀ s ∈ readable t paths, isRegular s.content = true)
    (hvars : ∀ p ∈ o.vars, ∀ q ∈ r.changed, t.resolve? q ≠ t.resolve? p) :
    ∃ r', (upgrade c o).outcome ((upgrade c o).after t) = .ok r' ∧ r'.changed = [] ∧
      r'.unchanged = r.succeeded ∧ r'.failed = r.failed := by
  obtain ⟨paths, vars, hcollect, hcorpus⟩ := exists_plan_of_upgrade h
  obtain ⟨hout, hafter⟩ := upgrade_of_plan hcollect hcorpus
  rw [hdry] at hout hafter
  obtain rfl := Except.ok.inj (hout.symm.trans h)
  rw [hafter, if_neg Bool.false_ne_true]
  have hread : ∀ p ∈ paths, ((reported false t (qualifyText vars) paths).apply t).readText? p =
      (t.readText? p).map (rewrite vars) := fun p hp => readText?_apply hwritable hp
  have hcollect' : collect ((reported false t (qualifyText vars) paths).apply t) c o.roots = .ok paths :=
    (collect_of_sameShape sameShape_apply c o.roots).trans hcollect
  -- the second run has the same paths, and variables that are near
  obtain ⟨v, hcorpus', hnear⟩ := exists_near_corpusVars vars hcorpus
    (fun p hp => loadVars_apply (hvars p hp)) (hregular paths hcollect)
  rw [← readable_of_rewrite hread] at hcorpus'
  obtain ⟨hout', -⟩ := upgrade_of_plan hcollect' hcorpus'
  rw [hdry] at hout'
  exact ⟨_, hout', report_again (reported_again hnear (hregular paths hcollect) hread hwritable)⟩

/-- A call whose target is computed, the template that it may call, a text that
is no document, and a corpus file. -/
def callTree : FileTree where
  entries := [(["a.xml".toList], .file (.text "<t t-call='#\x7bx\x7d'><t t-set='v'/></t>".toList)),
    (["b.xml".toList], .file (.text "<t t-name='p' t-esc='v + w'/>".toList)),
    (["c.xml".toList], .file (.text "<t".toList)),
    (["vars.json".toList], .file (.text "\x7b\"outside_vars\": \x7b\"p\": [\"v\"]\x7d\x7d".toList))]
  ascending := by decide

/-- The second run changes nothing, although the target of the call has become
another one. -/
theorem upgrade_again_sample :
    let o : Options :=
      { roots := ["a.xml", "b.xml", "c.xml"].map String.toList, vars := some "vars.json".toList }
    ∃ r r', (upgrade {} o).outcome callTree = .ok r ∧
      r.changed = ["a.xml".toList, "b.xml".toList] ∧ r.failed.map Prod.fst = ["c.xml".toList] ∧
      ((upgrade {} o).after callTree).readText? "a.xml".toList =
        some "<t t-call='#\x7bthis.x\x7d'><t t-set='v'/></t>".toList ∧
      (upgrade {} o).outcome ((upgrade {} o).after callTree) = .ok r' ∧ r'.changed = [] ∧
      r'.unchanged = 2 ∧ r'.failed = r.failed := by
  intro o
  have hreport : ((upgrade {} o).outcome callTree).map
      (fun r => (r.changed, r.failed.map Prod.fst, r.succeeded,
        r.failed.all fun x => x.2 ≠ .unwritable)) =
      .ok (["a.xml".toList, "b.xml".toList], ["c.xml".toList], 2, true) := by decide +kernel
  obtain ⟨r, hr, hreport⟩ := map_eq_ok_iff.1 hreport
  simp only [Prod.mk.injEq] at hreport
  obtain ⟨hchanged, hfailed, hsucceeded, hwritable⟩ := hreport
  -- every file that can be read keeps its maps apart from its expressions
  have hregular : ∀ paths, collect callTree {} o.roots = .ok paths →
      ∀ s ∈ readable callTree paths, isRegular s.content = true := by
    intro paths hpaths
    have hall : (collect callTree {} o.roots).map
        (fun paths => (readable callTree paths).all fun s => isRegular s.content) = .ok true := by
      decide +kernel
    rw [hpaths] at hall
    exact List.all_eq_true.1 (Except.ok.inj hall)
  -- the file of variables is not one of those that the run writes
  have hvars : ∀ p ∈ o.vars, ∀ q ∈ r.changed, callTree.resolve? q ≠ callTree.resolve? p := by
    rw [hchanged]
    decide +kernel
  obtain ⟨r', hr', hnone, hunchanged, hsame⟩ :=
    upgrade_again hr rfl (fun x hx => by simpa using List.all_eq_true.1 hwritable x hx) hregular hvars
  exact ⟨r, r', hr, hchanged, hfailed, by decide +kernel, hr', hnone, hunchanged.trans hsucceeded, hsame⟩

/-- A corpus file that is one of the files to qualify, and a template with a name
that is an element. -/
def selfTree : FileTree where
  entries := [
    (["a.xml".toList], .file (.text "<t t-name=\"&lt;t t-if='x'/>\" t-esc=\"y\"/>".toList)),
    (["vars.xml".toList],
      .file (.text "\x7b\"outside_vars\": \x7b\"<t t-if='x'/>\": [\"y\"]\x7d\x7d".toList))]
  ascending := by decide

/-- The first run changes the corpus file, and with it a name in it; the second
run changes the template of the old name. -/
theorem upgrade_again_varies :
    let o : Options :=
      { roots := ["a.xml".toList, "vars.xml".toList], vars := some "vars.xml".toList }
    ∃ r r', (upgrade {} o).outcome selfTree = .ok r ∧ r.failed = [] ∧
      (∀ s ∈ readable selfTree o.roots, isRegular s.content = true) ∧
      collect selfTree {} o.roots = .ok o.roots ∧
      (upgrade {} o).outcome ((upgrade {} o).after selfTree) = .ok r' ∧
      r'.changed = ["a.xml".toList] := by
  intro o
  have hfirst : ((upgrade {} o).outcome selfTree).map Report.failed = .ok [] := by decide +kernel
  have hsecond : ((upgrade {} o).outcome ((upgrade {} o).after selfTree)).map Report.changed =
      .ok ["a.xml".toList] := by decide +kernel
  obtain ⟨r, hr, hfailed⟩ := map_eq_ok_iff.1 hfirst
  obtain ⟨r', hr', hchanged⟩ := map_eq_ok_iff.1 hsecond
  exact ⟨r, r', hr, hfailed, by decide +kernel, by decide +kernel, hr', hchanged⟩

end QwebReceiver.Batch
