import Mathlib.Data.List.Nodup
import QwebReceiver.Proofs.Batch.Aggregate
import QwebReceiver.Proofs.Files.Shape

/-!
  QwebReceiver.Proofs.Batch.Run — what a run does to its files.

  A run comes to a report in two phases.  The first only reads: it fixes how
  texts are qualified, and with that the verdict on each file, which is a
  function of the file's own content (`outcome_plan`).  The second writes file
  after file; it cannot fail as a whole, and each of its steps leaves the shape
  of the tree alone, so that the next path leads where it led before
  (`carryOut_step`, `carryOut_run`).

  From these: a run that fails writes nothing, every file is accounted for
  once, the tree changes at the changed files and nowhere else, and a dry run
  reports what a real run would (`runs_atomic`).
-/

namespace QwebReceiver.Batch

open QwebReceiver.Files QwebReceiver.Template
open FileTree

variable {t u : FileTree} {c : Config} {qualify : Text → Traced TemplateError Text} {p : Path}

/-! ## §1. Verdicts. -/

/-- What a run finds for a file, from the content of the file alone: it cannot
be read, it cannot be qualified, or it is qualified to this. -/
def verdict (t : FileTree) (qualify : Text → Traced TemplateError Text) (p : Path) : Outcome :=
  match t.readText? p with
  | none => .failed .unreadable
  | some s => .ofResult ⟨p, s⟩ (qualify s).outcome

/-- Whether a path leads to a file that cannot be written.  A path that leads
nowhere is not locked: it is not written to in the first place. -/
def locked (t : FileTree) (p : Path) : Bool := (t.resolve? p).any fun place => t.readOnly.contains place

/-- What becomes of a file for which a run has found this: to write to a locked
file fails, unless the run is a dry one and does not write at all. -/
def Outcome.settle (dryRun isLocked : Bool) : Outcome → Outcome
  | .changed s => if !dryRun && isLocked then .failed .unwritable else .changed s
  | o => o

/-- What becomes of a file in a run: the verdict on it, settled by whether it
can be written. -/
def settled (dryRun : Bool) (t : FileTree) (qualify : Text → Traced TemplateError Text) (p : Path) :
    Outcome :=
  (verdict t qualify p).settle dryRun (locked t p)

/-- A file is changed in the end if it was found to change, and the run is a dry
one or can write to it. -/
theorem Outcome.settle_eq_changed_iff {dryRun isLocked : Bool} {o : Outcome} {s : Text} :
    o.settle dryRun isLocked = .changed s ↔ o = .changed s ∧ (!dryRun && isLocked) = false := by
  cases o with
  | changed new =>
    rw [Outcome.settle]
    split
    · next h => simp [h]
    · next h => simpa using fun _ => by simpa using h
  | unchanged => simp [Outcome.settle]
  | failed cause => simp [Outcome.settle]

/-- A file is changed if it can be read, and is qualified to something else. -/
theorem verdict_eq_changed_iff {new : Text} :
    verdict t qualify p = .changed new ↔
      ∃ s, t.readText? p = some s ∧ (qualify s).outcome = .ok new ∧ new ≠ s := by
  unfold verdict
  cases t.readText? p with
  | none => simp
  | some s =>
    cases hout : (qualify s).outcome with
    | error e => simp [Outcome.ofResult, hout]
    | ok out =>
      -- a text that comes out as it went in is no change
      by_cases h : out = s
      · simpa [Outcome.ofResult, hout, h] using Eq.symm
      · simp only [Outcome.ofResult, hout, if_neg h, Outcome.changed.injEq]
        constructor
        · rintro rfl
          exact ⟨s, rfl, hout, h⟩
        · rintro ⟨s', hs, hnew, -⟩
          obtain rfl := Option.some.inj hs
          exact Except.ok.inj (hout.symm.trans hnew)

/-- Paths that lead to one place have one verdict, as it depends on the text
there. -/
theorem verdict_congr {q : Path} (h : t.resolve? p = t.resolve? q) :
    verdict t qualify p = verdict t qualify q := by
  have hread : t.readText? p = t.readText? q := by rw [readText?, readText?, read?, read?, get?, get?, h]
  unfold verdict
  rw [hread]
  rfl

/-- Paths that lead to one place are locked together. -/
theorem locked_congr {q : Path} (h : t.resolve? p = t.resolve? q) : locked t p = locked t q := by
  rw [locked, locked, h]

/-! ## §2. The plan of a run. -/

/-- A step for every member of a list comes to an end if each of the steps does. -/
theorem outcome_forM {ε α : Type} {f : α → Traced ε Unit} (h : ∀ a, (f a).outcome = .ok ())
    (l : List α) : (l.forM f).outcome = .ok () := by
  induction l with
  | nil => rfl
  | cons a l ih =>
    show ((f a) >>= fun _ => l.forM f).outcome = .ok ()
    rw [Traced.outcome_bind, h a]
    exact ih

/-- If each of the steps has a result, the results of all of them are a map over
the list. -/
theorem outcome_mapM {ε α β : Type} {f : α → Traced ε β} {g : α → β}
    (h : ∀ a, (f a).outcome = .ok (g a)) (l : List α) : (l.mapM f).outcome = .ok (l.map g) := by
  induction l with
  | nil => rfl
  | cons a l ih =>
    rw [List.mapM_cons, Traced.outcome_bind, h a]
    show (l.mapM f >>= fun bs => pure (g a :: bs)).outcome = _
    rw [Traced.outcome_bind, ih]
    rfl

/-- The plan for these paths: those that cannot be read, and the verdicts on the
others, each in the order of the paths. -/
def planned (t : FileTree) (paths : List Path) (qualify : Text → Traced TemplateError Text) : Plan :=
  ⟨(unreadable t paths).map fun p => (p, verdict t qualify p),
    (paths.filter fun p => (t.readText? p).isSome).map fun p => (p, verdict t qualify p)⟩

/-- The files that cannot be read are lost, which is also their verdict. -/
theorem lost_eq (t : FileTree) (paths : List Path) (qualify : Text → Traced TemplateError Text) :
    (unreadable t paths).map (fun p => (p, Outcome.failed .unreadable)) =
      (planned t paths qualify).lost := by
  refine List.map_congr_left fun p hp => ?_
  have hnone : t.readText? p = none := by simpa [unreadable] using (List.mem_filter.1 hp).2
  rw [verdict, hnone]

/-- What becomes of the readable files is their verdict: it is found from the
content that was read of each. -/
theorem outcomes_eq (t : FileTree) (paths : List Path) (qualify : Text → Traced TemplateError Text) :
    (readable t paths).map (fun s => (s.path, Outcome.ofResult s (qualify s.content).outcome)) =
      (planned t paths qualify).outcomes := by
  rw [readable, planned, List.map_filterMap]
  induction paths with
  | nil => rfl
  | cons p paths ih =>
    cases hread : t.readText? p with
    | none =>
      rw [List.filterMap_cons_none (by simp [hread]), List.filter_cons_of_neg (by simp [hread])]
      exact ih
    | some s =>
      have hverdict : verdict t qualify p = .ofResult ⟨p, s⟩ (qualify s).outcome := by
        rw [verdict, hread]
      rw [List.filterMap_cons_some (b := (p, verdict t qualify p)) (by simp [hread, hverdict]),
        List.filter_cons_of_pos (by simp [hread]), List.map_cons, ih]

/-- **The plan of a run**: the files are collected, what is fixed is fixed from
the readable ones as they are, and then each file has its verdict. -/
theorem outcome_plan (c : Config) (roots : List Path)
    (fix : List Source → Traced BatchError (Text → Traced TemplateError Text)) (t : FileTree) :
    (plan c roots fix t).outcome = (collect t c roots).bind fun paths =>
      (fix (readable t paths)).outcome.map fun qualify => planned t paths qualify := by
  unfold plan readSources
  simp only [Traced.outcome_bind, Traced.outcome_ofExcept, Traced.outcome_note, Traced.outcome_pure]
  cases collect t c roots with
  | error e => rfl
  | ok paths =>
    -- warnings have no outcome, so the unreadable files only show in the plan
    have hwarn : ((unreadable t paths).forM fun p => warnFailed p .unreadable).outcome = .ok () :=
      outcome_forM (fun _ => rfl) _
    simp only [Except.bind, hwarn]
    cases (fix (readable t paths)).outcome with
    | error e => rfl
    | ok qualify =>
      -- no file stops the others: each has its own result
      have heach : (qualifySources c (readable t paths) qualify).outcome = .ok ((readable t paths).map
          fun s => (s.path, Outcome.ofResult s (qualify s.content).outcome)) := by
        unfold qualifySources
        rw [Traced.outcome_bind]
        exact outcome_mapM (fun _ => rfl) _
      simp only [heach, outcomes_eq, lost_eq t paths qualify]
      rfl

/-- A plan is there if the paths were collected and what is fixed was fixed; it
is then the plan for these paths. -/
theorem plan_eq_ok_iff {c : Config} {roots : List Path} {t : FileTree} {done : Plan}
    {fix : List Source → Traced BatchError (Text → Traced TemplateError Text)} :
    (plan c roots fix t).outcome = .ok done ↔ ∃ paths qualify, collect t c roots = .ok paths ∧
      (fix (readable t paths)).outcome = .ok qualify ∧ planned t paths qualify = done := by
  rw [outcome_plan]
  exact bind_eq_ok_iff.trans (exists_congr fun paths => by rw [map_eq_ok_iff, exists_and_left])

/-! ## §3. Carrying a plan out. -/

/-- Puts what became of a file at the place where its path led to in `t`, the
tree before the run.  Only a changed file is put anywhere. -/
def putChange (t u : FileTree) (x : Path × Outcome) : FileTree :=
  match x.2, t.resolve? x.1 with
  | .changed s, some place => u.put place (.file (.text s))
  | _, _ => u

/-- A file that is to be changed is there, at the place that its path leads to
in `t`. -/
def Founded (t : FileTree) (x : Path × Outcome) : Prop :=
  ∀ s, x.2 = .changed s → ∃ place content, t.resolve? x.1 = some place ∧
    t.entryAt? place = some (.file content)

/-- What was read as a text is a text file, at the place that its path leads to. -/
theorem exists_file_of_readText? {s : Text} (h : t.readText? p = some s) :
    ∃ place, t.resolve? p = some place ∧ t.entryAt? place = some (.file (.text s)) := by
  unfold readText? at h
  split at h
  · next content hread =>
    obtain rfl := Option.some.inj h
    unfold read? at hread
    split at hread
    · next file hget =>
      obtain rfl := Option.some.inj hread
      exact Option.bind_eq_some_iff.1 hget
    · cases hread
  · cases h

/-- A text file is read, by whatever path leads to its place. -/
theorem readText?_of_resolve? {place : Place} {s : Text} (hp : t.resolve? p = some place)
    (h : t.entryAt? place = some (.file (.text s))) : t.readText? p = some s := by
  rw [readText?, read?, get?, hp, Option.bind_some, h]

/-- A file that is to be changed was read, so it is there. -/
theorem founded_verdict (t : FileTree) (qualify : Text → Traced TemplateError Text) (p : Path) :
    Founded t (p, verdict t qualify p) := by
  intro new hnew
  obtain ⟨s, hs, -⟩ := verdict_eq_changed_iff.1 hnew
  obtain ⟨place, hplace, hfile⟩ := exists_file_of_readText? hs
  exact ⟨place, _, hplace, hfile⟩

/-- In a tree of the same shape the file is there still, with whatever content. -/
theorem exists_file_of_sameShape {place : Place} {content : Content} (h : SameShape t u)
    (hfile : t.entryAt? place = some (.file content)) :
    ∃ content', u.entryAt? place = some (.file content') := by
  have hkind := h.isFile_entryAt? place
  rw [hfile] at hkind
  rcases hu : u.entryAt? place with _ | (_ | content')
  · rw [hu] at hkind
    cases hkind
  · rw [hu] at hkind
    cases hkind
  · exact ⟨content', rfl⟩

/-- What writing a file of the run comes to, whatever the run has written
before. -/
theorem write?_of_founded {s : Text} (h : SameShape t u) (hx : Founded t (p, .changed s)) :
    u.write? p s = if locked t p then none else some (putChange t u (p, .changed s)) := by
  obtain ⟨place, content, hplace, hfile⟩ := hx s rfl
  obtain ⟨content', hfile'⟩ := exists_file_of_sameShape h hfile
  rw [write?_of_resolve? ((h.resolve?_eq p).trans hplace) hfile', h.readOnly, locked, putChange]
  simp only [hplace, Option.any_some]

/-- Putting a change in its place leaves the shape of the tree as it is. -/
theorem sameShape_putChange (h : SameShape t u) {x : Path × Outcome} (hx : Founded t x) :
    SameShape t (putChange t u x) := by
  obtain ⟨p, o⟩ := x
  unfold putChange
  split
  · next s place hchanged hplace =>
    obtain ⟨place', content, hplace', hfile⟩ := hx s hchanged
    obtain rfl : place = place' := Option.some.inj (hplace.symm.trans hplace')
    obtain ⟨content', hfile'⟩ := exists_file_of_sameShape h hfile
    exact h.trans (sameShape_put hfile' _)
  · exact h

/-- What became of a file, with its path.  On a run that writes, a change of a
locked file settles as a failure. -/
def settleAt (dryRun : Bool) (t : FileTree) (x : Path × Outcome) : Path × Outcome :=
  (x.1, x.2.settle dryRun (locked t x.1))

/-- **One step** of carrying out a plan: the outcome settles, and the tree
changes at the one place.  The tree at hand may have been written to before, as
long as its shape is that of the tree that was planned for. -/
theorem carryOut_step (dryRun : Bool) (h : SameShape t u) {x : Path × Outcome} (hx : Founded t x) :
    (carryOut dryRun x).outcome u = .ok (settleAt dryRun t x) ∧
      (carryOut dryRun x).after u = if dryRun then u else putChange t u (settleAt false t x) := by
  obtain ⟨p, o⟩ := x
  cases o with
  | unchanged =>
    refine ⟨rfl, ?_⟩
    show u = _
    split <;> rfl
  | failed cause =>
    refine ⟨rfl, ?_⟩
    show u = _
    split <;> rfl
  | changed s =>
    cases dryRun with
    | true => exact ⟨rfl, rfl⟩
    | false =>
      have hwrite := write?_of_founded h hx
      unfold carryOut
      simp only [Bool.false_eq_true, if_false, settleAt, Outcome.settle, Bool.not_false,
        Bool.true_and]
      -- only here is anything written, and only if the file is not locked
      by_cases hlocked : locked t p = true
      · rw [if_pos hlocked] at hwrite
        rw [Session.outcome_bind, Session.outcome_write,
          Session.after_bind_of_ok (Session.outcome_write p s u), Session.after_write, hwrite, hlocked]
        exact ⟨rfl, rfl⟩
      · rw [if_neg hlocked] at hwrite
        rw [Session.outcome_bind, Session.outcome_write,
          Session.after_bind_of_ok (Session.outcome_write p s u), Session.after_write, hwrite,
          if_neg hlocked]
        exact ⟨rfl, rfl⟩

theorem founded_settleAt {dryRun : Bool} {x : Path × Outcome} (hx : Founded t x) :
    Founded t (settleAt dryRun t x) := by
  intro s hs
  exact hx s (Outcome.settle_eq_changed_iff.1 hs).1

/-- **A whole run** of steps: none of them fails, and each finds its file as if
nothing had been written before. -/
theorem carryOut_run (dryRun : Bool) (h : SameShape t u) {l : List (Path × Outcome)}
    (hl : ∀ x ∈ l, Founded t x) :
    (l.mapM (carryOut dryRun)).outcome u = .ok (l.map (settleAt dryRun t)) ∧
      (l.mapM (carryOut dryRun)).after u =
        if dryRun then u else (l.map (settleAt false t)).foldl (putChange t) u := by
  induction l generalizing u with
  | nil =>
    refine ⟨rfl, ?_⟩
    show u = _
    split <;> rfl
  | cons x l ih =>
    obtain ⟨hx, hrest⟩ := List.forall_mem_cons.1 hl
    -- the invariant is the shape of the tree: the next file is found where it was
    obtain ⟨hout, hafter⟩ := carryOut_step dryRun h hx
    have hshape : SameShape t ((carryOut dryRun x).after u) := by
      rw [hafter]
      split
      · exact h
      · exact sameShape_putChange h (founded_settleAt hx)
    obtain ⟨hout', hafter'⟩ := ih hshape hrest
    rw [List.mapM_cons]
    refine ⟨?_, ?_⟩
    · rw [Session.outcome_bind, hout]
      show ((l.mapM (carryOut dryRun)) >>= fun xs => pure (settleAt dryRun t x :: xs)).outcome _ = _
      rw [Session.outcome_bind, hout']
      rfl
    · rw [Session.after_bind_of_ok hout, Session.after_bind_of_ok hout', Session.after_pure, hafter',
        hafter]
      cases dryRun with
      | true => rfl
      | false => rfl

/-! ## §4. The tree after the changes. -/

section Changes

variable {place : Place} {l : List (Path × Outcome)}

/-- A change is seen at the place that its path leads to, and nowhere else. -/
theorem entryAt?_putChange (hplace : place ≠ []) (x : Path × Outcome) :
    (putChange t u x).entryAt? place =
      match x.2 with
      | .changed s => if t.resolve? x.1 = some place then some (.file (.text s)) else u.entryAt? place
      | _ => u.entryAt? place := by
  unfold putChange
  rcases x.2 with s | _ | cause
  · cases ht : t.resolve? x.1 with
    | none => simp
    | some other =>
      simp only [entryAt?_put hplace, Option.some.injEq]
      by_cases h : place = other
      · simp [h]
      · simp [h, Ne.symm h]
  · cases t.resolve? x.1 <;> rfl
  · cases t.resolve? x.1 <;> rfl

/-- Nothing changes where no changed path leads to, for a path is written at the
place that it leads to in the tree as it was. -/
theorem entryAt?_of_not_changed (hplace : place ≠ [])
    (h : ∀ p s, (p, Outcome.changed s) ∈ l → t.resolve? p ≠ some place) :
    (l.foldl (putChange t) u).entryAt? place = u.entryAt? place := by
  induction l generalizing u with
  | nil => rfl
  | cons x l ih =>
    rw [List.foldl_cons, ih fun p s hps => h p s (List.mem_cons_of_mem x hps),
      entryAt?_putChange hplace]
    obtain ⟨p, o⟩ := x
    cases o with
    | changed s => exact if_neg (h p s List.mem_cons_self)
    | _ => rfl

/-- Where changed paths lead to, the text is that of the changes, if they all
have the same. -/
theorem entryAt?_of_changed {s : Text} (hplace : place ≠ []) {p : Path}
    (hp : t.resolve? p = some place) (hmem : (p, Outcome.changed s) ∈ l)
    (h : ∀ q s', (q, Outcome.changed s') ∈ l → t.resolve? q = some place → s' = s) :
    (l.foldl (putChange t) u).entryAt? place = some (.file (.text s)) := by
  induction l generalizing u p with
  | nil => cases hmem
  | cons x l ih =>
    rw [List.foldl_cons]
    by_cases hlater : ∃ q s', (q, Outcome.changed s') ∈ l ∧ t.resolve? q = some place
    · -- what is put now is put again
      obtain ⟨q, s', hq, hqplace⟩ := hlater
      obtain rfl := h q s' (List.mem_cons_of_mem x hq) hqplace
      exact ih hqplace hq fun q' s'' hq' => h q' s'' (List.mem_cons_of_mem x hq')
    · have hlast : ∀ q s', (q, Outcome.changed s') ∈ l → t.resolve? q ≠ some place :=
        fun q s' hq hqplace => hlater ⟨q, s', hq, hqplace⟩
      rcases List.mem_cons.1 hmem with rfl | hmem
      · rw [entryAt?_of_not_changed hplace hlast, entryAt?_putChange hplace]
        exact if_pos hp
      · exact absurd hp (hlast p s hmem)

/-- Any number of changes leaves the shape of the tree as it is. -/
theorem sameShape_foldl (h : SameShape t u) (hl : ∀ x ∈ l, Founded t x) :
    SameShape t (l.foldl (putChange t) u) := by
  induction l generalizing u with
  | nil => exact h
  | cons x l ih =>
    obtain ⟨hx, hrest⟩ := List.forall_mem_cons.1 hl
    exact ih (sameShape_putChange h hx) hrest

end Changes

/-! ## §5. Reports. -/

namespace Report

variable {r : Report}

/-- A path is among the changed ones if it has the outcome of a change. -/
theorem mem_changed : p ∈ r.changed ↔ ∃ s, (p, Outcome.changed s) ∈ r.outcomes := by
  unfold changed changes
  simp only [List.mem_map, List.mem_filterMap, Prod.exists]
  constructor
  · rintro ⟨q, s, ⟨q', o, hmem, hsome⟩, rfl⟩
    cases o with
    | changed new =>
      cases hsome
      exact ⟨_, hmem⟩
    | _ => cases hsome
  · rintro ⟨s, hmem⟩
    exact ⟨p, s, ⟨p, .changed s, hmem, rfl⟩, rfl⟩

/-- A path is among the failed ones if that is its outcome. -/
theorem mem_failed {cause : Failure} : (p, cause) ∈ r.failed ↔ (p, Outcome.failed cause) ∈ r.outcomes := by
  unfold failed
  rw [List.mem_filterMap]
  constructor
  · rintro ⟨⟨q, o⟩, hmem, hsome⟩
    cases o with
    | failed cause' =>
      cases hsome
      exact hmem
    | _ => cases hsome
  · intro hmem
    exact ⟨_, hmem, rfl⟩

/-- Every file has succeeded or has failed: the three kinds of outcomes are
counted by themselves and leave none out. -/
theorem succeeded_add_failed (r : Report) : r.succeeded + r.failed.length = r.outcomes.length := by
  obtain ⟨outcomes⟩ := r
  unfold succeeded changed changes unchanged failed
  induction outcomes with
  | nil => rfl
  | cons x l ih =>
    obtain ⟨p, o⟩ := x
    simp only [List.length_map] at ih ⊢
    -- every outcome is counted by exactly one of the three numbers
    cases o with
    | changed s =>
      simp only [List.filterMap_cons, List.countP_cons, List.length_cons, reduceCtorEq, decide_false,
        Bool.false_eq_true, if_false]
      omega
    | unchanged =>
      simp only [List.filterMap_cons, List.countP_cons, List.length_cons, decide_true, if_true]
      omega
    | failed cause =>
      simp only [List.filterMap_cons, List.countP_cons, List.length_cons, reduceCtorEq, decide_false,
        Bool.false_eq_true, if_false]
      omega

end Report

/-- The report on these paths.  The files that could not be read come first, and
the others follow in the order in which they were collected. -/
def reported (dryRun : Bool) (t : FileTree) (qualify : Text → Traced TemplateError Text)
    (paths : List Path) : Report :=
  ⟨(unreadable t paths ++ paths.filter fun p => (t.readText? p).isSome).map fun p =>
    (p, settled dryRun t qualify p)⟩

/-- The tree with the changes of a report on it, each put where its path led.
This is how the tree after a run is described from the report alone. -/
def Report.apply (r : Report) (t : FileTree) : FileTree := r.outcomes.foldl (putChange t) t

section Reported

variable {dryRun : Bool} {paths : List Path}

/-- A report is on every path, each by itself; it lists the unreadable files
first. -/
theorem perm_reported (dryRun : Bool) (t : FileTree) (qualify : Text → Traced TemplateError Text)
    (paths : List Path) :
    (reported dryRun t qualify paths).outcomes.Perm
      (paths.map fun p => (p, settled dryRun t qualify p)) := by
  refine List.Perm.map _ ?_
  have hreadable : paths.filter (fun p => (t.readText? p).isSome) =
      paths.filter fun p => !(t.readText? p).isNone :=
    List.filter_congr fun p _ => by simp
  rw [hreadable]
  exact List.filter_append_perm _ _

/-- A report holds, for each of its paths, what becomes of the file there. -/
theorem mem_reported {o : Outcome} :
    (p, o) ∈ (reported dryRun t qualify paths).outcomes ↔
      p ∈ paths ∧ o = settled dryRun t qualify p := by
  rw [(perm_reported dryRun t qualify paths).mem_iff, List.mem_map]
  constructor
  · rintro ⟨q, hq, heq⟩
    cases heq
    exact ⟨hq, rfl⟩
  · rintro ⟨hp, rfl⟩
    exact ⟨p, hp, rfl⟩

/-- Every file that a report has changed is there in the tree of the run. -/
theorem founded_reported :
    ∀ x ∈ (reported dryRun t qualify paths).outcomes, Founded t x := by
  rintro ⟨p, o⟩ hx
  obtain ⟨-, rfl⟩ := mem_reported.1 hx
  exact founded_settleAt (founded_verdict t qualify p)

/-- The changes of a report leave the shape of the tree as it is. -/
theorem sameShape_apply : SameShape t ((reported dryRun t qualify paths).apply t) :=
  sameShape_foldl (SameShape.refl t) founded_reported

/-- **Performing a plan** comes to the report, and leaves the tree with the
changes of the report on it. -/
theorem perform_planned (dryRun : Bool) (t : FileTree) (paths : List Path)
    (qualify : Text → Traced TemplateError Text) :
    (perform dryRun (planned t paths qualify)).outcome t = .ok (reported dryRun t qualify paths) ∧
      (perform dryRun (planned t paths qualify)).after t =
        if dryRun then t else (reported false t qualify paths).apply t := by
  have hfounded : ∀ x ∈ (planned t paths qualify).outcomes, Founded t x := by
    intro x hx
    obtain ⟨p, -, rfl⟩ := List.mem_map.1 hx
    exact founded_verdict t qualify p
  obtain ⟨hout, hafter⟩ := carryOut_run dryRun (SameShape.refl t) hfounded
  have hlost : ∀ b, (planned t paths qualify).lost =
      (unreadable t paths).map fun p => (p, settled b t qualify p) := by
    intro b
    refine List.map_congr_left fun p hp => ?_
    have hnone : t.readText? p = none := by simpa [unreadable] using (List.mem_filter.1 hp).2
    rw [settled, verdict, hnone]
    rfl
  have houtcomes : ∀ b, (planned t paths qualify).outcomes.map (settleAt b t) =
      (paths.filter fun p => (t.readText? p).isSome).map fun p => (p, settled b t qualify p) := by
    intro b
    rw [planned, List.map_map]
    rfl
  constructor
  · rw [perform, Session.outcome_bind, hout]
    show Except.ok (Report.mk _) = Except.ok _
    rw [hlost dryRun, houtcomes, reported, List.map_append]
  · rw [perform, Session.after_bind_of_ok hout, Session.after_pure, hafter, houtcomes, Report.apply,
      reported, List.map_append, List.foldl_append]
    -- a file that could not be read changes nothing
    have hnothing : ((unreadable t paths).map fun p => (p, settled false t qualify p)).foldl
        (putChange t) t = t := by
      rw [← hlost false, ← lost_eq t paths qualify]
      induction unreadable t paths with
      | nil => rfl
      | cons p l ih => exact ih
    rw [hnothing]

end Reported

/-! ## §6. Runs. -/

section Runs

variable {roots : List Path} {f : FileTree → Traced BatchError Plan}
  {fix : List Source → Traced BatchError (Text → Traced TemplateError Text)}

/-- **How a run ends**: with the error of its plan and the tree as it was, or
with a report on the collected paths. -/
theorem run_cases (dryRun : Bool) (hf : f t = plan c roots fix t) :
    (∃ e, (f t).outcome = .error e ∧ (Session.look f >>= perform dryRun).outcome t = .error e ∧
      (Session.look f >>= perform dryRun).after t = t) ∨
    ∃ paths qualify, collect t c roots = .ok paths ∧ (fix (readable t paths)).outcome = .ok qualify ∧
      (f t).outcome = .ok (planned t paths qualify) ∧
      (Session.look f >>= perform dryRun).outcome t = .ok (reported dryRun t qualify paths) ∧
      (Session.look f >>= perform dryRun).after t =
        if dryRun then t else (reported false t qualify paths).apply t := by
  -- the plan is made from the tree as it is, and only then is anything written
  cases hplan : (f t).outcome with
  | error e =>
    refine .inl ⟨e, rfl, ?_, ?_⟩
    · rw [Session.outcome_bind, Session.outcome_look, hplan]
      rfl
    · rw [Session.after_bind_of_error (Session.outcome_look f t ▸ hplan), Session.after_look]
  | ok plan =>
    have hlook : (Session.look f).outcome t = .ok plan := hplan
    obtain ⟨paths, qualify, hcollect, hfix, rfl⟩ := plan_eq_ok_iff.1 (hf ▸ hplan)
    obtain ⟨hout, hafter⟩ := perform_planned dryRun t paths qualify
    refine .inr ⟨paths, qualify, hcollect, hfix, rfl, ?_, ?_⟩
    · rw [Session.outcome_bind, hlook, Session.after_look]
      exact hout
    · rw [Session.after_bind_of_ok hlook, Session.after_look]
      exact hafter

/-- A run fails as its plan does: carrying a plan out never does. -/
theorem run_eq_error_iff (dryRun : Bool) (hf : f t = plan c roots fix t) {e : BatchError} :
    (Session.look f >>= perform dryRun).outcome t = .error e ↔ (f t).outcome = .error e := by
  rcases run_cases dryRun hf with ⟨e', hplan, hout, -⟩ | ⟨paths, qualify, -, -, hplan, hout, -⟩
  · simp [hout, hplan]
  · simp [hout, hplan]

end Runs

/-! The paths of a run. -/

/-- No path is collected twice: the paths found below the roots are put in
order, as a set. -/
theorem nodup_of_collect {roots paths : List Path} (h : collect t c roots = .ok paths) :
    paths.Nodup := by
  unfold collect at h
  split at h
  · cases h
  · next found _ =>
    obtain rfl := Except.ok.inj h
    refine List.Nodup.filter _ (((∅ : PathSet).insertAll found.flatten).ascending.imp ?_)
    rintro a _ hlt rfl
    exact List.lt_irrefl _ hlt

/-! ## §7. What a run does. -/

/-- What a run has done that ends with the report `r` and leaves the tree
`after`: `paths` are its files, and `qualify` was fixed before the first of
them was written. -/
structure Carried (t : FileTree) (dryRun : Bool) (paths : List Path)
    (qualify : Text → Traced TemplateError Text) (r : Report) (after : FileTree) : Prop where
  /-- No file is taken twice. -/
  distinct : paths.Nodup
  /-- Every file has one outcome, which its own content decides. -/
  outcomes : r.outcomes.Perm (paths.map fun p => (p, settled dryRun t qualify p))
  /-- Every file has succeeded or failed. -/
  count : r.succeeded + r.failed.length = paths.length
  /-- A changed file holds what its text was qualified to. -/
  rewritten : dryRun = false → ∀ p ∈ r.changed, ∃ s new, t.readText? p = some s ∧
    (qualify s).outcome = .ok new ∧ new ≠ s ∧ after.readText? p = some new
  /-- The tree changes where a changed path leads to, and nowhere else. -/
  differs : dryRun = false → ∀ place,
    after.entryAt? place ≠ t.entryAt? place ↔ ∃ p ∈ r.changed, t.resolve? p = some place
  /-- A file that failed holds what it held. -/
  kept : ∀ x ∈ r.failed, after.read? x.1 = t.read? x.1
  /-- A dry run leaves the tree alone. -/
  dry : dryRun = true → after = t

section Carried

variable {paths : List Path}

/-- What is changed in a report on these paths was read, qualified to another
text, and is a file in the tree of the run. -/
theorem exists_of_changed {s : Text}
    (h : (p, Outcome.changed s) ∈ (reported false t qualify paths).outcomes) :
    settled false t qualify p = .changed s ∧ ∃ old place, t.readText? p = some old ∧
      (qualify old).outcome = .ok s ∧ s ≠ old ∧ t.resolve? p = some place ∧
      t.entryAt? place = some (.file (.text old)) := by
  obtain ⟨-, hsettled⟩ := mem_reported.1 h
  have hverdict := (Outcome.settle_eq_changed_iff.1 hsettled.symm).1
  obtain ⟨old, hread, hqualify, hne⟩ := verdict_eq_changed_iff.1 hverdict
  obtain ⟨place, hplace, hfile⟩ := exists_file_of_readText? hread
  exact ⟨hsettled.symm, old, place, hread, hqualify, hne, hplace, hfile⟩

/-- Paths that lead to one place have one outcome, so that the order in which
they are written does not matter. -/
theorem settled_congr {dryRun : Bool} {q : Path} (h : t.resolve? p = t.resolve? q) :
    settled dryRun t qualify p = settled dryRun t qualify q := by
  rw [settled, settled, verdict_congr h, locked_congr h]

/-- The text at the place that a changed path leads to. -/
theorem entryAt?_apply {place : Place} {s : Text}
    (h : (p, Outcome.changed s) ∈ (reported false t qualify paths).outcomes)
    (hplace : t.resolve? p = some place) :
    ((reported false t qualify paths).apply t).entryAt? place = some (.file (.text s)) := by
  obtain ⟨hsettled, old, place', -, -, -, hplace', hfile⟩ := exists_of_changed h
  obtain rfl : place = place' := Option.some.inj (hplace.symm.trans hplace')
  refine entryAt?_of_changed (ne_nil_of_file hfile) hplace h ?_
  intro q s' hq hqplace
  -- another path to the same place has the same outcome
  have hsame : settled false t qualify q = settled false t qualify p :=
    settled_congr (hqplace.trans hplace.symm)
  rw [(exists_of_changed hq).1, hsettled] at hsame
  exact Outcome.changed.inj hsame

/-- A file to which no changed path leads is read as before, by whatever path. -/
theorem read?_apply (h : ∀ q ∈ (reported false t qualify paths).changed, t.resolve? q ≠ t.resolve? p) :
    ((reported false t qualify paths).apply t).read? p = t.read? p := by
  rw [read?, read?, get?, get?, sameShape_apply.resolve?_eq]
  cases hp : t.resolve? p with
  | none => rfl
  | some place =>
    rw [Option.bind_some, Option.bind_some]
    by_cases hplace : place = []
    · subst hplace
      rfl
    · unfold Report.apply
      rw [entryAt?_of_not_changed hplace]
      intro q s hq
      exact hp ▸ h q (Report.mem_changed.2 ⟨s, hq⟩)

/-- A file that did not change is read as before. -/
theorem read?_apply_of_not_changed (h : ∀ s, settled false t qualify p ≠ .changed s) :
    ((reported false t qualify paths).apply t).read? p = t.read? p := by
  refine read?_apply fun q hq hsame => ?_
  obtain ⟨s, hmem⟩ := Report.mem_changed.1 hq
  exact h s (settled_congr hsame ▸ (exists_of_changed hmem).1)

/-- A report on distinct paths, with its changes applied or not: the tree is
what the report says it is. -/
theorem carried_reported (dryRun : Bool) (hpaths : paths.Nodup) :
    Carried t dryRun paths qualify (reported dryRun t qualify paths)
      (if dryRun then t else (reported false t qualify paths).apply t) where
  distinct := hpaths
  outcomes := perm_reported dryRun t qualify paths
  count := by
    rw [Report.succeeded_add_failed, (perm_reported dryRun t qualify paths).length_eq, List.length_map]
  rewritten hdry p hp := by
    subst hdry
    obtain ⟨new, hmem⟩ := Report.mem_changed.1 hp
    obtain ⟨-, old, place, hread, hqualify, hne, hplace, -⟩ := exists_of_changed hmem
    refine ⟨old, new, hread, hqualify, hne, ?_⟩
    exact readText?_of_resolve? ((sameShape_apply.resolve?_eq p).trans hplace)
      (entryAt?_apply hmem hplace)
  differs hdry place := by
    subst hdry
    -- a file changes only by a write to it, and a write does change it
    constructor
    · intro hdiffers
      by_contra hnone
      refine hdiffers ?_
      by_cases hplace : place = []
      · subst hplace
        rfl
      · refine entryAt?_of_not_changed hplace ?_
        intro p s hmem hp
        exact hnone ⟨p, Report.mem_changed.2 ⟨s, hmem⟩, hp⟩
    · rintro ⟨p, hp, hplace⟩
      obtain ⟨new, hmem⟩ := Report.mem_changed.1 hp
      obtain ⟨-, old, place', -, -, hne, hplace', hfile⟩ := exists_of_changed hmem
      obtain rfl : place = place' := Option.some.inj (hplace.symm.trans hplace')
      show ((reported false t qualify paths).apply t).entryAt? place ≠ _
      rw [entryAt?_apply hmem hplace, hfile]
      simpa using hne
  kept := by
    rintro ⟨p, cause⟩ hx
    cases dryRun with
    | true => rfl
    | false =>
      obtain ⟨-, hsettled⟩ := mem_reported.1 (Report.mem_failed.1 hx)
      refine read?_apply_of_not_changed fun s hs => ?_
      rw [hs] at hsettled
      cases hsettled
  dry hdry := by
    subst hdry
    rfl

end Carried

/-- In a real run that can write what it has to, a file comes to what was found
for it: only a failed write sets the two apart. -/
theorem settled_eq_verdict {paths : List Path}
    (h : ∀ x ∈ (reported false t qualify paths).failed, x.2 ≠ .unwritable) (hp : p ∈ paths) :
    settled false t qualify p = verdict t qualify p := by
  cases hverdict : verdict t qualify p with
  | changed s =>
    by_cases hlocked : locked t p = true
    · have hfailed : settled false t qualify p = .failed .unwritable := by
        simp [settled, hverdict, Outcome.settle, hlocked]
      have hmem := Report.mem_failed.2 (mem_reported.2 ⟨hp, hfailed.symm⟩)
      exact absurd rfl (h (p, .unwritable) hmem)
    · simp [settled, hverdict, Outcome.settle, hlocked]
  | unchanged => simp [settled, hverdict, Outcome.settle]
  | failed cause => simp [settled, hverdict, Outcome.settle]

/-- So it does in a dry run, which writes to no file and so fails at none. -/
theorem settled_dry (t : FileTree) (qualify : Text → Traced TemplateError Text) (p : Path) :
    settled true t qualify p = verdict t qualify p := by
  unfold settled
  cases verdict t qualify p <;> rfl

/-- A dry run says what a real run does, if that can write what it has to. -/
theorem reported_dry {paths : List Path}
    (h : ∀ x ∈ (reported false t qualify paths).failed, x.2 ≠ .unwritable) :
    reported true t qualify paths = reported false t qualify paths := by
  unfold reported
  congr 1
  refine List.map_congr_left fun p hp => ?_
  have hmem : (p, settled false t qualify p) ∈ (reported false t qualify paths).outcomes :=
    List.mem_map.2 ⟨p, hp, rfl⟩
  rw [settled_dry, settled_eq_verdict h (mem_reported.1 hmem).1]

/-- A kind of run is atomic, file by file.  `fixed` says what the run fixes from
its options and its readable files before it writes. -/
structure Atomic (t : FileTree) (c : Config) (run : Options → Session Report)
    (fixed : Options → List Source → (Text → Traced TemplateError Text) → Prop) : Prop where
  /-- A run that fails has written nothing. -/
  failing : ∀ (o : Options) e, (run o).outcome t = .error e → (run o).after t = t
  /-- A run that ends with a report has done what it says. -/
  reporting : ∀ (o : Options) r, (run o).outcome t = .ok r → ∃ paths qualify,
    collect t c o.roots = .ok paths ∧ fixed o (readable t paths) qualify ∧
      Carried t o.dryRun paths qualify r ((run o).after t)
  /-- A dry run fails as a real one does. -/
  dryError : ∀ (o : Options) e, (run { o with dryRun := true }).outcome t = .error e ↔
    (run { o with dryRun := false }).outcome t = .error e
  /-- A dry run reports what a real one does that can write its files. -/
  dryReport : ∀ (o : Options) r, (run { o with dryRun := false }).outcome t = .ok r →
    (∀ x ∈ r.failed, x.2 ≠ .unwritable) → (run { o with dryRun := true }).outcome t = .ok r

/-- Runs that read, fix and perform are atomic, whatever it is that they fix;
all that is asked is that what they fix does not depend on whether the run is a
dry one. -/
theorem atomic_of_plan {run : Options → Session Report} {f : Options → FileTree → Traced BatchError Plan}
    {fix : Options → List Source → Traced BatchError (Text → Traced TemplateError Text)}
    {fixed : Options → List Source → (Text → Traced TemplateError Text) → Prop}
    (hrun : ∀ o, run o = Session.look (f o) >>= perform o.dryRun)
    (hf : ∀ o, f o t = plan c o.roots (fix o) t)
    (hdry : ∀ o b, f { o with dryRun := b } = f o)
    (hfixed : ∀ o sources qualify, (fix o sources).outcome = .ok qualify → fixed o sources qualify) :
    Atomic t c run fixed where
  failing o e h := by
    rw [hrun] at h ⊢
    rcases run_cases o.dryRun (hf o) with ⟨-, -, -, hafter⟩ | ⟨_, _, -, -, -, hout, -⟩
    · exact hafter
    · rw [hout] at h
      cases h
  reporting o r h := by
    rw [hrun] at h ⊢
    rcases run_cases o.dryRun (hf o) with ⟨e, -, hout, -⟩ |
      ⟨paths, qualify, hcollect, hfix, -, hout, hafter⟩
    · rw [hout] at h
      cases h
    · rw [hout] at h
      obtain rfl := Except.ok.inj h
      refine ⟨paths, qualify, hcollect, hfixed o _ _ hfix, ?_⟩
      rw [hafter]
      exact carried_reported o.dryRun (nodup_of_collect hcollect)
  dryError o e := by
    -- the plan does not depend on whether the run is a dry one
    have hplan : ∀ b, (run { o with dryRun := b }).outcome t = .error e ↔
        (f o t).outcome = .error e := by
      intro b
      rw [hrun, hdry]
      exact run_eq_error_iff b (hf o)
    rw [hplan, hplan]
  dryReport o r h hwritable := by
    rw [hrun, hdry] at h ⊢
    rcases run_cases false (hf o) with ⟨e, -, hout, -⟩ | ⟨paths, qualify, hcollect, hfix, -, hout, -⟩
    · rw [hout] at h
      cases h
    · rw [hout] at h
      obtain rfl := Except.ok.inj h
      rcases run_cases true (hf o) with ⟨e, hplan, -, -⟩ | ⟨paths', qualify', hcollect', hfix', -, hout', -⟩
      · rw [hf, plan_eq_ok_iff.2 ⟨paths, qualify, hcollect, hfix, rfl⟩] at hplan
        cases hplan
      · obtain rfl := Except.ok.inj (hcollect.symm.trans hcollect')
        obtain rfl := Except.ok.inj (hfix.symm.trans hfix')
        rw [hout', reported_dry hwritable]

/-! ## §8. What a run fixes. -/

/-- The text at a path is a corpus file, and it holds these variables.  A
missing file, one that is no text and one that does not read as a corpus file
hold none. -/
def HoldsVars (t : FileTree) (p : Path) (v : CorpusVars) : Prop :=
  ∃ s, t.readText? p = some s ∧ CorpusVars.ofJson s = .ok v

/-- The variables that an upgrade goes by: those of the contents of its files,
gathered one after the other, and then those of the corpus file, if the run is
given one. -/
def GoesBy (t : FileTree) (o : Options) (contents : List Text) (vars : CorpusVars) : Prop :=
  match o.vars with
  | none => vars = corpusOf contents
  | some p => ∃ extra, HoldsVars t p extra ∧ vars = (corpusOf contents).merge extra

/-- The templates that a run knows from elsewhere: those that the corpus file
has variables of, or none if the run is given no such file. -/
def Knows (t : FileTree) (o : Options) (known : VarMap) : Prop :=
  match o.vars with
  | none => known = ∅
  | some p => ∃ extra, HoldsVars t p extra ∧ known = extra.inside

/-- How a text is qualified for templates defined elsewhere: for those that are
known, and for those that its own elements inherit from and that are external. -/
structure QualifiesFor (c : Config) (known : VarMap)
    (qualify : Text → Traced TemplateError Text) : Prop where
  /-- A text that is no document fails as such. -/
  broken : ∀ content e, readDocument content defaultUrl = .error e →
    (qualify content).outcome = .error e
  /-- In a document the selectors are qualified, and nothing else. -/
  document : ∀ content d, readDocument content defaultUrl = .ok d →
    ∃ targets, qualify content = qualifyTextSelectors targets content ∧
      ∀ name, targets.get? name = (known.get? name).or
        (if c.isExternal name ∧ ∃ e ∈ d.elements, e.tag.get? inheritAttr = some name then some ∅
          else none)

/-- Loading a corpus file succeeds if there is a text at the path and it reads
as one. -/
theorem loadVars_eq_ok_iff {v : CorpusVars} : loadVars t p = .ok v ↔ HoldsVars t p v := by
  unfold loadVars HoldsVars
  cases t.readText? p with
  | none => simp
  | some s =>
    cases hread : CorpusVars.ofJson s with
    | error e => simp [hread]
    | ok w => simp [hread]

/-- The variables that are computed for an upgrade are the ones that it goes by. -/
theorem corpusVars_eq_ok_iff {o : Options} {sources : List Source} {vars : CorpusVars} :
    (corpusVars t o sources).outcome = .ok vars ↔ GoesBy t o (sources.map Source.content) vars := by
  rw [outcome_corpusVars, GoesBy]
  cases o.vars with
  | none => simp [eq_comm]
  | some p => exact map_eq_ok_iff.trans (exists_congr fun _ => and_congr loadVars_eq_ok_iff eq_comm)

/-- The templates that are looked up for a run on selectors are the known ones. -/
theorem knownTemplates_eq_ok_iff {o : Options} {known : VarMap} :
    knownTemplates t o = .ok known ↔ Knows t o known := by
  unfold knownTemplates Knows
  cases o.vars with
  | none => simp [eq_comm]
  | some p => exact map_eq_ok_iff.trans (exists_congr fun _ => and_congr loadVars_eq_ok_iff eq_comm)

/-- What an upgrade fixes is how a text is qualified against its variables. -/
theorem exists_vars_of_fixTemplates {o : Options} {sources : List Source}
    (h : (fixTemplates t o sources).outcome = .ok qualify) :
    ∃ vars, (corpusVars t o sources).outcome = .ok vars ∧ qualify = qualifyText vars := by
  rw [fixTemplates, Traced.outcome_bind] at h
  obtain ⟨vars, hvars, hqualify⟩ := bind_eq_ok_iff.1 h
  exact ⟨vars, hvars, (Except.ok.inj hqualify).symm⟩

/-- What a run on selectors fixes is how a text is qualified for the templates
that are known. -/
theorem exists_known_of_fixSelectors {o : Options} (h : (fixSelectors t c o).outcome = .ok qualify) :
    ∃ known, knownTemplates t o = .ok known ∧ qualify = qualifyExternal c known := by
  rw [fixSelectors, Traced.outcome_bind, Traced.outcome_ofExcept] at h
  obtain ⟨known, hknown, hqualify⟩ := bind_eq_ok_iff.1 h
  exact ⟨known, hknown, (Except.ok.inj hqualify).symm⟩

/-- The templates that the selectors of a document are qualified for keep the
variables that are known of them; one that is not known has none. -/
theorem get?_selectorTargets (c : Config) (known : VarMap) (d : Markup.Document) (name : Text) :
    (selectorTargets c known d).get? name = (known.get? name).or
      (if c.isExternal name ∧ ∃ e ∈ d.elements, e.tag.get? inheritAttr = some name then some ∅
        else none) := by
  unfold selectorTargets
  have hmem : (∃ e ∈ d.elements, e.tag.get? inheritAttr = some name) ↔
      name ∈ d.elements.filterMap fun e => e.tag.get? inheritAttr := List.mem_filterMap.symm
  simp only [hmem]
  -- of the elements only their targets count, which are made known one after the other
  induction (d.elements.filterMap fun e => e.tag.get? inheritAttr) generalizing known with
  | nil => simp
  | cons target targets ih =>
    rw [List.foldl_cons, ih]
    by_cases htarget : c.isExternal target = true
    · rw [if_pos htarget, VarMap.ensure, VarMap.get?_adjust]
      by_cases hname : name = target
      · subst hname
        cases known.get? name <;> simp [htarget]
      · simp [hname]
    · rw [if_neg htarget]
      by_cases hname : name = target
      · subst hname
        simp [htarget]
      · simp [hname]

/-- The way in which a run qualifies selectors is as described. -/
theorem qualifiesFor_qualifyExternal (c : Config) (known : VarMap) :
    QualifiesFor c known (qualifyExternal c known) where
  broken content e he := by
    rw [qualifyExternal, he]
    rfl
  document content d hd := by
    refine ⟨selectorTargets c known d, ?_, get?_selectorTargets c known d⟩
    rw [qualifyExternal, hd]

/-- **Runs are atomic, file by file, and account for every file.**  What
`upgrade` fixes are the variables of all readable files as they were, with
those of the corpus file; what `xpath` fixes are the templates that the corpus
file knows. -/
theorem runs_atomic (t : FileTree) (c : Config) :
    Atomic t c (upgrade c) (fun o sources qualify =>
      ∃ vars, GoesBy t o (sources.map Source.content) vars ∧ qualify = qualifyText vars) ∧
    Atomic t c (xpath c) (fun o _ qualify =>
      ∃ known, Knows t o known ∧ qualify = qualifyExternal c known ∧ QualifiesFor c known qualify) := by
  constructor
  · have hplan : ∀ o : Options, (fun t => plan c o.roots (fixTemplates t o) t) t =
        plan c o.roots (fixTemplates t o) t := fun _ => rfl
    refine atomic_of_plan (fun _ => rfl) hplan (fun _ _ => rfl) ?_
    -- the maps are the ones of the original contents: gathering comes before any
    -- writing
    intro o sources qualify h
    obtain ⟨vars, hvars, rfl⟩ := exists_vars_of_fixTemplates h
    exact ⟨vars, corpusVars_eq_ok_iff.1 hvars, rfl⟩
  · have hplan : ∀ o : Options, (fun t => plan c o.roots (fun _ => fixSelectors t c o) t) t =
        plan c o.roots (fun _ => fixSelectors t c o) t := fun _ => rfl
    refine atomic_of_plan (fun _ => rfl) hplan (fun _ _ => rfl) ?_
    -- the sources are not read for the maps: they come from the given file alone
    intro o _ qualify h
    obtain ⟨known, hknown, rfl⟩ := exists_known_of_fixSelectors h
    exact ⟨known, knownTemplates_eq_ok_iff.1 hknown, rfl, qualifiesFor_qualifyExternal c known⟩

/-- A template, the call that binds a variable in it, a patch to a template from
elsewhere, and a corpus file.  Among them are a file that is no text and one
that is no document, and the file of the call is read-only. -/
def mixedTree : FileTree where
  entries := [
    (["a.xml".toList], .file (.text "<t t-name='a' t-esc='u + v + w'/>".toList)),
    (["b.xml".toList], .file (.binary [255])),
    (["c.xml".toList], .file (.text "<t".toList)),
    (["d.xml".toList],
      .file (.text "<t t-name='d'><t t-call='a'><t t-set='u'/></t><t t-esc='x'/></t>".toList)),
    (["e.xml".toList],
      .file (.text "<t t-inherit='web.p'><xpath expr=\"//t[@t-if='y and z']\"/></t>".toList)),
    (["vars.json".toList], .file (.text
      "\x7b\"outside_vars\": \x7b\"a\": [\"v\"]\x7d, \"inside_vars\": \x7b\"web.p\": [\"y\"]\x7d\x7d".toList))]
  ascending := by decide
  readOnly := [["d.xml".toList]]

/-- Each of the files has its own outcome.  The template sees what the call
binds, although the file of the call cannot be written, and what the corpus
file says of it; the patch sees what the corpus file says of its target. -/
theorem runs_atomic_sample :
    let o : Options :=
      { roots := ["e.xml", "d.xml", "c.xml", "b.xml", "a.xml"].map String.toList,
        vars := some "vars.json".toList }
    let patched := "<t t-inherit='web.p'><xpath expr=\"//t[@t-if='y and this.z']\"/></t>".toList
    (∃ r paths vars, (upgrade {} o).outcome mixedTree = .ok r ∧
      GoesBy mixedTree o ((readable mixedTree paths).map Source.content) vars ∧
      Carried mixedTree false paths (qualifyText vars) r ((upgrade {} o).after mixedTree) ∧
      r.changed = ["a.xml".toList, "e.xml".toList] ∧
      r.failed.map Prod.fst = ["b.xml", "c.xml", "d.xml"].map String.toList ∧
      ((upgrade {} o).after mixedTree).readText? "a.xml".toList =
        some "<t t-name='a' t-esc='u + v + this.w'/>".toList ∧
      ((upgrade {} o).after mixedTree).readText? "e.xml".toList = some patched) ∧
    ∃ r paths known, (xpath {} o).outcome mixedTree = .ok r ∧ Knows mixedTree o known ∧
      Carried mixedTree false paths (qualifyExternal {} known) r ((xpath {} o).after mixedTree) ∧
      r.changed = ["e.xml".toList] ∧ r.failed.map Prod.fst = ["b.xml", "c.xml"].map String.toList ∧
      ((xpath {} o).after mixedTree).readText? "e.xml".toList = some patched := by
  intro o patched
  constructor
  · have hrun : (fun x : Traced BatchError Report × FileTree =>
        (x.1.outcome.map fun r => (r.changed, r.failed.map Prod.fst),
          x.2.readText? "a.xml".toList, x.2.readText? "e.xml".toList)) (upgrade {} o mixedTree) =
        (.ok (["a.xml".toList, "e.xml".toList], ["b.xml", "c.xml", "d.xml"].map String.toList),
          some "<t t-name='a' t-esc='u + v + this.w'/>".toList, some patched) := by decide +kernel
    obtain ⟨hreport, htexts⟩ := Prod.mk.inj hrun
    obtain ⟨r, hr, hreport⟩ := map_eq_ok_iff.1 hreport
    obtain ⟨hchanged, hfailed⟩ := Prod.mk.inj hreport
    obtain ⟨ha, he⟩ := Prod.mk.inj htexts
    -- the texts are computed; that they are carried out as a whole is the general
    -- theorem
    obtain ⟨paths, _, -, ⟨vars, hvars, rfl⟩, hcarried⟩ :=
      (runs_atomic mixedTree {}).1.reporting o r hr
    exact ⟨r, paths, vars, hr, hvars, hcarried, hchanged, hfailed, ha, he⟩
  · have hrun : (fun x : Traced BatchError Report × FileTree =>
        (x.1.outcome.map fun r => (r.changed, r.failed.map Prod.fst),
          x.2.readText? "e.xml".toList)) (xpath {} o mixedTree) =
        (.ok (["e.xml".toList], ["b.xml", "c.xml"].map String.toList), some patched) := by
      decide +kernel
    obtain ⟨hreport, he⟩ := Prod.mk.inj hrun
    obtain ⟨r, hr, hreport⟩ := map_eq_ok_iff.1 hreport
    obtain ⟨hchanged, hfailed⟩ := Prod.mk.inj hreport
    obtain ⟨paths, _, -, ⟨known, hknown, rfl, -⟩, hcarried⟩ :=
      (runs_atomic mixedTree {}).2.reporting o r hr
    exact ⟨r, paths, known, hr, hknown, hcarried, hchanged, hfailed, he⟩

end QwebReceiver.Batch
