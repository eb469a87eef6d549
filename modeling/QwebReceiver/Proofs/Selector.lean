import Mathlib.Data.List.Forall2
import QwebReceiver.Proofs.Expr.Qualify

/-!
  QwebReceiver.Proofs.Selector — qualifying a selector settles it.

  Main results:

    * `settles_qualifySelector` — what qualifying makes of a selector is the
      selector with marks, and with these marks and any others it stays;
    * `fills_of_qualify` — the clauses of a qualified selector are those of the
      selector, with qualified values.

  No mark stands in the name of a clause, for such a place is not `Clear`, and
  a mark in its value holds neither an apostrophe nor the end of a line.  So
  the clauses of a marked selector are those of the selector, with marked
  values.
-/

namespace QwebReceiver

open QwebReceiver.Text QwebReceiver.Expr QwebReceiver.Expr.MarkedText SelectorPart

namespace Selector

/-! ## §1. Names of clauses. -/

/-- The text read so far ends inside the name of a clause.  Nothing is inserted
there, so a clause keeps its name. -/
def InName (before : Text) : Prop := (before.dropWhile isClauseNameChar).head? = some '@'

/-- A character of clause names does not leave the name. -/
theorem InName.cons {before : Text} (h : InName before) {c : Char}
    (hc : isClauseNameChar c = true) : InName (c :: before) := by
  rw [InName, List.dropWhile_cons_of_pos hc]
  exact h

theorem inName_at (before : Text) : InName ('@' :: before) := by
  rw [InName, List.dropWhile_cons_of_neg (by decide)]
  rfl

/-- Inside of a clause name no mark stands, for behind `@` nothing is clear. -/
theorem InName.ins_eq_nil {after before ins : Text} {c : Char} {A : MarkedText}
    (h : InName before) (hv : Valid after before ((ins, c) :: A)) : ins = [] := by
  rcases hv.1 with hins | ⟨-, hmark⟩
  · exact hins
  · exact absurd h hmark.clear.clause

/-- Nothing is marked in the name of a clause. -/
theorem InName.eq_plain {after before w : Text} {X : MarkedText} (h : InName before)
    (hw : ∀ c ∈ w, isClauseNameChar c = true) (hv : Valid after before X) (hold : old X = w) :
    X = plain w := by
  induction X generalizing before w with
  | nil =>
    subst hold
    rfl
  | cons p X ih =>
    obtain ⟨ins, c⟩ := p
    subst hold
    obtain rfl := h.ins_eq_nil hv
    have htail := ih (h.cons (hw c List.mem_cons_self))
      (fun d hd => hw d (List.mem_cons_of_mem c hd)) hv.2 rfl
    exact congrArg (([], c) :: ·) htail

/-- The name of a clause is the same in the marked text. -/
theorem exists_name_new {after before : Text} {A : MarkedText} (h : InName before)
    (hv : Valid after before A) :
    ∃ B, old B = (old A).dropWhile isClauseNameChar ∧ (∃ before', Valid after before' B) ∧
      (new A).takeWhile isClauseNameChar = (old A).takeWhile isClauseNameChar ∧
      (new A).dropWhile isClauseNameChar = new B := by
  induction A generalizing before with
  | nil => exact ⟨[], rfl, ⟨before, hv⟩, rfl, rfl⟩
  | cons p A ih =>
    obtain ⟨ins, c⟩ := p
    -- nothing is inserted inside a name, so the two names are the same letter by letter
    obtain rfl := h.ins_eq_nil hv
    by_cases hc : isClauseNameChar c = true
    · obtain ⟨B, hB, hvB, htake, hdrop⟩ := ih (h.cons hc) hv.2
      refine ⟨B, ?_, hvB, ?_, ?_⟩
      · rw [old_cons, List.dropWhile_cons_of_pos hc]
        exact hB
      · rw [old_cons, new_cons, List.nil_append, List.takeWhile_cons_of_pos hc,
          List.takeWhile_cons_of_pos hc, htake]
      · rw [new_cons, List.nil_append, List.dropWhile_cons_of_pos hc]
        exact hdrop
    · refine ⟨([], c) :: A, ?_, ⟨before, hv⟩, ?_, ?_⟩
      · rw [old_cons, List.dropWhile_cons_of_neg hc]
      · rw [old_cons, new_cons, List.nil_append, List.takeWhile_cons_of_neg hc,
          List.takeWhile_cons_of_neg hc]
      · rw [new_cons, List.nil_append, List.dropWhile_cons_of_neg hc]

/-! ## §2. Clauses. -/

/-- A clause as it is written is read back. -/
theorem clauseBody?_write {name value : Text} (hne : name ≠ [])
    (hname : ∀ c ∈ name, isClauseNameChar c = true) (hvalue : ∀ c ∈ value, isClauseValueChar c = true)
    (rest : Text) :
    clauseBody? (name ++ '=' :: '\'' :: (value ++ '\'' :: rest)) = some (name, value, rest) := by
  have hstop : StopsAt isClauseNameChar ('=' :: '\'' :: (value ++ '\'' :: rest)) :=
    stopsAt_cons (by decide)
  have hstop' : StopsAt isClauseValueChar ('\'' :: rest) := stopsAt_cons (by decide)
  simp only [clauseBody?, takeWhile_run hname hstop, dropWhile_run hname hstop,
    takeWhile_run hvalue hstop', dropWhile_run hvalue hstop']
  rw [if_neg (by rwa [List.isEmpty_iff])]

/-- A clause that is read is written so. -/
theorem eq_of_clauseBody? {t name value rest : Text} (h : clauseBody? t = some (name, value, rest)) :
    t = name ++ '=' :: '\'' :: (value ++ '\'' :: rest) ∧ name ≠ [] ∧
      (∀ c ∈ name, isClauseNameChar c = true) ∧ (∀ c ∈ value, isClauseValueChar c = true) := by
  have hsplit : t.takeWhile isClauseNameChar ++ t.dropWhile isClauseNameChar = t :=
    List.takeWhile_append_dropWhile
  simp only [clauseBody?] at h
  by_cases hname : (t.takeWhile isClauseNameChar).isEmpty = true
  · simp [hname] at h
  rw [if_neg hname] at h
  -- behind the name `='` is read, then the value up to the next quote
  split at h
  · next r hr =>
    have hsplit' : r.takeWhile isClauseValueChar ++ r.dropWhile isClauseValueChar = r :=
      List.takeWhile_append_dropWhile
    split at h
    · next rest' hr' =>
      simp only [Option.some.injEq, Prod.mk.injEq] at h
      obtain ⟨rfl, rfl, rfl⟩ := h
      rw [hr'] at hsplit'
      refine ⟨?_, ?_, fun c hc => List.mem_takeWhile_imp hc, fun c hc => List.mem_takeWhile_imp hc⟩
      · rw [hsplit', ← hr, hsplit]
      · rwa [List.isEmpty_iff] at hname
    · cases h
  · cases h

/-- The characters of marks may stand in the value of a clause. -/
theorem isClauseValueChar_of_insertable {c : Char} (h : Insertable c) :
    isClauseValueChar c = true := by
  have h1 := h.ne (d := '\'') (by decide) (by decide)
  have h2 := h.ne (d := '\n') (by decide) (by decide)
  simp [isClauseValueChar, h1, h2]

/-- So may whatever is inserted. -/
theorem isClauseValueChar_of_ins {after before ins : Text} {d : Char} {X : MarkedText}
    (hv : Valid after before ((ins, d) :: X)) : ∀ c ∈ ins, isClauseValueChar c = true := by
  intro c hc
  rcases hv.1 with rfl | ⟨-, hmark⟩
  · cases hc
  · exact isClauseValueChar_of_insertable (hmark.insertable c hc)

/-- A marked value has no other characters than those of values. -/
theorem isClauseValueChar_new {after before : Text} {X : MarkedText} (hv : Valid after before X)
    (h : ∀ c ∈ old X, isClauseValueChar c = true) : ∀ c ∈ new X, isClauseValueChar c = true := by
  induction X generalizing before with
  | nil => exact h
  | cons p X ih =>
    obtain ⟨ins, d⟩ := p
    rw [new_cons]
    intro c hc
    rcases List.mem_append.1 hc with hc | hc
    · exact isClauseValueChar_of_ins hv c hc
    · rcases List.mem_cons.1 hc with rfl | hc
      · exact h c List.mem_cons_self
      · exact ih hv.2 (fun x hx => h x (List.mem_cons_of_mem d hx)) c hc

/-- A value ends in the marked text with the character with which it ends in
the text. -/
theorem head?_dropWhile_new {after before : Text} {X : MarkedText} (hv : Valid after before X) :
    ((new X).dropWhile isClauseValueChar).head? = ((old X).dropWhile isClauseValueChar).head? := by
  induction X generalizing before with
  | nil => rfl
  | cons p X ih =>
    obtain ⟨ins, d⟩ := p
    rw [new_cons, old_cons, List.dropWhile_append_of_pos (isClauseValueChar_of_ins hv)]
    by_cases hd : isClauseValueChar d = true
    · rw [List.dropWhile_cons_of_pos hd, List.dropWhile_cons_of_pos hd]
      exact ih hv.2
    · rw [List.dropWhile_cons_of_neg hd, List.dropWhile_cons_of_neg hd]
      rfl

/-- Marks make no clause. -/
theorem clauseBody?_new_none {after before : Text} {A : MarkedText} (h : InName before)
    (hv : Valid after before A) (hnone : clauseBody? (old A) = none) :
    clauseBody? (new A) = none := by
  cases hsome : clauseBody? (new A) with
  | none => rfl
  | some r =>
    obtain ⟨name, value, rest⟩ := r
    obtain ⟨hnew, hne, hname, hvalue⟩ := eq_of_clauseBody? hsome
    obtain ⟨B, hB, ⟨before', hvB⟩, htake, hdrop⟩ := exists_name_new h hv
    have hstop : StopsAt isClauseNameChar ('=' :: '\'' :: (value ++ '\'' :: rest)) :=
      stopsAt_cons (by decide)
    rw [hnew, takeWhile_run hname hstop] at htake
    rw [hnew, dropWhile_run hname hstop] at hdrop
    -- behind the name stand the same characters in both texts
    have hequals := (head?_new hvB (d := '=') (by decide)).1 (by rw [← hdrop]; rfl)
    obtain ⟨C, hC⟩ := List.head?_eq_some_iff.1 hequals
    obtain ⟨ins, D, rfl, rfl⟩ := MarkedText.exists_cons hC
    obtain rfl := MarkedText.ins_eq_nil hvB (by decide)
    rw [new_cons, List.nil_append] at hdrop
    have hD : '\'' :: (value ++ '\'' :: rest) = new D := (List.cons.inj hdrop).2
    have hquote := (head?_new hvB.2 (d := '\'') (by decide)).1 (by rw [← hD]; rfl)
    obtain ⟨E, hE⟩ := List.head?_eq_some_iff.1 hquote
    obtain ⟨ins, F, rfl, rfl⟩ := MarkedText.exists_cons hE
    obtain rfl := MarkedText.ins_eq_nil hvB.2 (by decide)
    rw [new_cons, List.nil_append] at hD
    have hF : value ++ '\'' :: rest = new F := (List.cons.inj hD).2
    have hend := head?_dropWhile_new hvB.2.2
    rw [← hF, dropWhile_run hvalue (stopsAt_cons (by decide))] at hend
    obtain ⟨r, hr⟩ := List.head?_eq_some_iff.1 hend.symm
    have hread : clauseBody? (old A) = some (name, (old F).takeWhile isClauseValueChar, r) := by
      have hA : (old A).dropWhile isClauseNameChar = '=' :: '\'' :: old F := hB.symm
      simp only [clauseBody?, ← htake, hA, hr]
      rw [if_neg (by rwa [List.isEmpty_iff])]
    rw [hnone] at hread
    cases hread

/-- Marks make no start of a clause. -/
theorem clauseStart_of_new {after before : Text} {A : MarkedText}
    (hv : Valid after ('@' :: before) A) (h : ['t', '-'] <+: new A) : ['t', '-'] <+: old A := by
  obtain ⟨s, hs⟩ := h
  cases A with
  | nil => cases hs
  | cons p A =>
    obtain ⟨ins, d⟩ := p
    -- nothing is inserted behind `@`, nor behind `@t`
    obtain rfl := (inName_at before).ins_eq_nil hv
    rw [new_cons, List.nil_append] at hs
    obtain ⟨hd, htail⟩ := List.cons.inj hs
    obtain rfl : 't' = d := hd
    cases A with
    | nil => cases htail
    | cons p A =>
      obtain ⟨ins, e⟩ := p
      obtain rfl := ((inName_at before).cons (c := 't') (by decide)).ins_eq_nil hv.2
      rw [new_cons, List.nil_append] at htail
      obtain rfl : '-' = e := (List.cons.inj htail).1
      exact ⟨old A, rfl⟩

/-! ## §3. Selectors. -/

/-- A character that starts no clause is a plain one. -/
theorem ofSelector_cons {c : Char} {r : Text} (h : c = '@' → ¬ ['t', '-'] <+: r) :
    ofSelector (c :: r) = .plain c :: ofSelector r := by
  apply ofSelector.eq_3
  intro s hc hr
  exact h hc ⟨s, hr.symm⟩

/-- An `@t-` that no clause follows is left plain. -/
theorem ofSelector_at {r : Text} (h : clauseBody? r = none) :
    ofSelector ('@' :: 't' :: '-' :: r) = .plain '@' :: ofSelector ('t' :: '-' :: r) := by
  rw [ofSelector]
  split
  · next heq =>
    rw [h] at heq
    cases heq
  · rfl

/-- A clause that is read is a part, and the parts go on behind it. -/
theorem ofSelector_clause {r name value rest : Text}
    (h : clauseBody? r = some (name, value, rest)) :
    ofSelector ('@' :: 't' :: '-' :: r) = .clause name value :: ofSelector rest := by
  rw [ofSelector]
  split
  · next heq =>
    rw [h] at heq
    cases heq
    rfl
  · next heq =>
    rw [h] at heq
    cases heq

/-- Marks behind a character that starts no clause do not make it start one. -/
theorem ofSelector_cons_new {after before : Text} {c : Char} {A : MarkedText}
    (hv : Valid after (c :: before) A)
    (hplain : ofSelector (c :: old A) = .plain c :: ofSelector (old A)) :
    ofSelector (c :: new A) = .plain c :: ofSelector (new A) := by
  by_cases hstart : c = '@' ∧ ['t', '-'] <+: old A
  · obtain ⟨rfl, r, hr⟩ := hstart
    -- the old text starts no clause here, and the new one reads the same name and value
    have hnone : clauseBody? r = none := by
      cases hclause : clauseBody? r with
      | none => rfl
      | some found =>
        obtain ⟨name, value, rest⟩ := found
        rw [← hr, List.cons_append, List.cons_append, List.nil_append,
          ofSelector_clause hclause] at hplain
        cases hplain
    obtain ⟨ins, X, rfl, hX⟩ := MarkedText.exists_cons hr.symm
    obtain ⟨ins', Y, rfl, rfl⟩ := MarkedText.exists_cons hX
    obtain rfl := (inName_at before).ins_eq_nil hv
    obtain rfl := MarkedText.ins_eq_nil hv.2 (by decide)
    have hname : InName ('-' :: 't' :: '@' :: before) :=
      ((inName_at before).cons (c := 't') (by decide)).cons (c := '-') (by decide)
    exact ofSelector_at (clauseBody?_new_none hname hv.2.2 hnone)
  · refine ofSelector_cons ?_
    rintro rfl hnew
    exact hstart ⟨rfl, clauseStart_of_new hv hnew⟩

section

variable (bound : NameSet) (skip : List Text)

/-- What becomes of the value of a clause.  Values under a name that is to be
skipped are compared as they stand, and so left alone. -/
def qualifyUnlessSkipped (name : Text) : Scanner := fun value =>
  if skip.contains name then pure value else qualifyClause bound name value

theorem outcome_qualifyParts_plain (c : Char) (parts : List SelectorPart) :
    (qualifyParts bound skip (.plain c :: parts)).outcome =
      (qualifyParts bound skip parts).outcome.map (c :: ·) := rfl

/-- The value of a clause is qualified first, and the parts behind it after
that; the first failure is reported. -/
theorem outcome_qualifyParts_clause (name value : Text) (parts : List SelectorPart) :
    (qualifyParts bound skip (.clause name value :: parts)).outcome =
      (qualifyUnlessSkipped bound skip name value).outcome.bind fun filled =>
        (qualifyParts bound skip parts).outcome.map ((clause name filled).render ++ ·) := by
  rw [qualifyParts, qualifyUnlessSkipped]
  split
  · rw [Traced.outcome_bind]
    rfl
  · rw [Traced.outcome_bind]
    rfl

end

section Inversion

variable {bound : NameSet} {skip : List Text}

/-- A qualified clause, and the parts behind it. -/
theorem qualifyParts_clause_iff {name value out : Text} {parts : List SelectorPart} :
    (qualifyParts bound skip (.clause name value :: parts)).outcome = .ok out ↔
      ∃ filled rest, (qualifyUnlessSkipped bound skip name value).outcome = .ok filled ∧
        (qualifyParts bound skip parts).outcome = .ok rest ∧
        out = (clause name filled).render ++ rest := by
  rw [outcome_qualifyParts_clause, bind_eq_ok_iff]
  constructor
  · rintro ⟨filled, hfilled, hmap⟩
    obtain ⟨rest, hrest, rfl⟩ := map_eq_ok_iff.1 hmap
    exact ⟨filled, rest, hfilled, hrest, rfl⟩
  · rintro ⟨filled, rest, hfilled, hrest, rfl⟩
    exact ⟨filled, hfilled, map_eq_ok_iff.2 ⟨rest, hrest, rfl⟩⟩

/-- A plain character, and the qualified parts behind it. -/
theorem qualifyParts_plain_iff {c : Char} {out : Text} {parts : List SelectorPart} :
    (qualifyParts bound skip (.plain c :: parts)).outcome = .ok out ↔
      ∃ rest, (qualifyParts bound skip parts).outcome = .ok rest ∧ out = c :: rest := by
  rw [outcome_qualifyParts_plain, map_eq_ok_iff]
  simp only [eq_comm]

/-- What it means that a selector is qualified which starts with a clause. -/
theorem exists_of_qualify_clause {r name value rest t : Text}
    (hclause : clauseBody? r = some (name, value, rest))
    (h : (qualify bound skip ('@' :: 't' :: '-' :: r)).outcome = .ok t) :
    ∃ filled out, (qualifyUnlessSkipped bound skip name value).outcome = .ok filled ∧
      (qualify bound skip rest).outcome = .ok out ∧ (clause name filled).render ++ out = t := by
  rw [qualify, ofSelector_clause hclause] at h
  obtain ⟨filled, out, hfilled, hrest, rfl⟩ := qualifyParts_clause_iff.1 h
  exact ⟨filled, out, hfilled, hrest, rfl⟩

/-- A selector that starts with a plain character is that character and the
qualified rest. -/
theorem outcome_qualify_plain {c : Char} {r : Text}
    (hplain : ofSelector (c :: r) = .plain c :: ofSelector r) :
    (qualify bound skip (c :: r)).outcome = (qualify bound skip r).outcome.map (c :: ·) := by
  rw [qualify, hplain, outcome_qualifyParts_plain, qualify]

/-- What it means that a selector is qualified which starts with a character. -/
theorem exists_of_qualify_plain {c : Char} {r t : Text}
    (hplain : ofSelector (c :: r) = .plain c :: ofSelector r)
    (h : (qualify bound skip (c :: r)).outcome = .ok t) :
    ∃ out, (qualify bound skip r).outcome = .ok out ∧ t = c :: out := by
  rw [qualify, hplain] at h
  exact qualifyParts_plain_iff.1 h

end Inversion

section

variable (bound : NameSet) (skip : List Text)

/-- Marks outside of clause values start no clause, so that a selector is
qualified around them. -/
theorem skips_qualify : Skips (qualify bound skip) := by
  apply skips_of_cons
  intro c r hc _
  have hat : c ≠ '@' := hc.ne (by decide) (by decide)
  show (qualifyParts bound skip (ofSelector (c :: r))).outcome = _
  rw [ofSelector_cons fun h => absurd h hat]
  rfl

/-- The value of a clause is settled, be it skipped, a dynamic string or an
expression. -/
theorem settles_qualifyUnlessSkipped (name value : Text) :
    Settles Barrier (qualifyUnlessSkipped bound skip name) value := by
  by_cases hskip : skip.contains name = true
  · have heq : qualifyUnlessSkipped bound skip name = pure := by
      funext v
      rw [qualifyUnlessSkipped, if_pos hskip]
    rw [heq]
    exact settles_pure Barrier value
  -- the value of a called template is text with holes, any other value an expression
  · by_cases hcall : name = callClause
    · have heq : qualifyUnlessSkipped bound skip name = qualifyDynamic bound := by
        funext v
        rw [qualifyUnlessSkipped, if_neg hskip, qualifyClause, if_pos hcall]
      rw [heq]
      exact (settles_qualifyDynamic bound value).weaken fun _ _ => trivial
    · have heq : qualifyUnlessSkipped bound skip name = Expr.qualify bound := by
        funext v
        rw [qualifyUnlessSkipped, if_neg hskip, qualifyClause, if_neg hcall]
      rw [heq]
      exact settles_qualify bound value

/-- Nothing is marked in front of the value of a clause. -/
theorem solid_clause {name : Text} (hname : ∀ c ∈ name, isClauseNameChar c = true) :
    Solid '@' ('t' :: '-' :: (name ++ ['=', '\''])) := by
  intro after before X hX hold
  have hsplit : old X = ('t' :: '-' :: name) ++ ['=', '\''] := hold
  obtain ⟨Y, Z, rfl, hY, hZ⟩ := MarkedText.exists_append hsplit
  obtain ⟨hvY, hvZ⟩ := (valid_append Y Z).1 hX
  have hw : ∀ c ∈ 't' :: '-' :: name, isClauseNameChar c = true :=
    List.forall_mem_cons.2 ⟨by decide, List.forall_mem_cons.2 ⟨by decide, hname⟩⟩
  rw [(inName_at before).eq_plain hw hvY hY, eq_plain_of_valid hvZ hZ (by decide), ← plain_append]
  rfl

/-- A clause as it stands in front of a text. -/
theorem clause_text (name value rest : Text) :
    '@' :: ('t' :: '-' :: (name ++ ['=', '\'']) ++ (value ++ (['\''] ++ rest))) =
      '@' :: 't' :: '-' :: (name ++ '=' :: '\'' :: (value ++ '\'' :: rest)) := by
  simp

/-- A clause in front of a text, spelled out. -/
theorem render_append (name value rest : Text) : (clause name value).render ++ rest =
    '@' :: 't' :: '-' :: (name ++ '=' :: '\'' :: (value ++ '\'' :: rest)) := by
  show ['@', 't', '-'] ++ name ++ ['=', '\''] ++ value ++ ['\''] ++ rest = _
  simp

/-- A character that starts no clause in front of a settled selector. -/
theorem settles_qualify_cons {c : Char} {r : Text}
    (hplain : ofSelector (c :: r) = .plain c :: ofSelector r)
    (h : Settles (fun _ => True) (qualify bound skip) r) :
    Settles (fun _ => True) (qualify bound skip) (c :: r) := by
  intro out hout
  obtain ⟨out₁, hrest, rfl⟩ := exists_of_qualify_plain hplain hout
  obtain ⟨A₁, hA⟩ := h out₁ hrest
  refine ⟨_, hA.prepend (w := []) (skips_qualify bound skip) (solid_nil c) ?_⟩
  intro A hcovers hv hstays
  have hold : old A = r := hcovers.old.trans hA.old_eq
  subst hold
  show (qualify bound skip (c :: new A)).outcome = _
  rw [outcome_qualify_plain (ofSelector_cons_new hv hplain), hstays]
  rfl

/-- **Qualifying a selector settles it.**  Names of clauses and quotes are
solid, so the same clauses are found again around the settled values. -/
theorem settles_qualifySelector (t : Text) : Settles (fun _ => True) (qualify bound skip) t := by
  induction t using ofSelector.induct with
  | case1 =>
    intro out hout
    rw [qualify, ofSelector] at hout
    cases hout
    refine ⟨[], rfl, rfl, fun _ _ _ => trivial, ?_⟩
    rintro A rfl -
    rw [qualify, new_nil, ofSelector]
    rfl
  | case2 r name value rest hclause hlt ih =>
    intro out hout
    obtain ⟨filled, out₁, hfilled, hrest, rfl⟩ := exists_of_qualify_clause hclause hout
    obtain ⟨rfl, hne, hname, hvalue⟩ := eq_of_clauseBody? hclause
    obtain ⟨A₁, hA⟩ := ih out₁ hrest
    obtain ⟨H, hH⟩ := settles_qualifyUnlessSkipped bound skip name value filled hfilled
    -- the value stands behind a quote, which no insertion reads across
    have hbarrier : ∀ before, Barrier
        (('t' :: '-' :: (name ++ ['=', '\''])).reverse ++ '@' :: before) := by
      intro before c hc
      simp only [List.reverse_cons, List.reverse_append] at hc
      exact Or.inr (Option.some.inj hc).symm
    have hsettled := hA.hole (c := '@') (w := 't' :: '-' :: (name ++ ['=', '\'']))
      ['\''] hH (skips_qualify bound skip) (solid_clause hname) hbarrier (by decide)
      (fun r => stopsAt_cons (by decide)) (fun X A hX hvX _ hfill hstays => ?_)
    · rw [clause_text, clause_text, ← render_append name filled] at hsettled
      exact ⟨_, hsettled⟩
    have hvalue' : ∀ c ∈ new X, isClauseValueChar c = true :=
      isClauseValueChar_new hvX (by rw [hX.old, hH.old_eq]; exact hvalue)
    have hread := ofSelector_clause (clauseBody?_write hne hname hvalue' (new A))
    rw [qualify] at hstays
    rw [clause_text, qualify, hread, outcome_qualifyParts_clause, hfill]
    simp only [Except.bind, hstays, Except.map, render_append]
  | case3 r hclause ih => exact settles_qualify_cons bound skip (ofSelector_at hclause) ih
  | case4 c r hno ih =>
    refine settles_qualify_cons bound skip (ofSelector_cons ?_) ih
    rintro hc ⟨s, hs⟩
    exact hno s hc hs.symm

end

/-! ## §4. Clause by clause. -/

variable {bound : NameSet} {skip : List Text}

/-- How a part of a selector is qualified.  Only the values of clauses change,
and the name says in which way. -/
def Fills (bound : NameSet) (skip : List Text) : SelectorPart → SelectorPart → Prop
  | .plain c, q => q = .plain c
  | .clause name value, q => ∃ filled, q = .clause name filled ∧
      (qualifyUnlessSkipped bound skip name value).outcome = .ok filled

/-- A character that starts no clause stays in front of the parts of the rest,
as what follows it cannot make it start one. -/
theorem fills_cons {c : Char} {r t : Text}
    (hplain : ofSelector (c :: r) = .plain c :: ofSelector r)
    (hrest : ∀ {out}, (qualify bound skip r).outcome = .ok out →
      List.Forall₂ (Fills bound skip) (ofSelector r) (ofSelector out))
    (h : (qualify bound skip (c :: r)).outcome = .ok t) :
    List.Forall₂ (Fills bound skip) (ofSelector (c :: r)) (ofSelector t) := by
  obtain ⟨out, hout, rfl⟩ := exists_of_qualify_plain hplain h
  obtain ⟨A, hA⟩ := settles_qualifySelector bound skip r out hout
  have hold := hA.old_eq
  subst hold
  rw [hplain, ← hA.new_eq, ofSelector_cons_new (hA.valid [] [c] trivial) hplain, hA.new_eq]
  exact .cons rfl (hrest hout)

/-- **A qualified selector has the parts of the selector**, with the values of
its clauses qualified. -/
theorem fills_of_qualify {t out : Text} (h : (qualify bound skip t).outcome = .ok out) :
    List.Forall₂ (Fills bound skip) (ofSelector t) (ofSelector out) := by
  induction t using ofSelector.induct generalizing out with
  | case1 =>
    rw [qualify, ofSelector] at h
    cases h
    rw [ofSelector]
    exact .nil
  | case2 r name value rest hclause hlt ih =>
    obtain ⟨filled, out₁, hfilled, hrest, rfl⟩ := exists_of_qualify_clause hclause h
    obtain ⟨-, hne, hname, hvalue⟩ := eq_of_clauseBody? hclause
    -- the value is read back up to its closing apostrophe
    obtain ⟨H, hH⟩ := settles_qualifyUnlessSkipped bound skip name value filled hfilled
    have hvalue' : ∀ c ∈ filled, isClauseValueChar c = true := by
      have hvalid : Valid [] [] H := hH.valid [] [] barrier_nil
      rw [← hH.new_eq]
      exact isClauseValueChar_new hvalid (by rw [hH.old_eq]; exact hvalue)
    rw [ofSelector_clause hclause, render_append,
      ofSelector_clause (clauseBody?_write hne hname hvalue' out₁)]
    exact .cons ⟨filled, rfl, hfilled⟩ (ih hrest)
  | case3 r hclause ih => exact fills_cons (ofSelector_at hclause) (fun h => ih h) h
  | case4 c r hno ih =>
    refine fills_cons (ofSelector_cons ?_) (fun h => ih h) h
    rintro hc ⟨s, hs⟩
    exact hno s hc hs.symm

end Selector
end QwebReceiver
