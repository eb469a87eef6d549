import QwebReceiver.Proofs.Expr.Dynamic
import QwebReceiver.Proofs.Selector

/-!
  QwebReceiver.Proofs.Selector.Compose — selectors, qualified twice.

  The clauses of a selector are the matches of one pattern: `@t-`, a name, and
  a value between apostrophes on one line.  They are taken from left to right
  and do not overlap, so a clause may hide another that starts inside of it.
  Qualifying values makes no clause, breaks none and hides none, hence the
  qualified selector has the clauses of the selector, in order and by name.

  Main results:

    * `splits_iff` — the parts of a selector are its only split;
    * `qualifySelector_compose` — two passes are one pass against the names
      that both bind.
-/

namespace QwebReceiver

open QwebReceiver.Text QwebReceiver.Expr

namespace SelectorPart

/-! ## §1. Splits. -/

/-- The text that the parts make up. -/
def renderAll (parts : List SelectorPart) : Text := parts.flatMap render

/-- The pattern of a clause: what its name and its value may hold.  The value
ends at the first quote. -/
structure IsClause (name value : Text) : Prop where
  name_ne_nil : name ≠ []
  name : ∀ c ∈ name, isClauseNameChar c = true
  value : ∀ c ∈ value, isClauseValueChar c = true

/-- A clause stands at the start of the text.  By this the parts of a selector
are told without a reader. -/
def StartsClause (t : Text) : Prop :=
  ∃ name value, IsClause name value ∧ (clause name value).render <+: t

/-- What a part claims of the text behind it: a character that is left plain
starts no clause. -/
def Justified (rest : Text) : SelectorPart → Prop
  | .plain c => ¬ StartsClause (c :: rest)
  | .clause name value => IsClause name value

/-- Every clause is taken where the one before it ends, or later, and none is
left out in between. -/
def Faithful : List SelectorPart → Prop
  | [] => True
  | p :: ps => p.Justified (renderAll ps) ∧ Faithful ps

/-- The parts make up the text, and its clauses are those that are found from
left to right. -/
def Splits (t : Text) (parts : List SelectorPart) : Prop := renderAll parts = t ∧ Faithful parts

@[simp] theorem renderAll_nil : renderAll [] = [] := rfl

@[simp] theorem renderAll_cons (p : SelectorPart) (ps : List SelectorPart) :
    renderAll (p :: ps) = p.render ++ renderAll ps := rfl

/-- A clause stands where its pattern is read. -/
theorem startsClause_iff {t : Text} :
    StartsClause t ↔ ∃ r, t = '@' :: 't' :: '-' :: r ∧ clauseBody? r ≠ none := by
  constructor
  · rintro ⟨name, value, hclause, rest, rfl⟩
    refine ⟨_, Selector.render_append name value rest, ?_⟩
    rw [Selector.clauseBody?_write hclause.name_ne_nil hclause.name hclause.value]
    exact Option.some_ne_none _
  · rintro ⟨r, rfl, hne⟩
    obtain ⟨⟨name, value, rest⟩, hbody⟩ := Option.ne_none_iff_exists'.1 hne
    obtain ⟨rfl, hname, hnames, hvalues⟩ := Selector.eq_of_clauseBody? hbody
    exact ⟨name, value, ⟨hname, hnames, hvalues⟩, rest, Selector.render_append name value rest⟩

/-- Where no clause stands, the character is a plain part. -/
theorem ofSelector_plain {c : Char} {r : Text} (h : ¬ StartsClause (c :: r)) :
    ofSelector (c :: r) = .plain c :: ofSelector r := by
  by_cases hstart : c = '@' ∧ ['t', '-'] <+: r
  · obtain ⟨rfl, s, rfl⟩ := hstart
    refine Selector.ofSelector_at ?_
    by_contra hne
    exact h (startsClause_iff.2 ⟨s, rfl, hne⟩)
  · exact Selector.ofSelector_cons fun hc hr => hstart ⟨hc, hr⟩

/-- The parts of a selector are a split of it. -/
theorem splits_ofSelector (t : Text) : Splits t (ofSelector t) := by
  have hplain : ∀ {c : Char} {r : Text}, ¬ StartsClause (c :: r) → Splits r (ofSelector r) →
      Splits (c :: r) (ofSelector (c :: r)) := by
    intro c r hno hr
    rw [ofSelector_plain hno]
    refine ⟨congrArg (c :: ·) hr.1, ?_, hr.2⟩
    rw [hr.1]
    exact hno
  -- one case per way the reader goes on: the end, a clause, an `@t-` that starts none,
  -- any other character
  induction t using ofSelector.induct with
  | case1 =>
    rw [ofSelector]
    exact ⟨rfl, trivial⟩
  | case2 r name value rest hclause _ ih =>
    rw [Selector.ofSelector_clause hclause]
    obtain ⟨rfl, hname, hnames, hvalues⟩ := Selector.eq_of_clauseBody? hclause
    refine ⟨?_, ⟨hname, hnames, hvalues⟩, ih.2⟩
    rw [renderAll_cons, ih.1, Selector.render_append]
  | case3 r hclause ih =>
    refine hplain ?_ ih
    rw [startsClause_iff]
    rintro ⟨s, hs, hne⟩
    cases hs
    exact hne hclause
  | case4 c r hno ih =>
    refine hplain ?_ ih
    rw [startsClause_iff]
    rintro ⟨s, hs, -⟩
    obtain ⟨hc, hr⟩ := List.cons.inj hs
    exact hno s hc hr

/-- A text has no other split. -/
theorem Splits.eq_ofSelector {t : Text} {parts : List SelectorPart} (h : Splits t parts) :
    parts = ofSelector t := by
  induction parts generalizing t with
  | nil =>
    rw [← h.1, renderAll_nil, ofSelector]
  | cons p ps ih =>
    obtain ⟨rfl, hfaithful⟩ := h
    have hrest : ps = ofSelector (renderAll ps) := ih ⟨rfl, hfaithful.2⟩
    rw [renderAll_cons]
    cases p with
    | plain c =>
      exact (congrArg (plain c :: ·) hrest).trans (ofSelector_plain hfaithful.1).symm
    | clause name value =>
      have hclause : IsClause name value := hfaithful.1
      rw [Selector.render_append, Selector.ofSelector_clause (Selector.clauseBody?_write
        hclause.name_ne_nil hclause.name hclause.value (renderAll ps)), ← hrest]

/-- **The parts of a selector are its only split.**  So what is said of any
split is said of the parts that the reader finds. -/
theorem splits_iff {t : Text} {parts : List SelectorPart} :
    Splits t parts ↔ parts = ofSelector t := by
  constructor
  · exact Splits.eq_ofSelector
  · rintro rfl
    exact splits_ofSelector t

end SelectorPart

namespace Selector

open SelectorPart

/-! ## §2. Two passes. -/

variable {first second : NameSet} {skip : List Text}

/-- Two passes over the value of a clause make what one pass makes. -/
theorem composes_qualifyUnlessSkipped (first second : NameSet) (skip : List Text)
    (name value : Text) :
    Composes (qualifyUnlessSkipped first skip name) (qualifyUnlessSkipped second skip name)
      (qualifyUnlessSkipped (first.inter second) skip name) value := by
  intro out both hout hboth
  unfold qualifyUnlessSkipped qualifyClause at *
  by_cases hskip : skip.contains name = true
  · rw [if_pos hskip] at *
    cases hout
    exact hboth
  rw [if_neg hskip] at *
  by_cases hcall : name = callClause
  · rw [if_pos hcall] at *
    exact composes_qualifyDynamic first second value out both hout hboth
  · rw [if_neg hcall] at *
    exact composes_qualify first second value out both hout hboth

/-- A value that can be qualified against some names can be qualified against
any. -/
theorem exists_qualifyUnlessSkipped_of_ok {bound : NameSet} {name value out : Text}
    (h : (qualifyUnlessSkipped bound skip name value).outcome = .ok out) (bound' : NameSet) :
    ∃ out', (qualifyUnlessSkipped bound' skip name value).outcome = .ok out' := by
  unfold qualifyUnlessSkipped qualifyClause at *
  by_cases hskip : skip.contains name = true
  · rw [if_pos hskip] at *
    exact ⟨value, rfl⟩
  rw [if_neg hskip] at *
  by_cases hcall : name = callClause
  · rw [if_pos hcall] at *
    exact exists_qualifyDynamic_of_ok h bound'
  · rw [if_neg hcall] at *
    exact exists_qualify_of_ok h bound'

/-- Parts that were qualified are qualified again. -/
theorem qualifyParts_filled {ps qs : List SelectorPart}
    (h : List.Forall₂ (Fills first skip) ps qs) {both : Text}
    (hboth : (qualifyParts (first.inter second) skip ps).outcome = .ok both) :
    (qualifyParts second skip qs).outcome = .ok both := by
  induction h generalizing both with
  | nil => exact hboth
  | @cons p q ps qs hfills _ ih =>
    cases p with
    | plain c =>
      obtain rfl : q = .plain c := hfills
      obtain ⟨rest, hrest, rfl⟩ := qualifyParts_plain_iff.1 hboth
      exact qualifyParts_plain_iff.2 ⟨rest, ih hrest, rfl⟩
    | clause name value =>
      obtain ⟨filled, rfl, hfilled⟩ := hfills
      obtain ⟨filled', rest, hfilled', hrest, rfl⟩ := qualifyParts_clause_iff.1 hboth
      -- the second pass over the filled value is the pass with both sets over the value
      -- itself
      have hagain := composes_qualifyUnlessSkipped first second skip name value filled filled'
        hfilled hfilled'
      exact qualifyParts_clause_iff.2 ⟨filled', rest, hagain, ih hrest, rfl⟩

/-- Parts that can be qualified against some names can be qualified against
any. -/
theorem exists_qualifyParts_of_ok {bound : NameSet} {parts : List SelectorPart} {out : Text}
    (h : (qualifyParts bound skip parts).outcome = .ok out) (bound' : NameSet) :
    ∃ out', (qualifyParts bound' skip parts).outcome = .ok out' := by
  induction parts generalizing out with
  | nil => exact ⟨[], rfl⟩
  | cons p ps ih =>
    cases p with
    | plain c =>
      obtain ⟨rest, hrest, -⟩ := qualifyParts_plain_iff.1 h
      obtain ⟨rest', hrest'⟩ := ih hrest
      exact ⟨_, qualifyParts_plain_iff.2 ⟨rest', hrest', rfl⟩⟩
    | clause name value =>
      obtain ⟨filled, rest, hfilled, hrest, -⟩ := qualifyParts_clause_iff.1 h
      obtain ⟨filled', hfilled'⟩ := exists_qualifyUnlessSkipped_of_ok hfilled bound'
      obtain ⟨rest', hrest'⟩ := ih hrest
      exact ⟨_, qualifyParts_clause_iff.2 ⟨filled', rest', hfilled', hrest', rfl⟩⟩

/-- Two passes over a selector make what one pass makes. -/
theorem composes_qualifySelector (first second : NameSet) (skip : List Text) (selector : Text) :
    Composes (qualify first skip) (qualify second skip) (qualify (first.inter second) skip)
      selector := by
  intro out both hout hboth
  exact qualifyParts_filled (fills_of_qualify hout) hboth

/-- **A qualified selector has the parts of the selector**: the same text
outside of values, the same clauses by name, values of skipped clauses as they
were, and the others qualified, as a dynamic string in a call and as an
expression elsewhere.  **Two passes are one pass against the names that both
bind**, so a second pass against the same names changes nothing. -/
theorem qualifySelector_compose {selector out : Text}
    (h : (qualify first skip selector).outcome = .ok out) :
    (∃ ps qs, (∀ xs, SelectorPart.Splits selector xs ↔ xs = ps) ∧
      (∀ xs, SelectorPart.Splits out xs ↔ xs = qs) ∧ List.Forall₂ (Fills first skip) ps qs) ∧
      (∃ both, (qualify second skip out).outcome = .ok both ∧
        (qualify (first.inter second) skip selector).outcome = .ok both) ∧
      (qualify first skip out).outcome = .ok out := by
  obtain ⟨both, hboth⟩ := exists_qualifyParts_of_ok h (first.inter second)
  have hsame : (qualify first skip out).outcome = .ok out := by
    refine composes_qualifySelector first first skip selector out out h ?_
    rw [NameSet.inter_self]
    exact h
  exact ⟨⟨_, _, fun _ => splits_iff, fun _ => splits_iff, fills_of_qualify h⟩,
    ⟨both, composes_qualifySelector first second skip selector out both h hboth, hboth⟩, hsame⟩

/-- The end of a line breaks the first clause, so it is none; the one behind it
is found, and its value is a dynamic string.  The first pass binds `a`, the
second one `b`. -/
theorem qualifySelector_compose_sample :
    (qualify (.ofList ["a".toList]) literalClauses "[@t-x='b\n'][@t-call='{{b}}']".toList).outcome =
        .ok "[@t-x='b\n'][@t-call='{{this.b}}']".toList ∧
      (∃ ps qs, (∀ xs, SelectorPart.Splits "[@t-x='b\n'][@t-call='{{b}}']".toList xs ↔ xs = ps) ∧
        (∀ xs, SelectorPart.Splits "[@t-x='b\n'][@t-call='{{this.b}}']".toList xs ↔ xs = qs) ∧
        List.Forall₂ (Fills (.ofList ["a".toList]) literalClauses) ps qs) ∧
      (∃ both, (qualify (.ofList ["b".toList]) literalClauses
          "[@t-x='b\n'][@t-call='{{this.b}}']".toList).outcome = .ok both ∧
        (qualify ((NameSet.ofList ["a".toList]).inter (.ofList ["b".toList])) literalClauses
          "[@t-x='b\n'][@t-call='{{b}}']".toList).outcome = .ok both) ∧
      (qualify (.ofList ["a".toList]) literalClauses
        "[@t-x='b\n'][@t-call='{{this.b}}']".toList).outcome =
          .ok "[@t-x='b\n'][@t-call='{{this.b}}']".toList := by
  have h : (qualify (.ofList ["a".toList]) literalClauses
      "[@t-x='b\n'][@t-call='{{b}}']".toList).outcome =
        .ok "[@t-x='b\n'][@t-call='{{this.b}}']".toList := by
    decide +kernel
  exact ⟨h, qualifySelector_compose h⟩

end Selector
end QwebReceiver
