import QwebReceiver.Proofs.Expr.Compose

/-!
  QwebReceiver.Proofs.Expr.Dynamic — dynamic strings, qualified twice.

  A dynamic string is split from left to right: where an opening delimiter
  stands and something closes it, a hole begins, and every other character is
  plain.  So a decision taken at one place depends on all the text behind it,
  on delimiters and expressions that come later too.  Marks change none of
  these decisions, hence the qualified string splits where the string does.

    at the place           piece
    `#{` and its `}`       a hole, up to the first closing brace
    `{{` and its `}}`      a hole, up to the first pair of closing braces
    `#{` or `{{` alone     a plain character
    anything else          a plain character

  Main results:

    * `splits_iff` — the pieces of a string are its only split;
    * `filled_of_fillDynamic` — the pieces of a filled string are those of the
      string, filled;
    * `qualifyDynamic_compose` — two passes are one pass against the names that
      both bind.
-/

namespace QwebReceiver.Expr

open QwebReceiver.Text MarkedText

/-! ## §1. Splits. -/

namespace Piece

/-- An opening delimiter stands at the start of the text, of either of the two
kinds of interpolation. -/
def Opens (t : Text) : Prop := ['#', '{'] <+: t ∨ ['{', '{'] <+: t

/-- An opening delimiter stands at the start of the text, and nothing closes
it. -/
def Unclosed (t : Text) : Prop :=
  (∃ r, t = '#' :: '{' :: r ∧ closingBrace r = none) ∨
    ∃ r, t = '{' :: '{' :: r ∧ closingDoubleBrace r = none

/-- Between its delimiters the expression ends where the first of them is
closed, if `rest` is what follows. -/
def Closed (opening expr closing rest : Text) : Prop :=
  (opening = ['#', '{'] ∧ closing = ['}'] ∧
    closingBrace (expr ++ (closing ++ rest)) = some (expr, rest)) ∨
  (opening = ['{', '{'] ∧ closing = ['}', '}'] ∧
    closingDoubleBrace (expr ++ (closing ++ rest)) = some (expr, rest))

/-- What a piece claims of the text behind it: a hole is closed there, and a
delimiter that is left plain is not. -/
def Justified (rest : Text) : Piece → Prop
  | .plain c => Opens (c :: rest) → Unclosed (c :: rest)
  | .hole opening expr closing => Closed opening expr closing rest

/-- Every delimiter that is closed opens a hole, and no other one does.  Whether
a piece is one is judged by the text it makes up with the pieces behind it. -/
def Faithful : List Piece → Prop
  | [] => True
  | p :: ps => p.Justified (renderAll ps) ∧ Faithful ps

/-- The pieces make up the text and are found where its delimiters are.  No
scanner is named here, so that this can be compared with what the scanner
returns. -/
def Splits (t : Text) (ps : List Piece) : Prop := renderAll ps = t ∧ Faithful ps

@[simp] theorem renderAll_nil : renderAll [] = [] := rfl

@[simp] theorem renderAll_plain (c : Char) (ps : List Piece) :
    renderAll (.plain c :: ps) = c :: renderAll ps := rfl

/-- The text of a hole is its delimiters with the expression between them. -/
@[simp] theorem renderAll_hole (opening expr closing : Text) (ps : List Piece) :
    renderAll (.hole opening expr closing :: ps) =
      opening ++ (expr ++ (closing ++ renderAll ps)) := by
  show opening ++ expr ++ closing ++ renderAll ps = _
  simp only [List.append_assoc]

/-- An opening delimiter is `#` or a brace, with a brace behind it. -/
theorem opens_iff {c : Char} {r : Text} :
    Opens (c :: r) ↔ (c = '#' ∨ c = '{') ∧ r.head? = some '{' := by
  have hprefix : ∀ d : Char, [d, '{'] <+: c :: r ↔ c = d ∧ r.head? = some '{' := by
    intro d
    rw [List.cons_prefix_cons, eq_comm, List.head?_eq_some_iff]
    refine and_congr_right fun _ => ⟨?_, ?_⟩
    · rintro ⟨s, rfl⟩
      exact ⟨s, rfl⟩
    · rintro ⟨s, rfl⟩
      exact ⟨s, rfl⟩
  rw [Opens, hprefix, hprefix, or_and_right]

theorem Unclosed.opens {t : Text} (h : Unclosed t) : Opens t := by
  rcases h with ⟨r, rfl, -⟩ | ⟨r, rfl, -⟩
  · exact Or.inl ⟨r, rfl⟩
  · exact Or.inr ⟨r, rfl⟩

/-- The pieces of a dynamic string are a split of it. -/
theorem splits_ofDynamicString (t : Text) : Splits t (ofDynamicString t) := by
  -- the cases are those in which the splitter goes on: a hole, a delimiter that nothing
  -- closes, or any other character
  induction t using ofDynamicString.induct with
  | case1 =>
    rw [ofDynamicString]
    exact ⟨rfl, trivial⟩
  | case2 r expr rest hclose _ ih =>
    obtain rfl : r = expr ++ '}' :: rest := eq_append_of_closing rfl hclose
    rw [ofDynamicString_hashHole hclose]
    refine ⟨?_, Or.inl ⟨rfl, rfl, ?_⟩, ih.2⟩
    · rw [renderAll_hole, ih.1]
      rfl
    · rw [ih.1]
      exact hclose
  | case3 r hclose ih =>
    rw [ofDynamicString_hash hclose]
    refine ⟨congrArg ('#' :: ·) ih.1, fun _ => ?_, ih.2⟩
    rw [ih.1]
    exact Or.inl ⟨r, rfl, hclose⟩
  | case4 r expr rest hclose _ ih =>
    obtain rfl : r = expr ++ '}' :: '}' :: rest := exists_of_closingDoubleFrom hclose
    rw [ofDynamicString_doubleHole hclose]
    refine ⟨?_, Or.inr ⟨rfl, rfl, ?_⟩, ih.2⟩
    · rw [renderAll_hole, ih.1]
      rfl
    · rw [ih.1]
      exact hclose
  | case5 r hclose ih =>
    rw [ofDynamicString_double hclose]
    refine ⟨congrArg ('{' :: ·) ih.1, fun _ => ?_, ih.2⟩
    rw [ih.1]
    exact Or.inr ⟨r, rfl, hclose⟩
  | case6 c r hhash hbrace ih =>
    -- no delimiter stands here, so the piece makes no claim
    have hno : ¬ Opens (c :: r) := by
      rw [opens_iff, List.head?_eq_some_iff]
      rintro ⟨rfl | rfl, s, hs⟩
      · exact hhash s rfl hs
      · exact hbrace s rfl hs
    have hhead : ∀ d, (d = '#' ∨ d = '{') → c = d → r.head? ≠ some '{' := by
      rintro d hd rfl hr
      exact hno (opens_iff.2 ⟨hd, hr⟩)
    rw [ofDynamicString_cons (hhead '#' (.inl rfl)) (hhead '{' (.inr rfl))]
    refine ⟨congrArg (c :: ·) ih.1, fun hopens => ?_, ih.2⟩
    rw [ih.1] at hopens
    exact absurd hopens hno

/-- A text has no other split. -/
theorem Splits.eq_ofDynamicString {t : Text} {ps : List Piece} (h : Splits t ps) :
    ps = ofDynamicString t := by
  -- a split tells at each piece which step the splitter takes
  induction ps generalizing t with
  | nil =>
    rw [← h.1, renderAll_nil, ofDynamicString]
  | cons p ps ih =>
    obtain ⟨rfl, hfaithful⟩ := h
    have hrest : ps = ofDynamicString (renderAll ps) := ih ⟨rfl, hfaithful.2⟩
    cases p with
    | hole opening expr closing =>
      rw [renderAll_hole]
      rcases hfaithful.1 with ⟨rfl, rfl, hclose⟩ | ⟨rfl, rfl, hclose⟩
      · exact (congrArg _ hrest).trans (ofDynamicString_hashHole hclose).symm
      · exact (congrArg _ hrest).trans (ofDynamicString_doubleHole hclose).symm
    | plain c =>
      rw [renderAll_plain]
      refine (congrArg (Piece.plain c :: ·) hrest).trans ?_
      -- a plain character may be a delimiter only if nothing closes it
      by_cases hopens : Opens (c :: renderAll ps)
      · rcases hfaithful.1 hopens with ⟨r, hr, hclose⟩ | ⟨r, hr, hclose⟩
        · obtain ⟨rfl, hbrace⟩ := List.cons.inj hr
          rw [hbrace, ofDynamicString_hash hclose]
        · obtain ⟨rfl, hbrace⟩ := List.cons.inj hr
          rw [hbrace, ofDynamicString_double hclose]
      · rw [opens_iff] at hopens
        rw [ofDynamicString_cons]
        · exact fun hc hr => hopens ⟨.inl hc, hr⟩
        · exact fun hc hr => hopens ⟨.inr hc, hr⟩

/-- What a hole closes is closed: the end that the hole claims is the one that
the scanner finds. -/
theorem not_unclosed_of_closed {opening expr closing rest : Text}
    (h : Closed opening expr closing rest) :
    ¬ Unclosed (opening ++ (expr ++ (closing ++ rest))) := by
  rcases h with ⟨rfl, rfl, hclose⟩ | ⟨rfl, rfl, hclose⟩
  · rintro (⟨r, hr, hnone⟩ | ⟨r, hr, -⟩)
    · simp only [List.cons_append, List.nil_append, List.cons.injEq, true_and] at hr
      rw [← hr, ← List.singleton_append, hclose] at hnone
      cases hnone
    · cases hr
  · rintro (⟨r, hr, -⟩ | ⟨r, hr, hnone⟩)
    · cases hr
    · simp only [List.cons_append, List.nil_append, List.cons.injEq, true_and] at hr
      rw [← hr] at hnone
      rw [List.cons_append, List.cons_append, List.nil_append] at hclose
      rw [hclose] at hnone
      cases hnone

/-- The delimiters that nothing closes are those that are left plain. -/
theorem Faithful.unclosed_iff {ps : List Piece} (h : Faithful ps) (i : Nat) :
    Unclosed (renderAll (ps.drop i)) ↔
      Opens (renderAll (ps.drop i)) ∧ ∃ c, ps[i]? = some (.plain c) := by
  induction ps generalizing i with
  | nil =>
    rw [List.drop_nil]
    constructor
    · rintro (⟨r, hr, -⟩ | ⟨r, hr, -⟩) <;> cases hr
    · rintro ⟨-, c, hc⟩
      cases hc
  | cons p ps ih =>
    cases i with
    | succ i => exact ih h.2 i
    | zero =>
      cases p with
      | plain c => exact ⟨fun hu => ⟨hu.opens, c, rfl⟩, fun ho => h.1 ho.1⟩
      -- a hole is closed, and it is no plain character
      | hole opening expr closing =>
        constructor
        · intro hu
          rw [List.drop_zero, renderAll_hole] at hu
          exact absurd hu (not_unclosed_of_closed h.1)
        · rintro ⟨-, c, hc⟩
          cases hc

/-- **The pieces of a dynamic string are its only split.**  So what is said of
any split is said of the pieces that the scanner finds. -/
theorem splits_iff {t : Text} {ps : List Piece} : Splits t ps ↔ ps = ofDynamicString t := by
  constructor
  · exact Splits.eq_ofDynamicString
  · rintro rfl
    exact splits_ofDynamicString t

end Piece

/-! ## §2. Pieces of filled strings. -/

section Filled

variable {inner : Scanner}

/-- The holes of a filled dynamic string are found where they were. -/
theorem filled_of_fillDynamic (h : ∀ e, Settles Barrier inner e) {t out : Text}
    (hout : (fillDynamic inner t).outcome = .ok out) :
    List.Forall₂ (Filled inner) (Piece.ofDynamicString t) (Piece.ofDynamicString out) := by
  induction t using Piece.ofDynamicString.induct generalizing out with
  | case1 =>
    rw [fillDynamic, Piece.ofDynamicString] at hout
    cases hout
    rw [Piece.ofDynamicString]
    exact .nil
  | case2 r expr rest hclose _ ih =>
    rw [fillDynamic, ofDynamicString_hashHole hclose] at hout
    obtain ⟨filled, out₁, hfilled, hout₁, rfl⟩ := fillPieces_hole_eq_ok hout
    obtain rfl : r = expr ++ '}' :: rest := eq_append_of_closing rfl hclose
    have hclose' := closingBrace_filled (h expr) hfilled hclose out₁
    have happend : ['#', '{'] ++ filled ++ ['}'] ++ out₁ =
        '#' :: '{' :: (filled ++ '}' :: out₁) := by
      simp
    rw [happend, ofDynamicString_hashHole hclose, ofDynamicString_hashHole hclose']
    exact .cons ⟨filled, rfl, hfilled⟩ (ih hout₁)
  | case3 r hclose ih =>
    rw [fillDynamic, ofDynamicString_hash hclose] at hout
    obtain ⟨out₁, hout₁, rfl⟩ := fillPieces_plain_eq_ok hout
    obtain ⟨A, hA⟩ := settles_fillDynamic inner h _ out₁ hout₁
    -- nothing that was filled in behind it closes the brace
    obtain ⟨X, rfl, rfl, hX⟩ := hA.exists_behind_brace
    have hclose' := closingBrace_new_none hX hclose
    rw [ofDynamicString_hash hclose, ofDynamicString_hash hclose']
    exact .cons rfl (ih hout₁)
  | case4 r expr rest hclose _ ih =>
    rw [fillDynamic, ofDynamicString_doubleHole hclose] at hout
    obtain ⟨filled, out₁, hfilled, hout₁, rfl⟩ := fillPieces_hole_eq_ok hout
    obtain rfl : r = expr ++ '}' :: '}' :: rest := exists_of_closingDoubleFrom hclose
    have hclose' := closingDoubleBrace_filled (h expr) hfilled hclose out₁
    have happend : ['{', '{'] ++ filled ++ ['}', '}'] ++ out₁ =
        '{' :: '{' :: (filled ++ '}' :: '}' :: out₁) := by
      simp
    rw [happend, ofDynamicString_doubleHole hclose, ofDynamicString_doubleHole hclose']
    exact .cons ⟨filled, rfl, hfilled⟩ (ih hout₁)
  | case5 r hclose ih =>
    rw [fillDynamic, ofDynamicString_double hclose] at hout
    obtain ⟨out₁, hout₁, rfl⟩ := fillPieces_plain_eq_ok hout
    obtain ⟨A, hA⟩ := settles_fillDynamic inner h _ out₁ hout₁
    obtain ⟨X, rfl, rfl, hX⟩ := hA.exists_behind_brace
    have hclose' := closingDoubleBrace_new_none hX hclose
    rw [ofDynamicString_double hclose, ofDynamicString_double hclose']
    exact .cons rfl (ih hout₁)
  | case6 c r hhash hbrace ih =>
    rw [fillDynamic, Piece.ofDynamicString.eq_4 c r hhash hbrace] at hout
    obtain ⟨out₁, hout₁, rfl⟩ := fillPieces_plain_eq_ok hout
    obtain ⟨A, hA⟩ := settles_fillDynamic inner h _ out₁ hout₁
    have hrest := ih hout₁
    obtain rfl := hA.old_eq
    obtain rfl := hA.new_eq
    rw [Piece.ofDynamicString.eq_4 c _ hhash hbrace,
      ofDynamicString_cons_new (hA.valid [] [] trivial) hhash hbrace]
    exact .cons rfl hrest

/-- A filled string starts with the character with which the string starts,
up to the expressions in it. -/
theorem head?_renderAll_filled {ps qs : List Piece} (h : List.Forall₂ (Filled inner) ps qs)
    (hp : Piece.Faithful ps) : (Piece.renderAll qs).head? = (Piece.renderAll ps).head? := by
  cases h with
  | nil => rfl
  | @cons p q ps qs hpq _ =>
    cases p with
    | plain c =>
      obtain rfl : q = .plain c := hpq
      rfl
    | hole opening expr closing =>
      obtain ⟨filled, rfl, -⟩ := hpq
      rcases hp.1 with ⟨rfl, -⟩ | ⟨rfl, -⟩
      · rfl
      · rfl

/-- Whatever was not closed is not closed in the filled string, and nothing
else. -/
theorem unclosed_iff_of_filled {ps qs : List Piece} (h : List.Forall₂ (Filled inner) ps qs)
    (hp : Piece.Faithful ps) (hq : Piece.Faithful qs) (i : Nat) :
    Piece.Unclosed (Piece.renderAll (ps.drop i)) ↔
      Piece.Unclosed (Piece.renderAll (qs.drop i)) := by
  induction h generalizing i with
  | nil => exact Iff.rfl
  | @cons p q ps qs hpq hrest ih =>
    cases i with
    | succ i => exact ih hp.2 hq.2 i
    | zero =>
      rw [hp.unclosed_iff 0, hq.unclosed_iff 0]
      cases p with
      | plain c =>
        obtain rfl : q = .plain c := hpq
        -- whether a delimiter stands here is decided by two characters, and filling
        -- changes neither
        have hhead := head?_renderAll_filled hrest hp.2
        refine and_congr ?_ Iff.rfl
        rw [List.drop_zero, List.drop_zero, Piece.renderAll_plain, Piece.renderAll_plain,
          Piece.opens_iff, Piece.opens_iff, hhead]
      | hole opening expr closing =>
        obtain ⟨filled, rfl, -⟩ := hpq
        constructor
        · rintro ⟨-, c, hc⟩
          cases hc
        · rintro ⟨-, c, hc⟩
          cases hc

end Filled

/-! ## §3. Two passes. -/

/-- Holes that can be filled in one way can be filled in another. -/
theorem exists_fillPieces_of_ok {inner inner' : Scanner}
    (h : ∀ e out, (inner e).outcome = .ok out → ∃ out', (inner' e).outcome = .ok out')
    {ps : List Piece} {out : Text} (hout : (fillPieces inner ps).outcome = .ok out) :
    ∃ out', (fillPieces inner' ps).outcome = .ok out' := by
  induction ps generalizing out with
  | nil => exact ⟨[], rfl⟩
  | cons p ps ih =>
    cases p with
    | plain c =>
      obtain ⟨rest, hrest, -⟩ := fillPieces_plain_eq_ok hout
      obtain ⟨rest', hrest'⟩ := ih hrest
      exact ⟨c :: rest', fillPieces_plain_of_ok hrest'⟩
    | hole opening expr closing =>
      obtain ⟨filled, rest, hfilled, hrest, -⟩ := fillPieces_hole_eq_ok hout
      obtain ⟨filled', hfilled'⟩ := h expr filled hfilled
      obtain ⟨rest', hrest'⟩ := ih hrest
      exact ⟨_, fillPieces_hole_of_ok hfilled' hrest'⟩

/-- Two passes over a dynamic string make what one pass makes. -/
theorem composes_qualifyDynamic (first second : NameSet) (text : Text) :
    Composes (qualifyDynamic first) (qualifyDynamic second) (qualifyDynamic (first.inter second))
      text := by
  intro out both hout hboth
  exact fillPieces_filled (filled_of_fillDynamic (settles_qualify first) hout)
    (fun _ e _ _ => composes_qualify first second e) hboth

/-- What can be qualified against some names can be qualified against any: bound
names decide what is inserted, never whether something is in order. -/
theorem exists_qualifyDynamic_of_ok {bound : NameSet} {text out : Text}
    (h : (qualifyDynamic bound text).outcome = .ok out) (bound' : NameSet) :
    ∃ out', (qualifyDynamic bound' text).outcome = .ok out' :=
  exists_fillPieces_of_ok (fun _ _ he => exists_qualify_of_ok he bound') h

/-- **A qualified dynamic string has the pieces of the string**: the same plain
characters and delimiters, unclosed ones included, and qualified expressions
between them.  **Two passes are one pass against the names that both bind**, so
a second pass against the same names changes nothing. -/
theorem qualifyDynamic_compose {first second : NameSet} {text out : Text}
    (h : (qualifyDynamic first text).outcome = .ok out) :
    (∃ ps qs, (∀ xs, Piece.Splits text xs ↔ xs = ps) ∧ (∀ xs, Piece.Splits out xs ↔ xs = qs) ∧
      List.Forall₂ (Filled (qualify first)) ps qs ∧
      ∀ i, (Piece.Unclosed (Piece.renderAll (ps.drop i)) ↔
          Piece.Opens (Piece.renderAll (ps.drop i)) ∧ ∃ c, ps[i]? = some (.plain c)) ∧
        (Piece.Unclosed (Piece.renderAll (ps.drop i)) ↔
          Piece.Unclosed (Piece.renderAll (qs.drop i)))) ∧
      (∃ both, (qualifyDynamic second out).outcome = .ok both ∧
        (qualifyDynamic (first.inter second) text).outcome = .ok both) ∧
      (qualifyDynamic first out).outcome = .ok out := by
  have hfilled := filled_of_fillDynamic (settles_qualify first) h
  have hps := Piece.splits_ofDynamicString text
  have hqs := Piece.splits_ofDynamicString out
  obtain ⟨both, hboth⟩ := exists_qualifyDynamic_of_ok h (first.inter second)
  -- the second pass against the same names is the case of two equal sets
  have hsame : (qualifyDynamic first out).outcome = .ok out := by
    refine composes_qualifyDynamic first first text out out h ?_
    rw [NameSet.inter_self]
    exact h
  exact ⟨⟨_, _, fun _ => Piece.splits_iff, fun _ => Piece.splits_iff, hfilled,
      fun i => ⟨hps.2.unclosed_iff i, unclosed_iff_of_filled hfilled hps.2 hqs.2 i⟩⟩,
    ⟨both, composes_qualifyDynamic first second text out both h hboth, hboth⟩, hsame⟩

/-- An unclosed delimiter stands in front of two holes; the first pass binds
`a`, the second one `b`. -/
theorem qualifyDynamic_compose_sample :
    (qualifyDynamic (.ofList ["a".toList]) "#\x7b '{{a}} é #{b}".toList).outcome =
        .ok "#\x7b '{{a}} é #{this.b}".toList ∧
      (∃ ps qs, (∀ xs, Piece.Splits "#\x7b '{{a}} é #{b}".toList xs ↔ xs = ps) ∧
        (∀ xs, Piece.Splits "#\x7b '{{a}} é #{this.b}".toList xs ↔ xs = qs) ∧
        List.Forall₂ (Filled (qualify (.ofList ["a".toList]))) ps qs ∧
        ∀ i, (Piece.Unclosed (Piece.renderAll (ps.drop i)) ↔
            Piece.Opens (Piece.renderAll (ps.drop i)) ∧ ∃ c, ps[i]? = some (.plain c)) ∧
          (Piece.Unclosed (Piece.renderAll (ps.drop i)) ↔
            Piece.Unclosed (Piece.renderAll (qs.drop i)))) ∧
      (∃ both, (qualifyDynamic (.ofList ["b".toList]) "#\x7b '{{a}} é #{this.b}".toList).outcome =
          .ok both ∧
        (qualifyDynamic ((NameSet.ofList ["a".toList]).inter (.ofList ["b".toList]))
          "#\x7b '{{a}} é #{b}".toList).outcome = .ok both) ∧
      (qualifyDynamic (.ofList ["a".toList]) "#\x7b '{{a}} é #{this.b}".toList).outcome =
        .ok "#\x7b '{{a}} é #{this.b}".toList := by
  have h : (qualifyDynamic (.ofList ["a".toList]) "#\x7b '{{a}} é #{b}".toList).outcome =
      .ok "#\x7b '{{a}} é #{this.b}".toList := by
    decide +kernel
  exact ⟨h, qualifyDynamic_compose h⟩

end QwebReceiver.Expr
