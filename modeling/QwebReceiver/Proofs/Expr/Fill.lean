import QwebReceiver.Proofs.Expr.Settle

/-!
  QwebReceiver.Proofs.Expr.Fill — texts with embedded expressions are settled
  where their expressions are.

  Filling the holes of a template literal or of a dynamic string passes over
  everything else.  Marks move no hole: those outside are plain text, those
  inside leave the closing delimiter where it was.
-/

namespace QwebReceiver.Expr

open QwebReceiver.Text MarkedText

/-! ## §1. Filling pieces. -/

theorem outcome_fillPieces_plain (inner : Scanner) (c : Char) (pieces : List Piece) :
    (fillPieces inner (.plain c :: pieces)).outcome =
      (fillPieces inner pieces).outcome.map (c :: ·) := rfl

/-- A hole is filled first, and the rest after it; the first failure is the one
that is reported. -/
theorem outcome_fillPieces_hole (inner : Scanner) (opening expr closing : Text)
    (pieces : List Piece) :
    (fillPieces inner (.hole opening expr closing :: pieces)).outcome =
      (inner expr).outcome.bind fun filled =>
        (fillPieces inner pieces).outcome.map fun out => opening ++ filled ++ closing ++ out := by
  rw [fillPieces, Traced.outcome_bind]
  rfl

/-- A filled text is made of a filled hole and a filled rest. -/
theorem fillPieces_hole_eq_ok {inner : Scanner} {opening expr closing out : Text}
    {pieces : List Piece}
    (h : (fillPieces inner (.hole opening expr closing :: pieces)).outcome = .ok out) :
    ∃ filled rest, (inner expr).outcome = .ok filled ∧ (fillPieces inner pieces).outcome = .ok rest ∧
      out = opening ++ filled ++ closing ++ rest := by
  rw [outcome_fillPieces_hole] at h
  obtain ⟨filled, hfill, hmap⟩ := bind_eq_ok_iff.1 h
  obtain ⟨rest, hrest, rfl⟩ := map_eq_ok_iff.1 hmap
  exact ⟨filled, rest, hfill, hrest, rfl⟩

/-- A filled text that starts with a plain character has a filled rest. -/
theorem fillPieces_plain_eq_ok {inner : Scanner} {c : Char} {out : Text} {pieces : List Piece}
    (h : (fillPieces inner (.plain c :: pieces)).outcome = .ok out) :
    ∃ rest, (fillPieces inner pieces).outcome = .ok rest ∧ out = c :: rest := by
  rw [outcome_fillPieces_plain] at h
  obtain ⟨rest, hrest, rfl⟩ := map_eq_ok_iff.1 h
  exact ⟨rest, hrest, rfl⟩

/-- A plain character in front of pieces that can be filled. -/
theorem fillPieces_plain_of_ok {inner : Scanner} {c : Char} {out : Text} {pieces : List Piece}
    (h : (fillPieces inner pieces).outcome = .ok out) :
    (fillPieces inner (.plain c :: pieces)).outcome = .ok (c :: out) := by
  rw [outcome_fillPieces_plain, h]
  rfl

/-- A hole that can be filled, in front of pieces that can be. -/
theorem fillPieces_hole_of_ok {inner : Scanner} {opening expr closing filled out : Text}
    {pieces : List Piece} (hfill : (inner expr).outcome = .ok filled)
    (h : (fillPieces inner pieces).outcome = .ok out) :
    (fillPieces inner (.hole opening expr closing :: pieces)).outcome =
      .ok (opening ++ filled ++ closing ++ out) := by
  rw [outcome_fillPieces_hole, hfill]
  simp only [h, Except.bind, Except.map]

/-- A scanner that passes over the characters of marks one by one skips marks;
a `$` among them is not followed by a brace. -/
theorem skips_of_cons {scan : Scanner}
    (h : ∀ c r, Insertable c → (c = '$' → r.head? ≠ some '{') →
      (scan (c :: r)).outcome = (scan r).outcome.map (c :: ·)) : Skips scan := by
  intro ins s hins hlast
  obtain ⟨init, rfl⟩ := hlast
  -- a mark ends with a period, so that its last character is passed by itself
  induction init with
  | nil => exact h '.' s (hins '.' List.mem_cons_self) (fun hc => absurd hc (by decide))
  | cons c init ih =>
    have hinit := fun d (hd : d ∈ init ++ ['.']) => hins d (List.mem_cons_of_mem c hd)
    have hhead : (init ++ ['.'] ++ s).head? ≠ some '{' := by
      cases init with
      | nil => simp
      | cons d init =>
        intro hd
        exact (hinit d List.mem_cons_self).ne (by decide) (by decide) (Option.some.inj hd)
    show (scan (c :: (init ++ ['.'] ++ s))).outcome = _
    rw [h c _ (hins c List.mem_cons_self) (fun _ => hhead), ih hinit]
    cases (scan s).outcome <;> rfl

/-- An expression may start here: nothing stands before it, or the delimiter
of an interpolation or of a clause. -/
def Barrier (before : Text) : Prop := ∀ c, before.head? = some c → c = '{' ∨ c = '\''

theorem barrier_nil : Barrier [] := by
  intro c hc
  cases hc

/-- An expression may start behind a brace. -/
theorem barrier_brace (before : Text) : Barrier ('{' :: before) :=
  fun _ hd => Or.inl (Option.some.inj hd).symm

/-- A settled text that starts with a brace has no mark in front of it. -/
theorem Settled.exists_behind_brace {scan : Scanner} {r out : Text} {A₁ : MarkedText}
    (h : Settled (fun _ => True) scan ('{' :: r) out A₁) :
    ∃ X, old X = r ∧ out = '{' :: new X ∧ Valid [] ['{'] X := by
  obtain ⟨ins, X, rfl, hX⟩ := MarkedText.exists_cons h.old_eq
  have hvalid := h.valid [] [] trivial
  obtain rfl := ins_eq_nil hvalid (by decide)
  exact ⟨X, hX, h.new_eq.symm, hvalid.2⟩

/-- A brace that follows `c` and opens no hole is passed over with its marks. -/
theorem Settled.prepend_brace {scan : Scanner} {c : Char} {r out : Text} {A₁ : MarkedText}
    (hA : Settled (fun _ => True) scan ('{' :: r) out A₁) (hskip : Skips scan)
    (hscan : ∀ X, old X = r → Valid [] ['{', c] X → ∀ out',
      (scan ('{' :: new X)).outcome = .ok out' →
      (scan (c :: '{' :: new X)).outcome = .ok (c :: out')) :
    Settled (fun _ => True) scan (c :: '{' :: r) (c :: out) (([], c) :: A₁) := by
  refine hA.prepend (w := []) hskip (solid_nil c) ?_
  intro A hcovers hv hstays
  obtain ⟨ins, X, rfl, hX⟩ := MarkedText.exists_cons (hcovers.old.trans hA.old_eq)
  obtain rfl := ins_eq_nil hv (by decide)
  exact hscan X hX hv.2 _ hstays

section Filled

variable {inner : Scanner} {expr filled rest : Text}

/-- A filled expression is closed by the brace that closed the expression. -/
theorem closingBrace_filled (h : Settles Barrier inner expr)
    (hfilled : (inner expr).outcome = .ok filled)
    (hclose : closingBrace (expr ++ '}' :: rest) = some (expr, rest)) (after : Text) :
    closingBrace (filled ++ '}' :: after) = some (filled, after) := by
  obtain ⟨H, hH⟩ := h filled hfilled
  rw [← hH.old_eq] at hclose
  rw [← hH.new_eq]
  exact closingBrace_new (hH.valid [] ['{'] (barrier_brace [])) hclose after

/-- And so is it by two braces. -/
theorem closingDoubleBrace_filled (h : Settles Barrier inner expr)
    (hfilled : (inner expr).outcome = .ok filled)
    (hclose : closingDoubleBrace (expr ++ '}' :: '}' :: rest) = some (expr, rest)) (after : Text) :
    closingDoubleBrace (filled ++ '}' :: '}' :: after) = some (filled, after) := by
  obtain ⟨H, hH⟩ := h filled hfilled
  rw [← hH.old_eq] at hclose
  rw [← hH.new_eq]
  exact closingDoubleBrace_new (hH.valid [] ['{'] (barrier_brace [])) hclose after

end Filled

/-! ## §2. Template literals. -/

section Template

variable (inner : Scanner)

/-- Fills the interpolations of a template literal, each with what `inner` makes
of its expression. -/
def fillTemplate : Scanner := fun t => fillPieces inner (Piece.ofTemplateLiteral t)

/-- A character that neither escapes nor opens an interpolation is a plain one. -/
theorem ofTemplateLiteral_cons {c : Char} {r : Text} (hescape : c = '\\' → r = [])
    (hdollar : c = '$' → r.head? ≠ some '{') :
    Piece.ofTemplateLiteral (c :: r) = .plain c :: Piece.ofTemplateLiteral r := by
  apply Piece.ofTemplateLiteral.eq_4
  · intro d s hc hr
    rw [hescape hc] at hr
    cases hr
  · intro s hc hr
    apply hdollar hc
    rw [hr]
    rfl

/-- An interpolation that nothing closes is left plain. -/
theorem ofTemplateLiteral_dollar {r : Text} (h : closingBrace r = none) :
    Piece.ofTemplateLiteral ('$' :: '{' :: r) = .plain '$' :: Piece.ofTemplateLiteral ('{' :: r) := by
  rw [Piece.ofTemplateLiteral]
  split
  · next heq =>
    rw [h] at heq
    cases heq
  · rfl

/-- An interpolation that is closed is a hole, and the pieces go on behind it. -/
theorem ofTemplateLiteral_hole {r expr rest : Text} (h : closingBrace r = some (expr, rest)) :
    Piece.ofTemplateLiteral ('$' :: '{' :: r) =
      .hole ['$', '{'] expr ['}'] :: Piece.ofTemplateLiteral rest := by
  rw [Piece.ofTemplateLiteral]
  split
  · next heq =>
    rw [h] at heq
    cases heq
    rfl
  · next heq =>
    rw [h] at heq
    cases heq

/-- A character that opens no interpolation opens none with marks behind it. -/
theorem ofTemplateLiteral_cons_new {after before : Text} {A : MarkedText}
    (hv : Valid after before A) {c : Char} (hescape : ∀ d s, c = '\\' → old A = d :: s → False)
    (hdollar : ∀ s, c = '$' → old A = '{' :: s → False) :
    Piece.ofTemplateLiteral (c :: new A) = .plain c :: Piece.ofTemplateLiteral (new A) := by
  apply Piece.ofTemplateLiteral.eq_4
  · intro d s hc hnew
    cases hold : old A with
    | nil =>
      rw [eq_nil_of_old hold] at hnew
      cases hnew
    | cons e t => exact hescape e t hc hold
  · intro s hc hnew
    have hhead : (new A).head? = some '{' := by
      rw [hnew]
      rfl
    obtain ⟨t, hold⟩ := List.head?_eq_some_iff.1 ((head?_new hv (by decide)).1 hhead)
    exact hdollar t hc hold

/-- The pieces of a template literal make it up. -/
theorem renderAll_ofTemplateLiteral (t : Text) :
    Piece.renderAll (Piece.ofTemplateLiteral t) = t := by
  induction t using Piece.ofTemplateLiteral.induct with
  | case1 =>
    rw [Piece.ofTemplateLiteral]
    rfl
  | case2 c r ih =>
    rw [Piece.ofTemplateLiteral]
    exact congrArg ('\\' :: c :: ·) ih
  -- what closes the hole is found in the text behind it
  | case3 r expr rest hclose hlt ih =>
    have hr : r = expr ++ '}' :: rest := eq_append_of_closing rfl hclose
    rw [ofTemplateLiteral_hole hclose]
    show ['$', '{'] ++ expr ++ ['}'] ++ Piece.renderAll (Piece.ofTemplateLiteral rest) = _
    rw [ih, hr]
    simp
  | case4 r hclose ih =>
    rw [ofTemplateLiteral_dollar hclose]
    exact congrArg ('$' :: ·) ih
  | case5 c r hescape hdollar ih =>
    rw [Piece.ofTemplateLiteral.eq_4 c r hescape hdollar]
    exact congrArg (c :: ·) ih

/-- Marks stand outside of holes and open none, so that a template literal is
filled around them. -/
theorem skips_fillTemplate : Skips (fillTemplate inner) := by
  apply skips_of_cons
  intro c r hc hr
  have hescape : c ≠ '\\' := hc.ne (by decide) (by decide)
  show (fillPieces inner (Piece.ofTemplateLiteral (c :: r))).outcome = _
  rw [ofTemplateLiteral_cons (fun h => absurd h hescape) hr]
  rfl

/-- Nothing is marked behind a backslash. -/
theorem solid_escape (c : Char) : Solid '\\' [c] := by
  intro after before X hX hold
  obtain ⟨ins, Y, rfl, hY⟩ := MarkedText.exists_cons hold
  obtain rfl := eq_nil_of_old hY
  rcases hX.1 with rfl | ⟨-, hmark⟩
  · rfl
  · exact absurd rfl hmark.clear.escape

/-- Filling a template literal settles it if its expressions are settled. -/
theorem settles_fillTemplate {t : Text}
    (h : ∀ expr : Text, expr.length < t.length → Settles Barrier inner expr) :
    Settles (fun _ => True) (fillTemplate inner) t := by
  induction t using Piece.ofTemplateLiteral.induct with
  | case1 =>
    intro out hout
    rw [fillTemplate, Piece.ofTemplateLiteral] at hout
    cases hout
    refine ⟨[], rfl, rfl, fun _ _ _ => trivial, ?_⟩
    rintro A rfl -
    rw [fillTemplate, new_nil, Piece.ofTemplateLiteral]
    rfl
  | case2 c r ih =>
    intro out hout
    rw [fillTemplate, Piece.ofTemplateLiteral] at hout
    obtain ⟨out₁, hout₁, rfl⟩ := fillPieces_plain_eq_ok hout
    obtain ⟨out₂, hout₂, rfl⟩ := fillPieces_plain_eq_ok hout₁
    obtain ⟨A₁, hA⟩ := ih (fun e he => h e (by simp only [List.length_cons]; omega)) out₂ hout₂
    refine ⟨_, hA.prepend (w := [c]) (skips_fillTemplate inner) (solid_escape c) ?_⟩
    intro A _ _ hstays
    show (fillPieces inner (Piece.ofTemplateLiteral ('\\' :: c :: new A))).outcome = _
    rw [Piece.ofTemplateLiteral]
    exact fillPieces_plain_of_ok (fillPieces_plain_of_ok hstays)
  | case3 r expr rest hclose hlt ih =>
    intro out hout
    rw [fillTemplate, ofTemplateLiteral_hole hclose] at hout
    obtain ⟨filled, out₁, hfilled, hout₁, rfl⟩ := fillPieces_hole_eq_ok hout
    have hlength := length_of_closing hclose
    obtain ⟨A₁, hA⟩ := ih (fun e he => h e (by simp only [List.length_cons]; omega)) out₁ hout₁
    obtain ⟨H, hH⟩ := h expr (by simp only [List.length_cons]; omega) filled hfilled
    obtain rfl : r = expr ++ '}' :: rest := eq_append_of_closing rfl hclose
    have hsettled := hA.hole (c := '$') (w := ['{']) ['}'] hH (skips_fillTemplate inner)
      (solid_of_not_isIdentifierStart (by decide)) (fun before => barrier_brace _) (by decide)
      (fun r => stopsAt_cons (by decide)) (fun X A hX hvX _ hfill hstays => ?_)
    · exact ⟨_, by simpa using hsettled⟩
    -- the hole ends behind the marked expression
    rw [← hH.old_eq, ← hX.old] at hclose
    have hclose' := closingBrace_new hvX hclose (new A)
    show (fillPieces inner (Piece.ofTemplateLiteral ('$' :: '{' :: (new X ++ '}' :: new A)))).outcome
      = _
    rw [ofTemplateLiteral_hole hclose', fillPieces_hole_of_ok hfill hstays]
    simp
  | case4 r hclose ih =>
    intro out hout
    rw [fillTemplate, ofTemplateLiteral_dollar hclose] at hout
    obtain ⟨out₁, hout₁, rfl⟩ := fillPieces_plain_eq_ok hout
    obtain ⟨A₁, hA⟩ := ih (fun e he => h e (by simp only [List.length_cons] at he ⊢; omega))
      out₁ hout₁
    refine ⟨_, hA.prepend_brace (skips_fillTemplate inner) ?_⟩
    rintro X rfl hX out' hstays
    rw [fillTemplate, ofTemplateLiteral_dollar (closingBrace_new_none hX hclose)]
    exact fillPieces_plain_of_ok hstays
  | case5 c r hescape hdollar ih =>
    intro out hout
    rw [fillTemplate, Piece.ofTemplateLiteral.eq_4 c r hescape hdollar] at hout
    obtain ⟨out₁, hout₁, rfl⟩ := fillPieces_plain_eq_ok hout
    obtain ⟨A₁, hA⟩ := ih (fun e he => h e (by simp only [List.length_cons]; omega)) out₁ hout₁
    refine ⟨_, hA.prepend (w := []) (skips_fillTemplate inner) (solid_nil c) ?_⟩
    intro A hcovers hv hstays
    obtain rfl : old A = r := hcovers.old.trans hA.old_eq
    show (fillPieces inner (Piece.ofTemplateLiteral (c :: new A))).outcome = _
    rw [ofTemplateLiteral_cons_new hv hescape hdollar]
    exact fillPieces_plain_of_ok hstays

end Template

/-! ## §3. Dynamic strings. -/

section Dynamic

variable (inner : Scanner)

/-- Fills the expressions of a dynamic string, each with what `inner` makes of
it. -/
def fillDynamic : Scanner := fun t => fillPieces inner (Piece.ofDynamicString t)

/-- A character that opens nothing is a plain one. -/
theorem ofDynamicString_cons {c : Char} {r : Text} (hhash : c = '#' → r.head? ≠ some '{')
    (hbrace : c = '{' → r.head? ≠ some '{') :
    Piece.ofDynamicString (c :: r) = .plain c :: Piece.ofDynamicString r := by
  apply Piece.ofDynamicString.eq_4
  · intro s hc hr
    apply hhash hc
    rw [hr]
    rfl
  · intro s hc hr
    apply hbrace hc
    rw [hr]
    rfl

/-- A `#{` that nothing closes is left plain. -/
theorem ofDynamicString_hash {r : Text} (h : closingBrace r = none) :
    Piece.ofDynamicString ('#' :: '{' :: r) = .plain '#' :: Piece.ofDynamicString ('{' :: r) := by
  rw [Piece.ofDynamicString]
  split
  · next heq =>
    rw [h] at heq
    cases heq
  · rfl

/-- A `#{` that is closed opens a hole, and the pieces go on behind it. -/
theorem ofDynamicString_hashHole {r expr rest : Text} (h : closingBrace r = some (expr, rest)) :
    Piece.ofDynamicString ('#' :: '{' :: r) =
      .hole ['#', '{'] expr ['}'] :: Piece.ofDynamicString rest := by
  rw [Piece.ofDynamicString]
  split
  · next heq =>
    rw [h] at heq
    cases heq
    rfl
  · next heq =>
    rw [h] at heq
    cases heq

/-- Two braces that nothing closes are left plain; the second one may open
another pair. -/
theorem ofDynamicString_double {r : Text} (h : closingDoubleBrace r = none) :
    Piece.ofDynamicString ('{' :: '{' :: r) = .plain '{' :: Piece.ofDynamicString ('{' :: r) := by
  rw [Piece.ofDynamicString]
  split
  · next heq =>
    rw [h] at heq
    cases heq
  · rfl

/-- Two braces that are closed open a hole, and the pieces go on behind it. -/
theorem ofDynamicString_doubleHole {r expr rest : Text}
    (h : closingDoubleBrace r = some (expr, rest)) :
    Piece.ofDynamicString ('{' :: '{' :: r) =
      .hole ['{', '{'] expr ['}', '}'] :: Piece.ofDynamicString rest := by
  rw [Piece.ofDynamicString]
  split
  · next heq =>
    rw [h] at heq
    cases heq
    rfl
  · next heq =>
    rw [h] at heq
    cases heq

/-- A character that opens no expression opens none with marks behind it. -/
theorem ofDynamicString_cons_new {after before : Text} {A : MarkedText}
    (hv : Valid after before A) {c : Char} (hhash : ∀ s, c = '#' → old A = '{' :: s → False)
    (hbrace : ∀ s, c = '{' → old A = '{' :: s → False) :
    Piece.ofDynamicString (c :: new A) = .plain c :: Piece.ofDynamicString (new A) := by
  have hno : ∀ d, (∀ s, c = d → old A = '{' :: s → False) → c = d →
      (new A).head? ≠ some '{' := by
    intro d hd hc hnew
    obtain ⟨s, hold⟩ := List.head?_eq_some_iff.1 ((head?_new hv (by decide)).1 hnew)
    exact hd s hc hold
  exact ofDynamicString_cons (hno '#' hhash) (hno '{' hbrace)

/-- Marks stand outside of holes and open none, so that a dynamic string is
filled around them. -/
theorem skips_fillDynamic : Skips (fillDynamic inner) := by
  apply skips_of_cons
  intro c r hc _
  have hhash : c ≠ '#' := hc.ne (by decide) (by decide)
  have hbrace : c ≠ '{' := hc.ne (by decide) (by decide)
  show (fillPieces inner (Piece.ofDynamicString (c :: r))).outcome = _
  rw [ofDynamicString_cons (fun h => absurd h hhash) (fun h => absurd h hbrace)]
  rfl

/-- Filling a dynamic string settles it if its expressions are settled. -/
theorem settles_fillDynamic (h : ∀ expr, Settles Barrier inner expr) (t : Text) :
    Settles (fun _ => True) (fillDynamic inner) t := by
  induction t using Piece.ofDynamicString.induct with
  | case1 =>
    intro out hout
    rw [fillDynamic, Piece.ofDynamicString] at hout
    cases hout
    refine ⟨[], rfl, rfl, fun _ _ _ => trivial, ?_⟩
    rintro A rfl -
    rw [fillDynamic, new_nil, Piece.ofDynamicString]
    rfl
  -- an expression: settled by itself, and closed by the same brace when it has grown
  | case2 r expr rest hclose hlt ih =>
    intro out hout
    rw [fillDynamic, ofDynamicString_hashHole hclose] at hout
    obtain ⟨filled, out₁, hfilled, hout₁, rfl⟩ := fillPieces_hole_eq_ok hout
    obtain ⟨A₁, hA⟩ := ih out₁ hout₁
    obtain ⟨H, hH⟩ := h expr filled hfilled
    obtain rfl : r = expr ++ '}' :: rest := eq_append_of_closing rfl hclose
    have hsettled := hA.hole (c := '#') (w := ['{']) ['}'] hH (skips_fillDynamic inner)
      (solid_of_not_isIdentifierStart (by decide)) (fun before => barrier_brace _) (by decide)
      (fun r => stopsAt_cons (by decide)) (fun X A hX hvX _ hfill hstays => ?_)
    · exact ⟨_, by simpa using hsettled⟩
    rw [← hH.old_eq, ← hX.old] at hclose
    have hclose' := closingBrace_new hvX hclose (new A)
    show (fillPieces inner (Piece.ofDynamicString ('#' :: '{' :: (new X ++ '}' :: new A)))).outcome
      = _
    rw [ofDynamicString_hashHole hclose', fillPieces_hole_of_ok hfill hstays]
    simp
  -- nothing closes the delimiter, and marks do not make anything close it
  | case3 r hclose ih =>
    intro out hout
    rw [fillDynamic, ofDynamicString_hash hclose] at hout
    obtain ⟨out₁, hout₁, rfl⟩ := fillPieces_plain_eq_ok hout
    obtain ⟨A₁, hA⟩ := ih out₁ hout₁
    refine ⟨_, hA.prepend_brace (skips_fillDynamic inner) ?_⟩
    rintro X rfl hX out' hstays
    rw [fillDynamic, ofDynamicString_hash (closingBrace_new_none hX hclose)]
    exact fillPieces_plain_of_ok hstays
  | case4 r expr rest hclose hlt ih =>
    intro out hout
    rw [fillDynamic, ofDynamicString_doubleHole hclose] at hout
    obtain ⟨filled, out₁, hfilled, hout₁, rfl⟩ := fillPieces_hole_eq_ok hout
    obtain ⟨A₁, hA⟩ := ih out₁ hout₁
    obtain ⟨H, hH⟩ := h expr filled hfilled
    obtain rfl : r = expr ++ '}' :: '}' :: rest := exists_of_closingDoubleFrom hclose
    have hsettled := hA.hole (c := '{') (w := ['{']) ['}', '}'] hH
      (skips_fillDynamic inner) (solid_of_not_isIdentifierStart (by decide))
      (fun before => barrier_brace _) (by decide) (fun r => stopsAt_cons (by decide))
      (fun X A hX hvX _ hfill hstays => ?_)
    · exact ⟨_, by simpa using hsettled⟩
    rw [← hH.old_eq, ← hX.old] at hclose
    have hclose' := closingDoubleBrace_new hvX hclose (new A)
    show (fillPieces inner
      (Piece.ofDynamicString ('{' :: '{' :: (new X ++ '}' :: '}' :: new A)))).outcome = _
    rw [ofDynamicString_doubleHole hclose', fillPieces_hole_of_ok hfill hstays]
    simp
  | case5 r hclose ih =>
    intro out hout
    rw [fillDynamic, ofDynamicString_double hclose] at hout
    obtain ⟨out₁, hout₁, rfl⟩ := fillPieces_plain_eq_ok hout
    obtain ⟨A₁, hA⟩ := ih out₁ hout₁
    refine ⟨_, hA.prepend_brace (skips_fillDynamic inner) ?_⟩
    rintro X rfl hX out' hstays
    rw [fillDynamic, ofDynamicString_double (closingDoubleBrace_new_none hX hclose)]
    exact fillPieces_plain_of_ok hstays
  -- any other character, in front of a string that is settled
  | case6 c r hhash hbrace ih =>
    intro out hout
    rw [fillDynamic, Piece.ofDynamicString.eq_4 c r hhash hbrace] at hout
    obtain ⟨out₁, hout₁, rfl⟩ := fillPieces_plain_eq_ok hout
    obtain ⟨A₁, hA⟩ := ih out₁ hout₁
    refine ⟨_, hA.prepend (w := []) (skips_fillDynamic inner) (solid_nil c) ?_⟩
    intro A hcovers hv hstays
    obtain rfl : old A = r := hcovers.old.trans hA.old_eq
    show (fillPieces inner (Piece.ofDynamicString (c :: new A))).outcome = _
    rw [ofDynamicString_cons_new hv hhash hbrace]
    exact fillPieces_plain_of_ok hstays

end Dynamic

end QwebReceiver.Expr
