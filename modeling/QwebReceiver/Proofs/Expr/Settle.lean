import QwebReceiver.Proofs.Expr.Transparent

/-!
  QwebReceiver.Proofs.Expr.Settle — what it means that a text is qualified for
  good.

  A value may be qualified several times, by several scanners and against
  several sets of variables.  So it is not enough that a second pass of one
  scanner finds nothing to do: it must find nothing to do after the others
  have made their marks too.  A scanner settles a text if its result is the
  text with marks, and if any text with those marks and possibly more is a
  fixed point of the scanner (`Settles`).

  Scanners that read a text from left to right settle it piece by piece: a few
  characters that they pass over (`Settled.prepend`), and an embedded
  expression that another scanner settles (`Settled.hole`).
-/

namespace QwebReceiver.Expr

open QwebReceiver.Text MarkedText

/-! ## §1. Settled texts. -/

/-- What turns a text into a qualified one.  The passes over expressions,
templates and selectors are of this type, and one theory serves all. -/
abbrev Scanner := Text → Traced ExprError Text

/-- The scanner makes `out` of `t` by the marks `A₁`, wherever the text before
it `fits`; with these marks, and others, the text stays. -/
structure Settled (fits : Text → Prop) (scan : Scanner) (t out : Text) (A₁ : MarkedText) : Prop where
  old_eq : old A₁ = t
  new_eq : new A₁ = out
  valid : ∀ after before, fits before → Valid after before A₁
  stays : ∀ A, Covers A₁ A → Valid [] [] A → (scan (new A)).outcome = .ok (new A)

/-- Whatever the scanner makes of the text is settled: it is the text with
marks, which another pass leaves as they are. -/
def Settles (fits : Text → Prop) (scan : Scanner) (t : Text) : Prop :=
  ∀ out, (scan t).outcome = .ok out → ∃ A₁, Settled fits scan t out A₁

namespace Settles

variable {fits : Text → Prop} {scan : Scanner} {t : Text}

/-- What is settled wherever the text before fits is settled where less fits. -/
theorem weaken (h : Settles fits scan t) {fits' : Text → Prop} (hfits : ∀ s, fits' s → fits s) :
    Settles fits' scan t := by
  intro out hout
  obtain ⟨A₁, hA⟩ := h out hout
  exact ⟨A₁, hA.old_eq, hA.new_eq, fun after before hb => hA.valid after before (hfits before hb),
    hA.stays⟩

/-- The result is the text with marks. -/
theorem marks (h : Settles fits scan t) (hfits : fits []) {out : Text}
    (hout : (scan t).outcome = .ok out) : Marks t out := by
  obtain ⟨A₁, hA⟩ := h out hout
  exact ⟨A₁, hA.valid [] [] hfits, hA.old_eq, hA.new_eq⟩

/-- A second pass changes nothing. -/
theorem stays (h : Settles fits scan t) (hfits : fits []) {out : Text}
    (hout : (scan t).outcome = .ok out) : (scan out).outcome = .ok out := by
  obtain ⟨A₁, hA⟩ := h out hout
  have hstays := hA.stays A₁ (Covers.refl A₁) (hA.valid [] [] hfits)
  rwa [hA.new_eq] at hstays

/-- A text that the scanner leaves alone may be marked by others. -/
theorem stays_of_marks (h : Settles fits scan t) (ht : (scan t).outcome = .ok t) {u : Text}
    (hu : Marks t u) : (scan u).outcome = .ok u := by
  obtain ⟨A₁, hA⟩ := h t ht
  obtain ⟨A, hvalid, hold, rfl⟩ := hu
  have hplain : A₁ = plain (old A) := by
    rw [hold]
    exact eq_plain_of_new hA.old_eq hA.new_eq
  refine hA.stays A ?_ hvalid
  rw [hplain]
  exact covers_plain A

end Settles

/-- A scanner that makes no marks settles every text. -/
theorem settles_pure (fits : Text → Prop) (t : Text) : Settles fits pure t := by
  rintro out ⟨⟩
  exact ⟨plain t, old_plain t, new_plain t, fun after before _ => valid_plain after before t,
    fun _ _ _ => rfl⟩

/-! ## §2. Piece by piece. -/

/-- The scanner passes over marks that it meets outside of expressions, and goes
on as if they were not there. -/
def Skips (scan : Scanner) : Prop :=
  ∀ ins s, (∀ c ∈ ins, Insertable c) → (∃ init, ins = init ++ ['.']) →
    (scan (ins ++ s)).outcome = (scan s).outcome.map (ins ++ ·)

/-- No mark can stand inside of `c :: w`.  Delimiters are solid, and so they are
found again in the marked text. -/
def Solid (c : Char) (w : Text) : Prop :=
  ∀ after before X, Valid after (c :: before) X → old X = w → X = plain w

/-- Where no identifier starts behind the first character, nothing is marked in
between. -/
theorem solid_of_not_isIdentifierStart {c : Char} {w : Text}
    (hw : ∀ d ∈ w, isIdentifierStart d = false) : Solid c w := by
  intro after before X hX hold
  exact eq_plain_of_valid hX hold hw

theorem solid_nil (c : Char) : Solid c [] := by
  intro after before X _ hold
  exact eq_nil_of_old hold

/-- A mark in front of a text only adds itself. -/
theorem Skips.outcome_ins {scan : Scanner} (h : Skips scan) {after before ins : Text} {c : Char}
    {A : MarkedText} (hv : Valid after before ((ins, c) :: A)) {s out : Text}
    (hs : (scan s).outcome = .ok out) : (scan (ins ++ s)).outcome = .ok (ins ++ out) := by
  rcases hv.1 with rfl | ⟨-, hmark⟩
  · exact hs
  · rw [h ins s hmark.insertable hmark.exists_init, hs]
    rfl

section Pieces

variable {scan : Scanner} {c : Char} {w rest out : Text} {A₁ : MarkedText}

/-- A text that starts with `c :: w` splits there. -/
theorem exists_of_covers_prepend {A : MarkedText} (hsolid : Solid c w)
    (h : Covers (plain (c :: w) ++ A₁) A) (hv : Valid [] [] A) :
    ∃ ins A', A = (ins, c) :: (plain w ++ A') ∧ Covers A₁ A' ∧
      Valid [] (w.reverse ++ [c]) A' := by
  obtain ⟨ins, B, rfl, -, hB⟩ := h
  obtain ⟨X, A', rfl, hX, hA'⟩ := covers_append hB
  obtain ⟨hvX, hvA⟩ := (valid_append X A').1 hv.2
  have hold : old X = w := by
    rw [hX.old]
    exact old_plain w
  obtain rfl := hsolid _ _ X hvX hold
  rw [hold] at hvA
  exact ⟨ins, A', rfl, hA', hvA⟩

/-- Characters that the scanner passes over. -/
theorem Settled.prepend (h : Settled (fun _ => True) scan rest out A₁) (hskip : Skips scan)
    (hsolid : Solid c w)
    (hscan : ∀ A, Covers A₁ A → Valid [] (w.reverse ++ [c]) A →
      (scan (new A)).outcome = .ok (new A) →
      (scan (c :: (w ++ new A))).outcome = .ok (c :: (w ++ new A))) :
    Settled (fun _ => True) scan (c :: (w ++ rest)) (c :: (w ++ out)) (plain (c :: w) ++ A₁) where
  old_eq := by rw [old_append, old_plain, h.old_eq]; rfl
  new_eq := by rw [new_append, new_plain, h.new_eq]; rfl
  valid after before _ :=
    (valid_append _ _).2 ⟨valid_plain _ _ _, h.valid _ _ trivial⟩
  stays A hcovers hv := by
    obtain ⟨ins, A', rfl, hA', hvA⟩ := exists_of_covers_prepend hsolid hcovers hv
    have hstays := h.stays A' hA' (hvA.alone (stopsAt_nil _))
    have hhead := hscan A' hA' hvA hstays
    rw [new_cons, new_append, new_plain]
    exact hskip.outcome_ins hv hhead

/-- An expression between `c :: w` and `close`, which the scanner hands to
another one. -/
theorem Settled.hole {expr : Scanner} {fits : Text → Prop} {inner filled : Text} (close : Text)
    {H : MarkedText} (h : Settled (fun _ => True) scan rest out A₁)
    (hinner : Settled fits expr inner filled H) (hskip : Skips scan) (hsolid : Solid c w)
    (hfits : ∀ before, fits (w.reverse ++ c :: before))
    (hclose : ∀ d ∈ close, isIdentifierStart d = false)
    (hstop : ∀ r, StopsAt isIdentifierPart (close ++ r))
    (hscan : ∀ X A, Covers H X → Valid (close ++ old A) (w.reverse ++ [c]) X →
      Covers A₁ A → (expr (new X)).outcome = .ok (new X) → (scan (new A)).outcome = .ok (new A) →
      (scan (c :: (w ++ (new X ++ (close ++ new A))))).outcome =
        .ok (c :: (w ++ (new X ++ (close ++ new A))))) :
    Settled (fun _ => True) scan (c :: (w ++ (inner ++ (close ++ rest))))
      (c :: (w ++ (filled ++ (close ++ out)))) (plain (c :: w) ++ (H ++ (plain close ++ A₁))) where
  old_eq := by simp only [old_append, old_plain, h.old_eq, hinner.old_eq, List.cons_append]
  new_eq := by simp only [new_append, new_plain, h.new_eq, hinner.new_eq, List.cons_append]
  valid after before _ := by
    refine (valid_append _ _).2 ⟨valid_plain _ _ _, (valid_append _ _).2 ⟨?_,
      (valid_append _ _).2 ⟨valid_plain _ _ _, h.valid _ _ trivial⟩⟩⟩
    apply hinner.valid
    rw [old_plain, List.reverse_cons, List.append_assoc]
    exact hfits before
  stays A hcovers hv := by
    -- any other marks split at the delimiters, where none can stand
    obtain ⟨ins, B, rfl, hB, hvB⟩ := exists_of_covers_prepend hsolid hcovers hv
    obtain ⟨X, C, rfl, hX, hC⟩ := covers_append hB
    obtain ⟨K, A', rfl, hK, hA'⟩ := covers_append hC
    obtain ⟨hvX, hvC⟩ := (valid_append X _).1 hvB
    obtain ⟨hvK, hvA⟩ := (valid_append K A').1 hvC
    have hold : old K = close := by
      rw [hK.old]
      exact old_plain close
    obtain rfl : K = plain close := eq_plain_of_valid hvK hold hclose
    rw [old_append, old_plain, List.append_nil] at hvX
    -- inside of the hole they are marks of the expression alone
    have hfill := hinner.stays X hX (hvX.alone (hstop _))
    have hrest := h.stays A' hA' (hvA.alone (stopsAt_nil _))
    have hhead := hscan X A' hX hvX hA' hfill hrest
    rw [new_cons, new_append, new_plain, new_append, new_append, new_plain]
    exact hskip.outcome_ins hv hhead

end Pieces

end QwebReceiver.Expr
