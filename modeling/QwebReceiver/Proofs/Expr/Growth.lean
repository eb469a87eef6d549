import Mathlib.Logic.Relation
import QwebReceiver.Proofs.Selector

/-!
  QwebReceiver.Proofs.Expr.Growth — values that are marked again and again.

  A value of a document grows by marks, made by one scanner after the other
  (`Grows`).  A scanner that leaves a value alone leaves it alone however it
  grows (`Qualifying.stays_of_grows`).  And growing brings no word into a
  text: what is looked for in the name or the selector of a patch is there
  after a mark only if it was there before (`prefix_of_marks`,
  `infix_of_marks`).
-/

namespace QwebReceiver.Expr

open QwebReceiver.Text MarkedText

/-! ## §1. Growing texts. -/

/-- The second text is the first one with marks, and marks on these, any number
of times.  The order is what the fixed points of the passes are stated with. -/
def Grows : Text → Text → Prop := Relation.ReflTransGen Marks

theorem Grows.refl (t : Text) : Grows t t := Relation.ReflTransGen.refl

theorem Grows.trans {s t u : Text} (h : Grows s t) (h' : Grows t u) : Grows s u :=
  Relation.ReflTransGen.trans h h'

theorem Marks.grows {s t : Text} (h : Marks s t) : Grows s t := Relation.ReflTransGen.single h

/-- Marks are insertions: they do not make a text shorter. -/
theorem Marks.length_le {s t : Text} (h : Marks s t) : s.length ≤ t.length := by
  obtain ⟨A, -, rfl, rfl⟩ := h
  exact length_old_le A

theorem Grows.length_le {s t : Text} (h : Grows s t) : s.length ≤ t.length := by
  induction h with
  | refl => exact Nat.le_refl _
  | tail _ hmark ih => exact Nat.le_trans ih hmark.length_le

/-- Marks that do not make a text longer are none. -/
theorem Marks.eq_of_length {s t : Text} (h : Marks s t) (hlen : t.length ≤ s.length) : t = s := by
  obtain ⟨A, -, rfl, rfl⟩ := h
  induction A with
  | nil => rfl
  | cons p A ih =>
    obtain ⟨ins, c⟩ := p
    have hle := length_old_le A
    simp only [old_cons, new_cons, List.length_append, List.length_cons] at hlen
    obtain rfl : ins = [] := List.eq_nil_of_length_eq_zero (by omega)
    show c :: new A = c :: old A
    rw [ih (by omega)]

/-- A text that did not get longer did not grow. -/
theorem Grows.eq_of_length {s t : Text} (h : Grows s t) (hlen : t.length ≤ s.length) : t = s := by
  induction h with
  | refl => rfl
  | @tail u v hgrows hmark ih =>
    have hle := hmark.length_le
    have hsu := Grows.length_le hgrows
    have hvu := hmark.eq_of_length (by omega)
    rw [hvu]
    exact ih (by omega)

/-- Texts that grow into each other are equal, so that growing is an order. -/
theorem Grows.antisymm {s t : Text} (h : Grows s t) (h' : Grows t s) : t = s :=
  h.eq_of_length h'.length_le

theorem Marks.eq_nil {t : Text} (h : Marks [] t) : t = [] := by
  obtain ⟨A, -, hold, rfl⟩ := h
  rw [eq_nil_of_old hold]
  rfl

/-- An empty text does not grow: what is inserted belongs to an identifier. -/
theorem Grows.eq_nil {t : Text} (h : Grows [] t) : t = [] := by
  induction h with
  | refl => rfl
  | tail _ hmark ih =>
    rw [ih] at hmark
    exact hmark.eq_nil

/-! ## §2. Scanners of whole values. -/

/-- The scanner settles every value, whatever text stands around it.  All that
is proved of passes over values asks for no more than this. -/
def Qualifying (scan : Scanner) : Prop := ∀ t, ∃ fits : Text → Prop, fits [] ∧ Settles fits scan t

/-- Expressions are settled by qualifying them. -/
theorem qualifying_qualify (bound : NameSet) : Qualifying (qualify bound) :=
  fun t => ⟨Barrier, barrier_nil, settles_qualify bound t⟩

/-- Dynamic strings are settled by qualifying them. -/
theorem qualifying_qualifyDynamic (bound : NameSet) : Qualifying (qualifyDynamic bound) :=
  fun t => ⟨fun _ => True, trivial, settles_qualifyDynamic bound t⟩

/-- Selectors are settled by qualifying their clauses. -/
theorem qualifying_qualifySelector (bound : NameSet) (skip : List Text) :
    Qualifying (Selector.qualify bound skip) :=
  fun t => ⟨fun _ => True, trivial, Selector.settles_qualifySelector bound skip t⟩

namespace Qualifying

variable {scan : Scanner} {t out : Text}

/-- What such a scanner makes of a value is the value with marks. -/
theorem marks (h : Qualifying scan) (hout : (scan t).outcome = .ok out) : Marks t out := by
  obtain ⟨fits, hfits, hs⟩ := h t
  exact hs.marks hfits hout

/-- A value that was qualified is left alone by the same scanner. -/
theorem stays (h : Qualifying scan) (hout : (scan t).outcome = .ok out) :
    (scan out).outcome = .ok out := by
  obtain ⟨fits, hfits, hs⟩ := h t
  exact hs.stays hfits hout

/-- A value that the scanner leaves alone is left alone with any marks, made by
whatever other scanners.  This is what makes the passes of a document idempotent
together. -/
theorem stays_of_grows (h : Qualifying scan) (ht : (scan t).outcome = .ok t) {u : Text}
    (hu : Grows t u) : (scan u).outcome = .ok u := by
  induction hu with
  | refl => exact ht
  | @tail v w _ hmark ih =>
    obtain ⟨fits, hfits, hs⟩ := h v
    exact hs.stays_of_marks ih hmark

end Qualifying

/-! ## §3. Words that marks do not bring. -/

/-- What a mark cannot be part of: a character that marks do not hold is in it,
and a period is not. -/
def Foreign (w : Text) : Prop := '.' ∉ w ∧ ∃ c ∈ w, ¬ Insertable c

/-- A character that is neither part of a word, nor a period, nor part of a
shorthand property is in no mark. -/
theorem not_insertable {c : Char} (hpart : isIdentifierPart c = false)
    (hne : c ≠ '.' ∧ c ≠ ':' ∧ c ≠ ' ') : ¬ Insertable c := by
  rintro (h | h | h | h)
  · rw [hpart] at h
    cases h
  · exact hne.1 h
  · exact hne.2.1 h
  · exact hne.2.2 h

/-- A foreign word does not start in a mark. -/
theorem Foreign.not_prefix {w s : Text} (h : Foreign w) (init : Text)
    (hinit : ∀ c ∈ init ++ ['.'], Insertable c) : ¬ w <+: init ++ '.' :: s := by
  intro hw
  have hdot : init ++ ['.'] <+: init ++ '.' :: s := ⟨s, by simp⟩
  rcases List.prefix_or_prefix_of_prefix hw hdot with hpre | hpre
  · obtain ⟨c, hc, hno⟩ := h.2
    exact hno (hinit c (hpre.subset hc))
  · exact h.1 (hpre.subset (by simp))

/-- A foreign word at the start of a marked text starts with a character of
the text. -/
theorem Foreign.exists_cons {c : Char} {w after before : Text} {A : MarkedText}
    (h : Foreign (c :: w)) (hv : Valid after before A) (hw : c :: w <+: new A) :
    ∃ A', A = ([], c) :: A' ∧ w <+: new A' := by
  cases A with
  | nil =>
    obtain ⟨r, hr⟩ := hw
    cases hr
  | cons p A =>
    obtain ⟨ins, d⟩ := p
    rw [new_cons] at hw
    rcases hv.1 with rfl | ⟨-, hmark⟩
    · obtain ⟨rfl, hw'⟩ := List.cons_prefix_cons.1 hw
      exact ⟨A, rfl, hw'⟩
    · obtain ⟨init, rfl⟩ := hmark.exists_init
      rw [List.append_assoc] at hw
      exact absurd hw (h.not_prefix init hmark.insertable)

/-- The word at the start of a marked text is there without the marks.  A test
for such a word comes out the same before and after a pass. -/
def Reflects (w : Text) : Prop :=
  ∀ before A, Valid [] before A → w <+: new A → w <+: old A

theorem reflects_nil : Reflects [] := fun _ _ _ _ => List.nil_prefix

/-- A foreign word is there without the marks if its rest is. -/
theorem reflects_cons {c : Char} {w : Text} (h : Foreign (c :: w)) (hw : Reflects w) :
    Reflects (c :: w) := by
  intro before A hv hpre
  obtain ⟨A', rfl, hpre'⟩ := h.exists_cons hv hpre
  exact List.cons_prefix_cons.2 ⟨rfl, hw _ A' hv.2 hpre'⟩

/-- A word that `this` does not start with is not that of a mark. -/
theorem reflects_word {c : Char} {w : Text} (hc : isIdentifierStart c = true)
    (hw : ∀ d ∈ w, isIdentifierPart d = true) (hthis : ¬ c :: w <+: receiver) :
    Reflects (c :: w) := by
  have hall : ∀ d ∈ c :: w, isIdentifierPart d = true :=
    List.forall_mem_cons.2 ⟨isIdentifierPart_of_isIdentifierStart hc, hw⟩
  -- a run of word characters ends before the first other one
  have hrun : ∀ (v s : Text) (d : Char), isIdentifierPart d = false → c :: w <+: v ++ d :: s →
      c :: w <+: v := by
    intro v s d hd hpre
    rcases List.prefix_or_prefix_of_prefix hpre (⟨s, by simp⟩ : v ++ [d] <+: v ++ d :: s) with h | h
    · rcases List.prefix_concat_iff.1 h with h | h
      · have hmem : d ∈ c :: w := by
          rw [h]
          simp
        rw [hall d hmem] at hd
        cases hd
      · exact h
    · rw [hall d (h.subset (by simp))] at hd
      cases hd
  intro before A hv hpre
  cases A with
  | nil => exact hpre
  | cons p A =>
    obtain ⟨ins, d⟩ := p
    rw [new_cons] at hpre
    rcases hv.1 with rfl | ⟨hstart, hmark⟩
    · obtain ⟨rfl, hpre'⟩ := List.cons_prefix_cons.1 hpre
      refine List.cons_prefix_cons.2 ⟨rfl, ?_⟩
      have htight : Tight (c :: before) w := tight_of_inWord (inWord_cons hc) hw
      have hsame := htight.isPrefixOf_new hv.2
      rw [← List.isPrefixOf_iff_prefix] at hpre' ⊢
      rwa [hsame] at hpre'
    · cases hmark with
      | member _ =>
        rw [receiverMark, List.append_assoc] at hpre
        exact absurd (hrun receiver _ '.' (by decide) hpre) hthis
      | property _ _ =>
        rw [List.append_assoc] at hpre
        have hword := hrun _ _ ':' (by decide) hpre
        rw [List.append_nil] at hword
        exact hword.trans (List.takeWhile_prefix _)

/-- A text with marks starts with such a word only if the text does. -/
theorem prefix_of_marks {w s t : Text} (hw : Reflects w) (h : Marks s t) (ht : w <+: t) :
    w <+: s := by
  obtain ⟨A, hv, rfl, rfl⟩ := h
  exact hw [] A hv ht

/-- A foreign word that is part of a marked text is part of the text. -/
theorem infix_of_new {w : Text} (hforeign : Foreign w) (hw : Reflects w) {before : Text}
    {A : MarkedText} (hv : Valid [] before A) (h : w <:+: new A) : w <:+: old A := by
  induction A generalizing before with
  | nil => exact h
  | cons p A ih =>
    obtain ⟨ins, d⟩ := p
    -- the word does not start inside of the mark, so it starts at its character or
    -- behind it
    have hins : w <:+: d :: new A := by
      rw [new_cons] at h
      rcases hv.1 with rfl | ⟨-, hmark⟩
      · exact h
      · obtain ⟨init, rfl⟩ := hmark.exists_init
        have hinsertable := hmark.insertable
        clear hmark hv
        induction init with
        | nil =>
          rcases List.infix_cons_iff.1 h with h | h
          · exact absurd h (hforeign.not_prefix [] hinsertable)
          · exact h
        | cons x init ih =>
          rw [List.append_assoc] at h
          rcases List.infix_cons_iff.1 h with h' | h'
          · exact absurd h' (hforeign.not_prefix (x :: init) hinsertable)
          · refine ih ?_ fun y hy => hinsertable y (List.mem_cons_of_mem x hy)
            rw [List.append_assoc]
            exact h'
    -- at the character the word is read without the marks, and behind it by induction
    rcases List.infix_cons_iff.1 hins with hpre | hin
    · have hvalid : Valid [] before (([], d) :: A) := ⟨Or.inl rfl, hv.2⟩
      exact (hw before _ hvalid hpre).isInfix
    · exact List.infix_cons_iff.2 (Or.inr (ih hv.2 hin))

/-- Such a word is part of a text with marks only if it is part of the text. -/
theorem infix_of_marks {w s t : Text} (hforeign : Foreign w) (hw : Reflects w) (h : Marks s t)
    (ht : w <:+: t) : w <:+: s := by
  obtain ⟨A, hv, rfl, rfl⟩ := h
  exact infix_of_new hforeign hw hv ht

/-- What holds of a marked text only if it held before, holds of a grown text
only if it held before. -/
theorem Grows.reflect {P : Text → Prop} (h : ∀ {s t}, Marks s t → P t → P s) {s t : Text}
    (hgrows : Grows s t) (ht : P t) : P s := by
  induction hgrows with
  | refl => exact ht
  | tail _ hmark ih => exact ih (h hmark ht)

end QwebReceiver.Expr
