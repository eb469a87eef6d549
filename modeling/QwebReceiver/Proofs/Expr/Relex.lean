import Mathlib.Data.List.Find
import QwebReceiver.Proofs.Expr.Reading

/-!
  QwebReceiver.Proofs.Expr.Relex — marks change no token but those they add.

  A mark stands in front of a word.  So a token of the text without marks is
  read off the marked text too, at the same place and of the same kind; only
  the inside of a string may have grown (`Reads.new`).  In front of it stand
  the tokens of its mark (`reads_receiver`, `reads_point`).
-/

namespace QwebReceiver.Expr

open QwebReceiver.Text MarkedText

/-! ## §1. Texts without room for marks. -/

/-- No mark can stand inside of `w` after `before`: each of its characters
either starts no word or is in the midst of one. -/
def Tight : Text → Text → Prop
  | _, [] => True
  | before, c :: w => (isIdentifierStart c = false ∨ InWord before) ∧ Tight (c :: before) w

instance decidableInWord (before : Text) : Decidable (InWord before) :=
  List.decidableBEx (fun c => isAsciiDigit c = false) (before.takeWhile isIdentifierPart)

/-- Whether a word has room for a mark is found out character by character. -/
instance decidableTight : ∀ before w : Text, Decidable (Tight before w)
  | _, [] => isTrue trivial
  | before, c :: w =>
    have := decidableTight (c :: before) w
    inferInstanceAs
      (Decidable ((isIdentifierStart c = false ∨ InWord before) ∧ Tight (c :: before) w))

/-- Whether a text ends inside of a word is decided by its end. -/
theorem MarkedText.InWord.append {before : Text} (h : InWord before) (more : Text) :
    InWord (before ++ more) := by
  obtain ⟨c, hc, hdigit⟩ := h
  exact ⟨c, mem_takeWhile_append hc more, hdigit⟩

/-- Where no mark can stand, none can if more is known of the text before. -/
theorem Tight.append {before w : Text} (h : Tight before w) (more : Text) :
    Tight (before ++ more) w := by
  induction w generalizing before with
  | nil => trivial
  | cons c w ih =>
    refine ⟨?_, ih h.2⟩
    rcases h.1 with h | h
    · exact Or.inl h
    · exact Or.inr (h.append more)

/-- Marks stand in front of identifiers only. -/
theorem tight_of_not_isIdentifierStart {before w : Text}
    (h : ∀ c ∈ w, isIdentifierStart c = false) : Tight before w := by
  induction w generalizing before with
  | nil => trivial
  | cons c w ih =>
    exact ⟨Or.inl (h c List.mem_cons_self), ih fun d hd => h d (List.mem_cons_of_mem c hd)⟩

/-- Inside of a word no mark can stand. -/
theorem tight_of_inWord {before w : Text} (hb : InWord before)
    (h : ∀ c ∈ w, isIdentifierPart c = true) : Tight before w := by
  induction w generalizing before with
  | nil => trivial
  | cons c w ih =>
    exact ⟨Or.inr hb, ih (hb.cons (h c List.mem_cons_self)) fun d hd =>
      h d (List.mem_cons_of_mem c hd)⟩

/-- Where no mark can stand, none stands. -/
theorem Tight.ins_eq_nil {after before ins : Text} {c : Char} {w : Text} {A : MarkedText}
    (h : Tight before (c :: w)) (hv : Valid after before ((ins, c) :: A)) : ins = [] := by
  rcases hv.1 with hins | ⟨hstart, hmark⟩
  · exact hins
  · rcases h.1 with hno | hin
    · rw [hno] at hstart
      cases hstart
    · exact absurd hmark.clear (not_clear_of_inWord hin)

/-- A text that starts with `w` has no mark in there. -/
theorem Tight.exists_append {after before w r : Text} {A : MarkedText} (h : Tight before w)
    (hv : Valid after before A) (hold : old A = w ++ r) : ∃ Y, A = plain w ++ Y ∧ old Y = r := by
  induction w generalizing before A with
  | nil => exact ⟨A, rfl, hold⟩
  | cons c w ih =>
    obtain ⟨ins, X, rfl, hX⟩ := MarkedText.exists_cons hold
    obtain rfl := h.ins_eq_nil hv
    obtain ⟨Y, rfl, hY⟩ := ih h.2 hv.2 hX
    exact ⟨Y, rfl, hY⟩

/-- A marked text starts with `w` exactly if the text does. -/
theorem Tight.isPrefixOf_new {after before w : Text} {A : MarkedText} (h : Tight before w)
    (hv : Valid after before A) : w.isPrefixOf (new A) = w.isPrefixOf (old A) := by
  induction w generalizing before A with
  | nil => simp
  | cons c w ih =>
    cases A with
    | nil => rfl
    | cons p A =>
      obtain ⟨ins, d⟩ := p
      rcases hv.1 with rfl | ⟨hstart, hmark⟩
      · rw [new_cons, old_cons, List.nil_append]
        by_cases hcd : c = d
        · subst hcd
          simp only [List.isPrefixOf_cons_cons_self]
          exact ih h.2 hv.2
        · have hne : ∀ s : Text, (c :: w).isPrefixOf (d :: s) = false := by
            intro s
            simp [List.isPrefixOf, hcd]
          rw [hne, hne]
      -- a mark starts like an identifier, and the word does not, or is inside of one
      · obtain ⟨x, r, rfl, hx⟩ := hmark.exists_cons hstart
        rcases h.1 with hno | hin
        · have hne : ∀ (y : Char) (s : Text), isIdentifierStart y = true →
              (c :: w).isPrefixOf (y :: s) = false := by
            intro y s hy
            have hcy : c ≠ y := by
              rintro rfl
              rw [hno] at hy
              cases hy
            simp [List.isPrefixOf, hcy]
          rw [new_cons, old_cons, List.cons_append, hne x _ hx, hne d _ hstart]
        · exact absurd hmark.clear (not_clear_of_inWord hin)

/-- A class that does not tell the characters that start identifiers apart
stops at a marked text where it stops at the text. -/
theorem stopsAt_new {p : Char → Bool}
    (hp : ∀ c d, isIdentifierStart c = true → isIdentifierStart d = true → p c = p d)
    {after before : Text} {A : MarkedText} (hv : Valid after before A) (h : StopsAt p (old A)) :
    StopsAt p (new A) := by
  cases A with
  | nil => exact h
  | cons q A =>
    obtain ⟨ins, c⟩ := q
    have hc : p c = false := h c rfl
    rcases hv.1 with rfl | ⟨hstart, hmark⟩
    · exact stopsAt_cons hc
    · obtain ⟨x, r, rfl, hx⟩ := hmark.exists_cons hstart
      rw [new_cons, List.cons_append]
      refine stopsAt_cons ?_
      rw [hp x c hx hstart]
      exact hc

/-- A run of the class is the same in the marked text. -/
theorem exists_run_new {p : Char → Bool}
    (hp : ∀ c d, isIdentifierStart c = true → isIdentifierStart d = true → p c = p d)
    {after before : Text} {A : MarkedText} (hv : Valid after before A)
    (ht : Tight before ((old A).takeWhile p)) :
    ∃ Y, A = plain ((old A).takeWhile p) ++ Y ∧ old Y = (old A).dropWhile p ∧
      (new A).takeWhile p = (old A).takeWhile p ∧ (new A).dropWhile p = new Y := by
  obtain ⟨Y, hA, hY⟩ := ht.exists_append hv List.takeWhile_append_dropWhile.symm
  have hvY : Valid after ((old (plain ((old A).takeWhile p))).reverse ++ before) Y :=
    ((valid_append _ Y).1 (hA ▸ hv)).2
  -- behind the run no mark can prolong it: marks start as identifiers do
  have hstop : StopsAt p (new Y) := by
    refine stopsAt_new hp hvY ?_
    rw [hY]
    exact fun c hc => head_dropWhile hc
  have hnew : new A = (old A).takeWhile p ++ new Y :=
    (congrArg new hA).trans (by rw [new_append, new_plain])
  have hall : ∀ c ∈ (old A).takeWhile p, p c = true := fun c hc => List.mem_takeWhile_imp hc
  refine ⟨Y, hA, hY, ?_, ?_⟩
  · rw [hnew]
    exact takeWhile_run hall hstop
  · rw [hnew]
    exact dropWhile_run hall hstop

/-! ## §2. Tokens of the text. -/

/-- Whether `op` stands there does not depend on marks. -/
theorem tight_operators : ∀ op ∈ operators, ∀ c ∈ op.head?, Tight [c] op.tail := by
  decide +kernel

/-- Marks behind its first character leave the operator of a text as it is. -/
theorem operatorAt_new {after before : Text} {c : Char} {A : MarkedText}
    (hv : Valid after (c :: before) A) : operatorAt (c :: new A) = operatorAt (c :: old A) := by
  unfold operatorAt
  refine List.find?_congr ?_
  intro op hop
  have htight := tight_operators op hop
  cases op with
  | nil => rfl
  | cons d w =>
    by_cases hd : d = c
    · subst hd
      simp only [List.isPrefixOf_cons_cons_self]
      exact ((htight d rfl).append before).isPrefixOf_new hv
    · have hne : (d == c) = false := beq_false_of_ne hd
      simp [List.isPrefixOf, hne]

theorem isBlank_of_isIdentifierStart {c : Char} (h : isIdentifierStart c = true) :
    isBlank c = false := isBlank_of_isIdentifierPart (isIdentifierPart_of_isIdentifierStart h)

/-- Blanks do not tell the characters apart that start identifiers. -/
theorem isBlank_eq_of_isIdentifierStart (c d : Char) (hc : isIdentifierStart c = true)
    (hd : isIdentifierStart d = true) : isBlank c = isBlank d := by
  rw [isBlank_of_isIdentifierStart hc, isBlank_of_isIdentifierStart hd]

theorem isAsciiDigit_eq_of_isIdentifierStart (c d : Char) (hc : isIdentifierStart c = true)
    (hd : isIdentifierStart d = true) : isAsciiDigit c = isAsciiDigit d := by
  rw [isAsciiDigit_of_isIdentifierStart hc, isAsciiDigit_of_isIdentifierStart hd]

theorem isIdentifierPart_eq_of_isIdentifierStart (c d : Char) (hc : isIdentifierStart c = true)
    (hd : isIdentifierStart d = true) : isIdentifierPart c = isIdentifierPart d := by
  rw [isIdentifierPart_of_isIdentifierStart hc, isIdentifierPart_of_isIdentifierStart hd]

/-- A run of characters that start no identifier has no room for marks. -/
theorem tight_takeWhile {p : Char → Bool} (hp : ∀ c, isIdentifierStart c = true → p c = false)
    (before t : Text) : Tight before (t.takeWhile p) := by
  apply tight_of_not_isIdentifierStart
  intro c hc
  cases hs : isIdentifierStart c with
  | false => rfl
  | true =>
    have htrue := List.mem_takeWhile_imp hc
    rw [hp c hs] at htrue
    cases htrue

/-- A number is read off the marked text as it is. -/
theorem exists_scanNumber_new {after before : Text} {c : Char} {A : MarkedText}
    (hv : Valid after (c :: before) A) (hc : isAsciiDigit c = true) :
    ∃ w Y, A = plain w ++ Y ∧ scanNumber (c :: old A) = (c :: w, old Y) ∧
      scanNumber (c :: new A) = (c :: w, new Y) := by
  obtain ⟨Y, hA, hY, htake, hdrop⟩ := exists_run_new isAsciiDigit_eq_of_isIdentifierStart hv
    (tight_takeWhile (fun _ => isAsciiDigit_of_isIdentifierStart) _ _)
  have htake' : ∀ s : Text, (c :: s).takeWhile isAsciiDigit = c :: s.takeWhile isAsciiDigit :=
    fun s => List.takeWhile_cons_of_pos hc
  have hdrop' : ∀ s : Text, (c :: s).dropWhile isAsciiDigit = s.dropWhile isAsciiDigit :=
    fun s => List.dropWhile_cons_of_pos hc
  have hvY : Valid after (((old A).takeWhile isAsciiDigit).reverse ++ c :: before) Y := by
    have h := ((valid_append _ Y).1 (hA ▸ hv)).2
    rwa [old_plain] at h
  -- a point behind the digits is there in both texts or in none: no mark
  -- starts with one, and none stands in front of one
  by_cases hpoint : ∃ r, old Y = '.' :: r
  · obtain ⟨r, hr⟩ := hpoint
    obtain ⟨ins, Z, rfl, rfl⟩ := MarkedText.exists_cons hr
    obtain rfl := ins_eq_nil hvY (by decide)
    obtain ⟨W, hZ, hW, htakeZ, hdropZ⟩ := exists_run_new isAsciiDigit_eq_of_isIdentifierStart hvY.2
      (tight_takeWhile (fun _ => isAsciiDigit_of_isIdentifierStart) _ _)
    have hold : (c :: old A).dropWhile isAsciiDigit = '.' :: old Z := by
      rw [hdrop', ← hY]
      rfl
    have hnew : (c :: new A).dropWhile isAsciiDigit = '.' :: new Z := by
      rw [hdrop', hdrop]
      rfl
    -- without digits behind it the point is not of the number
    by_cases hempty : (old Z).takeWhile isAsciiDigit = []
    · refine ⟨_, ([], '.') :: Z, hA, ?_, ?_⟩
      · rw [scanNumber_whole, htake', hold]
        · rfl
        · intro s hs
          rw [hold] at hs
          cases hs
          exact hempty
      · rw [scanNumber_whole, htake', hnew, htake]
        · rfl
        · intro s hs
          rw [hnew] at hs
          cases hs
          rw [htakeZ]
          exact hempty
    · refine ⟨(old A).takeWhile isAsciiDigit ++ '.' :: (old Z).takeWhile isAsciiDigit, W, ?_, ?_, ?_⟩
      · rw [plain_append, List.append_assoc]
        show A = plain _ ++ ([], '.') :: (plain _ ++ W)
        rw [← hZ]
        exact hA
      · rw [scanNumber_fraction hold hempty, htake', hW]
        rfl
      · rw [scanNumber_fraction hnew (by rwa [htakeZ]), htake', htake, htakeZ, hdropZ]
        rfl
  · refine ⟨_, Y, hA, ?_, ?_⟩
    · rw [scanNumber_whole, htake', hdrop', hY]
      intro s hs
      rw [hdrop', ← hY] at hs
      exact absurd ⟨s, hs⟩ hpoint
    · rw [scanNumber_whole, htake', htake, hdrop', hdrop]
      intro s hs
      rw [hdrop', hdrop] at hs
      have hhead := (head?_new hvY (d := '.') (by decide)).1 (by rw [hs]; rfl)
      exact absurd (List.head?_eq_some_iff.1 hhead) hpoint

/-- The token at the start of a text stands at the start of the marked text;
what is marked of it is the inside of a string. -/
theorem Reads.new {after before : Text} {c : Char} {A : MarkedText} {t : Token} {rest : Text}
    (hv : Valid after (c :: before) A) (h : Reads c (old A) t rest) :
    ∃ X Y, A = X ++ Y ∧ t.text = c :: old X ∧ old Y = rest ∧
      Reads c (new A) ⟨t.kind, c :: new X⟩ (new Y) ∧ (isQuote c = false → X = plain (old X)) := by
  -- blanks, numbers, operators and words have no room for a mark, so `X` is
  -- plain for them; a string ends where it did, whatever marks are inside
  cases h with
  | blank hblank =>
    obtain ⟨Y, hA, hY, htake, hdrop⟩ := exists_run_new isBlank_eq_of_isIdentifierStart hv
      (tight_takeWhile (fun _ => isBlank_of_isIdentifierStart) _ _)
    refine ⟨_, Y, hA, by rw [old_plain], hY, ?_, fun _ => by rw [old_plain]⟩
    rw [new_plain, ← htake, ← hdrop]
    exact .blank hblank
  | @string content _ hquote hclose =>
    have hold : old A = content ++ c :: rest := eq_append_of_closing rfl hclose
    obtain ⟨X, Z, rfl, rfl, hZ⟩ := MarkedText.exists_append hold
    obtain ⟨ins, Y, rfl, rfl⟩ := MarkedText.exists_cons hZ
    obtain ⟨hvX, hvZ⟩ := (valid_append X _).1 hv
    have hstart := isIdentifierStart_eq_false (isIdentifierPart_of_isQuote hquote)
    obtain rfl := ins_eq_nil hvZ hstart
    refine ⟨X ++ [([], c)], Y, by simp, by simp, rfl, ?_, ?_⟩
    · have hclose' : closingQuote c (MarkedText.new X ++ c :: MarkedText.new Y) = _ :=
        closing_new (List.cons_ne_nil _ _) hvX (agrees_literal hquote _) (r := old Y)
          (by simpa [closingQuote] using hclose) (MarkedText.new Y)
      have hnew : MarkedText.new (X ++ ([], c) :: Y) =
          MarkedText.new X ++ c :: MarkedText.new Y := by simp
      rw [hnew, new_append]
      exact .string hquote hclose'
    · intro hno
      rw [hquote] at hno
      cases hno
  | number hdigit =>
    obtain ⟨w, Y, rfl, hscan, hscan'⟩ := exists_scanNumber_new hv hdigit
    rw [hscan]
    refine ⟨plain w, Y, rfl, by rw [old_plain], rfl, ?_, fun _ => by rw [old_plain]⟩
    have hread : Reads c (MarkedText.new (plain w ++ Y)) _ _ := .number hdigit
    rw [hscan'] at hread
    rw [new_plain]
    exact hread
  | @operator op hblank hquote hdigit hop =>
    have hmem := mem_of_operatorAt hop
    obtain ⟨r, hr⟩ := isPrefixOf_of_operatorAt hop
    cases op with
    | nil => exact absurd (length_pos_of_mem_operators [] hmem) (by decide)
    | cons d w =>
      obtain ⟨rfl, hw⟩ := List.cons.inj hr
      have htight : Tight (d :: before) w := (tight_operators (d :: w) hmem d rfl).append before
      obtain ⟨Y, rfl, hY⟩ := htight.exists_append hv hw.symm
      have hop' : operatorAt (d :: MarkedText.new (plain w ++ Y)) = some (d :: w) :=
        (operatorAt_new hv).trans hop
      have hdrop : ∀ s : Text, (d :: (w ++ s)).drop (d :: w).length = s := by
        intro s
        simp
      have hread := Reads.operator hblank hquote hdigit hop'
      refine ⟨plain w, Y, rfl, by rw [old_plain], ?_, ?_, fun _ => by rw [old_plain]⟩
      · rw [old_append, old_plain, hdrop]
      · rw [new_append, new_plain] at hread ⊢
        rw [hdrop] at hread
        exact hread
  | identifier hstart hop =>
    have htight : Tight (c :: before) ((old A).takeWhile isIdentifierPart) :=
      tight_of_inWord (inWord_cons hstart) fun d hd => List.mem_takeWhile_imp hd
    obtain ⟨Y, hA, hY, htake, hdrop⟩ :=
      exists_run_new isIdentifierPart_eq_of_isIdentifierStart hv htight
    refine ⟨_, Y, hA, by rw [old_plain]; rfl, hY, ?_, fun _ => by rw [old_plain]⟩
    have hop' := (operatorAt_new hv).trans hop
    have hread := Reads.identifier hstart hop'
    rw [new_plain, ← hdrop]
    rw [word, htake] at hread
    exact hread
  | punctuation hop hkind =>
    exact ⟨[], A, rfl, rfl, rfl, .punctuation ((operatorAt_new hv).trans hop) hkind, fun _ => rfl⟩

/-! ## §3. Tokens of marks. -/

/-- The receiver as a token. -/
def receiverToken : Token := ⟨.symbol, receiver⟩
/-- The period behind the receiver. -/
def pointToken : Token := ⟨.operator, ['.']⟩
/-- The colon behind the key of a property. -/
def colonToken : Token := ⟨.colon, [':']⟩
/-- The blank behind that colon. -/
def spaceToken : Token := ⟨.blank, [' ']⟩

theorem tokenize_nil : tokenize [] = .ok [] := by
  rw [tokenize.eq_def]

/-- A text is read if a token is read off it and what is left is read. -/
theorem tokenize_cons_eq_ok_iff {c : Char} {cs : Text} {ts : List Token} :
    tokenize (c :: cs) = .ok ts ↔
      ∃ t rest ts', Reads c cs t rest ∧ tokenize rest = .ok ts' ∧ ts = t :: ts' := by
  -- reading is by well-founded recursion, and is opened here once
  rw [tokenize.eq_def]
  simp only
  constructor
  · intro h
    split at h
    · cases h
    · next t rest hnext =>
      split at h
      · cases h
      · next ts' hrest =>
        cases h
        exact ⟨t, rest, ts', nextToken_eq_ok_iff.1 hnext, hrest, rfl⟩
  · rintro ⟨t, rest, ts', hread, hrest, rfl⟩
    have hnext := nextToken_eq_ok_iff.2 hread
    split
    · next heq =>
      rw [hnext] at heq
      cases heq
    · next heq =>
      rw [hnext] at heq
      cases heq
      rw [hrest]

theorem tokenize_of_reads {c : Char} {cs rest : Text} {t : Token} {ts : List Token}
    (hread : Reads c cs t rest) (hrest : tokenize rest = .ok ts) :
    tokenize (c :: cs) = .ok (t :: ts) :=
  tokenize_cons_eq_ok_iff.2 ⟨t, rest, ts, hread, hrest, rfl⟩

/-- A text without tokens is empty. -/
theorem eq_nil_of_tokenize {text : Text} (h : tokenize text = .ok []) : text = [] := by
  cases text with
  | nil => rfl
  | cons c cs =>
    obtain ⟨t, rest, ts, -, -, hts⟩ := tokenize_cons_eq_ok_iff.1 h
    cases hts

/-- The first token stands at the start of the text, the others behind it. -/
theorem exists_of_tokenize_cons {text : Text} {t : Token} {ts : List Token}
    (h : tokenize text = .ok (t :: ts)) :
    ∃ c cs rest, text = c :: cs ∧ Reads c cs t rest ∧ tokenize rest = .ok ts := by
  cases text with
  | nil =>
    rw [tokenize_nil] at h
    cases h
  | cons c cs =>
    obtain ⟨t', rest, ts', hread, hrest, hts⟩ := tokenize_cons_eq_ok_iff.1 h
    cases hts
    exact ⟨c, cs, rest, rfl, hread, hrest⟩

/-- An operator that starts like an identifier is a word and a blank. -/
theorem operators_words : ∀ op ∈ operators, (∀ c ∈ op.head?, isIdentifierStart c = false) ∨
    op = word op ++ [' '] := by
  decide +kernel

/-- A word that no blank follows is no operator of the table. -/
theorem operatorAt_word {c d : Char} {w : Text} (hc : isIdentifierStart c = true)
    (hw : ∀ x ∈ w, isIdentifierPart x = true) (hd : isIdentifierPart d = false) (hne : d ≠ ' ')
    (s : Text) : operatorAt (c :: (w ++ d :: s)) = none := by
  cases hop : operatorAt (c :: (w ++ d :: s)) with
  | none => rfl
  | some op =>
    have hpos := length_pos_of_mem_operators op (mem_of_operatorAt hop)
    have hall : ∀ x ∈ c :: w, isIdentifierPart x = true :=
      List.forall_mem_cons.2 ⟨isIdentifierPart_of_isIdentifierStart hc, hw⟩
    have hword : word (c :: (w ++ d :: s)) = c :: w :=
      takeWhile_run (w := c :: w) hall (stopsAt_cons hd)
    obtain ⟨r, hr⟩ := isPrefixOf_of_operatorAt hop
    -- an operator starts like no identifier, or is a word and a blank
    rcases operators_words op (mem_of_operatorAt hop) with hhead | hblank
    · cases op with
      | nil => cases hpos
      | cons x op =>
        obtain ⟨rfl, -⟩ := List.cons.inj hr
        rw [hhead x rfl] at hc
        cases hc
    · -- the word of the operator is the whole word, so its blank is `d`
      have hends : EndsWord op r := Or.inr ⟨' ', by rw [hblank]; simp, by decide⟩
      have hsame : word op = c :: w := by
        rw [← hword, ← hr, word_append hends]
      rw [hblank, hsame, List.append_assoc] at hr
      have htail := List.append_cancel_left (hr : (c :: w) ++ ([' '] ++ r) = (c :: w) ++ d :: s)
      exact absurd (List.cons.inj htail).1.symm hne

/-- The receiver of a mark is read as a symbol. -/
theorem reads_receiver (s : Text) :
    Reads 't' ("his".toList ++ '.' :: s) receiverToken ('.' :: s) := by
  have hw : ∀ x ∈ "his".toList, isIdentifierPart x = true := by decide
  have hop := operatorAt_word (c := 't') (by decide) hw (d := '.') (by decide) (by decide) s
  have hword : word ("his".toList ++ '.' :: s) = "his".toList :=
    takeWhile_run hw (stopsAt_cons (by decide))
  have hpast : pastWord ("his".toList ++ '.' :: s) = '.' :: s :=
    dropWhile_run hw (stopsAt_cons (by decide))
  have hread := Reads.identifier (by decide) hop
  rw [hword, hpast] at hread
  exact hread

/-- The period of a mark is read as an operator, for an identifier follows and
no digit. -/
theorem reads_point {c : Char} (hc : isIdentifierStart c = true) (s : Text) :
    Reads '.' (c :: s) pointToken (c :: s) := by
  have hne : ('.' == c) = false := by
    refine beq_false_of_ne ?_
    rintro rfl
    exact absurd hc (by decide)
  have hop : operatorAt ('.' :: c :: s) = some ['.'] := by
    show List.find? _ (['.', '.', '.'] :: ['.'] :: operators.drop 2) = _
    simp [List.find?, List.isPrefixOf, hne]
  exact .operator (by decide) (by decide) (by decide) hop

/-- The marks `this.` are two tokens. -/
theorem tokenize_receiverMark {c : Char} (hc : isIdentifierStart c = true) {s : Text}
    {ts : List Token} (h : tokenize (c :: s) = .ok ts) :
    tokenize (receiverMark ++ c :: s) = .ok (receiverToken :: pointToken :: ts) :=
  tokenize_of_reads (reads_receiver (c :: s)) (tokenize_of_reads (reads_point hc s) h)

theorem reads_colon (s : Text) : Reads ':' s colonToken s := .punctuation rfl rfl

/-- The blank of a mark is one token, for no other blank follows. -/
theorem reads_space {c : Char} (hc : isBlank c = false) (s : Text) :
    Reads ' ' (c :: s) spaceToken (c :: s) := by
  have hread : Reads ' ' (c :: s) _ _ := .blank (by decide)
  rw [List.takeWhile_cons_of_neg (by rw [hc]; decide),
    List.dropWhile_cons_of_neg (by rw [hc]; decide)] at hread
  exact hread

/-- The key of a property and its colon are tokens of their own. -/
theorem tokenize_propertyMark {c d : Char} {w : Text} (hc : isIdentifierStart c = true)
    (hw : ∀ x ∈ w, isIdentifierPart x = true) (hkind : identifierKind (c :: w) = .symbol)
    (hd : isIdentifierStart d = true) {s : Text} {ts : List Token}
    (h : tokenize (d :: s) = .ok ts) :
    tokenize (c :: (w ++ ':' :: ' ' :: (receiverMark ++ d :: s))) =
      .ok (⟨.symbol, c :: w⟩ :: colonToken :: spaceToken :: receiverToken :: pointToken :: ts) := by
  have hop := operatorAt_word hc hw (d := ':') (by decide) (by decide)
    (' ' :: (receiverMark ++ d :: s))
  have hstop : StopsAt isIdentifierPart (':' :: ' ' :: (receiverMark ++ d :: s)) :=
    stopsAt_cons (by decide)
  have hread := Reads.identifier hc hop
  rw [word, takeWhile_run hw hstop, pastWord, dropWhile_run hw hstop, hkind] at hread
  refine tokenize_of_reads hread (tokenize_of_reads (reads_colon _) ?_)
  exact tokenize_of_reads (reads_space (by decide) _) (tokenize_receiverMark hd h)

/-! ## §4. Marked tokens. -/

/-- A token with the marks of its text: what is inserted in front of it, its
first character, and the other ones. -/
structure MarkedToken where
  token : Token
  ins : Text
  first : Char
  rest : MarkedText
  text_eq : token.text = first :: old rest

namespace MarkedToken

/-- The text of the token with its marks.  The insertion in front of the token
is kept apart from those inside. -/
def marks (m : MarkedToken) : MarkedText := (m.ins, m.first) :: m.rest

/-- The tokens that are inserted in front of it: none, the receiver and its
point, or a key with its colon before these. -/
def added (m : MarkedToken) : List Token :=
  if m.ins = [] then []
  else if m.ins = receiverMark then [receiverToken, pointToken]
  else [m.token, colonToken, spaceToken, receiverToken, pointToken]

/-- The token in the marked text: the inside of a string may have grown. -/
def grown (m : MarkedToken) : Token := ⟨m.token.kind, m.first :: new m.rest⟩

/-- The tokens of the marked text. -/
def tokens (m : MarkedToken) : List Token := m.added ++ [m.grown]

/-- The text that the tokens make up. -/
def textOf (ms : List MarkedToken) : Text := ms.flatMap fun m => m.token.text

/-- That text with its marks. -/
def marksOf (ms : List MarkedToken) : MarkedText := ms.flatMap marks

/-- The tokens of the marked text. -/
def tokensOf (ms : List MarkedToken) : List Token := ms.flatMap tokens

@[simp] theorem old_marks (m : MarkedToken) : old m.marks = m.token.text := m.text_eq.symm

@[simp] theorem marksOf_cons (m : MarkedToken) (ms : List MarkedToken) :
    marksOf (m :: ms) = m.marks ++ marksOf ms := rfl

@[simp] theorem tokensOf_cons (m : MarkedToken) (ms : List MarkedToken) :
    tokensOf (m :: ms) = m.tokens ++ tokensOf ms := rfl

@[simp] theorem textOf_cons (m : MarkedToken) (ms : List MarkedToken) :
    textOf (m :: ms) = m.token.text ++ textOf ms := rfl

@[simp] theorem old_marksOf (ms : List MarkedToken) : old (marksOf ms) = textOf ms := by
  induction ms with
  | nil => rfl
  | cons m ms ih => rw [marksOf_cons, old_append, old_marks, ih, textOf_cons]

/-- The tokens of a text after `before`, each with its marks: read off the
text without marks and off the text with them. -/
inductive Lexed : Text → List MarkedToken → Prop where
  | nil (before : Text) : Lexed before []
  | cons {before : Text} {m : MarkedToken} {ms : List MarkedToken}
      (read : Reads m.first (old m.rest ++ textOf ms) m.token (textOf ms))
      (reread : Reads m.first (new m.rest ++ new (marksOf ms)) m.grown (new (marksOf ms)))
      (valid : Valid (textOf ms) before m.marks)
      (unmarked : isQuote m.first = false → m.rest = plain (old m.rest))
      (more : Lexed (m.token.text.reverse ++ before) ms) : Lexed before (m :: ms)

/-- The marks of a text are those of its tokens. -/
theorem exists_lexed {before : Text} {A : MarkedText} {ts : List Token} (hv : Valid [] before A)
    (h : tokenize (old A) = .ok ts) :
    ∃ ms, Lexed before ms ∧ ms.map token = ts ∧ marksOf ms = A := by
  induction ts generalizing before A with
  | nil =>
    obtain rfl := eq_nil_of_old (eq_nil_of_tokenize h)
    exact ⟨[], .nil before, rfl, rfl⟩
  | cons t ts ih =>
    obtain ⟨c, cs, rest, hold, hread, hrest⟩ := exists_of_tokenize_cons h
    obtain ⟨ins, A, rfl, rfl⟩ := MarkedText.exists_cons hold
    -- the marks behind the first character are split where the token ends
    obtain ⟨X, Y, rfl, htext, rfl, hreread, hplain⟩ := hread.new hv.2
    have hvY : Valid [] (t.text.reverse ++ before) Y := by
      have hXY := ((valid_append ((ins, c) :: X) Y).1 hv).2
      rw [old_cons] at hXY
      rwa [htext]
    obtain ⟨ms, hms, hmap, rfl⟩ := ih hvY hrest
    refine ⟨⟨t, ins, c, X, htext⟩ :: ms, .cons ?_ ?_ ?_ hplain hms, ?_, rfl⟩
    · rw [old_append, old_marksOf] at hread
      exact hread
    · rw [new_append] at hreread
      exact hreread
    · have hXY := ((valid_append ((ins, c) :: X) (marksOf ms)).1 hv).1
      rw [old_marksOf, List.append_nil] at hXY
      exact hXY
    · rw [List.map_cons, hmap]

/-- A word that could be a shorthand property is read as a symbol. -/
theorem eq_of_atProperty {before : Text} {c : Char} {cs : Text} {t : Token} {rest : Text}
    (hc : isIdentifierStart c = true) (hp : AtProperty before (c :: cs)) (h : Reads c cs t rest) :
    t = ⟨.symbol, c :: word cs⟩ ∧ rest = pastWord cs := by
  have hpart := isIdentifierPart_of_isIdentifierStart hc
  have hword : word (c :: cs) = c :: word cs := List.takeWhile_cons_of_pos hpart
  have hpast : pastWord (c :: cs) = pastWord cs := List.dropWhile_cons_of_pos hpart
  cases h with
  | blank hblank =>
    rw [isBlank_of_isIdentifierPart hpart] at hblank
    cases hblank
  | string hquote _ =>
    rw [isQuote_of_isIdentifierPart hpart] at hquote
    cases hquote
  | number hdigit =>
    rw [isAsciiDigit_of_isIdentifierStart hc] at hdigit
    cases hdigit
  | @operator op _ _ _ hop =>
    -- a keyword and its blank are no property
    have hmem := mem_of_operatorAt hop
    obtain ⟨r, hr⟩ := isPrefixOf_of_operatorAt hop
    rcases operators_words op hmem with hhead | hblank
    · cases op with
      | nil => exact absurd (length_pos_of_mem_operators [] hmem) (by decide)
      | cons d w =>
        rw [(List.cons.inj hr).1] at hhead
        rw [hhead c rfl] at hc
        cases hc
    · have hends : EndsWord op r := Or.inr ⟨' ', by rw [hblank]; simp, by decide⟩
      have hsame : word (c :: cs) = word op := by
        rw [← hr, word_append hends]
      have hnext : (pastWord (c :: cs)).head? = some ' ' := by
        rw [← hr, pastWord_append hends]
        have hsplit : word op ++ pastWord op = op := List.takeWhile_append_dropWhile
        have htail : pastWord op = [' '] :=
          List.append_cancel_left (hsplit.trans hblank)
        rw [htail]
        rfl
      exact absurd hnext (hp.keyword (by rw [hsame, ← hblank]; exact hmem))
  | identifier _ _ =>
    have hkind := hp.symbol
    rw [hword] at hkind
    rw [hkind]
    exact ⟨rfl, rfl⟩
  | punctuation _ hkind =>
    have hall : ∀ x ∈ "{}[](),:".toList, isIdentifierStart x = false := by decide
    rw [hall c (mem_of_ofPunctuation? hkind)] at hc
    cases hc

/-- What is added in front of a token is what its mark says. -/
theorem Lexed.added_cases {before : Text} {m : MarkedToken} {ms : List MarkedToken}
    (h : Lexed before (m :: ms)) :
    (m.ins = [] ∧ m.added = []) ∨
    (isIdentifierStart m.first = true ∧ m.ins = receiverMark ∧
      m.added = [receiverToken, pointToken]) ∨
    (isIdentifierStart m.first = true ∧ m.token.kind = .symbol ∧
      m.ins = m.token.text ++ ':' :: ' ' :: receiverMark ∧
      AtProperty before (m.token.text ++ textOf ms) ∧
      m.added = [m.token, colonToken, spaceToken, receiverToken, pointToken]) := by
  cases h with
  | cons read reread valid unmarked more =>
    rcases valid.1 with hins | ⟨hstart, hmark⟩
    · exact Or.inl ⟨hins, by rw [added, if_pos hins]⟩
    have htext : m.first :: (old m.rest ++ textOf ms) = m.token.text ++ textOf ms := by
      rw [m.text_eq]
      rfl
    obtain ⟨ins, hins⟩ : ∃ ins, m.ins = ins := ⟨_, rfl⟩
    have hmark' := hmark
    rw [hins] at hmark'
    -- the inserted text tells which of the two marks it is, as one has a colon
    cases hmark' with
    | member _ =>
      refine Or.inr (Or.inl ⟨hstart, hins, ?_⟩)
      rw [added, if_neg (by rw [hins]; decide), if_pos hins]
    | property _ hp =>
      have htoken := (eq_of_atProperty hstart hp read).1
      -- the word in front of the colon is the token, so the key repeats it
      have hword : word (m.first :: (old m.rest ++ textOf ms)) = m.token.text := by
        rw [htoken]
        exact List.takeWhile_cons_of_pos (isIdentifierPart_of_isIdentifierStart hstart)
      rw [hword] at hins
      have hcolon : ':' ∈ m.ins := by
        rw [hins]
        simp
      refine Or.inr (Or.inr ⟨hstart, by rw [htoken], hins, by rwa [htext] at hp, ?_⟩)
      rw [added, if_neg, if_neg]
      · intro hrec
        rw [hrec] at hcolon
        exact absurd hcolon (by decide)
      · intro hnil
        rw [hnil] at hcolon
        cases hcolon

/-- A mark of which no token comes is empty. -/
theorem Lexed.ins_of_added {before : Text} {m : MarkedToken} {ms : List MarkedToken}
    (h : Lexed before (m :: ms)) (hadded : m.added = []) : m.ins = [] := by
  rcases h.added_cases with hcase | ⟨-, -, hcase⟩ | ⟨-, -, -, -, hcase⟩
  · exact hcase.1
  · rw [hadded] at hcase
    cases hcase
  · rw [hadded] at hcase
    cases hcase

/-- The marked text is read as the tokens of its marks and the tokens of the
text. -/
theorem Lexed.tokenize_eq {before : Text} {ms : List MarkedToken} (h : Lexed before ms) :
    tokenize (new (marksOf ms)) = .ok (tokensOf ms) := by
  induction h with
  | nil before => exact tokenize_nil
  | @cons before m ms read reread valid unmarked more ih =>
    -- the token behind its mark is read as it was, and the mark is read in front of it
    have hgrown : tokenize (m.first :: (new m.rest ++ new (marksOf ms))) =
        .ok (m.grown :: tokensOf ms) := tokenize_of_reads reread ih
    have hnew : new (marksOf (m :: ms)) =
        m.ins ++ m.first :: (new m.rest ++ new (marksOf ms)) := by
      rw [marksOf_cons, new_append, marks, new_cons]
      simp
    have hcases := Lexed.added_cases (.cons read reread valid unmarked more)
    rw [hnew, tokensOf_cons, tokens]
    rcases hcases with ⟨hins, hadded⟩ | ⟨hstart, hins, hadded⟩ | ⟨hstart, hkind, hins, hp, hadded⟩
    · rw [hins, hadded]
      exact hgrown
    · rw [hins, hadded]
      exact tokenize_receiverMark hstart hgrown
    · obtain ⟨c, w, htext, hc, hw, hsymbol⟩ := read.spelled.symbol hkind
      have htoken : m.token = ⟨.symbol, c :: w⟩ := by
        rw [← hkind, ← htext]
      rw [hins, hadded, htoken]
      have hmark := tokenize_propertyMark hc hw hsymbol hstart hgrown
      simpa using hmark

end MarkedToken

end QwebReceiver.Expr
