import QwebReceiver.Expr.Indexed
import QwebReceiver.Proofs.Expr.Transparent
import QwebReceiver.Proofs.Text.Utf8

/-!
  QwebReceiver.Proofs.Expr.ByteDelimiter — delimiters found by byte and by
  character are the same.

  The scanners of `QwebReceiver.Expr.ByteDelimiter` step over bytes, and a
  backslash makes them step over two: into the middle of a character, or past
  the end.  The stack machine of `QwebReceiver.Expr.Delimiter` steps over
  characters.  Where the bytes from the index on are those of a text, both end
  at the same place:

    literalStop_eq_closing     just past the quote, or at the end
    braceStop_eq_closing       the closing brace
    doubleBraceEnd_eq_closing  the first of the two closing braces

  In between stands `Walk`: the characters of a literal read one by one, an
  interpolation in one step.  It names the interpolations, which the ends do
  not show.
-/

namespace QwebReceiver.Expr

open QwebReceiver.Text QwebReceiver.Expr.ByteDelimiter
open QwebReceiver.Expr.Indexed (ByteSpan asciiByte)

/-! ## §1. The ends as equations. -/

section Equations

variable (bytes : Array UInt8)

/-- Index just past a literal whose content starts at byte `i`, or the end of
the bytes if it is not closed. -/
def literalStop (quote : UInt8) (i : Nat) : Nat := (literalEnd bytes quote i).1

/-- Index of the brace that closes a group, counted from the start of all the
bytes; nothing if none does. -/
def braceStop (depth i : Nat) : Option Nat := (braceEnd bytes depth i).map Subtype.val

/-- One step of the scan for the end of a literal.  Behind a backslash two bytes
are passed, whatever the second one is; an interpolation is passed as a whole. -/
theorem literalStop_eq (quote : UInt8) (i : Nat) :
    literalStop bytes quote i =
      match bytes[i]? with
      | none => bytes.size
      | some b =>
        if b = backslash then literalStop bytes quote (i + 2)
        else if b = quote then i + 1
        else if quote = backtick ∧ startsInterpolation bytes i then
          match braceStop bytes 0 (i + 2) with
          | none => bytes.size
          | some close => literalStop bytes quote (close + 1)
        else literalStop bytes quote (i + 1) := by
  unfold literalStop braceStop
  rw [literalEnd.eq_def]
  -- the cases are those of the scanner, and its results come with bounds to be dropped
  by_cases h : i < bytes.size
  · rw [dif_pos h, Array.getElem?_eq_getElem h]
    dsimp only
    split
    · rfl
    split
    · rfl
    split
    · cases braceEnd bytes 0 (i + 2) <;> rfl
    · rfl
  · rw [dif_neg h, Array.getElem?_eq_none (Nat.le_of_not_lt h)]

/-- One step of the scan for a closing brace.  Literals are passed as a whole,
and inner braces are counted. -/
theorem braceStop_eq (depth i : Nat) :
    braceStop bytes depth i =
      match bytes[i]? with
      | none => none
      | some b =>
        if isQuoteByte b then braceStop bytes depth (literalStop bytes b (i + 1))
        else if b = openBrace then braceStop bytes (depth + 1) (i + 1)
        else if b = closeBrace then
          if depth = 0 then some i else braceStop bytes (depth - 1) (i + 1)
        else braceStop bytes depth (i + 1) := by
  unfold braceStop literalStop
  rw [braceEnd.eq_def]
  -- the scanner returns its index with the proof that it has moved on; the proofs go
  -- away
  by_cases h : i < bytes.size
  · rw [dif_pos h, Array.getElem?_eq_getElem h]
    dsimp only
    split
    · rw [Option.map_map]
      rfl
    split
    · rw [Option.map_map]
      rfl
    split
    · cases depth with
      | zero => rfl
      | succ d =>
        dsimp only
        rw [Option.map_map, if_neg (Nat.succ_ne_zero d)]
        rfl
    · rw [Option.map_map]
      rfl
  · rw [dif_neg h, Array.getElem?_eq_none (Nat.le_of_not_lt h)]
    rfl

/-- One step of the scan for two closing braces.  It counts braces as the scan
for one does, but a pair ends it at depth zero only. -/
theorem doubleBraceEnd_eq (depth i : Nat) :
    doubleBraceEnd bytes depth i =
      match bytes[i]? with
      | none => none
      | some b =>
        if isQuoteByte b then doubleBraceEnd bytes depth (literalStop bytes b (i + 1))
        else if b = openBrace then doubleBraceEnd bytes (depth + 1) (i + 1)
        else if b = closeBrace then
          if depth = 0 ∧ bytes[i + 1]? = some closeBrace then some i
          else doubleBraceEnd bytes (depth - 1) (i + 1)
        else doubleBraceEnd bytes depth (i + 1) := by
  unfold literalStop
  rw [doubleBraceEnd.eq_def]
  by_cases h : i < bytes.size
  · rw [dif_pos h, Array.getElem?_eq_getElem h]
  · rw [dif_neg h, Array.getElem?_eq_none (Nat.le_of_not_lt h)]

/-- The ends lie inside of the text or at its end. -/
theorem literalStop_le (quote : UInt8) (i : Nat) : min i bytes.size ≤ literalStop bytes quote i :=
  (literalEnd bytes quote i).2

end Equations

/-! ## §2. Characters and bytes. -/

/-- Quotes are characters of ASCII, so that each is one byte. -/
theorem ascii_of_isQuote {c : Char} (h : isQuote c = true) : c.toNat < 128 := by
  simp only [isQuote, Bool.or_eq_true, beq_iff_eq] at h
  rcases h with (rfl | rfl) | rfl <;> decide

theorem isQuoteByte_asciiByte {c : Char} (h : isQuote c = true) :
    isQuoteByte (asciiByte c) = true := by
  simp only [isQuote, Bool.or_eq_true, beq_iff_eq] at h
  rcases h with (rfl | rfl) | rfl <;> decide

theorem asciiByte_ne_backslash {c : Char} (h : isQuote c = true) : asciiByte c ≠ backslash := by
  simp only [isQuote, Bool.or_eq_true, beq_iff_eq] at h
  rcases h with (rfl | rfl) | rfl <;> decide

theorem asciiByte_eq_backtick_iff {c : Char} (h : isQuote c = true) :
    asciiByte c = backtick ↔ c = '`' := by
  simp only [isQuote, Bool.or_eq_true, beq_iff_eq] at h
  rcases h with (rfl | rfl) | rfl <;> decide

/-- A byte that the scanners take for a quote is the byte of one. -/
theorem exists_of_isQuoteByte {b : UInt8} (h : isQuoteByte b = true) :
    ∃ c, isQuote c = true ∧ b = asciiByte c := by
  simp only [isQuoteByte, Bool.or_eq_true, beq_iff_eq] at h
  rcases h with (rfl | rfl) | rfl
  · exact ⟨'\'', by decide, by decide⟩
  · exact ⟨'"', by decide, by decide⟩
  · exact ⟨'`', by decide, by decide⟩

/-- A byte that is not ASCII is none of the bytes that matter. -/
theorem ne_of_inert {b d : UInt8} (hb : 128 ≤ b.toNat) (hd : d.toNat < 128) : b ≠ d := by
  rintro rfl
  omega

/-- A byte that is not ASCII is no quote. -/
theorem isQuoteByte_of_inert {b : UInt8} (hb : 128 ≤ b.toNat) : isQuoteByte b = false := by
  rw [Bool.eq_false_iff]
  intro h
  obtain ⟨c, hc, rfl⟩ := exists_of_isQuoteByte h
  have := ascii_of_isQuote hc
  rw [asciiByte, UInt8.toNat_ofNat'] at hb
  omega

section Inert

variable {bytes : Array UInt8} {i n : Nat}

/-- The bytes of a character beyond ASCII are passed one by one, and nothing
happens at any of them. -/
theorem literalStop_inert {q : Char} (hq : isQuote q = true) (h : Inert bytes i n) :
    literalStop bytes (asciiByte q) i = literalStop bytes (asciiByte q) (i + n) := by
  refine h.back (P := fun j => literalStop bytes (asciiByte q) j = _) ?_ rfl
  intro j b hb hge hj
  have hquote : asciiByte q ≠ b := by
    rintro rfl
    have := isQuoteByte_of_inert hge
    rw [isQuoteByte_asciiByte hq] at this
    cases this
  have hstart : startsInterpolation bytes j = false := by
    rw [startsInterpolation, hb, beq_eq_false_iff_ne.2, Bool.false_and]
    rintro heq
    exact ne_of_inert hge (by decide) (Option.some.inj heq)
  rw [literalStop_eq, hb]
  dsimp only
  rw [if_neg (ne_of_inert hge (by decide)), if_neg hquote.symm, hstart,
    if_neg (by simp), hj]

/-- A closing brace is looked for behind a character beyond ASCII as in front of
it. -/
theorem braceStop_inert {depth : Nat} (h : Inert bytes i n) :
    braceStop bytes depth i = braceStop bytes depth (i + n) := by
  refine h.back (P := fun j => braceStop bytes depth j = _) ?_ rfl
  intro j b hb hge hj
  rw [braceStop_eq, hb]
  dsimp only
  rw [isQuoteByte_of_inert hge, if_neg Bool.false_ne_true,
    if_neg (ne_of_inert hge (by decide)), if_neg (ne_of_inert hge (by decide)), hj]

/-- Two closing braces are looked for behind a character beyond ASCII as in
front of it. -/
theorem doubleBraceEnd_inert {depth : Nat} (h : Inert bytes i n) :
    doubleBraceEnd bytes depth i = doubleBraceEnd bytes depth (i + n) := by
  refine h.back (P := fun j => doubleBraceEnd bytes depth j = _) ?_ rfl
  intro j b hb hge hj
  rw [doubleBraceEnd_eq, hb]
  dsimp only
  rw [isQuoteByte_of_inert hge, if_neg Bool.false_ne_true,
    if_neg (ne_of_inert hge (by decide)), if_neg (ne_of_inert hge (by decide)), hj]

end Inert

/-! ## §3. Frames one by one. -/

/-- A character changes the frames above an open one as if it were not there. -/
theorem step_append {stack : List Frame} (hs : stack ≠ []) (below : List Frame) (c : Char) :
    step c (stack ++ below) = step c stack ++ below := by
  obtain ⟨f, above, rfl⟩ := List.exists_cons_of_ne_nil hs
  rw [List.cons_append]
  -- only the topmost frame is looked at, so that frames below it can be added
  cases f with
  | braces depth =>
    simp only [step]
    split
    · rfl
    split
    · rfl
    split
    · cases depth <;> rfl
    · rfl
  | literal q m =>
    -- in a literal a character may push a frame, or close the literal
    have hliteral : stepLiteral q c (above ++ below) = stepLiteral q c above ++ below := by
      unfold stepLiteral
      split
      · rfl
      split
      · rfl
      split <;> rfl
    cases m with
    | escaped => rfl
    | plain => exact hliteral
    | dollar =>
      simp only [step]
      split
      · rfl
      · exact hliteral

/-- Where other frames are open below, their end is looked for behind the end
of the frames above. -/
theorem closing_above {stack : List Frame} {d : Char}
    (hd : stack.getLast?.map Frame.closer = some d) (g : Frame) (below : List Frame) (t : Text) :
    closing (stack ++ g :: below) t =
      (closing stack t).bind fun p =>
        (closing (g :: below) p.2).map fun q => (p.1 ++ d :: q.1, q.2) := by
  induction t generalizing stack with
  | nil => rfl
  | cons c r ih =>
    have hs : stack ≠ [] := by
      rintro rfl
      cases hd
    obtain ⟨hcloses, hkeeps⟩ := guards_step hd c
    rw [closing, closing, step_append hs]
    -- either the frames above are closed now, or the rest of the text closes them
    cases hstep : step c stack with
    | nil => simp [hcloses hstep]
    | cons f above =>
      have hd' := hkeeps (by rw [hstep]; exact List.cons_ne_nil _ _)
      rw [hstep] at hd'
      rw [List.cons_append]
      dsimp only
      rw [← List.cons_append, ih hd']
      cases closing (f :: above) r with
      | none => rfl
      | some p =>
        dsimp only [Option.map_some, Option.bind_some]
        rw [Option.map_map]
        rfl

section Literal

variable {q : Char}

/-- A backslash takes the next character along, be it the quote. -/
theorem closingQuote_escape (c : Char) (r : Text) :
    closingQuote q ('\\' :: c :: r) =
      (closingQuote q r).map fun p => ('\\' :: c :: p.1, p.2) := by
  unfold closingQuote
  have hfirst : step '\\' [.literal q .plain] = [.literal q .escaped] := by
    simp [step, stepLiteral]
  rw [closing, hfirst]
  dsimp only
  rw [closing]
  simp only [step]
  rw [Option.map_map]
  rfl

/-- The quote ends its literal. -/
theorem closingQuote_quote (hq : isQuote q = true) (r : Text) :
    closingQuote q (q :: r) = some ([], r) := by
  have hne : q ≠ '\\' := by
    rintro rfl
    exact absurd hq (by decide)
  unfold closingQuote
  rw [closing]
  simp [step, stepLiteral, hne]

/-- A `$` without a brace behind it is spent. -/
theorem closing_dollar {r : Text} (h : r.head? ≠ some '{') :
    closing [.literal q .dollar] r = closing [.literal q .plain] r := by
  cases r with
  | nil => rfl
  | cons c r =>
    have hc : c ≠ '{' := by
      rintro rfl
      exact h rfl
    rw [closing, closing]
    simp only [step, if_neg hc]

/-- A character that neither escapes, nor ends the literal, nor opens an
interpolation is part of the content. -/
theorem closingQuote_plain {c : Char} {r : Text} (he : c ≠ '\\') (hc : c ≠ q)
    (hd : ¬ (q = '`' ∧ c = '$' ∧ r.head? = some '{')) :
    closingQuote q (c :: r) = (closingQuote q r).map fun p => (c :: p.1, p.2) := by
  unfold closingQuote
  rw [closing]
  by_cases hdollar : q = '`' ∧ c = '$'
  · have hstep : step c [.literal q .plain] = [.literal q .dollar] := by
      simp [step, stepLiteral, hdollar]
    rw [hstep]
    dsimp only
    rw [closing_dollar fun h => hd ⟨hdollar.1, hdollar.2, h⟩]
  · have hstep : step c [.literal q .plain] = [.literal q .plain] := by
      simp [step, stepLiteral, he, hc, hdollar]
    rw [hstep]

/-- An interpolation of a template literal is skipped whole. -/
theorem closingQuote_interpolation (r : Text) :
    closingQuote '`' ('$' :: '{' :: r) =
      (closingBrace r).bind fun p =>
        (closingQuote '`' p.2).map fun s => ('$' :: '{' :: (p.1 ++ '}' :: s.1), s.2) := by
  unfold closingQuote closingBrace
  -- two steps open the interpolation on top of the literal
  have hfirst : step '$' [.literal '`' .plain] = [.literal '`' .dollar] := by decide
  have hsecond : step '{' [.literal '`' .dollar] = [.braces 0] ++ [.literal '`' .plain] := by decide
  rw [closing, hfirst]
  dsimp only
  rw [closing, hsecond]
  dsimp only [List.cons_append, List.nil_append]
  -- its end is found first, and that of the literal behind it
  rw [← List.singleton_append, closing_above rfl]
  cases closing [.braces 0] r with
  | none => rfl
  | some p =>
    dsimp only [Option.map_some, Option.bind_some]
    rw [Option.map_map, Option.map_map]
    rfl

/-- A literal inside of braces is skipped whole. -/
theorem closing_braces_literal (hq : isQuote q = true) (depth : Nat) (r : Text) :
    closing [.braces depth] (q :: r) =
      (closingQuote q r).bind fun p =>
        (closing [.braces depth] p.2).map fun s => (q :: (p.1 ++ q :: s.1), s.2) := by
  have hstep : step q [.braces depth] = [.literal q .plain] ++ [.braces depth] := by
    simp [step, hq]
  rw [closing, hstep]
  dsimp only [List.cons_append, List.nil_append]
  rw [← List.singleton_append, closing_above rfl, closingQuote]
  cases closing [.literal q .plain] r with
  | none => rfl
  | some p =>
    dsimp only [Option.bind_some]
    rw [Option.map_map]
    rfl

/-- What stands before the quote, the quote, and what stands behind it. -/
theorem eq_of_closingQuote {t content rest : Text} (h : closingQuote q t = some (content, rest)) :
    t = content ++ q :: rest := eq_append_of_closing rfl h

theorem eq_of_closingBraces {depth : Nat} {t content rest : Text}
    (h : closing [.braces depth] t = some (content, rest)) : t = content ++ '}' :: rest :=
  eq_append_of_closing rfl h

end Literal

/-! ## §4. A literal, character by character. -/

/-- `Walk q i rest spans stop`: a literal with quote `q` whose content goes on
at byte `i`, where `rest` stands, has the interpolations `spans` and its quote
at byte `stop`, if it has one. -/
inductive Walk (q : Char) : Nat → Text → List ByteSpan → Option Nat → Prop where
  /-- The text ends. -/
  | finish (i : Nat) : Walk q i [] [] none
  /-- The text ends with a backslash. -/
  | hanging (i : Nat) : Walk q i ['\\'] [] none
  /-- A backslash and one character, whichever it is. -/
  | escape {i : Nat} {c : Char} {r : Text} {spans : List ByteSpan} {stop : Option Nat}
      (rest : Walk q (i + 1 + c.utf8Size) r spans stop) : Walk q i ('\\' :: c :: r) spans stop
  /-- The quote. -/
  | quote (i : Nat) (r : Text) : Walk q i (q :: r) [] (some i)
  /-- An interpolation of a template literal. -/
  | interpolation {i : Nat} {r inner after : Text} {spans : List ByteSpan} {stop : Option Nat}
      (hq : q = '`') (hr : closingBrace r = some (inner, after))
      (rest : Walk q (i + 2 + utf8Size inner + 1) after spans stop) :
      Walk q i ('$' :: '{' :: r) (⟨i + 2, i + 2 + utf8Size inner⟩ :: spans) stop
  /-- An interpolation that is not closed. -/
  | unclosed {r : Text} (i : Nat) (hq : q = '`') (hr : closingBrace r = none) :
      Walk q i ('$' :: '{' :: r) [] none
  /-- Any other character. -/
  | plain {i : Nat} {c : Char} {r : Text} {spans : List ByteSpan} {stop : Option Nat}
      (he : c ≠ '\\') (hc : c ≠ q) (hd : ¬ (q = '`' ∧ c = '$' ∧ r.head? = some '{'))
      (rest : Walk q (i + c.utf8Size) r spans stop) : Walk q i (c :: r) spans stop

/-- There is a walk through every text: it follows the interpolations as they
close, and ends where the quote stands or the text does. -/
theorem exists_walk (q : Char) (rest : Text) (i : Nat) :
    ∃ spans stop, Walk q i rest spans stop := by
  -- an interpolation is one step, so the recursion is on the length of what is left
  match rest with
  | [] => exact ⟨_, _, .finish i⟩
  | c :: r =>
    by_cases he : c = '\\'
    · subst he
      match r with
      | [] => exact ⟨_, _, .hanging i⟩
      | d :: r =>
        obtain ⟨spans, stop, h⟩ := exists_walk q r (i + 1 + d.utf8Size)
        exact ⟨_, _, .escape h⟩
    by_cases hc : c = q
    · subst hc
      exact ⟨_, _, .quote i r⟩
    by_cases hd : q = '`' ∧ c = '$' ∧ r.head? = some '{'
    · obtain ⟨hq, hdollar, hhead⟩ := hd
      obtain ⟨tail, htail⟩ := List.head?_eq_some_iff.1 hhead
      rw [hdollar, htail]
      cases hr : closingBrace tail with
      | none => exact ⟨_, _, .unclosed i hq hr⟩
      | some p =>
        have hlength : p.2.length < r.length := by
          have := length_of_closing hr
          rw [htail, List.length_cons]
          omega
        obtain ⟨spans, stop, h⟩ := exists_walk q p.2 (i + 2 + utf8Size p.1 + 1)
        exact ⟨_, _, .interpolation hq hr h⟩
    · obtain ⟨spans, stop, h⟩ := exists_walk q r (i + c.utf8Size)
      exact ⟨_, _, .plain he hc hd h⟩
termination_by rest.length
decreasing_by
  · simp only [List.length_cons]
    omega
  · exact Nat.lt_succ_of_lt hlength
  · exact Nat.lt_succ_self _

/-- A walk ends where the stack machine does. -/
theorem Walk.stop_eq {q : Char} (hq : isQuote q = true) {i : Nat} {rest : Text}
    {spans : List ByteSpan} {stop : Option Nat} (h : Walk q i rest spans stop) :
    stop = (closingQuote q rest).map fun p => i + utf8Size p.1 := by
  -- on both sides one character, or one interpolation, is passed at a time; only the
  -- byte counts have to be added up
  induction h with
  | finish i => rfl
  | hanging i => simp [closingQuote, closing, step, stepLiteral]
  | @escape i c r _ _ _ ih =>
    rw [ih, closingQuote_escape, Option.map_map]
    refine congrArg (Option.map · (closingQuote q r)) (funext fun p => ?_)
    show i + 1 + c.utf8Size + utf8Size p.1 = i + (1 + (c.utf8Size + utf8Size p.1))
    omega
  | quote i r =>
    rw [closingQuote_quote hq]
    rfl
  | @interpolation i r inner after _ _ hquote hr _ ih =>
    subst hquote
    rw [ih, closingQuote_interpolation, hr, Option.bind_some, Option.map_map]
    refine congrArg (Option.map · (closingQuote '`' after)) (funext fun p => ?_)
    show i + 2 + utf8Size inner + 1 + utf8Size p.1 =
      i + (1 + (1 + utf8Size (inner ++ '}' :: p.1)))
    rw [utf8Size_append]
    show _ = i + (1 + (1 + (utf8Size inner + (1 + utf8Size p.1))))
    omega
  | @unclosed r i hquote hr =>
    subst hquote
    rw [closingQuote_interpolation, hr]
    rfl
  | @plain i c r _ _ he hc hd _ ih =>
    rw [ih, closingQuote_plain he hc hd, Option.map_map]
    refine congrArg (Option.map · (closingQuote q r)) (funext fun p => ?_)
    exact Nat.add_assoc _ _ _

/-! ## §5. The ends of a text. -/

section Ends

variable {bytes : Array UInt8} {i : Nat}

/-- A given ASCII character follows where its byte does. -/
theorem getElem?_eq_some_iff_head {r : Text} (hat : At bytes i r) (d : Char) (hd : d.toNat < 128) :
    bytes[i]? = some (asciiByte d) ↔ r.head? = some d := by
  cases r with
  | nil => simp [Array.getElem?_eq_none hat.nil]
  | cons c r =>
    obtain ⟨b, hb⟩ := hat.exists_byte
    rw [hb, Option.some_inj, asciiByte, hat.byte_eq_iff hb d hd, List.head?_cons, Option.some_inj]

/-- An interpolation opens where its two characters stand. -/
theorem startsInterpolation_iff {c : Char} {r : Text} (hat : At bytes i (c :: r)) :
    startsInterpolation bytes i = true ↔ c = '$' ∧ r.head? = some '{' := by
  simp only [startsInterpolation, Bool.and_eq_true, beq_iff_eq]
  have hdollar : bytes[i]? = some dollar ↔ (c :: r).head? = some '$' :=
    getElem?_eq_some_iff_head hat '$' (by decide)
  rw [hdollar, List.head?_cons, Option.some_inj]
  refine and_congr_right ?_
  rintro rfl
  exact getElem?_eq_some_iff_head (hat.ascii (by decide)).2 '{' (by decide)

/-- The byte of a plain character stops nothing. -/
theorem exists_plain_byte {q c : Char} {r : Text} (hq : isQuote q = true)
    (hat : At bytes i (c :: r)) (he : c ≠ '\\') (hc : c ≠ q) :
    ∃ b, bytes[i]? = some b ∧ b ≠ backslash ∧ b ≠ asciiByte q := by
  obtain ⟨b, hb⟩ := hat.exists_byte
  exact ⟨b, hb, fun h => he ((hat.byte_eq_iff hb '\\' (by decide)).1 h),
    fun h => hc ((hat.byte_eq_iff hb q (ascii_of_isQuote hq)).1 h)⟩

/-- The byte of a character that is no quote is none, and is a brace where the
character is. -/
theorem exists_byte_of_not_isQuote {c : Char} {r : Text} (hat : At bytes i (c :: r))
    (hq : isQuote c = false) :
    ∃ b, bytes[i]? = some b ∧ isQuoteByte b = false ∧ (b = openBrace ↔ c = '{') ∧
      (b = closeBrace ↔ c = '}') := by
  obtain ⟨b, hb⟩ := hat.exists_byte
  refine ⟨b, hb, Bool.eq_false_iff.2 fun h => ?_, hat.byte_eq_iff hb '{' (by decide),
    hat.byte_eq_iff hb '}' (by decide)⟩
  obtain ⟨q, hquote, heq⟩ := exists_of_isQuoteByte h
  obtain rfl := (hat.byte_eq_iff hb q (ascii_of_isQuote hquote)).1 heq
  rw [hquote] at hq
  cases hq

/-- A literal ends where the walk through it does, if the interpolations in it
end where their braces do. -/
theorem Walk.literalStop_eq {q : Char} (hq : isQuote q = true) {rest : Text} {spans : List ByteSpan}
    {stop : Option Nat} (h : Walk q i rest spans stop) (hat : At bytes i rest)
    (hbrace : ∀ t j, t.length < rest.length → At bytes j t →
      braceStop bytes 0 j = (closingBrace t).map fun p => j + utf8Size p.1) :
    literalStop bytes (asciiByte q) i = (stop.map (· + 1)).getD bytes.size := by
  induction h with
  | finish i =>
    rw [Expr.literalStop_eq, Array.getElem?_eq_none hat.nil]
    rfl
  | hanging i =>
    obtain ⟨hb, hnext⟩ := hat.ascii (by decide)
    replace hb : bytes[i]? = some backslash := hb
    rw [Expr.literalStop_eq, hb]
    dsimp only
    rw [if_pos rfl, Expr.literalStop_eq, Array.getElem?_eq_none (Nat.le_succ_of_le hnext.nil)]
    rfl
  | @escape i c r spans stop _ ih =>
    obtain ⟨hb, hnext⟩ := hat.ascii (by decide)
    replace hb : bytes[i]? = some backslash := hb
    rw [Expr.literalStop_eq, hb]
    dsimp only
    -- the second byte stepped over is the first one of the escaped character
    have hpos := c.utf8Size_pos
    rw [if_pos rfl, literalStop_inert hq hnext.inert_behind,
      show i + 1 + 1 + (c.utf8Size - 1) = i + 1 + c.utf8Size by omega]
    exact ih hnext.next fun t j ht => hbrace t j (Nat.lt_succ_of_lt (Nat.lt_succ_of_lt ht))
  | quote i r =>
    have hb : bytes[i]? = some (asciiByte q) := (hat.ascii (ascii_of_isQuote hq)).1
    rw [Expr.literalStop_eq, hb]
    dsimp only
    rw [if_neg (asciiByte_ne_backslash hq), if_pos rfl]
    rfl
  | @interpolation i r inner after spans stop hquote hr _ ih =>
    subst hquote
    have hopens := (startsInterpolation_iff hat).2 ⟨rfl, rfl⟩
    obtain ⟨hb, hnext⟩ := hat.ascii (by decide)
    replace hb : bytes[i]? = some dollar := hb
    have hinner := (hnext.ascii (by decide)).2
    have hafter : At bytes (i + 2 + utf8Size inner + 1) after := by
      rw [eq_of_closingBraces hr] at hinner
      exact (At.append hinner).next
    have hlength := length_of_closing hr
    rw [Expr.literalStop_eq, hb]
    dsimp only
    rw [if_neg (by decide), if_neg (by decide), if_pos ⟨by decide, hopens⟩,
      hbrace r (i + 2) (Nat.lt_succ_of_lt (Nat.lt_succ_self _)) hinner, hr]
    dsimp only [Option.map_some]
    refine ih hafter fun t j ht => hbrace t j ?_
    simp only [List.length_cons]
    omega
  | @unclosed r i hquote hr =>
    subst hquote
    have hopens := (startsInterpolation_iff hat).2 ⟨rfl, rfl⟩
    obtain ⟨hb, hnext⟩ := hat.ascii (by decide)
    replace hb : bytes[i]? = some dollar := hb
    have hinner := (hnext.ascii (by decide)).2
    rw [Expr.literalStop_eq, hb]
    dsimp only
    rw [if_neg (by decide), if_neg (by decide), if_pos ⟨by decide, hopens⟩,
      hbrace r (i + 2) (Nat.lt_succ_of_lt (Nat.lt_succ_self _)) hinner, hr]
    rfl
  | @plain i c r spans stop he hc hd _ ih =>
    obtain ⟨b, hb, hne, hnq⟩ := exists_plain_byte hq hat he hc
    have hopens : ¬ (asciiByte q = backtick ∧ startsInterpolation bytes i = true) := fun h =>
      hd ⟨(asciiByte_eq_backtick_iff hq).1 h.1, (startsInterpolation_iff hat).1 h.2⟩
    have hpos := c.utf8Size_pos
    rw [Expr.literalStop_eq, hb]
    dsimp only
    -- behind its first byte the rest of the character is passed over
    rw [if_neg hne, if_neg hnq, if_neg hopens, literalStop_inert hq hat.inert_behind,
      show i + 1 + (c.utf8Size - 1) = i + c.utf8Size by omega]
    exact ih hat.next fun t j ht => hbrace t j (Nat.lt_succ_of_lt ht)

/-- A scan that goes on behind a literal, if there is an end of it: by bytes as
by characters. -/
theorem behind_literal {q : Char} {r : Text} (hq : isQuote q = true) (hnext : At bytes (i + 1) r)
    (hend : literalStop bytes (asciiByte q) (i + 1) =
      ((closingQuote q r).map fun p => i + 1 + utf8Size p.1 + 1).getD bytes.size)
    {stop : Nat → Option Nat} (hstop : stop bytes.size = none)
    {find : Text → Option (Text × Text)}
    (hfind : ∀ t j, t.length < r.length → At bytes j t →
      stop j = (find t).map fun s => j + utf8Size s.1) :
    stop (literalStop bytes (asciiByte q) (i + 1)) =
      ((closingQuote q r).bind fun p =>
        (find p.2).map fun s => (q :: (p.1 ++ q :: s.1), s.2)).map fun p => i + utf8Size p.1 := by
  rw [hend]
  cases hclose : closingQuote q r with
  | none => exact hstop
  | some p =>
    have hlength := length_of_closing hclose
    rw [eq_of_closingQuote hclose] at hnext
    -- the quote is one byte, so that the scan goes on at a character
    have hafter := (At.append hnext).ascii (ascii_of_isQuote hq)
    dsimp only [Option.map_some, Option.getD_some, Option.bind_some]
    rw [hfind p.2 _ (by omega) hafter.2, Option.map_map]
    refine congrArg (Option.map · (find p.2)) (funext fun s => ?_)
    show i + 1 + utf8Size p.1 + 1 + utf8Size s.1 = i + (q.utf8Size + utf8Size (p.1 ++ q :: s.1))
    rw [utf8Size_append, utf8Size, utf8Size_ascii (ascii_of_isQuote hq)]
    omega

/-- The brace found by bytes is the one found by characters. -/
theorem braceStop_eq_closing {i : Nat} (depth : Nat) {rest : Text} (hat : At bytes i rest) :
    braceStop bytes depth i = (closing [.braces depth] rest).map fun p => i + utf8Size p.1 := by
  match rest with
  | [] =>
    rw [braceStop_eq, Array.getElem?_eq_none hat.nil]
    rfl
  | c :: r =>
    by_cases hq : isQuote c = true
    · obtain ⟨hb, hnext⟩ := hat.ascii (ascii_of_isQuote hq)
      replace hb : bytes[i]? = some (asciiByte c) := hb
      obtain ⟨spans, stop, hwalk⟩ := exists_walk c r (i + 1)
      -- the interpolations of the literal are shorter than the rest
      have hend := hwalk.literalStop_eq hq hnext fun t j ht hj => braceStop_eq_closing 0 hj
      rw [hwalk.stop_eq hq, Option.map_map] at hend
      have hnone : braceStop bytes depth bytes.size = none := by
        rw [braceStop_eq, Array.getElem?_eq_none (Nat.le_refl _)]
      rw [braceStop_eq, hb, closing_braces_literal hq]
      dsimp only
      rw [if_pos (isQuoteByte_asciiByte hq)]
      exact behind_literal hq hnext hend hnone fun t j ht hj => braceStop_eq_closing depth hj
    rw [Bool.not_eq_true] at hq
    obtain ⟨b, hb, hbq, hopen, hclose⟩ := exists_byte_of_not_isQuote hat hq
    -- any other character is one step, behind which the rest is found
    have hstep : ∀ d, braceStop bytes d (i + 1) =
        (closing [.braces d] r).map fun p => i + (c.utf8Size + utf8Size p.1) := by
      intro d
      have hpos := c.utf8Size_pos
      rw [braceStop_inert hat.inert_behind,
        show i + 1 + (c.utf8Size - 1) = i + c.utf8Size by omega, braceStop_eq_closing d hat.next]
      exact congrArg (Option.map · _) (funext fun p => Nat.add_assoc _ _ _)
    rw [braceStop_eq, hb, closing]
    simp only [step, hq, hbq, hopen, hclose, Bool.false_eq_true, if_false, hstep]
    split
    · rw [Option.map_map]
      rfl
    split
    · cases depth with
      | zero => rfl
      | succ d =>
        rw [if_neg (Nat.succ_ne_zero d), Option.map_map]
        rfl
    · rw [Option.map_map]
      rfl
termination_by rest.length

/-- Behind the opening of an interpolation its brace is found. -/
theorem braceStop_interpolation {r : Text} (hat : At bytes i ('$' :: '{' :: r)) :
    braceStop bytes 0 (i + 2) = (closingBrace r).map fun p => i + 2 + utf8Size p.1 :=
  braceStop_eq_closing 0 ((hat.ascii (by decide)).2.ascii (by decide)).2

/-- The end of a literal found by bytes is the one found by characters. -/
theorem literalStop_eq_closing {q : Char} (hq : isQuote q = true) {rest : Text}
    (hat : At bytes i rest) :
    literalStop bytes (asciiByte q) i =
      ((closingQuote q rest).map fun p => i + utf8Size p.1 + 1).getD bytes.size := by
  obtain ⟨spans, stop, hwalk⟩ := exists_walk q rest i
  rw [hwalk.literalStop_eq hq hat fun t j _ hj => braceStop_eq_closing 0 hj, hwalk.stop_eq hq,
    Option.map_map]
  rfl

/-- Where literals are open, the end of a double-brace group is looked for
behind them. -/
theorem closingDoubleFrom_above {depth : Nat} {stack : List Frame} {d : Char}
    (hd : stack.getLast?.map Frame.closer = some d) (t : Text) :
    closingDoubleFrom depth stack t =
      (closing stack t).bind fun p =>
        (closingDoubleFrom depth [] p.2).map fun s => (p.1 ++ d :: s.1, s.2) := by
  induction t generalizing stack with
  | nil => cases stack <;> rfl
  | cons c r ih =>
    obtain ⟨hcloses, hkeeps⟩ := guards_step hd c
    cases stack with
    | nil => cases hd
    | cons f below =>
      rw [closingDoubleFrom, closing]
      -- either the literals are closed now, or the rest of the text closes them
      cases hstep : step c (f :: below) with
      | nil =>
        rw [hcloses hstep]
        rfl
      | cons g above =>
        have hd' := hkeeps (by rw [hstep]; exact List.cons_ne_nil _ _)
        rw [hstep] at hd'
        dsimp only
        rw [ih hd']
        cases closing (g :: above) r with
        | none => rfl
        | some p =>
          dsimp only [Option.map_some, Option.bind_some]
          rw [Option.map_map]
          rfl

/-- A literal inside of double braces is skipped whole. -/
theorem closingDoubleFrom_literal {q : Char} (hq : isQuote q = true) (depth : Nat) (r : Text) :
    closingDoubleFrom depth [] (q :: r) =
      (closingQuote q r).bind fun p =>
        (closingDoubleFrom depth [] p.2).map fun s => (q :: (p.1 ++ q :: s.1), s.2) := by
  have hbrace : ¬ (depth = 0 ∧ q = '}' ∧ r.head? = some '}') := by
    rintro ⟨-, rfl, -⟩
    exact absurd hq (by decide)
  rw [closingDoubleFrom, if_neg hbrace, if_pos hq, closingDoubleFrom_above rfl, ← closingQuote]
  cases closingQuote q r with
  | none => rfl
  | some p =>
    dsimp only [Option.bind_some]
    rw [Option.map_map]
    rfl

/-- The two braces found by bytes are those found by characters. -/
theorem doubleBraceEnd_eq_closing {i : Nat} (depth : Nat) {rest : Text} (hat : At bytes i rest) :
    doubleBraceEnd bytes depth i =
      (closingDoubleFrom depth [] rest).map fun p => i + utf8Size p.1 := by
  match rest with
  | [] =>
    rw [doubleBraceEnd_eq, Array.getElem?_eq_none hat.nil]
    rfl
  | c :: r =>
    by_cases hq : isQuote c = true
    · obtain ⟨hb, hnext⟩ := hat.ascii (ascii_of_isQuote hq)
      replace hb : bytes[i]? = some (asciiByte c) := hb
      have hnone : doubleBraceEnd bytes depth bytes.size = none := by
        rw [doubleBraceEnd_eq, Array.getElem?_eq_none (Nat.le_refl _)]
      rw [doubleBraceEnd_eq, hb, closingDoubleFrom_literal hq]
      dsimp only
      rw [if_pos (isQuoteByte_asciiByte hq)]
      exact behind_literal hq hnext (literalStop_eq_closing hq hnext) hnone
        fun t j ht hj => doubleBraceEnd_eq_closing depth hj
    rw [Bool.not_eq_true] at hq
    obtain ⟨b, hb, hbq, hopen, hclose⟩ := exists_byte_of_not_isQuote hat hq
    -- the bytes of a character behind its first one are passed over unseen
    have hstep : ∀ d, doubleBraceEnd bytes d (i + 1) =
        (closingDoubleFrom d [] r).map fun p => i + (c.utf8Size + utf8Size p.1) := by
      intro d
      have hpos := c.utf8Size_pos
      rw [doubleBraceEnd_inert hat.inert_behind,
        show i + 1 + (c.utf8Size - 1) = i + c.utf8Size by omega,
        doubleBraceEnd_eq_closing d hat.next]
      exact congrArg (Option.map · _) (funext fun p => Nat.add_assoc _ _ _)
    rw [doubleBraceEnd_eq, hb, closingDoubleFrom]
    simp only [hq, hbq, hopen, hclose, Bool.false_eq_true, if_false, hstep]
    by_cases ho : c = '{'
    · rw [if_pos ho, if_neg fun h => absurd (ho.symm.trans h.2.1) (by decide), if_pos ho,
        Option.map_map]
      rfl
    by_cases hc : c = '}'
    · subst hc
      have hsecond : bytes[i + 1]? = some closeBrace ↔ r.head? = some '}' :=
        getElem?_eq_some_iff_head (hat.ascii (by decide)).2 '}' (by decide)
      simp only [hsecond, true_and, if_true, if_neg ho]
      split
      · rfl
      · rw [Option.map_map]
        rfl
    · rw [if_neg ho, if_neg hc, if_neg fun h => hc h.2.1, if_neg ho, if_neg hc, Option.map_map]
      rfl
termination_by rest.length

end Ends

end QwebReceiver.Expr
