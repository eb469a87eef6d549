import QwebReceiver.Proofs.Expr.ByteDelimiter
import QwebReceiver.Proofs.Expr.Fill
import QwebReceiver.Proofs.Expr.Lexing
import QwebReceiver.Proofs.Expr.Qualify

/-!
  QwebReceiver.Proofs.Expr.Indexed — reading by byte index is safe.

  A run of `QwebReceiver.Expr.Indexed` stops at the first access that is
  refused.  No run does: whatever the bytes are, the scanners end in as many
  rounds as there are bytes left (`skipsIn_closesIn`, `doubleFrom_eq`), and
  on the bytes of a text every reader does what its counterpart over
  characters does:

    loop                     stands at          is
    skipFrom, scanFrom       a literal          `Walk.reaches`
    tokensFrom               any boundary       `tokensFrom_reaches`
    fillFrom                 any boundary       `fillFrom_reaches`
    dynamicFrom              any boundary       `dynamicFrom_reaches`
    qualifyWithin            an expression      `qualifyWithin_eq`

  `Reaches left loop x` is what all of these say: with more rounds than are
  left, the loop gives `x`.  `indexed_safe` puts them together.
-/

namespace QwebReceiver.Expr

open QwebReceiver.Text QwebReceiver.Expr.ByteDelimiter
open QwebReceiver.Expr.Indexed (ByteSpan Stop Checked Visitor asciiByte byteAt enough)

/-! ## §1. Loops with enough rounds. -/

/-- With more rounds than `left` the loop gives `x`.  The measure of the
character model stands for `left`, so no bound of the byte model is ever used
up. -/
def Reaches {α : Type} (left : Nat) (loop : Nat → α) (x : α) : Prop :=
  ∀ rounds, left < rounds → loop rounds = x

section Reaches

variable {α β : Type} {left left' : Nat} {loop : Nat → α} {x : α}

/-- A loop that ends in its first round. -/
theorem reaches_of_end (h : ∀ rounds, left ≤ rounds → loop (rounds + 1) = x) :
    Reaches left loop x := by
  intro rounds hr
  obtain ⟨n, rfl⟩ : ∃ n, rounds = n + 1 := ⟨rounds - 1, by omega⟩
  exact h n (Nat.le_of_lt_succ hr)

/-- A loop that goes on after its first round, with less left. -/
theorem Reaches.step {loop' : Nat → β} {y : β} {f : β → α} (hy : Reaches left' loop' y)
    (hleft : left' < left)
    (h : ∀ rounds, left ≤ rounds → loop (rounds + 1) = f (loop' rounds)) :
    Reaches left loop (f y) := by
  intro rounds hr
  obtain ⟨n, rfl⟩ : ∃ n, rounds = n + 1 := ⟨rounds - 1, by omega⟩
  rw [h n (Nat.le_of_lt_succ hr), hy n (by omega)]

end Reaches

/-- A loop that moves on by a byte in every round ends before its rounds do. -/
theorem lt_enough (bytes : Array UInt8) (i : Nat) : bytes.size - i < enough bytes :=
  Nat.lt_succ_of_le (Nat.sub_le _ _)

theorem ok_bind {ε α β : Type} (a : α) (f : α → Except ε β) :
    ((Except.ok a : Except ε α) >>= f) = f a := rfl

/-- Results and errors are mapped apart from each other. -/
theorem mapError_map {ε ε' α β : Type} (x : Except ε α) (f : α → β) (g : ε → ε') :
    (x.map f).mapError g = (x.mapError g).map f := by
  cases x <;> rfl

theorem map_nil_append {ε : Type} (x : Traced ε Text) : x.map ([] ++ ·) = x := Traced.map_id' x

/-! ## §2. The ends, whatever the bytes are. -/

section Ends

variable {bytes : Array UInt8} {i : Nat}

theorem byteAt_of_getElem? {b : UInt8} (h : bytes[i]? = some b) : byteAt bytes i = .ok b := by
  rw [byteAt, h]

/-- The check for an interpolation reads two bytes only where both are there. -/
theorem interpolates_eq {b : UInt8} (h : bytes[i]? = some b) (quote : UInt8) :
    Indexed.interpolates bytes quote i =
      .ok (decide (quote = backtick ∧ startsInterpolation bytes i = true)) := by
  unfold Indexed.interpolates startsInterpolation
  split
  · next hq =>
    simp only [byteAt_of_getElem? h, ok_bind, h, hq, true_and]
    rw [Bool.decide_eq_true]
    rfl
  · next hq =>
    rw [decide_eq_false fun h => hq h.1]
    rfl

/-- The brace that is found does not stand before the index. -/
theorem le_of_braceStop {depth close : Nat} (h : braceStop bytes depth i = some close) :
    min i bytes.size ≤ close := by
  unfold braceStop at h
  obtain ⟨p, -, rfl⟩ := Option.map_eq_some_iff.1 h
  exact p.2

/-- With so many rounds every literal is skipped to its end, and no access on
the way is out of bounds. -/
def SkipsIn (bytes : Array UInt8) (rounds : Nat) : Prop :=
  ∀ quote i, bytes.size - i < rounds →
    ∃ spans, Indexed.skipFrom bytes quote rounds i = .ok (spans, literalStop bytes quote i)

/-- With so many rounds the end of every brace group is found, and no access on
the way is out of bounds. -/
def ClosesIn (bytes : Array UInt8) (rounds : Nat) : Prop :=
  ∀ depth i, bytes.size - i < rounds →
    Indexed.braceFrom bytes rounds depth i = .ok (braceStop bytes depth i)

/-- One more round in a literal. -/
theorem SkipsIn.succ {rounds : Nat} (hskip : SkipsIn bytes rounds)
    (hclose : ClosesIn bytes rounds) : SkipsIn bytes (rounds + 1) := by
  intro quote i hr
  rw [literalStop_eq]
  by_cases hi : i < bytes.size
  · have hb : bytes[i]? = some bytes[i] := Array.getElem?_eq_getElem hi
    simp only [Indexed.skipFrom, if_pos hi, hb, byteAt_of_getElem? hb, interpolates_eq hb,
      ok_bind, decide_eq_true_eq]
    split
    · exact hskip quote (i + 2) (by omega)
    split
    · exact ⟨[], rfl⟩
    split
    · rw [hclose 0 (i + 2) (by omega), ok_bind]
      cases hstop : braceStop bytes 0 (i + 2) with
      | none => exact ⟨[], rfl⟩
      | some close =>
        -- behind its closing brace less is left than at its opening
        have := le_of_braceStop hstop
        obtain ⟨spans, hspans⟩ := hskip quote (close + 1) (by omega)
        dsimp only
        rw [hspans]
        exact ⟨_, rfl⟩
    · exact hskip quote (i + 1) (by omega)
  · rw [Indexed.skipFrom, if_neg hi, Array.getElem?_eq_none (Nat.le_of_not_lt hi)]
    exact ⟨[], rfl⟩

/-- One more round in a brace group. -/
theorem ClosesIn.succ {rounds : Nat} (hclose : ClosesIn bytes rounds)
    (hskip : SkipsIn bytes rounds) : ClosesIn bytes (rounds + 1) := by
  intro depth i hr
  rw [braceStop_eq]
  by_cases hi : i < bytes.size
  · have hb : bytes[i]? = some bytes[i] := Array.getElem?_eq_getElem hi
    simp only [Indexed.braceFrom, if_pos hi, hb, byteAt_of_getElem? hb, ok_bind]
    split
    · obtain ⟨spans, hspans⟩ := hskip bytes[i] (i + 1) (by omega)
      have := literalStop_le bytes bytes[i] (i + 1)
      rw [hspans, ok_bind]
      exact hclose depth _ (by omega)
    split
    · exact hclose (depth + 1) (i + 1) (by omega)
    split
    · split
      · rfl
      · next hd =>
        -- the depth is lowered above zero only
        rw [Indexed.minus, if_pos (Nat.one_le_iff_ne_zero.2 hd), ok_bind]
        exact hclose (depth - 1) (i + 1) (by omega)
    · exact hclose depth (i + 1) (by omega)
  · rw [Indexed.braceFrom, if_neg hi, Array.getElem?_eq_none (Nat.le_of_not_lt hi)]
    rfl

/-- The two scanners that call each other find their ends, and no access of
theirs is refused. -/
theorem skipsIn_closesIn (bytes : Array UInt8) (rounds : Nat) :
    SkipsIn bytes rounds ∧ ClosesIn bytes rounds := by
  induction rounds with
  | zero =>
    exact ⟨fun _ _ h => absurd h (Nat.not_lt_zero _), fun _ _ h => absurd h (Nat.not_lt_zero _)⟩
  | succ rounds ih => exact ⟨ih.1.succ ih.2, ih.2.succ ih.1⟩

/-- The scan for a brace ends within its rounds, and finds what the equations
say. -/
theorem braceFrom_enough (depth i : Nat) :
    Indexed.braceFrom bytes (enough bytes) depth i = .ok (braceStop bytes depth i) :=
  (skipsIn_closesIn bytes (enough bytes)).2 depth i (lt_enough bytes i)

/-- The third scanner finds its end, and no access of it is refused. -/
theorem doubleFrom_eq (bytes : Array UInt8) (rounds : Nat) (depth i : Nat)
    (hr : bytes.size - i < rounds) :
    Indexed.doubleFrom bytes rounds depth i = .ok (doubleBraceEnd bytes depth i) := by
  induction rounds generalizing depth i with
  | zero => exact absurd hr (Nat.not_lt_zero _)
  | succ rounds ih =>
    rw [doubleBraceEnd_eq]
    by_cases hi : i < bytes.size
    -- every case moves on by at least a byte, and so the rounds suffice
    · have hb : bytes[i]? = some bytes[i] := Array.getElem?_eq_getElem hi
      simp only [Indexed.doubleFrom, if_pos hi, hb, byteAt_of_getElem? hb, ok_bind]
      split
      · obtain ⟨spans, hspans⟩ :=
          (skipsIn_closesIn bytes (enough bytes)).1 bytes[i] (i + 1) (lt_enough bytes _)
        have := literalStop_le bytes bytes[i] (i + 1)
        rw [hspans, ok_bind]
        exact ih depth _ (by omega)
      split
      · exact ih (depth + 1) (i + 1) (by omega)
      split
      · split
        · rfl
        · exact ih (depth - 1) (i + 1) (by omega)
      · exact ih depth (i + 1) (by omega)
    · rw [Indexed.doubleFrom, if_neg hi, Array.getElem?_eq_none (Nat.le_of_not_lt hi)]
      rfl

end Ends

/-! ## §3. Literals. -/

/-- A loop that reads on in a literal: at the end of the text, behind a
backslash, at the quote, at an interpolation, and at any other byte.  `result`
makes what it returns of the index of the quote. -/
structure LiteralLoop {β : Type} (bytes : Array UInt8) (quote : UInt8)
    (loop : Nat → Nat → Checked (List ByteSpan × β)) (result : Option Nat → β) : Prop where
  ended : ∀ rounds i, bytes.size ≤ i → loop (rounds + 1) i = .ok ([], result none)
  escape : ∀ rounds i, bytes[i]? = some backslash → loop (rounds + 1) i = loop rounds (i + 2)
  closes : ∀ rounds i, bytes[i]? = some quote → loop (rounds + 1) i = .ok ([], result (some i))
  interpolation : ∀ rounds i, bytes.size - i ≤ rounds → quote = backtick →
    startsInterpolation bytes i = true → loop (rounds + 1) i =
      match braceStop bytes 0 (i + 2) with
      | none => .ok ([], result none)
      | some close => (loop rounds (close + 1)).map fun p => (⟨i + 2, close⟩ :: p.1, p.2)
  plain : ∀ rounds i b, bytes[i]? = some b → b ≠ backslash → b ≠ quote →
    ¬ (quote = backtick ∧ startsInterpolation bytes i = true) →
    loop (rounds + 1) i = loop rounds (i + 1)

section Loops

variable {bytes : Array UInt8} {i : Nat} {q : Char} {β : Type}
  {loop : Nat → Nat → Checked (List ByteSpan × β)} {result : Option Nat → β}

theorem lt_of_getElem? {b : UInt8} (h : bytes[i]? = some b) : i < bytes.size :=
  (Array.getElem?_eq_some_iff.1 h).1

/-- Such a loop passes the bytes of a character beyond ASCII one by one.
Nothing is done at any of them, so that the loop is behind the character with
enough rounds left. -/
theorem LiteralLoop.inert (hl : LiteralLoop bytes (asciiByte q) loop result)
    (hq : isQuote q = true) {n : Nat} (h : Inert bytes i n) {x : Checked (List ByteSpan × β)}
    (hx : Reaches (bytes.size - (i + n)) (fun rounds => loop rounds (i + n)) x) :
    Reaches (bytes.size - i) (fun rounds => loop rounds i) x := by
  refine h.back (P := fun j => Reaches (bytes.size - j) (fun rounds => loop rounds j) x) ?_ hx
  intro j b hb hge hj
  have hlt := lt_of_getElem? hb
  -- a byte that is not ASCII is none of those the loop looks for
  refine Reaches.step (f := id) hj (by omega) fun rounds _ => ?_
  refine hl.plain rounds j b hb (ne_of_inert hge (by decide)) ?_ ?_
  · rintro rfl
    have := isQuoteByte_of_inert hge
    rw [isQuoteByte_asciiByte hq] at this
    cases this
  · rintro ⟨-, h⟩
    simp only [startsInterpolation, hb, Bool.and_eq_true, beq_iff_eq, Option.some.injEq] at h
    exact ne_of_inert hge (by decide) h.1

/-- Such a loop finds what a walk through the literal finds. -/
theorem Walk.reaches (hl : LiteralLoop bytes (asciiByte q) loop result) (hq : isQuote q = true)
    {rest : Text} {spans : List ByteSpan} {stop : Option Nat} (h : Walk q i rest spans stop)
    (hat : At bytes i rest) :
    Reaches (bytes.size - i) (fun rounds => loop rounds i) (.ok (spans, result stop)) := by
  induction h with
  | finish i => exact reaches_of_end fun rounds _ => hl.ended rounds i hat.nil
  | hanging i =>
    obtain ⟨hb, hnext⟩ := hat.ascii (by decide)
    have hlt := hat.lt
    have hend : Reaches (bytes.size - (i + 2)) (fun rounds => loop rounds (i + 2))
        (.ok ([], result none)) :=
      reaches_of_end fun rounds _ => hl.ended rounds (i + 2) (Nat.le_succ_of_le hnext.nil)
    exact Reaches.step (f := id) hend (by omega) fun rounds _ => hl.escape rounds i hb
  | @escape i c r spans stop _ ih =>
    obtain ⟨hb, hnext⟩ := hat.ascii (by decide)
    have hlt := hat.lt
    have hpos := c.utf8Size_pos
    have hrest := ih hnext.next
    -- the loop goes on inside of the escaped character, among bytes it ignores
    rw [show i + 1 + c.utf8Size = i + 2 + (c.utf8Size - 1) by omega] at hrest
    exact Reaches.step (f := id) (hl.inert hq hnext.inert_behind hrest) (by omega)
      fun rounds _ => hl.escape rounds i hb
  | quote i r =>
    exact reaches_of_end fun rounds _ => hl.closes rounds i (hat.ascii (ascii_of_isQuote hq)).1
  | @interpolation i r inner after spans stop hquote hr _ ih =>
    subst hquote
    have hopens := (startsInterpolation_iff hat).2 ⟨rfl, rfl⟩
    have hlt := hat.lt
    have hclose : braceStop bytes 0 (i + 2) = some (i + 2 + utf8Size inner) := by
      rw [braceStop_interpolation hat, hr]
      rfl
    have hinner := ((hat.ascii (by decide)).2.ascii (by decide)).2
    rw [eq_of_closingBraces hr] at hinner
    have hless : bytes.size - (i + 2 + utf8Size inner + 1) < bytes.size - i := by omega
    refine Reaches.step (f := Except.map fun p => (⟨i + 2, i + 2 + utf8Size inner⟩ :: p.1, p.2))
      (ih (At.append hinner).next) hless fun rounds hr => ?_
    rw [hl.interpolation rounds i hr (by decide) hopens, hclose]
  | @unclosed r i hquote hr =>
    subst hquote
    have hopens := (startsInterpolation_iff hat).2 ⟨rfl, rfl⟩
    have hclose : braceStop bytes 0 (i + 2) = none := by
      rw [braceStop_interpolation hat, hr]
      rfl
    refine reaches_of_end fun rounds hr => ?_
    rw [hl.interpolation rounds i hr (by decide) hopens, hclose]
  | @plain i c r spans stop he hc hd _ ih =>
    obtain ⟨b, hb, hne, hnq⟩ := exists_plain_byte hq hat he hc
    have hlt := hat.lt
    have hpos := c.utf8Size_pos
    have hrest := ih hat.next
    rw [show i + c.utf8Size = i + 1 + (c.utf8Size - 1) by omega] at hrest
    refine Reaches.step (f := id) (hl.inert hq hat.inert_behind hrest) (by omega)
      fun rounds _ => hl.plain rounds i b hb hne hnq fun h => ?_
    exact hd ⟨(asciiByte_eq_backtick_iff hq).1 h.1, (startsInterpolation_iff hat).1 h.2⟩

end Loops

/-- Only a `$` starts an interpolation. -/
theorem not_startsInterpolation {bytes : Array UInt8} {i : Nat} {b : UInt8}
    (h : bytes[i]? = some b) (hb : b ≠ dollar) : startsInterpolation bytes i = false := by
  rw [startsInterpolation, h, beq_eq_false_iff_ne.2 fun heq => hb (Option.some.inj heq),
    Bool.false_and]

/-- The loop that skips a literal. -/
theorem literalLoop_skipFrom (bytes : Array UInt8) {q : Char} (hq : isQuote q = true) :
    LiteralLoop bytes (asciiByte q) (Indexed.skipFrom bytes (asciiByte q))
      fun stop => (stop.map (· + 1)).getD bytes.size where
  ended rounds i hi := by
    rw [Indexed.skipFrom, if_neg (Nat.not_lt_of_le hi)]
    rfl
  escape rounds i hb := by
    simp only [Indexed.skipFrom, if_pos (lt_of_getElem? hb), byteAt_of_getElem? hb, ok_bind,
      if_true]
  closes rounds i hb := by
    simp only [Indexed.skipFrom, if_pos (lt_of_getElem? hb), byteAt_of_getElem? hb, ok_bind,
      if_neg (asciiByte_ne_backslash hq), if_true]
    rfl
  -- the brace is looked for with the rounds that are left, which are enough
  interpolation rounds i hr hquote hopens := by
    have hb : bytes[i]? = some dollar := by
      simp only [startsInterpolation, Bool.and_eq_true, beq_iff_eq] at hopens
      exact hopens.1
    have hlt := lt_of_getElem? hb
    simp only [Indexed.skipFrom, if_pos hlt, byteAt_of_getElem? hb, ok_bind,
      interpolates_eq hb, hquote, hopens]
    rw [if_neg (by decide), if_neg (by decide), if_pos (by decide),
      (skipsIn_closesIn bytes rounds).2 0 (i + 2) (by omega), ok_bind]
    cases braceStop bytes 0 (i + 2) with
    | none => rfl
    | some close => cases Indexed.skipFrom bytes backtick rounds (close + 1) <;> rfl
  plain rounds i b hb hne hnq hopens := by
    simp only [Indexed.skipFrom, if_pos (lt_of_getElem? hb), byteAt_of_getElem? hb, ok_bind,
      interpolates_eq hb, if_neg hne, if_neg hnq, decide_eq_false hopens]
    rfl

/-- The loop of the lexer; it looks for an interpolation before it looks for
the quote. -/
theorem literalLoop_scanFrom (bytes : Array UInt8) {q : Char} (hq : isQuote q = true) :
    LiteralLoop bytes (asciiByte q) (Indexed.scanFrom bytes (asciiByte q)) id where
  ended rounds i hi := by
    rw [Indexed.scanFrom, if_neg (Nat.not_lt_of_le hi)]
    rfl
  escape rounds i hb := by
    simp only [Indexed.scanFrom, if_pos (lt_of_getElem? hb), byteAt_of_getElem? hb, ok_bind,
      if_true]
  closes rounds i hb := by
    -- no quote is a `$`, so the order of the two tests makes no difference
    have hopens : startsInterpolation bytes i = false := by
      refine not_startsInterpolation hb ?_
      simp only [isQuote, Bool.or_eq_true, beq_iff_eq] at hq
      rcases hq with (rfl | rfl) | rfl <;> decide
    simp only [Indexed.scanFrom, if_pos (lt_of_getElem? hb), byteAt_of_getElem? hb, ok_bind,
      interpolates_eq hb, if_neg (asciiByte_ne_backslash hq), if_true, hopens]
    rw [if_neg (by simp)]
    rfl
  interpolation rounds i hr hquote hopens := by
    have hb : bytes[i]? = some dollar := by
      simp only [startsInterpolation, Bool.and_eq_true, beq_iff_eq] at hopens
      exact hopens.1
    simp only [Indexed.scanFrom, if_pos (lt_of_getElem? hb), byteAt_of_getElem? hb, ok_bind,
      interpolates_eq hb, hquote, hopens, braceFrom_enough]
    rw [if_neg (by decide), if_pos (by decide)]
    cases braceStop bytes 0 (i + 2) with
    | none => rfl
    | some close => cases Indexed.scanFrom bytes backtick rounds (close + 1) <;> rfl
  plain rounds i b hb hne hnq hopens := by
    simp only [Indexed.scanFrom, if_pos (lt_of_getElem? hb), byteAt_of_getElem? hb, ok_bind,
      interpolates_eq hb, if_neg hne, if_neg hnq, decide_eq_false hopens]
    rfl

/-! ## §4. Tokens. -/

/-- Between two boundaries a text can be cut. -/
theorem cut_written (s m r : Text) :
    Indexed.cut (s ++ (m ++ r)) (utf8Size s) (utf8Size s + utf8Size m) = .ok m := by
  have hstop : isBoundary (s ++ (m ++ r)) (utf8Size s + utf8Size m) = true := by
    rw [← List.append_assoc, ← utf8Size_append]
    exact isBoundary_written _ _
  rw [Indexed.cut, if_pos ⟨Nat.le_add_right _ _, isBoundary_written _ _, hstop⟩, slice_written]

/-- What is cut is the slice between the two indices. -/
theorem slice_of_cut {t m : Text} {start stop : Nat} (h : Indexed.cut t start stop = .ok m) :
    slice t start stop = m := by
  unfold Indexed.cut at h
  split at h
  · exact Except.ok.inj h
  · cases h

/-- What the lexer's loop finds in a literal. -/
theorem scan_eq {q : Char} (hq : isQuote q = true) {cs : Text} {spans : List ByteSpan}
    {stop : Option Nat} (h : Walk q 1 cs spans stop) :
    Indexed.scan q (q :: cs) = .ok (spans, stop) := by
  have hat := ((at_start (q :: cs)).ascii (ascii_of_isQuote hq)).2
  exact h.reaches (literalLoop_scanFrom _ hq) hq hat _ (lt_enough _ _)

theorem not_isBlank_of_isQuote {c : Char} (h : isQuote c = true) : isBlank c = false := by
  simp only [isQuote, Bool.or_eq_true, beq_iff_eq] at h
  rcases h with (rfl | rfl) | rfl <;> decide

/-- A quote starts a literal, and the token is the literal with both quotes. -/
theorem nextToken_quote {c : Char} (hq : isQuote c = true) (cs : Text) :
    nextToken c cs =
      match closingQuote c cs with
      | none => .error (.unterminatedString (c :: cs))
      | some (content, rest) =>
        .ok (⟨if c = '`' then .templateString else .value, c :: (content ++ [c])⟩, rest) := by
  rw [nextToken]
  exact (if_neg (Bool.eq_false_iff.1 (not_isBlank_of_isQuote hq))).trans (if_pos hq)

/-- A literal between its quotes is two bytes longer than its content. -/
theorem utf8Size_quoted {q : Char} (hq : isQuote q = true) (content : Text) :
    utf8Size (q :: (content ++ [q])) = 1 + utf8Size content + 1 := by
  simp only [utf8Size, utf8Size_append, utf8Size_ascii (ascii_of_isQuote hq)]
  omega

/-- The string token is cut out whole. -/
theorem stringToken_eq {c : Char} {cs : Text} (hq : isQuote c = true) :
    Indexed.stringToken c (c :: cs) = ((nextToken c cs).mapError Stop.refused).map Prod.fst := by
  obtain ⟨spans, stop, hwalk⟩ := exists_walk c cs 1
  have hstop := hwalk.stop_eq hq
  rw [Indexed.stringToken, scan_eq hq hwalk, ok_bind, hstop, nextToken_quote hq]
  cases hclose : closingQuote c cs with
  | none => rfl
  | some p =>
    have hcut := cut_written [] (c :: (p.1 ++ [c])) p.2
    have hsplit : [] ++ (c :: (p.1 ++ [c]) ++ p.2) = c :: cs := by
      rw [eq_of_closingQuote hclose]
      simp
    rw [hsplit, utf8Size_quoted hq, utf8Size, Nat.zero_add] at hcut
    dsimp only [Option.map_some]
    rw [hcut]
    rfl

/-- The token read by index is the one read by characters, and so is the error. -/
theorem token_eq (c : Char) (cs : Text) :
    Indexed.token (c :: cs) = ((nextToken c cs).mapError Stop.refused).map Prod.fst := by
  rw [Indexed.token]
  split
  · next hq => exact stringToken_eq hq
  · rfl

/-- A text is read as its first token and the tokens of the rest. -/
theorem tokenize_cons (c : Char) (cs : Text) :
    tokenize (c :: cs) = nextToken c cs >>= fun p => (tokenize p.2).map (p.1 :: ·) := by
  rw [tokenize.eq_def]
  dsimp only
  split
  · next hnext =>
    rw [hnext]
    rfl
  · next t rest hnext =>
    rw [hnext, ok_bind]
    cases tokenize rest <;> rfl

/-- From a boundary on, the tokens are those of the rest. -/
theorem tokensFrom_reaches (before rest : Text) :
    Reaches (utf8Size rest)
      (fun rounds => Indexed.tokensFrom (before ++ rest) rounds (utf8Size before))
      ((tokenize rest).mapError Stop.refused) := by
  match rest with
  | [] =>
    refine reaches_of_end fun rounds _ => ?_
    rw [Indexed.tokensFrom, List.append_nil, if_neg (Nat.lt_irrefl _), tokenize_nil]
    rfl
  | c :: cs =>
    have hlt : utf8Size before < utf8Size (before ++ c :: cs) := by
      have := utf8Size_pos (List.cons_ne_nil c cs)
      rw [utf8Size_append]
      omega
    have hcut := cut_written before (c :: cs) []
    rw [List.append_nil, ← utf8Size_append] at hcut
    have hfirst : ∀ rounds, Indexed.tokensFrom (before ++ c :: cs) (rounds + 1) (utf8Size before) =
        ((nextToken c cs).mapError Stop.refused).map Prod.fst >>= fun t =>
          (Indexed.tokensFrom (before ++ c :: cs) rounds (utf8Size before + utf8Size t.text)).map
            (t :: ·) := by
      intro rounds
      rw [Indexed.tokensFrom, if_pos hlt, hcut, ok_bind, token_eq]
      rfl
    rw [tokenize_cons]
    cases hnext : nextToken c cs with
    | error e =>
      refine reaches_of_end fun rounds _ => ?_
      rw [hfirst, hnext]
      rfl
    | ok p =>
      have hreads := nextToken_eq_ok_iff.1 hnext
      have hlength := length_of_nextToken hnext
      have hsplit : before ++ c :: cs = (before ++ p.1.text) ++ p.2 := by
        rw [List.append_assoc, hreads.append]
      -- every token takes some bytes, so a round leaves less
      have hne : p.1.text ≠ [] := by
        intro hnil
        have happend := hreads.append
        rw [hnil, List.nil_append] at happend
        rw [happend] at hlength
        exact Nat.not_succ_le_self _ hlength
      have hless : utf8Size p.2 < utf8Size (c :: cs) := by
        have := utf8Size_pos hne
        rw [← hreads.append, utf8Size_append]
        omega
      have hrest := tokensFrom_reaches (before ++ p.1.text) p.2
      rw [← hsplit, utf8Size_append] at hrest
      rw [ok_bind, mapError_map]
      refine hrest.step (f := Except.map (p.1 :: ·)) hless fun rounds _ => ?_
      rw [hfirst, hnext]
      rfl
termination_by rest.length

/-! ## §5. Template literals. -/

section Template

variable {v : Visitor} {literal : Text} {bytes : Array UInt8} {copied i : Nat}

/-- Inside of the text the check for an opening delimiter reads two bytes. -/
theorem opensWithin_eq (hi : i + 1 < bytes.size) :
    Indexed.opensWithin bytes i = .ok (startsInterpolation bytes i) := by
  have hb : bytes[i]? = some bytes[i] := Array.getElem?_eq_getElem (Nat.lt_of_succ_lt hi)
  have hn : bytes[i + 1]? = some bytes[i + 1] := Array.getElem?_eq_getElem hi
  rw [Indexed.opensWithin, byteAt_of_getElem? hb, byteAt_of_getElem? hn, startsInterpolation, hb,
    hn, ok_bind]
  by_cases h : bytes[i] = dollar
  · rw [if_pos h, ok_bind, h]
    simp only [Option.some_beq_some, beq_self_eq_true, Bool.true_and]
    rfl
  · rw [if_neg h, beq_eq_false_iff_ne.2 fun heq => h (Option.some.inj heq)]
    rfl

/-- One round, its reads done. -/
theorem fillFrom_succ {b : UInt8} (hb : bytes[i]? = some b) (hi : i + 1 < bytes.size)
    (rounds : Nat) :
    Indexed.fillFrom v literal bytes (rounds + 1) copied i =
      if b = backslash then Indexed.fillFrom v literal bytes rounds copied (i + 2)
      else if startsInterpolation bytes i = true then
        match braceStop bytes 0 (i + 2) with
        | some close => do
          let inner ← Traced.ofExcept (Indexed.cut literal (i + 2) close)
          let before ← Traced.ofExcept (Indexed.cut literal copied (i + 2))
          let filled ← v.closed (i + 2) close inner
          (Indexed.fillFrom v literal bytes rounds close (close + 1)).map (before ++ filled ++ ·)
        | none => do
          v.unclosed (i + 2)
          Indexed.fillFrom v literal bytes rounds copied (i + 1)
      else Indexed.fillFrom v literal bytes rounds copied (i + 1) := by
  rw [Indexed.fillFrom, if_pos hi, byteAt_of_getElem? hb, opensWithin_eq hi, braceFrom_enough]
  rfl

/-- At its end the loop writes out what was not yet copied. -/
theorem fillFrom_end (hi : bytes.size ≤ i + 1) (rounds : Nat) :
    Indexed.fillFrom v literal bytes (rounds + 1) copied i =
      Traced.ofExcept (Indexed.cut literal copied bytes.size) := by
  rw [Indexed.fillFrom, if_neg (Nat.not_lt_of_le hi)]

/-- A byte that neither escapes nor opens is passed over. -/
theorem fillFrom_pass {b : UInt8} {x : Traced Stop Text} (hb : bytes[i]? = some b)
    (hne : b ≠ backslash) (hs : startsInterpolation bytes i = false)
    (hx : Reaches (bytes.size - (i + 1))
      (fun rounds => Indexed.fillFrom v literal bytes rounds copied (i + 1)) x) :
    Reaches (bytes.size - i)
      (fun rounds => Indexed.fillFrom v literal bytes rounds copied i) x := by
  have hlt := lt_of_getElem? hb
  by_cases hi : i + 1 < bytes.size
  · refine hx.step (f := id) (by omega) fun rounds _ => ?_
    rw [fillFrom_succ hb hi, if_neg hne, hs, if_neg Bool.false_ne_true]
    rfl
  · -- the loop has ended before the last byte already
    have hend := hx (bytes.size - (i + 1) + 1) (Nat.lt_succ_self _)
    dsimp only at hend
    rw [fillFrom_end (by omega)] at hend
    refine reaches_of_end fun rounds _ => ?_
    rw [fillFrom_end (by omega), hend]

/-- A character beyond ASCII is passed byte by byte, and stays to be copied. -/
theorem fillFrom_inert {n : Nat} {x : Traced Stop Text} (h : Inert bytes i n)
    (hx : Reaches (bytes.size - (i + n))
      (fun rounds => Indexed.fillFrom v literal bytes rounds copied (i + n)) x) :
    Reaches (bytes.size - i)
      (fun rounds => Indexed.fillFrom v literal bytes rounds copied i) x := by
  refine h.back (P := fun j => Reaches (bytes.size - j)
    (fun rounds => Indexed.fillFrom v literal bytes rounds copied j) x) ?_ hx
  intro j b hb hge hj
  exact fillFrom_pass hb (ne_of_inert hge (by decide))
    (not_startsInterpolation hb (ne_of_inert hge (by decide))) hj

/-- Behind a backslash a whole character is passed over. -/
theorem fillFrom_escape {c : Char} {r : Text} {x : Traced Stop Text}
    (hat : At bytes i ('\\' :: c :: r))
    (hx : Reaches (bytes.size - (i + utf8Size ['\\', c]))
      (fun rounds => Indexed.fillFrom v literal bytes rounds copied (i + utf8Size ['\\', c])) x) :
    Reaches (bytes.size - i)
      (fun rounds => Indexed.fillFrom v literal bytes rounds copied i) x := by
  obtain ⟨hb, hnext⟩ := hat.ascii (by decide)
  have hlt := hnext.lt
  have hpos := c.utf8Size_pos
  have hindex : i + utf8Size ['\\', c] = i + 2 + (c.utf8Size - 1) := by
    show i + (1 + (c.utf8Size + 0)) = _
    omega
  rw [hindex] at hx
  refine Reaches.step (f := id) (fillFrom_inert hnext.inert_behind hx) (by omega) fun rounds _ => ?_
  rw [fillFrom_succ hb hlt, if_pos (by decide)]
  rfl

/-- A character that neither escapes nor opens is passed over whole. -/
theorem fillFrom_plain {c : Char} {r : Text} {x : Traced Stop Text} (hat : At bytes i (c :: r))
    (he : c ≠ '\\') (hd : ¬ (c = '$' ∧ r.head? = some '{'))
    (hx : Reaches (bytes.size - (i + utf8Size [c]))
      (fun rounds => Indexed.fillFrom v literal bytes rounds copied (i + utf8Size [c])) x) :
    Reaches (bytes.size - i)
      (fun rounds => Indexed.fillFrom v literal bytes rounds copied i) x := by
  obtain ⟨b, hb⟩ := hat.exists_byte
  have hne : b ≠ backslash := fun heq => he ((hat.byte_eq_iff hb '\\' (by decide)).1 heq)
  have hs : startsInterpolation bytes i = false :=
    Bool.eq_false_iff.2 fun h => hd ((startsInterpolation_iff hat).1 h)
  have hpos := c.utf8Size_pos
  have hindex : i + utf8Size [c] = i + 1 + (c.utf8Size - 1) := by
    show i + (c.utf8Size + 0) = _
    omega
  rw [hindex] at hx
  exact fillFrom_pass hb hne hs (fillFrom_inert hat.inert_behind hx)

end Template

section Split

variable {v : Visitor} {literal s p : Text}

/-- Behind what was written out and what is still to be copied the rest of the
literal follows. -/
theorem at_of_split {rest : Text} (h : literal = s ++ (p ++ rest)) :
    At literal.utf8.toArray (utf8Size s + utf8Size p) rest := by
  have hat := at_start literal
  rw [h, ← List.append_assoc] at hat
  have := hat.append
  rwa [Nat.zero_add, utf8Size_append, List.append_assoc, ← h] at this

/-- At the end the text that is not written out yet is copied. -/
theorem fillFrom_finish (h : literal = s ++ p) {i : Nat} (hi : utf8Size literal ≤ i + 1) :
    Reaches (literal.utf8.toArray.size - i)
      (fun rounds => Indexed.fillFrom v literal literal.utf8.toArray rounds (utf8Size s) i)
      (pure p) := by
  refine reaches_of_end fun rounds _ => ?_
  have hcut := cut_written s p []
  rw [List.append_nil, ← h, ← utf8Size_append, ← h] at hcut
  rw [fillFrom_end (by rwa [size_utf8]), size_utf8, hcut]
  rfl

/-- Behind an opened interpolation the index has moved on by two bytes and its
expression. -/
theorem utf8Size_opened (s p e : Text) :
    utf8Size (s ++ (p ++ ['$', '{'] ++ e)) = utf8Size s + utf8Size p + 2 + utf8Size e := by
  simp only [utf8Size_append]
  show _ + (_ + 2 + _) = _
  omega

/-- What is copied up to the content of an interpolation. -/
theorem cut_opening {r : Text} (h : literal = s ++ (p ++ '$' :: '{' :: r)) :
    Indexed.cut literal (utf8Size s) (utf8Size s + utf8Size p + 2) = .ok (p ++ ['$', '{']) := by
  have hcut := cut_written s (p ++ ['$', '{']) r
  rw [show utf8Size (p ++ ['$', '{']) = utf8Size p + 2 from utf8Size_append p _,
    ← Nat.add_assoc] at hcut
  rw [h]
  simpa using hcut

/-- The content of an interpolation. -/
theorem cut_content {e r : Text} (h : literal = s ++ (p ++ '$' :: '{' :: (e ++ r))) :
    Indexed.cut literal (utf8Size s + utf8Size p + 2)
      (utf8Size s + utf8Size p + 2 + utf8Size e) = .ok e := by
  have hcut := cut_written (s ++ (p ++ ['$', '{'])) e r
  rw [show utf8Size (s ++ (p ++ ['$', '{'])) = utf8Size s + utf8Size p + 2 by
    simpa [utf8Size] using utf8Size_opened s p []] at hcut
  rw [h]
  simpa using hcut

/-- An interpolation is handed to the visitor between what stood before it and
what follows from its closing brace on. -/
theorem fillFrom_closed {e after : Text} {x : Traced Stop Text}
    (h : literal = s ++ (p ++ '$' :: '{' :: (e ++ '}' :: after)))
    (hclose : closingBrace (e ++ '}' :: after) = some (e, after))
    (hx : Reaches (literal.utf8.toArray.size - (utf8Size s + utf8Size p + 2 + utf8Size e + 1))
      (fun rounds => Indexed.fillFrom v literal literal.utf8.toArray rounds
        (utf8Size s + utf8Size p + 2 + utf8Size e)
        (utf8Size s + utf8Size p + 2 + utf8Size e + 1)) x) :
    Reaches (literal.utf8.toArray.size - (utf8Size s + utf8Size p))
      (fun rounds => Indexed.fillFrom v literal literal.utf8.toArray rounds (utf8Size s)
        (utf8Size s + utf8Size p))
      (v.closed (utf8Size s + utf8Size p + 2) (utf8Size s + utf8Size p + 2 + utf8Size e) e >>=
        fun filled => x.map (p ++ ['$', '{'] ++ filled ++ ·)) := by
  have hat := at_of_split h
  have hopens := (startsInterpolation_iff hat).2 ⟨rfl, rfl⟩
  obtain ⟨hb, hnext⟩ := hat.ascii (by decide)
  have hlt := hnext.lt
  -- by bytes the brace is found where it closes the text
  have hstop : braceStop literal.utf8.toArray 0 (utf8Size s + utf8Size p + 2) =
      some (utf8Size s + utf8Size p + 2 + utf8Size e) := by
    rw [braceStop_interpolation hat, hclose]
    rfl
  -- the loop goes on behind the brace, nearer to the end
  have hless : literal.utf8.toArray.size - (utf8Size s + utf8Size p + 2 + utf8Size e + 1) <
      literal.utf8.toArray.size - (utf8Size s + utf8Size p) := by
    omega
  refine hx.step (f := fun y => _ >>= fun filled => y.map (p ++ ['$', '{'] ++ filled ++ ·)) hless
    fun rounds _ => ?_
  rw [fillFrom_succ hb hlt, if_neg (by decide), if_pos hopens, hstop]
  dsimp only
  rw [cut_content h, cut_opening h, Traced.ofExcept_ok_bind, Traced.ofExcept_ok_bind]

/-- Where no brace closes an interpolation its `$` is passed over. -/
theorem fillFrom_unclosed {r : Text} {x : Traced Stop Text}
    (h : literal = s ++ (p ++ '$' :: '{' :: r)) (hclose : closingBrace r = none)
    (hx : Reaches (literal.utf8.toArray.size - (utf8Size s + utf8Size p + 1))
      (fun rounds => Indexed.fillFrom v literal literal.utf8.toArray rounds (utf8Size s)
        (utf8Size s + utf8Size p + 1)) x) :
    Reaches (literal.utf8.toArray.size - (utf8Size s + utf8Size p))
      (fun rounds => Indexed.fillFrom v literal literal.utf8.toArray rounds (utf8Size s)
        (utf8Size s + utf8Size p))
      (v.unclosed (utf8Size s + utf8Size p + 2) >>= fun _ => x) := by
  have hat := at_of_split h
  have hopens := (startsInterpolation_iff hat).2 ⟨rfl, rfl⟩
  obtain ⟨hb, hnext⟩ := hat.ascii (by decide)
  have hlt := hnext.lt
  -- the visitor is told, and the `$` is passed like any character
  have hstop : braceStop literal.utf8.toArray 0 (utf8Size s + utf8Size p + 2) = none := by
    rw [braceStop_interpolation hat, hclose]
    rfl
  refine hx.step (f := fun y => v.unclosed (utf8Size s + utf8Size p + 2) >>= fun _ => y) (by omega)
    fun rounds _ => ?_
  rw [fillFrom_succ hb hlt, if_neg (by decide), if_pos hopens, hstop]

end Split

section Equations

variable (inner : Scanner)

theorem fillTemplate_nil : fillTemplate inner [] = pure [] := by
  rw [fillTemplate, Piece.ofTemplateLiteral, fillPieces]

/-- A backslash is copied together with the next character. -/
theorem fillTemplate_escape (c : Char) (r : Text) :
    fillTemplate inner ('\\' :: c :: r) = (fillTemplate inner r).map (['\\', c] ++ ·) := by
  rw [fillTemplate, Piece.ofTemplateLiteral, fillPieces, fillPieces, Traced.map_map]
  rfl

/-- A character that neither escapes nor opens an interpolation is copied. -/
theorem fillTemplate_plain {c : Char} {r : Text} (hescape : c = '\\' → r = [])
    (hdollar : c = '$' → r.head? ≠ some '{') :
    fillTemplate inner (c :: r) = (fillTemplate inner r).map ([c] ++ ·) := by
  rw [fillTemplate, ofTemplateLiteral_cons hescape hdollar, fillPieces]
  rfl

/-- The `$` of an interpolation that nothing closes is copied. -/
theorem fillTemplate_unclosed {r : Text} (h : closingBrace r = none) :
    fillTemplate inner ('$' :: '{' :: r) = (fillTemplate inner ('{' :: r)).map (['$'] ++ ·) := by
  rw [fillTemplate, ofTemplateLiteral_dollar h, fillPieces]
  rfl

/-- An interpolation is filled between its delimiters, and the text behind it as
a text of its own. -/
theorem fillTemplate_hole {r expr after : Text} (h : closingBrace r = some (expr, after)) :
    fillTemplate inner ('$' :: '{' :: r) =
      inner expr >>= fun filled =>
        (fillTemplate inner after).map (['$', '{'] ++ filled ++ ['}'] ++ ·) := by
  rw [fillTemplate, ofTemplateLiteral_hole h, fillPieces]
  rfl

end Equations

/-- What is passed over is copied later, with what stood before it. -/
theorem fillFrom_behind {v : Visitor} {inner : Scanner} {literal s p w r : Text}
    (h : Reaches (literal.utf8.toArray.size - (utf8Size s + utf8Size (p ++ w)))
      (fun rounds => Indexed.fillFrom v literal literal.utf8.toArray rounds (utf8Size s)
        (utf8Size s + utf8Size (p ++ w)))
      (((fillTemplate inner r).map (p ++ w ++ ·)).mapError .refused)) :
    Reaches (literal.utf8.toArray.size - (utf8Size s + utf8Size p + utf8Size w))
      (fun rounds => Indexed.fillFrom v literal literal.utf8.toArray rounds (utf8Size s)
        (utf8Size s + utf8Size p + utf8Size w))
      ((((fillTemplate inner r).map (w ++ ·)).map (p ++ ·)).mapError .refused) := by
  rw [utf8Size_append, ← Nat.add_assoc] at h
  rw [Traced.map_map]
  simpa only [List.append_assoc] using h

/-- A template literal is filled from any boundary on, `s` being written out
and `p` still to be copied. -/
theorem fillFrom_reaches {v : Visitor} {inner : Scanner} {literal : Text}
    (hclosed : ∀ start close e, e.length < literal.length →
      v.closed start close e = (inner e).mapError .refused)
    (hunclosed : ∀ start, v.unclosed start = pure ()) (s p rest : Text)
    (h : literal = s ++ (p ++ rest)) :
    Reaches (literal.utf8.toArray.size - (utf8Size s + utf8Size p))
      (fun rounds => Indexed.fillFrom v literal literal.utf8.toArray rounds (utf8Size s)
        (utf8Size s + utf8Size p))
      (((fillTemplate inner rest).map (p ++ ·)).mapError .refused) := by
  induction rest using Piece.ofTemplateLiteral.induct generalizing s p with
  | case1 =>
    have hvalue : ((fillTemplate inner []).map (p ++ ·)).mapError Stop.refused = pure p := by
      rw [fillTemplate_nil]
      show pure (p ++ []) = pure p
      rw [List.append_nil]
    rw [List.append_nil] at h
    rw [hvalue]
    exact fillFrom_finish h (by rw [h, utf8Size_append]; omega)
  | case2 c r ih =>
    rw [fillTemplate_escape]
    exact fillFrom_escape (at_of_split h) (fillFrom_behind (ih s (p ++ ['\\', c]) (by simp [h])))
  | case3 r e after hclose _ ih =>
    obtain rfl : r = e ++ '}' :: after := eq_of_closingBraces hclose
    have hshorter : e.length < literal.length := by
      rw [h]
      simp only [List.length_append, List.length_cons]
      omega
    -- what follows is copied from the closing brace on
    have hrest := ih (s ++ (p ++ ['$', '{'] ++ e)) ['}'] (by simp [h])
    rw [utf8Size_opened] at hrest
    have hvalue := fillFrom_closed h hclose hrest
    rw [hclosed _ _ e hshorter] at hvalue
    rw [fillTemplate_hole inner hclose, Traced.map_bind, Traced.mapError_bind]
    simpa only [Traced.mapError_map, Traced.map_map, List.append_assoc] using hvalue
  | case4 r hclose ih =>
    have hrest := fillFrom_unclosed h hclose (fillFrom_behind (ih s (p ++ ['$']) (by simp [h])))
    rw [hunclosed] at hrest
    rw [fillTemplate_unclosed inner hclose]
    exact hrest
  | case5 c r hescape hdollar ih =>
    have hhead : c = '$' → r.head? ≠ some '{' := by
      intro hc hr
      obtain ⟨r', hr'⟩ := List.head?_eq_some_iff.1 hr
      exact hdollar r' hc hr'
    by_cases he : c = '\\'
    · -- a backslash at the end escapes nothing
      have hnil : r = [] := by
        cases r with
        | nil => rfl
        | cons d r => exact absurd rfl (hescape d r he)
      subst he hnil
      rw [fillTemplate_plain inner (fun _ => rfl) hhead, fillTemplate_nil]
      exact fillFrom_finish h (by rw [h, utf8Size_append, utf8Size_append]; exact Nat.le_refl _)
    · rw [fillTemplate_plain inner (fun h => absurd h he) hhead]
      exact fillFrom_plain (at_of_split h) he (fun h => hhead h.1 h.2)
        (fillFrom_behind (ih s (p ++ [c]) (by simp [h])))

/-- A template literal is filled by index as it is by pieces. -/
theorem fill_eq {v : Visitor} {inner : Scanner} {literal : Text}
    (hclosed : ∀ start close e, e.length < literal.length →
      v.closed start close e = (inner e).mapError .refused)
    (hunclosed : ∀ start, v.unclosed start = pure ()) :
    Indexed.fill v literal =
      (fillPieces inner (Piece.ofTemplateLiteral literal)).mapError .refused := by
  have hrest := fillFrom_reaches hclosed hunclosed [] [] literal rfl
  rw [map_nil_append] at hrest
  exact hrest (enough literal.utf8.toArray) (lt_enough _ _)

/-! ## §6. Dynamic strings. -/

/-- The interpolation that opens a text: its delimiters, its content, and what
follows it. -/
def holeAt : Text → Option (Text × Text × Text × Text)
  | '#' :: '{' :: r => (closingBrace r).map fun p => (['#', '{'], p.1, ['}'], p.2)
  | '{' :: '{' :: r => (closingDoubleBrace r).map fun p => (['{', '{'], p.1, ['}', '}'], p.2)
  | _ => none

/-- A hole is made up of its delimiters, the expression between them and what
follows. -/
theorem eq_of_holeAt {t o e cl after : Text} (h : holeAt t = some (o, e, cl, after)) :
    o ≠ [] ∧ t = o ++ (e ++ (cl ++ after)) := by
  unfold holeAt at h
  split at h
  · obtain ⟨p, hp, heq⟩ := Option.map_eq_some_iff.1 h
    cases heq
    rw [eq_of_closingBraces hp]
    exact ⟨List.cons_ne_nil _ _, rfl⟩
  · obtain ⟨p, hp, heq⟩ := Option.map_eq_some_iff.1 h
    cases heq
    rw [exists_of_closingDoubleFrom hp]
    exact ⟨List.cons_ne_nil _ _, rfl⟩
  · cases h

theorem fillDynamic_nil (inner : Scanner) : fillDynamic inner [] = pure [] := by
  rw [fillDynamic, Piece.ofDynamicString, fillPieces]

/-- A character at which nothing opens is copied. -/
theorem fillDynamic_plain (inner : Scanner) {c : Char} {r : Text} (h : holeAt (c :: r) = none) :
    fillDynamic inner (c :: r) = (fillDynamic inner r).map ([c] ++ ·) := by
  have hpieces : Piece.ofDynamicString (c :: r) = .plain c :: Piece.ofDynamicString r := by
    by_cases hhash : c = '#' ∧ r.head? = some '{'
    · obtain ⟨rfl, hhead⟩ := hhash
      obtain ⟨r, rfl⟩ := List.head?_eq_some_iff.1 hhead
      exact ofDynamicString_hash (Option.map_eq_none_iff.1 h)
    by_cases hdouble : c = '{' ∧ r.head? = some '{'
    · obtain ⟨rfl, hhead⟩ := hdouble
      obtain ⟨r, rfl⟩ := List.head?_eq_some_iff.1 hhead
      exact ofDynamicString_double (Option.map_eq_none_iff.1 h)
    · exact ofDynamicString_cons (fun hc hr => hhash ⟨hc, hr⟩) fun hc hr => hdouble ⟨hc, hr⟩
  rw [fillDynamic, hpieces, fillPieces]
  rfl

/-- A hole is filled between its delimiters, and the text behind it as a text of
its own. -/
theorem fillDynamic_hole (inner : Scanner) {t o e cl after : Text}
    (h : holeAt t = some (o, e, cl, after)) :
    fillDynamic inner t =
      inner e >>= fun filled => (fillDynamic inner after).map (o ++ filled ++ cl ++ ·) := by
  have hpieces : Piece.ofDynamicString t = .hole o e cl :: Piece.ofDynamicString after := by
    unfold holeAt at h
    split at h
    · obtain ⟨p, hp, heq⟩ := Option.map_eq_some_iff.1 h
      cases heq
      exact ofDynamicString_hashHole hp
    · obtain ⟨p, hp, heq⟩ := Option.map_eq_some_iff.1 h
      cases heq
      exact ofDynamicString_doubleHole hp
    · cases h
  rw [fillDynamic, hpieces, fillPieces]
  rfl

/-- At a boundary the closing brace is found by index as it is by characters. -/
theorem brace_eq (before rest : Text) :
    Indexed.brace (before ++ rest) (utf8Size before) =
      .ok ((closingBrace rest).map fun p => utf8Size before + utf8Size p.1) := by
  have hat := at_of_isBoundary (isBoundary_written before rest)
  rw [dropBytes_written] at hat
  rw [Indexed.brace, braceFrom_enough, braceStop_eq_closing 0 hat]
  rfl

/-- At a boundary two closing braces are found by index as they are by
characters. -/
theorem double_eq (before rest : Text) :
    Indexed.double (before ++ rest) (utf8Size before) =
      .ok ((closingDoubleBrace rest).map fun p => utf8Size before + utf8Size p.1) := by
  have hat := at_of_isBoundary (isBoundary_written before rest)
  rw [dropBytes_written] at hat
  rw [Indexed.double, doubleFrom_eq _ _ _ _ (lt_enough _ _),
    doubleBraceEnd_eq_closing 0 hat]
  rfl

/-- At a boundary the delimiters found by index are those of the hole there. -/
theorem delimitersAt_eq (before rest : Text) :
    Indexed.delimitersAt (before ++ rest) rest (utf8Size before) =
      .ok ((holeAt rest).map fun h =>
        (h.1, utf8Size before + utf8Size h.1 + utf8Size h.2.1, h.2.2.1)) := by
  have hshift : ∀ o r : Text, before ++ (o ++ r) = (before ++ o) ++ r := fun o r =>
    (List.append_assoc _ _ _).symm
  unfold Indexed.delimitersAt
  -- the cases are those of `holeAt`: one of the two delimiters, or none
  by_cases hhash : Indexed.hashOpening.isPrefixOf rest = true
  · obtain ⟨r, rfl⟩ := List.isPrefixOf_iff_prefix.1 hhash
    rw [if_pos hhash, hshift, ← utf8Size_append, brace_eq, ok_bind, utf8Size_append]
    show Except.ok (((closingBrace r).map _).map _) =
      Except.ok (((closingBrace r).map _).map _)
    rw [Option.map_map, Option.map_map]
    rfl
  by_cases hdouble : Indexed.doubleOpening.isPrefixOf rest = true
  · obtain ⟨r, rfl⟩ := List.isPrefixOf_iff_prefix.1 hdouble
    rw [if_neg hhash, if_pos hdouble, hshift, ← utf8Size_append, double_eq, ok_bind,
      utf8Size_append]
    show Except.ok (((closingDoubleBrace r).map _).map _) =
      Except.ok (((closingDoubleBrace r).map _).map _)
    rw [Option.map_map, Option.map_map]
    rfl
  · have hnone : holeAt rest = none := by
      unfold holeAt
      split
      · exact absurd rfl hhash
      · exact absurd rfl hdouble
      · rfl
    rw [if_neg hhash, if_neg hdouble, hnone]
    rfl

section Dynamic

variable {inner' : Text → Traced Stop Text} {text s p : Text}

/-- One round in front of some text, its reads done. -/
theorem dynamicFrom_succ {rest : Text} (h : text = s ++ (p ++ rest)) (hne : rest ≠ [])
    (rounds : Nat) :
    Indexed.dynamicFrom inner' text (rounds + 1) (utf8Size s) (utf8Size s + utf8Size p) =
      match holeAt rest with
      | some (o, e, cl, _) =>
        inner' e >>= fun filled =>
          let next := utf8Size s + utf8Size p + utf8Size o + utf8Size e + utf8Size cl
          (Indexed.dynamicFrom inner' text rounds next next).map (p ++ o ++ filled ++ cl ++ ·)
      | none =>
        Indexed.dynamicFrom inner' text rounds (utf8Size s)
          (utf8Size s + utf8Size p + (rest.head?.map Char.utf8Size).getD 1) := by
  -- every index of the round is the size of a text that was passed, so that every cut
  -- is granted
  have hsize : utf8Size text = utf8Size s + utf8Size p + utf8Size rest := by
    rw [h, utf8Size_append, utf8Size_append, Nat.add_assoc]
  have hlt : utf8Size s + utf8Size p < utf8Size text := by
    have := utf8Size_pos hne
    omega
  have hrest : Indexed.cut text (utf8Size s + utf8Size p) (utf8Size text) = .ok rest := by
    have hcut := cut_written (s ++ p) rest []
    rw [List.append_nil, utf8Size_append, ← hsize] at hcut
    rw [← hcut, h, List.append_assoc]
  have hbefore : Indexed.cut text (utf8Size s) (utf8Size s + utf8Size p) = .ok p := by
    rw [h]
    exact cut_written s p rest
  have hfound := delimitersAt_eq (s ++ p) rest
  rw [utf8Size_append, List.append_assoc, ← h] at hfound
  rw [Indexed.dynamicFrom, if_pos hlt, hrest, Traced.ofExcept_ok_bind, hfound,
    Traced.ofExcept_ok_bind]
  cases hhole : holeAt rest with
  | none => rfl
  | some q =>
    obtain ⟨o, e, cl, after⟩ := q
    have hexpr : Indexed.cut text (utf8Size s + utf8Size p + utf8Size o)
        (utf8Size s + utf8Size p + utf8Size o + utf8Size e) = .ok e := by
      have hcut := cut_written (s ++ p ++ o) e (cl ++ after)
      rw [utf8Size_append, utf8Size_append] at hcut
      rw [← hcut, h, (eq_of_holeAt hhole).2]
      simp only [List.append_assoc]
    dsimp only [Option.map_some]
    rw [hexpr, hbefore, Traced.ofExcept_ok_bind, Traced.ofExcept_ok_bind]

/-- A character at which nothing opens is passed over whole. -/
theorem dynamicFrom_pass {c : Char} {r : Text} {x : Traced Stop Text}
    (h : text = s ++ (p ++ c :: r)) (hhole : holeAt (c :: r) = none)
    (hx : Reaches (utf8Size r)
      (fun rounds => Indexed.dynamicFrom inner' text rounds (utf8Size s)
        (utf8Size s + utf8Size p + c.utf8Size)) x) :
    Reaches (utf8Size (c :: r))
      (fun rounds => Indexed.dynamicFrom inner' text rounds (utf8Size s)
        (utf8Size s + utf8Size p)) x := by
  have hpos := c.utf8Size_pos
  refine hx.step (f := id) (by rw [utf8Size]; omega) fun rounds _ => ?_
  rw [dynamicFrom_succ h (List.cons_ne_nil c r), hhole]
  rfl

/-- An interpolation is filled between what stood before it and what follows
its closing delimiter. -/
theorem dynamicFrom_hole {rest o e cl after : Text} {x : Traced Stop Text}
    (h : text = s ++ (p ++ rest)) (hhole : holeAt rest = some (o, e, cl, after))
    (hx : Reaches (utf8Size after)
      (fun rounds => Indexed.dynamicFrom inner' text rounds
        (utf8Size s + utf8Size p + utf8Size o + utf8Size e + utf8Size cl)
        (utf8Size s + utf8Size p + utf8Size o + utf8Size e + utf8Size cl)) x) :
    Reaches (utf8Size rest)
      (fun rounds => Indexed.dynamicFrom inner' text rounds (utf8Size s) (utf8Size s + utf8Size p))
      (inner' e >>= fun filled => x.map (p ++ o ++ filled ++ cl ++ ·)) := by
  obtain ⟨hopening, heq⟩ := eq_of_holeAt hhole
  -- behind a hole less is left, for its delimiters are not empty
  have hless : utf8Size after < utf8Size rest := by
    have := utf8Size_pos hopening
    simp only [heq, utf8Size_append]
    omega
  have hne : rest ≠ [] := by
    rw [heq]
    exact List.append_ne_nil_of_left_ne_nil hopening _
  refine hx.step (f := fun y => inner' e >>= fun filled => y.map (p ++ o ++ filled ++ cl ++ ·))
    hless fun rounds _ => ?_
  rw [dynamicFrom_succ h hne, hhole]

end Dynamic

/-- A dynamic string is filled from any boundary on, `s` being written out and
`p` still to be copied. -/
theorem dynamicFrom_reaches {inner : Scanner} {inner' : Text → Traced Stop Text} {text : Text}
    (hinner : ∀ e, inner' e = (inner e).mapError .refused) (s p rest : Text)
    (h : text = s ++ (p ++ rest)) :
    Reaches (utf8Size rest)
      (fun rounds => Indexed.dynamicFrom inner' text rounds (utf8Size s) (utf8Size s + utf8Size p))
      (((fillDynamic inner rest).map (p ++ ·)).mapError .refused) := by
  induction hlength : rest.length using Nat.strong_induction_on generalizing s p rest with
  | _ n ih =>
  subst hlength
  cases rest with
  | nil =>
    have hsize : utf8Size text = utf8Size s + utf8Size p := by
      rw [h, List.append_nil, utf8Size_append]
    have hbefore := cut_written s p []
    rw [← h, ← hsize] at hbefore
    refine reaches_of_end fun rounds _ => ?_
    rw [Indexed.dynamicFrom, ← hsize, if_neg (Nat.lt_irrefl _), hbefore, fillDynamic_nil]
    show Traced.ofExcept (.ok p) = Traced.ofExcept (.ok (p ++ []))
    rw [List.append_nil]
  | cons c r =>
    cases hhole : holeAt (c :: r) with
    | none =>
      -- the character is copied later, with what stood before it
      have hnext := ih r.length (Nat.lt_succ_self _) s (p ++ [c]) r (by rw [h]; simp) rfl
      rw [utf8Size_append, ← Nat.add_assoc] at hnext
      rw [fillDynamic_plain inner hhole, Traced.map_map]
      simp only [← List.append_assoc]
      exact dynamicFrom_pass h hhole hnext
    | some q =>
      obtain ⟨o, e, cl, after⟩ := q
      obtain ⟨hopening, heq⟩ := eq_of_holeAt hhole
      have hlength : after.length < (c :: r).length := by
        have := List.length_pos_of_ne_nil hopening
        simp only [heq, List.length_append]
        omega
      have hnext := ih after.length hlength (s ++ p ++ o ++ e ++ cl) [] after
        (by rw [h, heq]; simp only [List.append_assoc]; rfl) rfl
      simp only [utf8Size_append, utf8Size, Nat.add_zero] at hnext
      rw [map_nil_append] at hnext
      rw [fillDynamic_hole inner hhole, Traced.map_bind, Traced.mapError_bind]
      have hvalue := dynamicFrom_hole h hhole hnext
      rw [hinner] at hvalue
      simpa only [Traced.mapError_map, Traced.map_map, List.append_assoc] using hvalue

/-- A dynamic string is filled by index as it is by pieces. -/
theorem dynamic_eq {inner : Scanner} {inner' : Text → Traced Stop Text} {text : Text}
    (hinner : ∀ e, inner' e = (inner e).mapError .refused) :
    Indexed.dynamic inner' text =
      (fillPieces inner (Piece.ofDynamicString text)).mapError .refused := by
  have hrest := dynamicFrom_reaches hinner [] [] text rfl
  rw [map_nil_append] at hrest
  exact hrest (utf8Size text + 1) (Nat.lt_succ_self _)

/-! ## §7. Expressions. -/

/-- A text is cut by index into the tokens that are read off it. -/
theorem tokens_eq (input : Text) :
    Indexed.tokens input = (tokenize input).mapError Stop.refused :=
  tokensFrom_reaches [] input (utf8Size input + 1) (Nat.lt_succ_self _)

section Expressions

variable {literal : Text → Traced Stop Text} {inner : Scanner} {bound : NameSet}
  {scopes : List ArrowScope}

/-- A token is qualified by index as it is by characters, if template literals
are. -/
theorem indexed_qualifyToken_eq {t : Token} (site : Site)
    (h : t.kind = .templateString →
      literal t.text = (fillPieces inner (Piece.ofTemplateLiteral t.text)).mapError .refused) :
    Indexed.qualifyToken literal bound scopes site t =
      (qualifyToken inner bound scopes site t).mapError .refused := by
  unfold Indexed.qualifyToken
  by_cases hkind : t.kind = .templateString
  · rw [if_pos hkind, h hkind, qualifyToken, hkind]
  · rw [if_neg hkind]
    unfold qualifyToken
    cases hk : t.kind <;> first | rfl | exact absurd hk hkind

/-- So are tokens in a row, for the places and the brackets depend on no index. -/
theorem indexed_qualifyTokens_eq (expr : Text) (i : Nat) (last : Option Token)
    (groups : List TokenKind) {ts : List Token}
    (h : ∀ t ∈ ts, t.kind = .templateString →
      literal t.text = (fillPieces inner (Piece.ofTemplateLiteral t.text)).mapError .refused) :
    Indexed.qualifyTokens literal bound scopes expr i last groups ts =
      (qualifyTokens inner bound scopes expr i last groups ts).mapError .refused := by
  induction ts generalizing i last groups with
  | nil => rfl
  | cons t ts ih =>
    -- both loops pass on the same place, last token and brackets
    have hrest := fun i last groups =>
      ih i last groups fun u hu => h u (List.mem_cons_of_mem t hu)
    rw [Indexed.qualifyTokens, qualifyTokens]
    split
    · rw [hrest, Traced.mapError_map]
    · dsimp only
      rw [Traced.mapError_bind, indexed_qualifyToken_eq _ (h t List.mem_cons_self)]
      refine congrArg (_ >>= ·) (funext fun text => ?_)
      cases groupsAfter t.kind groups with
      | none => rfl
      | some groups =>
        dsimp only
        rw [hrest, Traced.mapError_map]

/-- The margins of an expression, by their indices.  All three cuts are at
boundaries of characters, so none of the checked operations fails. -/
structure Margins (expr before body after : Text) : Prop where
  start : Indexed.minus (utf8Size expr) (utf8Size (expr.dropWhile isBlank)) = .ok (utf8Size before)
  left : Indexed.cut expr 0 (utf8Size before) = .ok before
  right : Indexed.cut expr (utf8Size before + utf8Size body) (utf8Size expr) = .ok after

/-- The margins that are cut off by index are those of the expression. -/
theorem margins_indexed (expr : Text) :
    Margins expr (margins expr).1 (margins expr).2.1 (margins expr).2.2 := by
  have happend := margins_append expr
  generalize hm : margins expr = m at happend ⊢
  obtain ⟨before, body, after⟩ := m
  have hbefore : before = expr.takeWhile isBlank := by
    rw [margins] at hm
    exact (congrArg Prod.fst hm).symm
  have hdrop : before ++ expr.dropWhile isBlank = expr := by
    rw [hbefore, List.takeWhile_append_dropWhile]
  -- the left margin is what trimming from the left takes away
  have hsize : utf8Size expr = utf8Size before + utf8Size (expr.dropWhile isBlank) := by
    rw [← utf8Size_append, hdrop]
  have hleft := cut_written [] before (expr.dropWhile isBlank)
  have hright := cut_written (before ++ body) after []
  refine ⟨?_, ?_, ?_⟩
  · rw [Indexed.minus, hsize, if_pos (Nat.le_add_left _ _), Nat.add_sub_cancel]
  · rw [List.nil_append, hdrop, utf8Size, Nat.zero_add] at hleft
    exact hleft
  · dsimp only at happend
    rw [List.append_nil, ← utf8Size_append, happend, utf8Size_append] at hright
    exact hright

/-- An expression is qualified by index as it is by its parts. -/
theorem indexed_qualifyWith_eq {expr : Text}
    (h : ∀ t : Text, t.length ≤ expr.length →
      literal t = (fillPieces inner (Piece.ofTemplateLiteral t)).mapError .refused) :
    Indexed.qualifyWith literal bound expr = (qualifyWith inner bound expr).mapError .refused := by
  obtain ⟨hstart, hleft, hright⟩ := margins_indexed expr
  have hbody := (infix_body expr).length_le
  unfold Indexed.qualifyWith qualifyWith
  rw [show trim expr = (margins expr).2.1 from rfl]
  generalize margins expr = m at *
  obtain ⟨before, body, after⟩ := m
  dsimp only at *
  split
  · rfl
  rw [hstart, tokens_eq, Traced.ofExcept_ok_bind, Traced.mapError_bind]
  cases hts : tokenize body with
  | error e => rfl
  | ok ts =>
    -- a token is no longer than the expression, and so neither is its literal
    have htokens : ∀ t ∈ ts, t.kind = .templateString →
        literal t.text = (fillPieces inner (Piece.ofTemplateLiteral t.text)).mapError .refused :=
      fun t ht _ => h t.text ((infix_of_tokenize hts t ht).length_le.trans hbody)
    simp only [Except.mapError, Traced.ofExcept_ok_bind, Traced.mapError_ofExcept,
      Traced.mapError_bind]
    refine congrArg (_ >>= ·) (funext fun scopes => ?_)
    rw [indexed_qualifyTokens_eq body 0 none [] htokens, Traced.mapError_map]
    simp only [hleft, hright, Traced.ofExcept_ok_bind]
    exact Traced.bind_pure_comp _ fun out => before ++ out ++ after

end Expressions

/-- With a depth of calls greater than its length an expression is qualified by
index as it is by characters: an interpolation is shorter than the expression
that holds it. -/
theorem qualifyWithin_eq (bound : NameSet) (depth : Nat) {expr : Text} (h : expr.length < depth) :
    Indexed.qualifyWithin bound depth expr = (qualify bound expr).mapError .refused := by
  induction depth generalizing expr with
  | zero => exact absurd h (Nat.not_lt_zero _)
  | succ depth ih =>
    rw [qualify_eq, Indexed.qualifyWithin]
    -- what stands in a template string is shorter than the expression
    refine indexed_qualifyWith_eq fun t ht => fill_eq (fun _ _ e he => ih ?_) fun _ => rfl
    omega

theorem indexed_qualify_eq (bound : NameSet) (expr : Text) :
    Indexed.qualify bound expr = (qualify bound expr).mapError .refused :=
  qualifyWithin_eq bound _ (Nat.lt_succ_self _)

theorem indexed_qualifyDynamic_eq (bound : NameSet) (text : Text) :
    Indexed.qualifyDynamic bound text = (qualifyDynamic bound text).mapError .refused :=
  dynamic_eq (indexed_qualify_eq bound)

/-! ## §8. No access is refused. -/

/-- From its quote on a literal is skipped as a walk goes through it. -/
theorem skip_eq {q : Char} (before : Text) (hq : isQuote q = true) {rest : Text}
    {spans : List ByteSpan} {stop : Option Nat} (h : Walk q (utf8Size before + 1) rest spans stop) :
    Indexed.skip (before ++ q :: rest) (utf8Size before) =
      .ok (spans, (stop.map (· + 1)).getD (utf8Size (before ++ q :: rest))) := by
  have hat := at_of_isBoundary (isBoundary_written before (q :: rest))
  rw [dropBytes_written] at hat
  obtain ⟨hb, hnext⟩ := hat.ascii (ascii_of_isQuote hq)
  have hskip := h.reaches (literalLoop_skipFrom _ hq) hq hnext _ (lt_enough _ _)
  rw [size_utf8] at hskip
  rw [Indexed.skip, byteAt_of_getElem? hb, ok_bind]
  exact hskip

/-- A literal is skipped to the byte behind its quote, or to the end of the text
if nothing closes it. -/
theorem skipLiteral_eq {q : Char} (hq : isQuote q = true) (before rest : Text) :
    skipLiteral (before ++ q :: rest) (utf8Size before) =
      ((closingQuote q rest).map fun p => utf8Size before + 1 + utf8Size p.1 + 1).getD
        (utf8Size (before ++ q :: rest)) := by
  have hat := at_of_isBoundary (isBoundary_written before (q :: rest))
  rw [dropBytes_written] at hat
  obtain ⟨hb, hnext⟩ := hat.ascii (ascii_of_isQuote hq)
  have hstop := literalStop_eq_closing hq hnext
  rw [size_utf8] at hstop
  rw [skipLiteral, hb, ← hstop]
  rfl

/-- Behind a literal is a boundary, as is the end of the text if the literal is
not closed. -/
theorem isBoundary_skipLiteral {q : Char} (hq : isQuote q = true) (before rest : Text) :
    isBoundary (before ++ q :: rest) (skipLiteral (before ++ q :: rest) (utf8Size before)) =
      true := by
  rw [skipLiteral_eq hq]
  cases hclose : closingQuote q rest with
  -- nothing closes the literal: the end of the text is a boundary
  | none =>
    have hend := isBoundary_written (before ++ q :: rest) []
    rwa [List.append_nil] at hend
  | some p =>
    have hend := isBoundary_written (before ++ q :: (p.1 ++ [q])) p.2
    have hsplit : before ++ q :: (p.1 ++ [q]) ++ p.2 = before ++ q :: rest := by
      rw [eq_of_closingQuote hclose]
      simp
    have hsize : utf8Size (before ++ q :: (p.1 ++ [q])) =
        utf8Size before + 1 + utf8Size p.1 + 1 := by
      rw [utf8Size_append, utf8Size_quoted hq]
      omega
    rwa [hsplit, hsize] at hend

/-- The index is at a boundary, and so is the one behind the `n` ASCII
characters of the delimiter there. -/
def Bounded (text : Text) (n j : Nat) : Prop :=
  isBoundary text j = true ∧ isBoundary text (j + n) = true

/-- Both ends of a word that stands in a text are boundaries. -/
theorem bounded_written (s m r : Text) : Bounded (s ++ (m ++ r)) (utf8Size m) (utf8Size s) := by
  refine ⟨isBoundary_written _ _, ?_⟩
  rw [← List.append_assoc, ← utf8Size_append]
  exact isBoundary_written _ _

/-- What reading a text by index comes to.  Each equation says that the run
with checked accesses is the one over characters: the only failures are those
of the expression. -/
structure Safe (text : Text) : Prop where
  /-- From an ASCII quote on, a literal is skipped to where the scanner of
  characters ends, a boundary. -/
  literal : ∀ start b, text.utf8.toArray[start]? = some b → isQuoteByte b = true →
    ∃ q rest spans stop, text.dropBytes start = q :: rest ∧ b = asciiByte q ∧
      Indexed.skip text start = .ok (spans, stop) ∧ skipLiteral text start = stop ∧
      stop = ((closingQuote q rest).map fun p => start + 1 + utf8Size p.1 + 1).getD
        (utf8Size text) ∧
      isBoundary text stop = true
  /-- From a boundary on, a brace group ends where it does for the scanner of
  characters. -/
  brace : ∀ start, isBoundary text start = true →
    ∃ close, Indexed.brace text start = .ok close ∧ closingBraceAt text start = close ∧
      close = ((closingBrace (text.dropBytes start)).map fun p => start + utf8Size p.1) ∧
      ∀ j ∈ close, Bounded text 1 j
  /-- And so does a double-brace group. -/
  double : ∀ start, isBoundary text start = true →
    ∃ close, Indexed.double text start = .ok close ∧ closingDoubleAt text start = close ∧
      close = ((closingDoubleBrace (text.dropBytes start)).map fun p => start + utf8Size p.1) ∧
      ∀ j ∈ close, Bounded text 2 j
  /-- The string token at the start of the text, and all its tokens. -/
  stringToken : ∀ c cs, text = c :: cs → isQuote c = true →
    Indexed.stringToken c text = ((nextToken c cs).mapError Stop.refused).map Prod.fst
  tokens : Indexed.tokens text = (tokenize text).mapError Stop.refused
  /-- The text as a template literal and as a dynamic string. -/
  template : ∀ inner : Scanner,
    Indexed.fill ⟨fun _ _ e => (inner e).mapError .refused, fun _ => pure ()⟩ text =
      (fillPieces inner (Piece.ofTemplateLiteral text)).mapError .refused
  dynamic : ∀ bound,
    Indexed.qualifyDynamic bound text = (qualifyDynamic bound text).mapError .refused
  /-- The text as an expression. -/
  expression : ∀ bound, Indexed.qualify bound text = (qualify bound text).mapError .refused

/-- A byte that is a quote to the scanners is a character of the text, and no
part of another one. -/
theorem exists_of_quoteByte {text : Text} {start : Nat} {b : UInt8}
    (h : text.utf8.toArray[start]? = some b) (hb : isQuoteByte b = true) :
    ∃ q before rest, isQuote q = true ∧ b = asciiByte q ∧ text = before ++ q :: rest ∧
      start = utf8Size before := by
  obtain ⟨q, hq, rfl⟩ := exists_of_isQuoteByte hb
  have hascii := ascii_of_isQuote hq
  have hbyte : (utf8 text)[start]? = some (asciiByte q) := by
    rwa [List.getElem?_toArray] at h
  -- an ASCII byte is a character by itself, and none of the bytes of another one
  have hboundary := isBoundary_of_ascii hbyte (by
    rw [asciiByte, UInt8.toNat_ofNat']
    omega)
  obtain ⟨before, rest, rfl, rfl⟩ := isBoundary_iff.1 hboundary
  have hat := at_of_isBoundary hboundary
  rw [dropBytes_written] at hat
  cases rest with
  | nil =>
    rw [Array.getElem?_eq_none hat.nil] at h
    cases h
  | cons c r =>
    obtain rfl := (hat.byte_eq_iff h q hascii).1 rfl
    exact ⟨c, before, r, hq, rfl, rfl, rfl⟩

/-- Reading by byte index is safe and equals reading by characters: the
scanners end, read no byte past the end and lower no depth below zero, their
indices are boundaries, and nothing that is cut at them is refused. -/
theorem indexed_safe (text : Text) : Safe text where
  -- from the quote on the walk and the skipping loop agree
  literal start b h hb := by
    obtain ⟨q, before, rest, hq, rfl, rfl, rfl⟩ := exists_of_quoteByte h hb
    obtain ⟨spans, stop, hwalk⟩ := exists_walk q rest (utf8Size before + 1)
    have hvalue : (stop.map (· + 1)).getD (utf8Size (before ++ q :: rest)) =
        ((closingQuote q rest).map fun p => utf8Size before + 1 + utf8Size p.1 + 1).getD
          (utf8Size (before ++ q :: rest)) := by
      rw [hwalk.stop_eq hq, Option.map_map]
      rfl
    refine ⟨q, rest, spans, _, dropBytes_written _ _, rfl, skip_eq before hq hwalk, ?_, hvalue, ?_⟩
    · rw [skipLiteral_eq hq, hvalue]
    · rw [hvalue, ← skipLiteral_eq hq]
      exact isBoundary_skipLiteral hq before rest
  -- from a boundary on the brace stands where it does among the characters
  brace start h := by
    obtain ⟨before, rest, rfl, rfl⟩ := isBoundary_iff.1 h
    have hat := at_of_isBoundary h
    rw [dropBytes_written] at hat ⊢
    refine ⟨_, brace_eq before rest, braceStop_eq_closing 0 hat, rfl, fun j hj => ?_⟩
    obtain ⟨p, hp, rfl⟩ := Option.map_eq_some_iff.1 hj
    have hend := bounded_written (before ++ p.1) ['}'] p.2
    rw [List.append_assoc, utf8Size_append] at hend
    rw [eq_of_closingBraces hp]
    exact hend
  double start h := by
    obtain ⟨before, rest, rfl, rfl⟩ := isBoundary_iff.1 h
    have hat := at_of_isBoundary h
    rw [dropBytes_written] at hat ⊢
    refine ⟨_, double_eq before rest, doubleBraceEnd_eq_closing 0 hat, rfl, fun j hj => ?_⟩
    obtain ⟨p, hp, rfl⟩ := Option.map_eq_some_iff.1 hj
    have hend := bounded_written (before ++ p.1) ['}', '}'] p.2
    rw [List.append_assoc, utf8Size_append] at hend
    rw [exists_of_closingDoubleFrom hp]
    exact hend
  stringToken c cs h hq := by
    rw [h]
    exact stringToken_eq hq
  tokens := tokens_eq text
  template inner := fill_eq (fun _ _ _ _ => rfl) fun _ => rfl
  dynamic bound := indexed_qualifyDynamic_eq bound text
  expression bound := indexed_qualify_eq bound text

/-- A backslash before a character of two bytes is stepped over with the first
of them only, and the quote is found all the same. -/
theorem indexed_safe_sample :
    (∃ spans, Indexed.skip "'\\é' x".toList 0 = .ok (spans, 5)) ∧
      (Indexed.qualify ∅ "`\\é$\x7bx\x7d`".toList).outcome =
        .ok "`\\é$\x7bthis.x\x7d`".toList := by
  constructor
  · obtain ⟨q, rest, spans, stop, htext, -, hskip, hindex, -⟩ :=
      (indexed_safe "'\\é' x".toList).literal 0 0x27 (by decide) (by decide)
    have hstop : skipLiteral "'\\é' x".toList 0 = 5 := by decide +kernel
    exact ⟨spans, by rw [hskip, ← hindex, hstop]⟩
  · rw [(indexed_safe "`\\é$\x7bx\x7d`".toList).expression ∅]
    decide +kernel

end QwebReceiver.Expr
