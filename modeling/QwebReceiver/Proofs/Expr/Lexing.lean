import QwebReceiver.Proofs.Expr.Judge

/-!
  QwebReceiver.Proofs.Expr.Lexing — the tokens of a text, and where reading
  them stops.

  Every rule of the lexer looks past the token that it reads: a run goes on as
  far as it can, a number asks for a digit behind its period, a keyword for a
  blank, a string for its closing quote.  None of them looks past the start of
  a later token in a way that matters (`Reads.cut`), so a text may be cut
  between any two of its tokens.

  Main results:

    * `tokenize_take`, `tokenize_drop` — either side of a cut is read as the
      tokens on that side;
    * `length_le_of_operatorAt` — the operator that is read is the longest one
      of the table;
    * `exists_of_tokenize_error` — where reading stops, the tokens so far are
      all of the text before, and the error carries the text from there on;
    * `tokenize_lexing` — the two outcomes together.
-/

namespace QwebReceiver.Expr

open QwebReceiver.Text

/-! ## §1. Reading a token off less text. -/

/-- What stops in front of a longer text stops in front of a part of it. -/
theorem stopsAt_of_append {p : Char → Bool} {keep : Text} (more : Text)
    (h : StopsAt p (keep ++ more)) : StopsAt p keep := by
  intro c hc
  refine h c ?_
  rw [List.head?_append, hc]
  rfl

/-- The end of a literal does not depend on what follows it. -/
theorem closing_cut {stack : List Frame} (hs : stack ≠ []) {t content keep more : Text}
    (h : closing stack t = some (content, keep ++ more)) :
    ∃ c, t = content ++ c :: (keep ++ more) ∧
      closing stack (content ++ c :: keep) = some (content, keep) := by
  obtain ⟨c, ht, hin, hc⟩ := exists_of_closing hs h
  exact ⟨c, ht, closing_append hin hc keep⟩

/-- A number is read off less text as it is: the digit that makes a fraction is
part of it. -/
theorem scanNumber_cut {t keep more : Text} (h : (scanNumber t).2 = keep ++ more) :
    scanNumber ((scanNumber t).1 ++ keep) = ((scanNumber t).1, keep) := by
  have hdigits : ∀ s : Text, ∀ c ∈ s.takeWhile isAsciiDigit, isAsciiDigit c = true :=
    fun s c hc => List.mem_takeWhile_imp hc
  rcases scanNumber_cases t with ⟨r, hr, hne⟩ | hwhole
  · rw [scanNumber_fraction hr hne] at h ⊢
    have hstop : StopsAt isAsciiDigit keep := by
      refine stopsAt_of_append more ?_
      rw [← h]
      exact fun c hc => head_dropWhile hc
    have hpoint : StopsAt isAsciiDigit ('.' :: (r.takeWhile isAsciiDigit ++ keep)) :=
      stopsAt_cons (by decide)
    have happend : t.takeWhile isAsciiDigit ++ '.' :: r.takeWhile isAsciiDigit ++ keep =
        t.takeWhile isAsciiDigit ++ '.' :: (r.takeWhile isAsciiDigit ++ keep) := by simp
    show scanNumber (t.takeWhile isAsciiDigit ++ '.' :: r.takeWhile isAsciiDigit ++ keep) = _
    rw [happend, scanNumber_fraction (dropWhile_run (hdigits t) hpoint),
      takeWhile_run (hdigits t) hpoint, takeWhile_run (hdigits r) hstop,
      dropWhile_run (hdigits r) hstop]
    rw [takeWhile_run (hdigits r) hstop]
    exact hne
  · rw [scanNumber_whole hwhole] at h ⊢
    have hrest : t.dropWhile isAsciiDigit = keep ++ more := h
    have hstop : StopsAt isAsciiDigit keep := by
      refine stopsAt_of_append more ?_
      rw [← hrest]
      exact fun c hc => head_dropWhile hc
    show scanNumber (t.takeWhile isAsciiDigit ++ keep) = _
    rw [scanNumber_whole, takeWhile_run (hdigits t) hstop, dropWhile_run (hdigits t) hstop]
    intro r hr
    rw [dropWhile_run (hdigits t) hstop] at hr
    -- behind the period stands what stood there before, as far as it is kept
    have hnone := hwhole (r ++ more) (by rw [hrest, hr]; rfl)
    cases r with
    | nil => rfl
    | cons d r =>
      have hd : ¬ isAsciiDigit d = true := by
        intro hd
        rw [List.cons_append, List.takeWhile_cons_of_pos hd] at hnone
        cases hnone
      exact List.takeWhile_cons_of_neg hd

/-- Less text starts with no more operators. -/
theorem operatorAt_eq_none_of_append {keep : Text} (more : Text)
    (h : operatorAt (keep ++ more) = none) : operatorAt keep = none := by
  refine List.find?_eq_none.2 ?_
  intro op hop hpre
  refine List.find?_eq_none.1 h op hop ?_
  exact List.isPrefixOf_iff_prefix.2
    ((List.isPrefixOf_iff_prefix.1 hpre).trans (List.prefix_append keep more))

/-- An operator that is read is read off less text, too. -/
theorem operatorAt_cut {op keep more : Text} (h : operatorAt (op ++ (keep ++ more)) = some op) :
    operatorAt (op ++ keep) = some op := by
  obtain ⟨-, earlier, later, hsplit, hnot⟩ := List.find?_eq_some_iff_append.1 h
  refine List.find?_eq_some_iff_append.2
    ⟨List.isPrefixOf_iff_prefix.2 (List.prefix_append op keep), earlier, later, hsplit, ?_⟩
  intro other hother
  have hno := hnot other hother
  cases hpre : other.isPrefixOf (op ++ keep) with
  | false => rfl
  | true =>
    -- an operator that is tried earlier would have been found in the whole text
    have hlong : other <+: op ++ (keep ++ more) := by
      rw [← List.append_assoc]
      exact (List.isPrefixOf_iff_prefix.1 hpre).trans (List.prefix_append _ more)
    rw [List.isPrefixOf_iff_prefix.2 hlong] at hno
    cases hno

/-- A token is read off the text that ends somewhere behind it. -/
theorem Reads.cut {c : Char} {cs : Text} {t : Token} {rest keep more : Text}
    (h : Reads c cs t rest) (hrest : rest = keep ++ more) :
    ∃ w, t.text = c :: w ∧ Reads c (w ++ keep) t keep := by
  have hrun : ∀ p : Char → Bool, cs.dropWhile p = keep ++ more →
      (cs.takeWhile p ++ keep).takeWhile p = cs.takeWhile p ∧
        (cs.takeWhile p ++ keep).dropWhile p = keep := by
    intro p hp
    have hall : ∀ d ∈ cs.takeWhile p, p d = true := fun d hd => List.mem_takeWhile_imp hd
    have hstop : StopsAt p keep := by
      refine stopsAt_of_append more ?_
      rw [← hp]
      exact fun d hd => head_dropWhile hd
    exact ⟨takeWhile_run hall hstop, dropWhile_run hall hstop⟩
  -- blanks and words are runs; the other rules have their own way to end
  cases h with
  | blank hblank =>
    obtain ⟨htake, hdrop⟩ := hrun isBlank hrest
    have hread : Reads c (cs.takeWhile isBlank ++ keep) _ _ := .blank hblank
    rw [htake, hdrop] at hread
    exact ⟨_, rfl, hread⟩
  | @string content _ hquote hclose =>
    subst hrest
    obtain ⟨d, hcs, hcut⟩ := closing_cut (List.cons_ne_nil _ _) hclose
    -- the character that closes the literal is the quote that opened it
    obtain rfl : c = d := by
      have heq := eq_append_of_closing rfl hclose
      rw [hcs] at heq
      exact (List.cons.inj (List.append_cancel_left heq)).1.symm
    refine ⟨content ++ [c], rfl, ?_⟩
    rw [List.append_assoc]
    exact .string hquote hcut
  | number hdigit =>
    obtain ⟨w, hw⟩ : ∃ w, (scanNumber (c :: cs)).1 = c :: w := by
      cases hscan : (scanNumber (c :: cs)).1 with
      | nil => exact absurd hscan (scanNumber_ne_nil hdigit)
      | cons d w =>
        have happend := scanNumber_append (c :: cs)
        rw [hscan] at happend
        rw [(List.cons.inj happend).1]
        exact ⟨w, rfl⟩
    have hcut := scanNumber_cut hrest
    rw [hw] at hcut
    have hread : Reads c (w ++ keep) _ _ := .number hdigit
    rw [show scanNumber (c :: (w ++ keep)) = (c :: w, keep) from hcut] at hread
    rw [hw]
    exact ⟨w, rfl, hread⟩
  | @operator op hblank hquote hdigit hop =>
    obtain ⟨r, hr⟩ := isPrefixOf_of_operatorAt hop
    have hkeep : r = keep ++ more := by
      rw [← hrest, ← hr, List.drop_left]
    rw [← hr, hkeep] at hop
    have hcut := operatorAt_cut hop
    cases op with
    | nil => exact absurd (length_pos_of_mem_operators [] (mem_of_operatorAt hop)) (by decide)
    | cons d w =>
      obtain ⟨rfl, -⟩ := List.cons.inj hr
      refine ⟨w, rfl, ?_⟩
      have hread : Reads d (w ++ keep) _ _ := .operator hblank hquote hdigit hcut
      have hdrop : (d :: (w ++ keep)).drop (d :: w).length = keep := List.drop_left
      rw [hdrop] at hread
      exact hread
  | identifier hstart hop =>
    obtain ⟨htake, hdrop⟩ := hrun isIdentifierPart hrest
    have hsplit : c :: cs = (c :: (word cs ++ keep)) ++ more := by
      show c :: cs = c :: (cs.takeWhile isIdentifierPart ++ keep ++ more)
      rw [List.append_assoc, ← hrest, pastWord, List.takeWhile_append_dropWhile]
    rw [hsplit] at hop
    have hread : Reads c (word cs ++ keep) _ _ :=
      .identifier hstart (operatorAt_eq_none_of_append more hop)
    rw [show word (word cs ++ keep) = word cs from htake,
      show pastWord (word cs ++ keep) = keep from hdrop] at hread
    exact ⟨_, rfl, hread⟩
  | punctuation hop hkind =>
    subst hrest
    refine ⟨[], rfl, .punctuation ?_ hkind⟩
    exact operatorAt_eq_none_of_append more hop

/-! ## §2. Cutting a text between tokens. -/

/-- The text up to a token is read as the tokens before it. -/
theorem tokenize_take {text : Text} {ts : List Token} (h : tokenize text = .ok ts) (k : Nat) :
    tokenize ((ts.take k).flatMap Token.text) = .ok (ts.take k) := by
  induction ts generalizing text k with
  | nil =>
    rw [List.take_nil]
    exact tokenize_nil
  | cons t ts ih =>
    cases k with
    | zero => exact tokenize_nil
    | succ k =>
      obtain ⟨c, cs, rest, rfl, hread, hrest⟩ := exists_of_tokenize_cons h
      -- what is cut off here is the text of the tokens from the cut on
      have hsplit : rest = (ts.take k).flatMap Token.text ++ (ts.drop k).flatMap Token.text := by
        rw [← List.flatMap_append, List.take_append_drop, flatMap_of_tokenize hrest]
      obtain ⟨w, htext, hcut⟩ := hread.cut hsplit
      rw [List.take_succ_cons, List.flatMap_cons, htext]
      exact tokenize_of_reads hcut (ih hrest k)

/-- The text from a token on is read as that token and those after it. -/
theorem tokenize_drop {text : Text} {ts : List Token} (h : tokenize text = .ok ts) (k : Nat) :
    tokenize ((ts.drop k).flatMap Token.text) = .ok (ts.drop k) := by
  induction k generalizing text ts with
  | zero =>
    rw [List.drop_zero, flatMap_of_tokenize h]
    exact h
  | succ k ih =>
    cases ts with
    | nil => exact tokenize_nil
    | cons t ts =>
      obtain ⟨c, cs, rest, -, -, hrest⟩ := exists_of_tokenize_cons h
      exact ih hrest

/-! ## §3. The places of the tokens. -/

/-- The places follow each other from byte `i` to byte `j`, and none is empty.
Nothing of the text is left out or read twice. -/
def Contiguous : Nat → List (Nat × Nat × Token) → Nat → Prop
  | i, [], j => i = j
  | i, (first, past, _) :: rest, j => first = i ∧ first < past ∧ Contiguous past rest j

/-- A place `n` bytes further on. -/
def shift (n : Nat) (p : Nat × Nat × Token) : Nat × Nat × Token := (p.1 + n, p.2.1 + n, p.2.2)

/-- A text that is not empty has a byte. -/
theorem utf8Size_pos {t : Text} (h : t ≠ []) : 0 < utf8Size t := by
  cases t with
  | nil => exact absurd rfl h
  | cons c r =>
    have hc := c.utf8Size_pos
    show 0 < c.utf8Size + utf8Size r
    omega

/-- The tokens of a text stand one behind the other, up to its last byte. -/
theorem contiguous_placed {ts : List Token} (h : ∀ t ∈ ts, t.text ≠ []) (i : Nat) :
    Contiguous i (Token.placed i ts) (i + utf8Size (ts.flatMap Token.text)) := by
  induction ts generalizing i with
  | nil => rfl
  | cons t ts ih =>
    have hpos := utf8Size_pos (h t List.mem_cons_self)
    have hrest := ih (fun u hu => h u (List.mem_cons_of_mem t hu)) (i + utf8Size t.text)
    rw [List.flatMap_cons, utf8Size_append, ← Nat.add_assoc]
    exact ⟨rfl, by omega, hrest⟩

/-- Behind `n` more bytes the tokens stand `n` bytes further on. -/
theorem placed_add (ts : List Token) (i n : Nat) :
    Token.placed (i + n) ts = (Token.placed i ts).map (shift n) := by
  induction ts generalizing i with
  | nil => rfl
  | cons t ts ih =>
    have hcomm : i + n + utf8Size t.text = i + utf8Size t.text + n := by omega
    show (i + n, i + n + utf8Size t.text, t) :: Token.placed (i + n + utf8Size t.text) ts = _
    rw [hcomm, ih]
    rfl

/-- The places of the later tokens are those of a text that starts behind the
earlier ones. -/
theorem drop_placed (ts : List Token) (i k : Nat) :
    (Token.placed i ts).drop k =
      Token.placed (i + utf8Size ((ts.take k).flatMap Token.text)) (ts.drop k) := by
  induction ts generalizing i k with
  | nil => simp [Token.placed]
  | cons t ts ih =>
    cases k with
    | zero => rfl
    | succ k =>
      show (Token.placed (i + utf8Size t.text) ts).drop k = _
      rw [ih, List.take_succ_cons, List.flatMap_cons, utf8Size_append, Nat.add_assoc]
      rfl

/-! ## §4. Operators. -/

/-- No operator of the table starts one that is tried later. -/
theorem operators_ordered : operators.Pairwise fun op later => ¬ op <+: later := by
  decide +kernel

/-- The operator that is read is the longest one of the table. -/
theorem length_le_of_operatorAt {t op other : Text} (h : operatorAt t = some op)
    (hmem : other ∈ operators) (hother : other <+: t) : other.length ≤ op.length := by
  obtain ⟨hop, earlier, later, hsplit, hnot⟩ := List.find?_eq_some_iff_append.1 h
  have hpre := List.isPrefixOf_iff_prefix.1 hop
  rw [hsplit] at hmem
  rcases List.mem_append.1 hmem with hin | hin
  · -- one that is tried earlier does not stand there
    have hno := hnot other hin
    rw [List.isPrefixOf_iff_prefix.2 hother] at hno
    cases hno
  rcases List.mem_cons.1 hin with rfl | hin
  · exact Nat.le_refl _
  -- of two that stand there one starts the other, and the later one is no longer
  rcases List.prefix_or_prefix_of_prefix hother hpre with hle | hle
  · exact hle.length_le
  · have hordered := operators_ordered
    rw [hsplit] at hordered
    have hcons := (List.pairwise_append.1 hordered).2.1
    exact absurd hle ((List.pairwise_cons.1 hcons).1 other hin)

/-- A word that spells an operator is none of the table. -/
theorem wordOperators_not_mem : ∀ p ∈ wordOperators, p.1 ∉ operators := by
  decide +kernel

/-- An operator of the table is read because it stands there. -/
theorem Reads.operatorAt_eq {c : Char} {cs : Text} {t : Token} {rest : Text}
    (h : Reads c cs t rest) (hkind : t.kind = .operator) (hmem : t.text ∈ operators) :
    operatorAt (c :: cs) = some t.text := by
  cases h with
  | blank _ => cases hkind
  | string _ _ =>
    simp only at hkind
    split at hkind
    · cases hkind
    · cases hkind
  | number _ => cases hkind
  | operator _ _ _ hop => exact hop
  -- a word can be an operator, but then it is none of the table
  | identifier _ _ =>
    have hword : identifierKind (c :: word cs) = .operator := hkind
    unfold identifierKind at hword
    split at hword
    · next hany =>
      obtain ⟨p, hp, hname⟩ := List.any_eq_true.1 hany
      have hno := wordOperators_not_mem p hp
      rw [of_decide_eq_true hname] at hno
      exact absurd hmem hno
    · cases hword
  | punctuation _ hpunct =>
    exact absurd hkind (ofPunctuation?_forall (P := fun _ k => k ≠ .operator) (by decide) hpunct)

/-! ## §5. Where reading stops. -/

/-- No token starts with the character: it is outside of every class that the
lexer looks for. -/
structure NoRule (c : Char) : Prop where
  blank : isBlank c = false
  quote : isQuote c = false
  digit : isAsciiDigit c = false
  operator : ∀ op ∈ operators, op.head? ≠ some c
  identifier : isIdentifierStart c = false
  punctuation : TokenKind.ofPunctuation? c = none

/-- Why no token is read off `c :: cs`.  There are two reasons, and each comes
with the text that is left. -/
inductive Unread (c : Char) (cs : Text) : ExprError → Prop where
  /-- The string that `c` opens is never closed. -/
  | string (h : isQuote c = true) (hopen : closingQuote c cs = none) :
      Unread c cs (.unterminatedString (c :: cs))
  /-- No rule begins with `c`. -/
  | character (h : NoRule c) : Unread c cs (.unreadable (c :: cs))

/-- What an operator starts with is an operator, or it starts a word. -/
theorem operators_heads : ∀ op ∈ operators, ∀ c ∈ op.head?,
    [c] ∈ operators ∨ isIdentifierStart c = true := by
  decide +kernel

/-- No token is read off a text for one of the reasons of `Unread`: a literal is
not closed, or no rule takes the first character.  The rules are gone through in
the order in which the lexer tries them. -/
theorem nextToken_eq_error {c : Char} {cs : Text} {e : ExprError}
    (h : nextToken c cs = .error e) : Unread c cs e := by
  unfold nextToken at h
  split at h
  · cases h
  next hblank =>
  split at h
  · next hquote =>
    split at h
    · next hopen =>
      cases h
      exact .string hquote hopen
    · cases h
  next hquote =>
  split at h
  · cases h
  next hdigit =>
  split at h
  · cases h
  next hop =>
  split at h
  · cases h
  next hstart =>
  split at h
  · cases h
  next hpunct =>
  cases h
  rw [Bool.not_eq_true] at hblank hquote hdigit hstart
  -- no operator stands here; that none begins with this character needs more
  refine .character ⟨hblank, hquote, hdigit, ?_, hstart, hpunct⟩
  intro op hmem hhead
  rcases operators_heads op hmem c hhead with hsingle | hword
  · refine List.find?_eq_none.1 hop [c] hsingle ?_
    exact List.isPrefixOf_iff_prefix.2 ⟨cs, rfl⟩
  · rw [hstart] at hword
    cases hword

/-- Reading fails at the first token or behind it. -/
theorem tokenize_cons_eq_error {c : Char} {cs : Text} {e : ExprError}
    (h : tokenize (c :: cs) = .error e) :
    nextToken c cs = .error e ∨
      ∃ t rest, Reads c cs t rest ∧ tokenize rest = .error e := by
  rw [tokenize.eq_def] at h
  simp only at h
  split at h
  · next hnext =>
    cases h
    exact Or.inl hnext
  · next t rest hnext =>
    split at h
    · next hrest =>
      cases h
      exact Or.inr ⟨t, rest, nextToken_eq_ok_iff.1 hnext, hrest⟩
    · cases h

/-- Reading stops behind a text that can be read, at a character off which no
token is read. -/
theorem exists_of_tokenize_error {text : Text} {e : ExprError} (h : tokenize text = .error e) :
    ∃ ts c cs, text = ts.flatMap Token.text ++ c :: cs ∧
      tokenize (ts.flatMap Token.text) = .ok ts ∧ Unread c cs e := by
  induction hlength : text.length using Nat.strong_induction_on generalizing text with
  | _ n ih =>
    subst hlength
    cases text with
    | nil =>
      rw [tokenize_nil] at h
      cases h
    | cons c cs =>
      rcases tokenize_cons_eq_error h with hnext | ⟨t, rest, hread, hrest⟩
      · exact ⟨[], c, cs, rfl, tokenize_nil, nextToken_eq_error hnext⟩
      have happend := hread.append
      have hshorter : rest.length < (c :: cs).length :=
        Nat.lt_succ_of_le (length_of_nextToken (nextToken_eq_ok_iff.2 hread))
      obtain ⟨ts, d, ds, hsplit, hts, hunread⟩ := ih rest.length hshorter hrest rfl
      -- the first token is the same if the text ends where reading stops
      obtain ⟨w, htext, hcut⟩ := hread.cut hsplit
      refine ⟨t :: ts, d, ds, ?_, ?_, hunread⟩
      · rw [List.flatMap_cons, List.append_assoc, ← hsplit, happend]
      · rw [List.flatMap_cons, htext]
        exact tokenize_of_reads hcut hts

/-! ## §6. Both outcomes. -/

/-- The tokens are what the text consists of. -/
structure Lexing (text : Text) (ts : List Token) : Prop where
  nonempty : ∀ t ∈ ts, t.text ≠ []
  contiguous : Contiguous 0 (Token.placed 0 ts) (utf8Size text)
  append : ts.flatMap Token.text = text
  /-- An operator of the table is the longest one that stands there. -/
  longest : ∀ pre t post, ts = pre ++ t :: post → t.kind = .operator → t.text ∈ operators →
    ∀ op ∈ operators, op <+: (t :: post).flatMap Token.text → op.length ≤ t.text.length
  /-- The text before a token is read as the tokens before it. -/
  front : ∀ k, tokenize ((ts.take k).flatMap Token.text) = .ok (ts.take k)
  /-- The text from a token on is read as the tokens from it on. -/
  back : ∀ k, tokenize ((ts.drop k).flatMap Token.text) = .ok (ts.drop k)
  /-- These stand as much further on as the text before them is long. -/
  shifted : ∀ k, (Token.placed 0 ts).drop k =
    (Token.placed 0 (ts.drop k)).map (shift (utf8Size ((ts.take k).flatMap Token.text)))

/-- A token is read off the text from it on. -/
theorem exists_reads_of_tokenize {pre post : List Token} {t : Token} {text : Text}
    (h : tokenize text = .ok (pre ++ t :: post)) :
    ∃ c cs, (t :: post).flatMap Token.text = c :: cs ∧
      Reads c cs t (post.flatMap Token.text) := by
  have hdrop := tokenize_drop h pre.length
  rw [List.drop_left] at hdrop
  obtain ⟨c, cs, rest, htext, hread, hrest⟩ := exists_of_tokenize_cons hdrop
  rw [flatMap_of_tokenize hrest]
  exact ⟨c, cs, htext, hread⟩

/-- Tokens that were read are what the text consists of. -/
theorem lexing_of_tokenize {text : Text} {ts : List Token} (h : tokenize text = .ok ts) :
    Lexing text ts := by
  -- a token was read off a text that starts with its first character
  have hnonempty : ∀ t ∈ ts, t.text ≠ [] := by
    intro t ht
    obtain ⟨pre, post, rfl⟩ := List.append_of_mem ht
    obtain ⟨c, cs, -, hread⟩ := exists_reads_of_tokenize h
    obtain ⟨w, htext, -⟩ := hread.cut (List.append_nil _).symm
    rw [htext]
    exact List.cons_ne_nil c w
  have happend := flatMap_of_tokenize h
  have hplaces := contiguous_placed hnonempty 0
  rw [happend, Nat.zero_add] at hplaces
  refine ⟨hnonempty, hplaces, happend, ?_, tokenize_take h, tokenize_drop h, ?_⟩
  · intro pre t post hsplit hkind hmem op hop hpre
    subst hsplit
    -- an operator is read off the text from it on, where the longest one wins
    obtain ⟨c, cs, htext, hread⟩ := exists_reads_of_tokenize h
    rw [htext] at hpre
    exact length_le_of_operatorAt (hread.operatorAt_eq hkind hmem) hop hpre
  · intro k
    rw [drop_placed, placed_add]

/-- **A text is its tokens, wherever it is cut between two of them**; a text
that cannot be read is its first tokens and the rest that the error carries. -/
theorem tokenize_lexing (text : Text) :
    match tokenize text with
    | .ok ts => Lexing text ts
    | .error e => ∃ ts c cs, text = ts.flatMap Token.text ++ c :: cs ∧
        tokenize (ts.flatMap Token.text) = .ok ts ∧ Unread c cs e := by
  cases h : tokenize text with
  | ok ts => exact lexing_of_tokenize h
  | error e => exact exists_of_tokenize_error h

end QwebReceiver.Expr
