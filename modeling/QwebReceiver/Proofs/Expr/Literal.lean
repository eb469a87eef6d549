import QwebReceiver.Proofs.Expr.Indexed

/-!
  QwebReceiver.Proofs.Expr.Literal — the scanners of string literals agree.

  Three loops read the same literal: the lexer's, which looks for its end; the
  one that skips it inside of braces; and the one that fills the
  interpolations of a template string, which is given the token only and never
  looks for a quote.  A walk through the literal stands for all of them:

    * it is the same walk if the text behind the quote is cut off (`Walk.cut`);
    * none of its interpolations is escaped (`Walk.unescaped`);
    * filling the token weaves exactly its interpolations in, one after the
      other, and meets none that is unclosed (`fill_eq_weave`).
-/

namespace QwebReceiver.Expr

open QwebReceiver.Text QwebReceiver.Expr.ByteDelimiter
open QwebReceiver.Expr.Indexed (ByteSpan Stop Visitor)

/-! ## §1. The walk through a token. -/

/-- What stands behind the quote does not matter. -/
theorem Walk.cut {q : Char} {i j : Nat} {rest : Text} {spans : List ByteSpan}
    (h : Walk q i rest spans (some j)) :
    ∃ content after, rest = content ++ q :: after ∧ j = i + utf8Size content ∧
      Walk q i (content ++ [q]) spans (some j) := by
  generalize hstop : some j = stop at h
  induction h with
  | finish i => cases hstop
  | hanging i => cases hstop
  | unclosed i hq hr => cases hstop
  | @escape i c r spans stop _ ih =>
    obtain ⟨content, after, rfl, rfl, hwalk⟩ := ih hstop
    refine ⟨'\\' :: c :: content, after, rfl, ?_, .escape hwalk⟩
    show i + 1 + c.utf8Size + utf8Size content = i + (1 + (c.utf8Size + utf8Size content))
    omega
  | quote i r =>
    cases hstop
    exact ⟨[], r, rfl, rfl, .quote _ []⟩
  | @interpolation i r inner after spans stop hq hr _ ih =>
    obtain ⟨content, more, hafter, rfl, hwalk⟩ := ih hstop
    -- the interpolation closes before the quote, whatever follows the quote
    have hclose : closingBrace (inner ++ '}' :: (content ++ [q])) =
        some (inner, content ++ [q]) := by
      replace hr : closingBrace r = some (inner, (content ++ [q]) ++ more) := by
        rw [hr, hafter, List.append_cons]
      obtain ⟨c, heq, hcut⟩ := closing_cut (List.cons_ne_nil _ _) hr
      have hc : '}' :: ((content ++ [q]) ++ more) = c :: ((content ++ [q]) ++ more) :=
        List.append_cancel_left ((eq_of_closingBraces hr).symm.trans heq)
      cases hc
      exact hcut
    refine ⟨'$' :: '{' :: (inner ++ '}' :: content), more, ?_, ?_, ?_⟩
    · rw [eq_of_closingBraces hr, hafter]
      simp
    · show i + 2 + utf8Size inner + 1 + utf8Size content =
        i + (1 + (1 + utf8Size (inner ++ '}' :: content)))
      rw [utf8Size_append]
      show _ = i + (1 + (1 + (utf8Size inner + (1 + utf8Size content))))
      omega
    · have hnew := Walk.interpolation hq hclose hwalk
      simpa using hnew
  | @plain i c r spans stop he hc hd _ ih =>
    obtain ⟨content, after, rfl, rfl, hwalk⟩ := ih hstop
    refine ⟨c :: content, after, rfl, Nat.add_assoc _ _ _, .plain he hc ?_ hwalk⟩
    -- the next character is the same, be it the quote
    cases content <;> exact hd

/-! ## §2. Escapes. -/

/-- How many backslashes stand at the end of a text.  A quote behind an odd
number of them is escaped. -/
def backslashes (t : Text) : Nat := (t.reverse.takeWhile (· = '\\')).length

theorem backslashes_append_of_ne (t : Text) {c : Char} (h : c ≠ '\\') :
    backslashes (t ++ [c]) = 0 := by
  simp [backslashes, h]

/-- An escape keeps the number of backslashes at the end even: it is spent with
the character it escapes, or with the second backslash. -/
theorem even_backslashes_escape {t : Text} (h : backslashes t % 2 = 0) (c : Char) :
    backslashes (t ++ ['\\', c]) % 2 = 0 := by
  by_cases hc : c = '\\'
  · have hcount : backslashes (t ++ ['\\', c]) = backslashes t + 2 := by
      simp [backslashes, hc]
    omega
  · rw [List.append_cons, backslashes_append_of_ne _ hc]

/-- An interpolation of the text: `$` and an opening brace, the content, the
closing brace.  The `$` is not escaped: the backslashes before it escape each
other. -/
structure Unescaped (t : Text) (s : ByteSpan) : Prop where
  written : ∃ before inner after, t = before ++ '$' :: '{' :: (inner ++ '}' :: after) ∧
    s.start = utf8Size before + 2 ∧ s.close = s.start + utf8Size inner ∧
    backslashes before % 2 = 0

/-- An escaped `$` opens nothing. -/
theorem Walk.unescaped {q : Char} (before : Text) {rest : Text} {spans : List ByteSpan}
    {stop : Option Nat} (h : Walk q (utf8Size before) rest spans stop)
    (hb : backslashes before % 2 = 0) :
    ∀ s ∈ spans, Unescaped (before ++ rest) s := by
  generalize hi : utf8Size before = i at h
  -- the text before grows along the walk, and an even number of backslashes ends it
  induction h generalizing before with
  | finish i => exact fun s hs => absurd hs List.not_mem_nil
  | hanging i => exact fun s hs => absurd hs List.not_mem_nil
  | unclosed i hq hr => exact fun s hs => absurd hs List.not_mem_nil
  | quote i r => exact fun s hs => absurd hs List.not_mem_nil
  | @escape i c r spans stop _ ih =>
    have hrest := ih _ (even_backslashes_escape hb c) (by
      rw [utf8Size_append, hi]
      show i + (1 + (c.utf8Size + 0)) = _
      omega)
    simpa using hrest
  | @interpolation i r inner after spans stop hq hr _ ih =>
    obtain rfl := eq_of_closingBraces hr
    intro s hs
    rcases List.mem_cons.1 hs with rfl | hs
    · exact ⟨before, inner, after, rfl, by rw [hi], rfl, hb⟩
    · -- behind the closing brace no backslash is pending
      have hrest := ih (before ++ '$' :: '{' :: (inner ++ ['}']))
        (by
          have happend : before ++ '$' :: '{' :: (inner ++ ['}']) =
              (before ++ '$' :: '{' :: inner) ++ ['}'] := by
            simp
          rw [happend, backslashes_append_of_ne _ (by decide)])
        (by
          rw [utf8Size_append, hi]
          show i + (1 + (1 + utf8Size (inner ++ ['}']))) = _
          rw [utf8Size_append]
          show i + (1 + (1 + (utf8Size inner + 1))) = _
          omega) s hs
      simpa using hrest
  | @plain i c r spans stop he hc hd _ ih =>
    have hrest := ih (before ++ [c])
      (by rw [backslashes_append_of_ne _ he])
      (by
        rw [utf8Size_append, hi]
        rfl)
    simpa using hrest

/-! ## §3. Weaving. -/

/-- The literal from byte `copied` on, with what `closed` makes of the contents
at the spans, each of them once and in their order. -/
def weave {ε : Type} (closed : Nat → Nat → Text → Traced ε Text) (literal : Text) :
    Nat → List ByteSpan → Traced ε Text
  | copied, [] => pure (slice literal copied (utf8Size literal))
  | copied, s :: spans => do
    let filled ← closed s.start s.close (slice literal s.start s.close)
    (weave closed literal s.close spans).map (slice literal copied s.start ++ filled ++ ·)

/-- Errors of the contents are mapped where they occur. -/
theorem weave_mapError {ε ε' : Type} (g : ε → ε') (closed : Nat → Nat → Text → Traced ε Text)
    (literal : Text) (copied : Nat) (spans : List ByteSpan) :
    (weave closed literal copied spans).mapError g =
      weave (fun start close e => (closed start close e).mapError g) literal copied spans := by
  induction spans generalizing copied with
  | nil => rfl
  | cons s spans ih =>
    rw [weave, weave, Traced.mapError_bind]
    simp only [Traced.mapError_map, ih]

/-- Where a walk goes through the rest of a literal, `s` being written out and
`p` still to be copied, filling weaves its interpolations in. -/
theorem Walk.fillFrom {v : Visitor} {literal s p rest : Text} {spans : List ByteSpan} {stop i : Nat}
    (h : Walk '`' i rest spans (some stop)) (hsplit : literal = s ++ (p ++ rest))
    (hi : i = utf8Size s + utf8Size p) (hend : stop + 1 = utf8Size literal) :
    Reaches (literal.utf8.toArray.size - i)
      (fun rounds => Indexed.fillFrom v literal literal.utf8.toArray rounds (utf8Size s) i)
      (weave v.closed literal (utf8Size s) spans) := by
  generalize hstop : some stop = last at h
  induction h generalizing s p with
  | finish i => cases hstop
  | hanging i => cases hstop
  | unclosed i hq hr => cases hstop
  | @escape i c r spans last _ ih =>
    subst hi
    have hindex : utf8Size s + utf8Size p + utf8Size ['\\', c] =
        utf8Size s + utf8Size p + 1 + c.utf8Size := by
      show _ + (1 + (c.utf8Size + 0)) = _
      omega
    have hrest := ih (s := s) (p := p ++ ['\\', c]) (by rw [hsplit]; simp)
      (by rw [utf8Size_append, ← Nat.add_assoc, hindex]) hstop
    rw [← hindex] at hrest
    exact fillFrom_escape (at_of_split hsplit) hrest
  | quote i r =>
    cases hstop
    -- the quote is the last byte of the literal
    obtain rfl : r = [] := by
      have hsize : utf8Size r = 0 := by
        rw [hsplit, utf8Size_append, utf8Size_append, utf8Size] at hend
        have : '`'.utf8Size = 1 := rfl
        omega
      by_contra hne
      have := utf8Size_pos hne
      omega
    have hslice := slice_written s (p ++ ['`']) []
    rw [List.append_nil, ← hsplit, ← utf8Size_append, ← hsplit] at hslice
    rw [weave, hslice]
    exact fillFrom_finish hsplit (by omega)
  | @interpolation i r inner after spans last hq hr _ ih =>
    subst hi
    obtain rfl := eq_of_closingBraces hr
    have hrest := ih (s := s ++ (p ++ ['$', '{'] ++ inner)) (p := ['}'])
      (by rw [hsplit]; simp) (by rw [utf8Size_opened]; rfl) hstop
    rw [utf8Size_opened] at hrest
    rw [weave]
    dsimp only
    rw [slice_of_cut (cut_opening hsplit), slice_of_cut (cut_content hsplit)]
    exact fillFrom_closed hsplit hr hrest
  | @plain i c r spans last he hc hd _ ih =>
    subst hi
    have hrest := ih (s := s) (p := p ++ [c]) (by rw [hsplit]; simp)
      (by rw [utf8Size_append, ← Nat.add_assoc]; rfl) hstop
    exact fillFrom_plain (at_of_split hsplit) he (fun h => hd ⟨rfl, h⟩) hrest

/-- Filling a template string weaves the interpolations of the walk through it
in; the visitor sees no other. -/
theorem fill_eq_weave {content : Text} {spans : List ByteSpan} {stop : Nat}
    (h : Walk '`' 1 (content ++ ['`']) spans (some stop)) (hstop : stop = 1 + utf8Size content)
    (v : Visitor) :
    Indexed.fill v ('`' :: (content ++ ['`'])) =
      weave v.closed ('`' :: (content ++ ['`'])) 0 spans := by
  have hend : stop + 1 = utf8Size ('`' :: (content ++ ['`'])) := by
    rw [hstop, utf8Size_quoted (by decide)]
  have hrest := h.fillFrom (v := v) (s := []) (p := ['`']) rfl rfl hend
  have hfirst := fillFrom_plain (at_start _) (by decide) (fun h => absurd h.1 (by decide)) hrest
  exact hfirst _ (lt_enough _ _)

/-! ## §4. Agreement. -/

/-- The lexer's loop and the skipping loop at the same literal: they skip the
same interpolations, none of them escaped, and the literal ends where the
lexer's token does. -/
structure SkippedAsLexed (q : Char) (rest : Text) : Prop where
  spans : ∃ spans stop, Indexed.scan q (q :: rest) = .ok (spans, stop) ∧
    Indexed.skip (q :: rest) 0 =
      .ok (spans, (stop.map (· + 1)).getD (utf8Size (q :: rest))) ∧
    ∀ s ∈ spans, Unescaped (q :: rest) s
  accepted : ∀ t after, nextToken q rest = .ok (t, after) →
    Indexed.stringToken q (q :: rest) = .ok t ∧
      skipLiteral (q :: rest) 0 = utf8Size t.text
  unterminated : ∀ e, nextToken q rest = .error e →
    e = .unterminatedString (q :: rest) ∧
      Indexed.stringToken q (q :: rest) = .error (.refused e) ∧
      skipLiteral (q :: rest) 0 = utf8Size (q :: rest)

/-- A template string in front of the text `more`: filling it visits the
interpolations that the lexer skipped in the whole text, each of them once and
in their order, and nothing else, whatever the visitor does. -/
structure FilledAsLexed (literal more : Text) : Prop where
  spans : ∃ spans stop, Indexed.scan '`' (literal ++ more) = .ok (spans, some stop) ∧
    stop + 1 = utf8Size literal ∧
    (∀ s ∈ spans, Unescaped literal s) ∧
    (∀ v, Indexed.fill v literal = weave v.closed literal 0 spans) ∧
    ∀ inner : Scanner, fillPieces inner (Piece.ofTemplateLiteral literal) =
      weave (fun _ _ e => inner e) literal 0 spans

/-- The two loops that pass a literal walk through it in the same steps. -/
theorem skippedAsLexed {q : Char} (hq : isQuote q = true) (rest : Text) :
    SkippedAsLexed q rest := by
  have hskipped := skipLiteral_eq hq [] rest
  refine ⟨?_, fun t after h => ⟨by rw [stringToken_eq hq, h]; rfl, ?_⟩, fun e h => ?_⟩
  · obtain ⟨spans, stop, hwalk⟩ := exists_walk q rest 1
    have hne : q ≠ '\\' := by
      rintro rfl
      exact absurd hq (by decide)
    -- the quote itself is no backslash, so the walk starts behind none
    have hbackslashes : backslashes [q] % 2 = 0 := by
      rw [← List.nil_append [q], backslashes_append_of_ne [] hne]
    have hunescaped := Walk.unescaped [q]
      (by rwa [utf8Size, utf8Size, utf8Size_ascii (ascii_of_isQuote hq)]) hbackslashes
    exact ⟨spans, stop, scan_eq hq hwalk, skip_eq [] hq hwalk, hunescaped⟩
  · rw [nextToken_quote hq] at h
    cases hclose : closingQuote q rest with
    | none =>
      rw [hclose] at h
      cases h
    | some p =>
      rw [hclose] at h hskipped
      cases h
      rw [utf8Size_quoted hq]
      exact hskipped.trans (by rw [Option.map_some, Option.getD_some, utf8Size, Nat.zero_add])
  -- a literal that is not closed is an error to the lexer and is skipped to the end
  · have htoken : Indexed.stringToken q (q :: rest) = .error (.refused e) := by
      rw [stringToken_eq hq, h]
      rfl
    rw [nextToken_quote hq] at h
    cases hclose : closingQuote q rest with
    | none =>
      rw [hclose] at h hskipped
      cases h
      exact ⟨rfl, htoken, hskipped⟩
    | some p =>
      rw [hclose] at h
      cases h

/-- A template string is read as its content between two backticks. -/
theorem exists_content_of_template {c : Char} {cs : Text} {t : Token} {rest : Text}
    (h : Reads c cs t rest) (hkind : t.kind = .templateString) :
    ∃ content, c = '`' ∧ t.text = c :: (content ++ [c]) ∧
      closingQuote c cs = some (content, rest) := by
  -- only a literal can be of this kind, and only one between backticks is
  cases h with
  | blank _ => cases hkind
  | @string content _ hq hclose =>
    by_cases hc : c = '`'
    · exact ⟨content, hc, rfl, hclose⟩
    · rw [if_neg hc] at hkind
      cases hkind
  | number _ => cases hkind
  | operator _ _ _ _ => cases hkind
  | identifier _ _ =>
    unfold identifierKind at hkind
    split at hkind <;> cases hkind
  | punctuation _ hk =>
    exact absurd hkind (ofPunctuation?_forall (P := fun _ k => k ≠ .templateString) (by decide) hk)

/-- A template string among the tokens of an expression is filled where the
lexer skipped.  The walk through the token is the one through the whole text,
cut behind the quote. -/
theorem filledAsLexed {expr : Text} {before after : List Token} {t : Token}
    (h : tokenize expr = .ok (before ++ t :: after)) (hkind : t.kind = .templateString) :
    FilledAsLexed t.text (after.flatMap Token.text) := by
  obtain ⟨c, cs, htext, hread⟩ := exists_reads_of_tokenize h
  obtain ⟨content, rfl, hliteral, hclose⟩ := exists_content_of_template hread hkind
  have hcs : t.text ++ after.flatMap Token.text = '`' :: cs := htext
  obtain ⟨spans, last, hwalk⟩ := exists_walk '`' cs 1
  have hlast := hwalk.stop_eq (by decide)
  rw [hclose] at hlast
  replace hlast : last = some (1 + utf8Size content) := hlast
  subst hlast
  -- the walk through the whole text is cut to the token
  obtain ⟨content', after', hsplit, hstop, hcut⟩ := hwalk.cut
  obtain rfl : content' = content := by
    have hsame : utf8Size content' = utf8Size content := by omega
    rw [← takeBytes_written content' ('`' :: after'), ← hsplit, hsame,
      eq_of_closingQuote hclose, takeBytes_written]
  have hunescaped := Walk.unescaped ['`'] hcut (by decide)
  rw [hliteral] at hcs ⊢
  refine ⟨spans, _, ?_, (utf8Size_quoted (by decide) _).symm, hunescaped, fill_eq_weave hcut rfl,
    fun inner => ?_⟩
  · rw [hcs]
    exact scan_eq (by decide) hwalk
  · refine Traced.eq_of_mapError_eq _ (g := Stop.refused) (fun _ _ => Stop.refused.inj) ?_
    rw [weave_mapError, ← fill_eq (v := ⟨fun _ _ e => (inner e).mapError .refused,
      fun _ => pure ()⟩) (fun _ _ _ _ => rfl) fun _ => rfl]
    exact fill_eq_weave hcut rfl _

/-- The three scanners of string literals agree: what the lexer accepts or
finds unterminated is skipped to the same place, and the interpolations of a
template string are the same for the lexer, which reads the rest of the
expression, and for the filling, which reads the token. -/
theorem literal_scanners_agree :
    (∀ q rest, isQuote q = true → SkippedAsLexed q rest) ∧
      ∀ expr before t after, tokenize expr = .ok (before ++ t :: after) →
        t.kind = .templateString → FilledAsLexed t.text (after.flatMap Token.text) :=
  ⟨fun _ rest hq => skippedAsLexed hq rest, fun _ _ _ _ h hkind => filledAsLexed h hkind⟩

/-- A quote that is escaped and then missing, and a template string with an
escaped interpolation before a nested one. -/
theorem literal_scanners_agree_sample :
    SkippedAsLexed '"' "a\\\" + b".toList ∧
      tokenize "`\\${a}$\x7b`${b}`\x7d` + c".toList =
        .ok ([] ++ ⟨.templateString, "`\\${a}$\x7b`${b}`\x7d`".toList⟩ ::
          [⟨.blank, " ".toList⟩, ⟨.operator, "+".toList⟩, ⟨.blank, " ".toList⟩,
            ⟨.symbol, "c".toList⟩]) ∧
      FilledAsLexed "`\\${a}$\x7b`${b}`\x7d`".toList " + c".toList := by
  have htokens : tokenize "`\\${a}$\x7b`${b}`\x7d` + c".toList =
      .ok ([] ++ ⟨.templateString, "`\\${a}$\x7b`${b}`\x7d`".toList⟩ ::
        [⟨.blank, " ".toList⟩, ⟨.operator, "+".toList⟩, ⟨.blank, " ".toList⟩,
          ⟨.symbol, "c".toList⟩]) := by
    decide +kernel
  exact ⟨literal_scanners_agree.1 '"' _ (by decide), htokens,
    literal_scanners_agree.2 _ _ _ _ htokens rfl⟩

end QwebReceiver.Expr
