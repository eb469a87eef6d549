import Mathlib.Data.List.Chain
import QwebReceiver.Proofs.Expr.Lexing
import QwebReceiver.Proofs.Expr.Strand

/-!
  QwebReceiver.Proofs.Expr.Apart — what stands in front of an inserted
  receiver.

  A receiver is inserted at an identifier, and an identifier is as long as it
  can be.  So the token in front of it has ended for a reason of its own: a
  blank, an operator and a bracket hold no character of a word at their end, a
  string ends with its quote, and a word would have gone on.  A numeral is the
  exception.  It is digits with a fraction or without, and a letter behind its
  last digit starts an identifier: `1e5` is read as `1` and `e5`.

  What tokens do beside each other (`chain_of_tokenize`) their strands do too,
  and so do the strands of the interpolations, which stand between braces.

  Main results:

    * `chain_of_strands` — the strand before a receiver ends a word, or it is a
      numeral;
    * `receiver_apart`, `receiver_glued` — the same for the text, and that the
      exception occurs.
-/

namespace QwebReceiver.Expr

open QwebReceiver.Text

/-! ## §1. Tokens side by side. -/

/-- A value that starts with a digit: digits, with a fraction or without.  It
may end in a character of words without being a word itself. -/
def Token.IsNumeral (t : Token) : Prop :=
  t.kind = .value ∧ ∃ c ∈ t.text.head?, isAsciiDigit c = true

/-- The token does not end inside of a word, or it is a numeral.  Behind such a
token a word can be read as a token of its own. -/
def Token.Ends (t : Token) : Prop :=
  ∃ c, t.text.getLast? = some c ∧
    (isIdentifierPart c = true → isAsciiDigit c = true ∧ t.IsNumeral)

/-- In front of a token that starts like a word the other one has ended.  Two
neighbours of a token list are always beside each other, as the lexer takes the
longest word. -/
def Token.Beside (t u : Token) : Prop :=
  (∃ d ∈ u.text.head?, isIdentifierPart d = true) → t.Ends

/-- A token whose last character is no part of a word has ended, whatever
follows it. -/
theorem Token.ends_of_last {t : Token} (hne : t.text ≠ [])
    (h : ∀ c ∈ t.text.getLast?, isIdentifierPart c = false) : t.Ends := by
  obtain ⟨init, c, hc⟩ := exists_concat hne
  have hlast : t.text.getLast? = some c := by rw [hc, List.getLast?_concat]
  refine ⟨c, hlast, fun hpart => ?_⟩
  rw [h c hlast] at hpart
  cases hpart

/-- Where a word follows, the token that was read has ended before it. -/
theorem Reads.ends {c : Char} {cs : Text} {t : Token} {rest : Text} (h : Reads c cs t rest)
    (hrest : ∃ d ∈ rest.head?, isIdentifierPart d = true) : t.Ends := by
  cases h with
  | blank hblank =>
    refine Token.ends_of_last (List.cons_ne_nil _ _) fun d hd => ?_
    refine isIdentifierPart_of_isBlank ?_
    rcases List.mem_cons.1 (List.mem_of_getLast? hd) with rfl | hd
    · exact hblank
    · exact List.mem_takeWhile_imp hd
  | @string content _ hquote hclose =>
    refine Token.ends_of_last (List.cons_ne_nil _ _) fun d hd => ?_
    rw [← List.cons_append, List.getLast?_concat] at hd
    obtain rfl : c = d := Option.some.inj hd
    exact isIdentifierPart_of_isQuote hquote
  | number hdigit =>
    have hne : (scanNumber (c :: cs)).1 ≠ [] := scanNumber_ne_nil hdigit
    obtain ⟨init, d, hd⟩ := exists_concat hne
    have hhead : c ∈ (scanNumber (c :: cs)).1.head? := by
      have happend := congrArg List.head? (scanNumber_append (c :: cs))
      rwa [List.head?_append_of_ne_nil _ hne] at happend
    refine ⟨d, ?_, fun hpart => ⟨?_, rfl, c, hhead, hdigit⟩⟩
    · show (scanNumber (c :: cs)).1.getLast? = some d
      rw [hd, List.getLast?_concat]
    · have hmem : d ∈ (scanNumber (c :: cs)).1 := by
        rw [hd]
        exact List.mem_append_right init List.mem_cons_self
      rcases mem_scanNumber hmem with h | rfl
      · exact h
      · exact absurd hpart (by decide)
  | operator _ _ _ hop =>
    have hmem := mem_of_operatorAt hop
    refine Token.ends_of_last ?_ (operators_chars _ hmem).2.2
    exact List.ne_nil_of_length_pos (length_pos_of_mem_operators _ hmem)
  | identifier _ _ =>
    -- the word would have gone on
    obtain ⟨d, hd, hpart⟩ := hrest
    rw [head_dropWhile hd] at hpart
    cases hpart
  | punctuation _ hkind =>
    have hall : ∀ x ∈ "{}[](),:".toList, isIdentifierPart x = false := by decide
    refine Token.ends_of_last (List.cons_ne_nil _ _) fun d hd => ?_
    rw [← Option.some.inj hd]
    exact hall c (mem_of_ofPunctuation? hkind)

/-- The tokens of a text stand beside each other. -/
theorem chain_of_tokenize {text : Text} {ts : List Token} (h : tokenize text = .ok ts) :
    ts.IsChain Token.Beside := by
  refine List.isChain_iff_forall_rel_of_append_cons_cons.2 ?_
  rintro t u pre post rfl ⟨d, hd, hpart⟩
  obtain ⟨c, cs, -, hread⟩ := exists_reads_of_tokenize h
  refine hread.ends ⟨d, ?_, hpart⟩
  obtain ⟨w, hw⟩ := List.head?_eq_some_iff.1 hd
  rw [List.flatMap_cons, hw]
  rfl

/-! ## §2. Strands side by side. -/

namespace Strand

/-- The strand does not end inside of a word, or it is a numeral.  The second
case is the one in which a receiver is glued to what stands in front of it. -/
def Ends (s : Strand) : Prop :=
  ∃ c, s.own.getLast? = some c ∧
    (isIdentifierPart c = true → isAsciiDigit c = true ∧ ∃ t, s = .kept t ∧ t.IsNumeral)

/-- In front of an inserted receiver the other strand has ended, so that the
receiver is not read as a part of it. -/
def Apart (s r : Strand) : Prop := r.isReceived = true → s.Ends

theorem ends_plain {c : Char} (h : isIdentifierPart c = false) : (plain c).Ends := by
  refine ⟨c, rfl, fun hpart => ?_⟩
  rw [h] at hpart
  cases hpart

/-- Nothing is asked in front of a character that stays as it is: a receiver is
inserted at an identifier only. -/
theorem apart_plain (s : Strand) (c : Char) : Apart s (plain c) := fun h => by cases h

/-- Characters that stay as they are stand side by side. -/
theorem chain_plain (t : Text) : (t.map plain).IsChain Apart := by
  induction t with
  | nil => exact .nil
  | cons c t ih =>
    refine List.isChain_cons.2 ⟨?_, ih⟩
    intro r hr
    rw [List.head?_map] at hr
    obtain ⟨d, -, rfl⟩ := Option.map_eq_some_iff.1 hr
    exact apart_plain _ d

/-- What is written last is the last of a strand's own characters. -/
theorem getLast?_render {s : Strand} (h : s.own ≠ []) : s.render.getLast? = s.own.getLast? := by
  obtain ⟨init, c, hc⟩ := exists_concat h
  -- nothing is inserted behind a strand's own characters, save those of a property
  -- again
  cases s with
  | plain c => rfl
  | kept t =>
    show ([] ++ (t.text ++ [])).getLast? = t.text.getLast?
    rw [List.append_nil, List.nil_append]
  | member name =>
    obtain rfl : name = init ++ [c] := hc
    have hall : (member (init ++ [c])).render = (receiverMark ++ init) ++ [c] := by
      simp [render, leading, own, trailing]
    rw [hall, List.getLast?_concat]
    exact (List.getLast?_concat).symm
  | property name =>
    obtain rfl : name = init ++ [c] := hc
    have hall : (property (init ++ [c])).render =
        (init ++ [c]) ++ (':' :: ' ' :: (receiverMark ++ init)) ++ [c] := by
      simp [render, leading, own, trailing]
    rw [hall, List.getLast?_concat]
    exact (List.getLast?_concat).symm

end Strand

/-- Marks off text between delimiters from what stands outside of it: no word
reaches over a delimiter. -/
structure Piece.Delimited (p : Piece) : Prop where
  opens : ∀ opening expr closing, p = .hole opening expr closing →
    ∃ init c, opening = init ++ [c] ∧ isIdentifierPart c = false
  closes : ∀ opening expr closing, p = .hole opening expr closing → closing ≠ []

/-- The holes of a template literal stand between braces. -/
theorem delimited_ofTemplateLiteral (t : Text) : ∀ p ∈ Piece.ofTemplateLiteral t, p.Delimited := by
  have hplain : ∀ c, (Piece.plain c).Delimited := fun c => ⟨by rintro _ _ _ ⟨⟩, by rintro _ _ _ ⟨⟩⟩
  induction t using Piece.ofTemplateLiteral.induct with
  | case1 =>
    rw [Piece.ofTemplateLiteral]
    intro p hp
    cases hp
  | case2 c r ih =>
    rw [Piece.ofTemplateLiteral]
    exact List.forall_mem_cons.2 ⟨hplain _, List.forall_mem_cons.2 ⟨hplain c, ih⟩⟩
  -- the only piece with delimiters: `$` and a brace before it, a brace behind it
  | case3 r expr rest hclose hlt ih =>
    rw [ofTemplateLiteral_hole hclose]
    refine List.forall_mem_cons.2 ⟨⟨?_, ?_⟩, ih⟩
    · rintro _ _ _ ⟨⟩
      exact ⟨['$'], '{', rfl, by decide⟩
    · rintro _ _ _ ⟨⟩
      exact List.cons_ne_nil _ _
  | case4 r hclose ih =>
    rw [ofTemplateLiteral_dollar hclose]
    exact List.forall_mem_cons.2 ⟨hplain _, ih⟩
  | case5 c r hescape hdollar ih =>
    rw [Piece.ofTemplateLiteral.eq_4 c r hescape hdollar]
    exact List.forall_mem_cons.2 ⟨hplain c, ih⟩

section Chain

variable {inner : Text → Option (List Strand)} {bound : NameSet} {scopes : List ArrowScope}
  {w : List Strand}

/-- The strands of a text with holes start with its first character, so that no
receiver is inserted in front of all of them. -/
theorem head_of_pieceStrands {pieces : List Piece} (hp : ∀ p ∈ pieces, p.Delimited)
    (hw : pieceStrands inner pieces = some w) : ∀ r ∈ w.head?, r.isReceived = false := by
  intro r hr
  cases pieces with
  | nil =>
    cases hw
    cases hr
  | cons p pieces =>
    cases p with
    | plain c =>
      obtain ⟨w', -, rfl⟩ := Option.map_eq_some_iff.1 hw
      cases hr
      rfl
    -- a hole starts with its delimiter, and that is plain
    | hole opening expr closing =>
      obtain ⟨u, -, hw⟩ := Option.bind_eq_some_iff.1 hw
      obtain ⟨w', -, rfl⟩ := Option.map_eq_some_iff.1 hw
      obtain ⟨init, c, rfl, -⟩ := (hp _ List.mem_cons_self).opens _ _ _ rfl
      cases init with
      | nil =>
        cases hr
        rfl
      | cons d init =>
        cases hr
        rfl

/-- The strands of a text with holes end with its last character. -/
theorem getLast?_of_pieceStrands {pieces : List Piece} (hp : ∀ p ∈ pieces, p.Delimited)
    (hw : pieceStrands inner pieces = some w) :
    w.getLast? = (Piece.renderAll pieces).getLast?.map Strand.plain := by
  induction pieces generalizing w with
  | nil =>
    cases hw
    rfl
  | cons p pieces ih =>
    cases p with
    | plain c =>
      obtain ⟨w', hw', rfl⟩ := Option.map_eq_some_iff.1 hw
      have hlast := ih (fun q hq => hp q (List.mem_cons_of_mem _ hq)) hw'
      show (Strand.plain c :: w').getLast? = (c :: Piece.renderAll pieces).getLast?.map Strand.plain
      rw [List.getLast?_cons, List.getLast?_cons, hlast]
      cases (Piece.renderAll pieces).getLast? with
      | none => rfl
      | some d => rfl
    -- a hole ends with its delimiter, so what was filled in does not show
    | hole opening expr closing =>
      obtain ⟨u, -, hw⟩ := Option.bind_eq_some_iff.1 hw
      obtain ⟨w', hw', rfl⟩ := Option.map_eq_some_iff.1 hw
      have hlast := ih (fun q hq => hp q (List.mem_cons_of_mem _ hq)) hw'
      obtain ⟨init, c, rfl⟩ := exists_concat ((hp _ List.mem_cons_self).closes _ _ _ rfl)
      show _ = (opening ++ expr ++ (init ++ [c]) ++ Piece.renderAll pieces).getLast?.map Strand.plain
      simp only [List.getLast?_append, hlast, List.map_append, List.getLast?_map]
      cases (Piece.renderAll pieces).getLast? with
      | none => rfl
      | some d => rfl

/-- The strands of a text with holes stand apart if those of its expressions do.
A delimiter stands before and behind each of these, and so no word reaches over
the edge. -/
theorem chain_of_pieceStrands (h : ∀ e u, inner e = some u → u.IsChain Strand.Apart)
    {pieces : List Piece} (hp : ∀ p ∈ pieces, p.Delimited)
    (hw : pieceStrands inner pieces = some w) : w.IsChain Strand.Apart := by
  induction pieces generalizing w with
  | nil =>
    cases hw
    exact .nil
  | cons p pieces ih =>
    have hrest : ∀ q ∈ pieces, q.Delimited := fun q hq => hp q (List.mem_cons_of_mem _ hq)
    -- nothing received stands at the start of the pieces behind
    have hjoin : ∀ {w'}, pieceStrands inner pieces = some w' → ∀ s, ∀ r ∈ w'.head?,
        Strand.Apart s r := by
      intro w' hw' s r hr hreceived
      rw [head_of_pieceStrands hrest hw' r hr] at hreceived
      cases hreceived
    cases p with
    | plain c =>
      obtain ⟨w', hw', rfl⟩ := Option.map_eq_some_iff.1 hw
      exact List.isChain_cons.2 ⟨hjoin hw' _, ih hrest hw'⟩
    | hole opening expr closing =>
      obtain ⟨u, hu, hw⟩ := Option.bind_eq_some_iff.1 hw
      obtain ⟨w', hw', rfl⟩ := Option.map_eq_some_iff.1 hw
      obtain ⟨init, c, rfl, hc⟩ := (hp _ List.mem_cons_self).opens _ _ _ rfl
      have hclosing : (closing.map Strand.plain ++ w').IsChain Strand.Apart :=
        (Strand.chain_plain closing).append (ih hrest hw') fun s _ => hjoin hw' s
      refine (Strand.chain_plain _).append ((h expr u hu).append hclosing ?_) ?_
      · intro s _ r hr
        rw [List.head?_append, List.head?_map] at hr
        cases closing with
        | nil => exact hjoin hw' s r hr
        | cons d closing =>
          cases hr
          exact Strand.apart_plain s d
      · -- the opening delimiter ends with a character that is not one of words
        intro s hs r _ _
        rw [List.getLast?_map, List.getLast?_concat] at hs
        cases hs
        exact Strand.ends_plain hc

/-- The strands of one token stand apart: only a template literal has more than
one of them. -/
theorem chain_of_tokenStrands (h : ∀ e u, inner e = some u → u.IsChain Strand.Apart)
    {x : Site × Token} (hw : tokenStrands inner bound scopes x = some w) :
    w.IsChain Strand.Apart := by
  unfold tokenStrands at hw
  split at hw
  · exact chain_of_pieceStrands h (delimited_ofTemplateLiteral x.2.text) hw
  · cases hw
    exact .singleton _
  · cases hw
    exact .singleton _

/-- The strands of a token start and end as the token does. -/
theorem bounds_of_tokenStrands {x : Site × Token} (hne : x.2.text ≠ [])
    (hw : tokenStrands inner bound scopes x = some w) :
    (∀ r ∈ w.head?, r.isReceived = true → x.2.kind = .symbol) ∧
      ∃ s, w.getLast? = some s ∧ (x.2.Ends → s.Ends) := by
  unfold tokenStrands at hw
  split at hw
  · next hkind =>
    -- a template literal: both of its ends are plain characters
    have hp := delimited_ofTemplateLiteral x.2.text
    obtain ⟨init, c, hc⟩ := exists_concat hne
    refine ⟨fun r hr hreceived => ?_, .plain c, ?_, ?_⟩
    · rw [head_of_pieceStrands hp hw r hr] at hreceived
      cases hreceived
    · rw [getLast?_of_pieceStrands hp hw, renderAll_ofTemplateLiteral, hc, List.getLast?_concat]
      rfl
    · rintro ⟨d, hd, hends⟩
      rw [hc, List.getLast?_concat] at hd
      obtain rfl : c = d := Option.some.inj hd
      refine ⟨c, rfl, fun hpart => ?_⟩
      have hvalue := (hends hpart).2.1
      rw [hkind] at hvalue
      cases hvalue
  · next hkind =>
    cases hw
    -- an identifier ends as it did, whatever is inserted in front
    refine ⟨fun _ _ _ => hkind, (verdict bound scopes x.1 x.2.text).strand x.2, rfl, ?_⟩
    rintro ⟨c, hc, hends⟩
    refine ⟨c, by rwa [Verdict.own_strand], fun hpart => ?_⟩
    have hvalue := (hends hpart).2.1
    rw [hkind] at hvalue
    cases hvalue
  · cases hw
    refine ⟨?_, _, rfl, ?_⟩
    · rintro r hr hreceived
      cases hr
      cases hreceived
    · rintro ⟨c, hc, hends⟩
      exact ⟨c, hc, fun hpart => ⟨(hends hpart).1, x.2, rfl, (hends hpart).2⟩⟩

/-- The strands of tokens stand apart, as the tokens stand beside each other.
The induction carries along that a receiver comes first only if an identifier
does. -/
theorem chain_of_tokensStrands (h : ∀ e u, inner e = some u → u.IsChain Strand.Apart)
    {xs : List (Site × Token)} (hs : ∀ t ∈ xs.map Prod.snd, t.Spelled ∧ t.text ≠ [])
    (hbeside : (xs.map Prod.snd).IsChain Token.Beside)
    (hw : tokensStrands inner bound scopes xs = some w) :
    w.IsChain Strand.Apart ∧
      ∀ r ∈ w.head?, r.isReceived = true → ∃ x ∈ xs.head?, x.2.kind = .symbol := by
  induction xs generalizing w with
  | nil =>
    cases hw
    exact ⟨.nil, fun r hr => by cases hr⟩
  | cons x xs ih =>
    obtain ⟨u, hu, hw⟩ := Option.bind_eq_some_iff.1 hw
    obtain ⟨w', hw', rfl⟩ := Option.map_eq_some_iff.1 hw
    rw [List.map_cons] at hs hbeside
    obtain ⟨hx, hxs⟩ := List.forall_mem_cons.1 hs
    obtain ⟨hnext, hrest⟩ := List.isChain_cons.1 hbeside
    obtain ⟨hchain, hhead⟩ := ih hxs hrest hw'
    obtain ⟨hfirst, s, hlast, hends⟩ := bounds_of_tokenStrands hx.2 hu
    constructor
    · refine (chain_of_tokenStrands h hu).append hchain ?_
      intro s' hs' r hr hreceived
      rw [hlast] at hs'
      cases hs'
      -- the receiver is inserted at an identifier, which starts like a word
      obtain ⟨y, hy, hkind⟩ := hhead r hr hreceived
      have hmem : y.2 ∈ (xs.map Prod.snd).head? := by
        rw [List.head?_map, hy]
        rfl
      obtain ⟨d, v, htext, hstart, -⟩ :=
        (hxs y.2 (List.mem_of_mem_head? hmem)).1.symbol hkind
      exact hends (hnext y.2 hmem
        ⟨d, by rw [htext]; rfl, isIdentifierPart_of_isIdentifierStart hstart⟩)
    · intro r hr hreceived
      refine ⟨x, rfl, hfirst r ?_ hreceived⟩
      cases u with
      | nil => cases hlast
      | cons s' u => exact hr

/-- **The strand before an inserted receiver has ended, or it is a numeral.**
Both cases do occur, and in the second one the receiver is read as a part of the
numeral. -/
theorem chain_of_strands {expr : Text} (h : strands bound expr = some w) :
    w.IsChain Strand.Apart := by
  refine strands_induction (P := fun _ u => u.IsChain Strand.Apart) Strand.chain_plain ?_ h
  intro inner expr w hinner hw
  rcases strandsWith_eq_some hw with rfl | ⟨ts, scopes, xs, w', hts, hxs, hw', rfl⟩
  · exact Strand.chain_plain expr
  · have hspelled : ∀ t ∈ xs.map Prod.snd, t.Spelled ∧ t.text ≠ [] := by
      rw [map_snd_of_sited hxs]
      exact fun t ht => ⟨spelled_of_tokenize hts t ht, (lexing_of_tokenize hts).nonempty t ht⟩
    -- a token that a word follows has ended, as the lexer would have read on
    have hbeside : (xs.map Prod.snd).IsChain Token.Beside := by
      rw [map_snd_of_sited hxs]
      exact chain_of_tokenize hts
    obtain ⟨hchain, -⟩ := chain_of_tokensStrands hinner hspelled hbeside hw'
    refine (Strand.chain_plain _).append (hchain.append (Strand.chain_plain _) ?_) ?_
    · intro s _ r hr
      rw [List.head?_map] at hr
      obtain ⟨d, -, rfl⟩ := Option.map_eq_some_iff.1 hr
      exact Strand.apart_plain s d
    · -- a margin is blank
      intro s hs r _ _
      rw [List.getLast?_map] at hs
      obtain ⟨c, hc, rfl⟩ := Option.map_eq_some_iff.1 hs
      exact Strand.ends_plain
        (isIdentifierPart_of_isBlank (List.mem_takeWhile_imp (List.mem_of_getLast? hc)))

end Chain

/-! ## §3. The text before a receiver. -/

/-- A new text ends as its last strand does. -/
theorem Strand.getLast?_new {w : List Strand} {s : Strand} (h : s.own ≠ []) :
    (Strand.new (w ++ [s])).getLast? = s.own.getLast? := by
  obtain ⟨init, c, hc⟩ := exists_concat h
  rw [Strand.new_append]
  show (Strand.new w ++ (s.render ++ [])).getLast? = _
  rw [List.append_nil, List.getLast?_append, Strand.getLast?_render h, hc, List.getLast?_concat,
    Option.some_or]

/-- **No receiver is inserted inside of a word.**  The qualified expression is
the text of its strands, and in front of a strand at which a receiver was
inserted stands no character of a word, unless a numeral ends there: then the
character is its last digit. -/
theorem receiver_apart {bound : NameSet} {expr out : Text}
    (h : (qualify bound expr).outcome = .ok out) :
    ∃ w, strands bound expr = some w ∧ Strand.old w = expr ∧ Strand.new w = out ∧
      ∀ before s after, w = before ++ s :: after → s.isReceived = true →
        ∀ c, (Strand.new before).getLast? = some c → isIdentifierPart c = true →
          isAsciiDigit c = true ∧ ∃ init t, before = init ++ [.kept t] ∧ t.IsNumeral := by
  obtain ⟨w, hw, hnew⟩ := exists_strands h
  refine ⟨w, hw, old_of_strands hw, hnew, ?_⟩
  rintro before s after rfl hreceived c hc hpart
  -- in front of all strands there is no character to tell of
  by_cases hnil : before = []
  · subst hnil
    cases hc
  obtain ⟨init, r, rfl⟩ : ∃ init r, before = init ++ [r] :=
    ⟨_, _, (List.dropLast_concat_getLast hnil).symm⟩
  -- the strand right before the receiver has ended, or is a numeral
  have hchain := chain_of_strands hw
  rw [List.append_assoc] at hchain
  obtain ⟨d, hd, hends⟩ := (List.isChain_append_cons_cons.1 hchain).2.1 hreceived
  have hne : r.own ≠ [] := by
    intro hnil
    rw [hnil] at hd
    cases hd
  rw [Strand.getLast?_new hne, hd] at hc
  obtain rfl : d = c := Option.some.inj hc
  obtain ⟨hdigit, t, rfl, ht⟩ := hends hpart
  exact ⟨hdigit, init, t, rfl, ht⟩

/-- A numeral in an interpolation, with a receiver behind it, and receivers
that stand apart. -/
theorem receiver_apart_sample :
    (qualify ∅ "`n${1.5e5}` in {x}".toList).outcome = .ok "`n${1.5this.e5}` in {x: this.x}".toList ∧
    ∃ w, strands ∅ "`n${1.5e5}` in {x}".toList = some w ∧
      Strand.old w = "`n${1.5e5}` in {x}".toList ∧
      Strand.new w = "`n${1.5this.e5}` in {x: this.x}".toList ∧
      ∀ before s after, w = before ++ s :: after → s.isReceived = true →
        ∀ c, (Strand.new before).getLast? = some c → isIdentifierPart c = true →
          isAsciiDigit c = true ∧ ∃ init t, before = init ++ [.kept t] ∧ t.IsNumeral := by
  have h : (qualify ∅ "`n${1.5e5}` in {x}".toList).outcome =
      .ok "`n${1.5this.e5}` in {x: this.x}".toList := by
    decide +kernel
  exact ⟨h, receiver_apart h⟩

/-- A receiver does stand right behind a numeral: `1e5` is no numeral. -/
theorem receiver_glued :
    (qualify ∅ "1e5".toList).outcome = .ok "1this.e5".toList ∧
    ¬ ∀ (bound : NameSet) (expr out : Text), (qualify bound expr).outcome = .ok out →
      ∀ w, strands bound expr = some w →
        ∀ before s after, w = before ++ s :: after → s.isReceived = true →
          ∀ c, (Strand.new before).getLast? = some c → isIdentifierPart c = false := by
  have h : (qualify ∅ "1e5".toList).outcome = .ok "1this.e5".toList := by decide +kernel
  have hw : strands ∅ "1e5".toList =
      some ([.kept ⟨.value, ['1']⟩] ++ .member ['e', '5'] :: []) := by
    decide +kernel
  refine ⟨h, fun hall => ?_⟩
  have hdigit := hall ∅ _ _ h _ hw _ _ _ rfl rfl '1' rfl
  exact absurd hdigit (by decide)

end QwebReceiver.Expr
