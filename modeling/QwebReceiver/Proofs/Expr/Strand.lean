import QwebReceiver.Proofs.Expr.Rewritten

/-!
  QwebReceiver.Proofs.Expr.Strand — where a qualified expression comes from.

  The text of a qualified expression does not tell which of its characters
  were inserted: a `this.` may have been written by the author.  Qualifying
  knows.  `strands` is that knowledge: it judges the same tokens by the same
  verdicts, and instead of the text it gives the stretches of the result, each
  with its own characters and those around them that are new.

    strand       own        before     after
    plain c      c
    kept t       t
    member x     x          this.
    property x   x                     : this.x

  Main results:

    * `map_new_strands` — what the strands write is the qualified expression;
    * `old_of_strands` — their own characters are the expression;
    * `forall_of_strands` — what has to be shown to show it of all strands.
-/

namespace QwebReceiver.Expr

open QwebReceiver.Text

/-! ## §1. Strands. -/

/-- A stretch of a qualified expression, with what was there before and what was
inserted.  The list of them is the account of a whole pass. -/
inductive Strand where
  /-- A character of a margin, or of a template string outside of its tokens. -/
  | plain (c : Char)
  /-- A token as it was. -/
  | kept (t : Token)
  /-- An identifier that became a member of the receiver. -/
  | member (name : Text)
  /-- A shorthand property that got a member for its value. -/
  | property (name : Text)
  deriving Repr, DecidableEq

namespace Strand

/-- The characters that were there before. -/
def own : Strand → Text
  | .plain c => [c]
  | .kept t => t.text
  | .member name => name
  | .property name => name

/-- The characters inserted before them. -/
def leading : Strand → Text
  | .member _ => receiverMark
  | _ => []

/-- The characters inserted after them.  For a shorthand property these hold its
value, and the key stays in front. -/
def trailing : Strand → Text
  | .property name => ':' :: ' ' :: (receiverMark ++ name)
  | _ => []

/-- The characters written. -/
def render (s : Strand) : Text := s.leading ++ (s.own ++ s.trailing)

/-- Whether the receiver was inserted here. -/
def isReceived : Strand → Bool
  | .member _ => true
  | .property _ => true
  | _ => false

/-- The text without the insertions. -/
def old (w : List Strand) : Text := w.flatMap own

/-- The text with the insertions. -/
def new (w : List Strand) : Text := w.flatMap render

/-- The original text of strands is put together from theirs. -/
@[simp] theorem old_append (w w' : List Strand) : old (w ++ w') = old w ++ old w' :=
  List.flatMap_append

@[simp] theorem new_append (w w' : List Strand) : new (w ++ w') = new w ++ new w' :=
  List.flatMap_append

@[simp] theorem old_cons (s : Strand) (w : List Strand) : old (s :: w) = s.own ++ old w := rfl

@[simp] theorem new_cons (s : Strand) (w : List Strand) : new (s :: w) = s.render ++ new w := rfl

@[simp] theorem old_plain (t : Text) : old (t.map plain) = t := by
  rw [old, List.flatMap_map]
  exact List.flatMap_singleton' t

@[simp] theorem new_plain (t : Text) : new (t.map plain) = t := by
  rw [new, List.flatMap_map]
  exact List.flatMap_singleton' t

end Strand

/-- An identifier under a verdict. -/
def Verdict.strand (t : Token) : Verdict → Strand
  | .keep => .kept t
  | .member => .member t.text
  | .property => .property t.text

/-- An identifier keeps its characters under every verdict. -/
theorem Verdict.own_strand (t : Token) (v : Verdict) : (v.strand t).own = t.text := by
  cases v with
  | keep => rfl
  | member => rfl
  | property => rfl

/-- The strand of an identifier writes what the verdict does. -/
theorem Verdict.render_strand (t : Token) (v : Verdict) : (v.strand t).render = v.write t.text := by
  cases v with
  | keep => exact List.append_nil t.text
  | member => simp [strand, Strand.render, Strand.leading, Strand.own, Strand.trailing, write,
      receiverMark]
  | property => simp [strand, Strand.render, Strand.leading, Strand.own, Strand.trailing, write,
      receiverMark]

/-! ## §2. The strands of an expression. -/

/-- The strands of a text with holes, with `inner` for those of the holes.  The
delimiters are kept, character by character. -/
def pieceStrands (inner : Text → Option (List Strand)) : List Piece → Option (List Strand)
  | [] => some []
  | .plain c :: rest => (pieceStrands inner rest).map (.plain c :: ·)
  | .hole opening expr closing :: rest =>
    (inner expr).bind fun w =>
      (pieceStrands inner rest).map fun w' =>
        opening.map .plain ++ (w ++ (closing.map .plain ++ w'))

section

variable (inner : Text → Option (List Strand)) (bound : NameSet) (scopes : List ArrowScope)

/-- The strands of a token at its site.  A template string is opened into those
of its pieces, every other token is one strand. -/
def tokenStrands (x : Site × Token) : Option (List Strand) :=
  match x.2.kind with
  | .templateString => pieceStrands inner (Piece.ofTemplateLiteral x.2.text)
  | .symbol => some [(verdict bound scopes x.1 x.2.text).strand x.2]
  | _ => some [.kept x.2]

/-- The strands of tokens at their sites. -/
def tokensStrands : List (Site × Token) → Option (List Strand)
  | [] => some []
  | x :: xs => (tokenStrands inner bound scopes x).bind fun w =>
    (tokensStrands xs).map (w ++ ·)

/-- The strands of an expression, with `inner` for those of the interpolations
of its template strings. -/
def strandsWith (expr : Text) : Option (List Strand) :=
  match margins expr with
  | (before, body, after) =>
    if body.isEmpty then some (expr.map .plain)
    else
      (tokenize body).toOption.bind fun tokens =>
        (arrowScopes body tokens).toOption.bind fun scopes =>
          (sited 0 none [] tokens).bind fun xs =>
            (tokensStrands inner bound scopes xs).map fun w =>
              before.map .plain ++ (w ++ after.map .plain)

end

/-- The strands of an expression that is qualified against the bound variables;
none if it cannot be qualified. -/
def strands (bound : NameSet) (expr : Text) : Option (List Strand) :=
  strandsWith
    (fun inner => if _ : inner.length < expr.length then strands bound inner
      else some (inner.map .plain))
    bound expr
termination_by expr.length

/-- What holds of plain text, and of an expression if it holds of its
interpolations, holds of all expressions. -/
theorem strands_induction {P : Text → List Strand → Prop} {bound : NameSet}
    (hplain : ∀ t, P t (t.map .plain))
    (hwith : ∀ inner expr w, (∀ e u, inner e = some u → P e u) →
      strandsWith inner bound expr = some w → P expr w)
    {expr : Text} {w : List Strand} (h : strands bound expr = some w) : P expr w := by
  -- the scanner calls itself on shorter texts only, and hands longer ones back
  induction hlength : expr.length using Nat.strong_induction_on generalizing expr w with
  | _ n ih =>
    subst hlength
    rw [strands] at h
    refine hwith _ expr w ?_ h
    intro e u hu
    by_cases he : e.length < expr.length
    · rw [dif_pos he] at hu
      exact ih e.length he hu rfl
    · rw [dif_neg he] at hu
      cases hu
      exact hplain e

/-- The steps by which the strands of an expression are found. -/
theorem strandsWith_eq_some {inner : Text → Option (List Strand)} {bound : NameSet} {expr : Text}
    {w : List Strand} (h : strandsWith inner bound expr = some w) :
    w = expr.map .plain ∨
    ∃ ts scopes xs w', tokenize (trim expr) = .ok ts ∧ sited 0 none [] ts = some xs ∧
      tokensStrands inner bound scopes xs = some w' ∧
      w = (margins expr).1.map .plain ++ (w' ++ (margins expr).2.2.map .plain) := by
  unfold strandsWith at h
  unfold trim
  -- a blank expression is plain; else the stages have all had results
  split at h
  next before body after hmargins =>
  simp only [hmargins]
  split at h
  · cases h
    exact Or.inl rfl
  · obtain ⟨ts, hts, h⟩ := Option.bind_eq_some_iff.1 h
    obtain ⟨scopes, -, h⟩ := Option.bind_eq_some_iff.1 h
    obtain ⟨xs, hxs, h⟩ := Option.bind_eq_some_iff.1 h
    obtain ⟨w', hw', rfl⟩ := Option.map_eq_some_iff.1 h
    refine Or.inr ⟨ts, scopes, xs, w', ?_, hxs, hw', rfl⟩
    cases hread : tokenize body with
    | error e =>
      rw [hread] at hts
      cases hts
    | ok ts' =>
      rw [hread] at hts
      cases hts
      rfl

/-! ## §3. What the strands write. -/

section New

variable {inner : Text → Option (List Strand)} {scan : Scanner} {bound : NameSet}

/-- The strands of a text with holes write the filled text. -/
theorem map_new_pieceStrands (inner : Text → Option (List Strand)) (pieces : List Piece) :
    (pieceStrands inner pieces).map Strand.new =
      fillHoles (fun e => (inner e).map Strand.new) pieces := by
  induction pieces with
  | nil => rfl
  | cons p pieces ih =>
    cases p with
    | plain c =>
      rw [pieceStrands, fillHoles, ← ih, Option.map_map, Option.map_map]
      rfl
    | hole opening expr closing =>
      rw [pieceStrands, fillHoles, ← ih, Option.map_bind, Option.bind_map]
      congr 1
      funext w
      simp only [Function.comp_def, Option.map_map, Strand.new_append, Strand.new_plain,
        List.append_assoc]

/-- The strands of a token write its text under the scopes. -/
theorem map_new_tokenStrands (h : ∀ e, (inner e).map Strand.new = (scan e).outcome.toOption)
    (scopes : List ArrowScope) (x : Site × Token) :
    (tokenStrands inner bound scopes x).map Strand.new = scopedText scan bound scopes x := by
  -- the three ways in which a token is written
  by_cases hsymbol : x.2.kind = .symbol
  · rw [scopedText_of_symbol scan bound hsymbol, tokenStrands, hsymbol]
    show some (_ ++ []) = _
    rw [Verdict.render_strand, List.append_nil]
  · by_cases htemplate : x.2.kind = .templateString
    · rw [scopedText, qualifyToken, tokenStrands, htemplate]
      show (pieceStrands inner _).map Strand.new = (fillPieces scan _).outcome.toOption
      rw [toOption_fillPieces, map_new_pieceStrands, funext h]
    · rw [scopedText, qualifyToken_of_other scan bound scopes htemplate hsymbol, tokenStrands]
      split
      · next hkind => exact absurd hkind htemplate
      · next hkind => exact absurd hkind hsymbol
      · show some ([] ++ (x.2.text ++ []) ++ []) = some x.2.text
        simp

/-- The strands of tokens write their texts under the scopes, one after the
other. -/
theorem map_new_tokensStrands (h : ∀ e, (inner e).map Strand.new = (scan e).outcome.toOption)
    (scopes : List ArrowScope) (xs : List (Site × Token)) :
    (tokensStrands inner bound scopes xs).map Strand.new = scopedTexts scan bound scopes xs := by
  induction xs with
  | nil => rfl
  | cons x xs ih =>
    rw [tokensStrands, scopedTexts, ← ih, ← map_new_tokenStrands h, Option.map_bind,
      Option.bind_map]
    congr 1
    funext w
    simp only [Function.comp_def, Option.map_map, Strand.new_append]

/-- The strands of an expression write the qualified expression, if those of its
interpolations do. -/
theorem map_new_strandsWith (h : ∀ e, (inner e).map Strand.new = (scan e).outcome.toOption)
    (expr : Text) :
    (strandsWith inner bound expr).map Strand.new =
      (qualifyWith scan bound expr).outcome.toOption := by
  rcases hmargins : margins expr with ⟨before, body, after⟩
  simp only [strandsWith, qualifyWith, hmargins]
  split
  · exact congrArg some (Strand.new_plain expr)
  · simp only [Traced.outcome_bind, Traced.outcome_ofExcept, Traced.outcome_map, toOption_bind,
      toOption_map, toOption_qualifyTokens, ← map_new_tokensStrands h, Option.map_bind,
      Option.map_map, Function.comp_def, Strand.new_append, Strand.new_plain, List.append_assoc]

end New

/-- **The strands write the qualified expression**, and there are none where
it cannot be qualified. -/
theorem map_new_strands (bound : NameSet) (expr : Text) :
    (strands bound expr).map Strand.new = (qualify bound expr).outcome.toOption := by
  induction hlength : expr.length using Nat.strong_induction_on generalizing expr with
  | _ n ih =>
    subst hlength
    rw [strands, qualify]
    refine map_new_strandsWith ?_ expr
    intro e
    by_cases he : e.length < expr.length
    · rw [dif_pos he, dif_pos he]
      exact ih e.length he e rfl
    · rw [dif_neg he, dif_neg he]
      exact congrArg some (Strand.new_plain e)

/-- An expression that can be qualified has strands. -/
theorem exists_strands {bound : NameSet} {expr out : Text}
    (h : (qualify bound expr).outcome = .ok out) :
    ∃ w, strands bound expr = some w ∧ Strand.new w = out := by
  have hmap := map_new_strands bound expr
  rw [h] at hmap
  exact Option.map_eq_some_iff.1 hmap

/-! ## §4. What the strands keep. -/

section Old

variable {inner : Text → Option (List Strand)} {bound : NameSet} {w : List Strand}

/-- The strands of a text with holes keep the text. -/
theorem old_of_pieceStrands (h : ∀ e u, inner e = some u → Strand.old u = e) {pieces : List Piece}
    (hw : pieceStrands inner pieces = some w) : Strand.old w = Piece.renderAll pieces := by
  induction pieces generalizing w with
  | nil =>
    cases hw
    rfl
  | cons p pieces ih =>
    cases p with
    | plain c =>
      obtain ⟨w', hw', rfl⟩ := Option.map_eq_some_iff.1 hw
      exact congrArg (c :: ·) (ih hw')
    | hole opening expr closing =>
      obtain ⟨u, hu, hw⟩ := Option.bind_eq_some_iff.1 hw
      obtain ⟨w', hw', rfl⟩ := Option.map_eq_some_iff.1 hw
      show _ = opening ++ expr ++ closing ++ Piece.renderAll pieces
      simp only [Strand.old_append, Strand.old_plain, h expr u hu, ih hw', List.append_assoc]

/-- The strands of a token keep the token. -/
theorem old_of_tokenStrands (h : ∀ e u, inner e = some u → Strand.old u = e)
    {scopes : List ArrowScope} {x : Site × Token}
    (hw : tokenStrands inner bound scopes x = some w) : Strand.old w = x.2.text := by
  unfold tokenStrands at hw
  split at hw
  · rw [old_of_pieceStrands h hw, renderAll_ofTemplateLiteral]
  · cases hw
    show _ ++ [] = x.2.text
    rw [Verdict.own_strand, List.append_nil]
  · cases hw
    exact List.append_nil x.2.text

/-- The strands of tokens keep the text that the tokens make up. -/
theorem old_of_tokensStrands (h : ∀ e u, inner e = some u → Strand.old u = e)
    {scopes : List ArrowScope} {xs : List (Site × Token)}
    (hw : tokensStrands inner bound scopes xs = some w) :
    Strand.old w = (xs.map Prod.snd).flatMap Token.text := by
  induction xs generalizing w with
  | nil =>
    cases hw
    rfl
  | cons x xs ih =>
    obtain ⟨u, hu, hw⟩ := Option.bind_eq_some_iff.1 hw
    obtain ⟨w', hw', rfl⟩ := Option.map_eq_some_iff.1 hw
    rw [Strand.old_append, old_of_tokenStrands h hu, ih hw']
    rfl

/-- **The strands keep the expression.**  Without the insertions they spell what
was there before, character by character. -/
theorem old_of_strands {expr : Text} (h : strands bound expr = some w) : Strand.old w = expr := by
  refine strands_induction (P := fun e u => Strand.old u = e) Strand.old_plain ?_ h
  intro inner expr w hinner hw
  rcases strandsWith_eq_some hw with rfl | ⟨ts, scopes, xs, w', hts, hxs, hw', rfl⟩
  · exact Strand.old_plain expr
  · have hbody : Strand.old w' = trim expr := by
      rw [old_of_tokensStrands hinner hw', map_snd_of_sited hxs, flatMap_of_tokenize hts]
    simp only [Strand.old_append, Strand.old_plain, hbody, ← List.append_assoc]
    exact margins_append expr

end Old

/-! ## §5. All strands. -/

section All

variable {inner : Text → Option (List Strand)} {bound : NameSet} {w : List Strand}
  {P : Strand → Prop}

theorem forall_plain (hplain : ∀ c, P (.plain c)) (t : Text) : ∀ s ∈ t.map Strand.plain, P s := by
  intro s hs
  obtain ⟨c, -, rfl⟩ := List.mem_map.1 hs
  exact hplain c

/-- What holds of plain strands and of those of expressions holds of the strands
of a text with holes. -/
theorem forall_of_pieceStrands (hplain : ∀ c, P (.plain c))
    (h : ∀ e u, inner e = some u → ∀ s ∈ u, P s) {pieces : List Piece}
    (hw : pieceStrands inner pieces = some w) : ∀ s ∈ w, P s := by
  have hall := forall_plain hplain
  induction pieces generalizing w with
  | nil =>
    cases hw
    intro s hs
    cases hs
  | cons p pieces ih =>
    cases p with
    | plain c =>
      obtain ⟨w', hw', rfl⟩ := Option.map_eq_some_iff.1 hw
      exact List.forall_mem_cons.2 ⟨hplain c, ih hw'⟩
    -- delimiters are plain, and the strands between them come from inside
    | hole opening expr closing =>
      obtain ⟨u, hu, hw⟩ := Option.bind_eq_some_iff.1 hw
      obtain ⟨w', hw', rfl⟩ := Option.map_eq_some_iff.1 hw
      simp only [List.forall_mem_append]
      exact ⟨hall opening, h expr u hu, hall closing, ih hw'⟩

/-- What holds of plain characters, of tokens that stay, of identifiers under
any verdict and of the strands of interpolations holds of the strands of tokens. -/
theorem forall_of_tokensStrands (hplain : ∀ c, P (.plain c)) (hkept : ∀ t, P (.kept t))
    (hsymbol : ∀ (t : Token) (v : Verdict), t.Spelled → t.kind = .symbol → P (v.strand t))
    (h : ∀ e u, inner e = some u → ∀ s ∈ u, P s) {scopes : List ArrowScope}
    {xs : List (Site × Token)} (hs : ∀ t ∈ xs.map Prod.snd, t.Spelled)
    (hw : tokensStrands inner bound scopes xs = some w) : ∀ s ∈ w, P s := by
  induction xs generalizing w with
  | nil =>
    cases hw
    intro s hs
    cases hs
  | cons x xs ih =>
    obtain ⟨u, hu, hw⟩ := Option.bind_eq_some_iff.1 hw
    obtain ⟨w', hw', rfl⟩ := Option.map_eq_some_iff.1 hw
    rw [List.map_cons] at hs
    obtain ⟨hx, hxs⟩ := List.forall_mem_cons.1 hs
    refine List.forall_mem_append.2 ⟨?_, ih hxs hw'⟩
    -- a template literal, an identifier, or a token that stays
    unfold tokenStrands at hu
    split at hu
    · exact forall_of_pieceStrands hplain h hu
    · next hkind =>
      cases hu
      exact List.forall_mem_singleton.2 (hsymbol x.2 _ hx hkind)
    · cases hu
      exact List.forall_mem_singleton.2 (hkept x.2)

/-- What holds of plain characters, of tokens that stay and of identifiers under
any verdict holds of all strands. -/
theorem forall_of_strands (hplain : ∀ c, P (.plain c)) (hkept : ∀ t, P (.kept t))
    (hsymbol : ∀ (t : Token) (v : Verdict), t.Spelled → t.kind = .symbol → P (v.strand t))
    {expr : Text} (h : strands bound expr = some w) : ∀ s ∈ w, P s := by
  have hall := forall_plain hplain
  refine strands_induction (P := fun _ u => ∀ s ∈ u, P s) hall ?_ h
  intro inner expr w hinner hw
  rcases strandsWith_eq_some hw with rfl | ⟨ts, scopes, xs, w', hts, hxs, hw', rfl⟩
  · exact hall expr
  · simp only [List.forall_mem_append]
    refine ⟨hall _, forall_of_tokensStrands hplain hkept hsymbol hinner ?_ hw', hall _⟩
    rw [map_snd_of_sited hxs]
    exact spelled_of_tokenize hts

end All

end QwebReceiver.Expr
