import QwebReceiver.Proofs.Expr.Stay

/-!
  QwebReceiver.Proofs.Expr.Qualify — qualifying an expression settles it.

  Main results:

    * `settles_qualify` — what qualifying makes of an expression is the
      expression with marks, and with these marks and any others it stays;
    * `settles_qualifyDynamic` — so do the expressions of a dynamic string;
    * `qualify_congr` — bound names that do not occur in an expression do not
      matter.

  An interpolation is shorter than the expression that holds it, so the proof
  is an induction on the length of the expression.
-/

namespace QwebReceiver.Expr

open QwebReceiver.Text MarkedText MarkedToken

/-! ## §1. The recursion. -/

/-- Two sets bind the same names of those that occur in a text.  Nothing else of
a set can change what the text is qualified to. -/
def AgreeOn (t : Text) (bound bound' : NameSet) : Prop :=
  ∀ name, name <:+: t → (name ∈ bound ↔ name ∈ bound')

theorem AgreeOn.refl (t : Text) (bound : NameSet) : AgreeOn t bound bound := fun _ _ => Iff.rfl

theorem AgreeOn.mono {t u : Text} {bound bound' : NameSet} (h : AgreeOn t bound bound')
    (hu : u <:+: t) : AgreeOn u bound bound' :=
  fun name hname => h name (hname.trans hu)

theorem AgreeOn.contains_eq {name : Text} {bound bound' : NameSet} (h : AgreeOn name bound bound') :
    bound.contains name = bound'.contains name :=
  decide_eq_decide.2 (h name (List.infix_refl name))

/-- A hole of a template literal is a shorter part of the literal. -/
theorem infix_of_hole_mem {t opening expr closing : Text}
    (h : Piece.hole opening expr closing ∈ Piece.ofTemplateLiteral t) :
    expr <:+: t ∧ expr.length < t.length := by
  -- what is shorter than a text is shorter than the text with a character in front
  have hcons : ∀ {c : Char} {r : Text}, expr <:+: r ∧ expr.length < r.length →
      expr <:+: c :: r ∧ expr.length < (c :: r).length := by
    intro c r hr
    exact ⟨hr.1.trans (List.suffix_cons c r).isInfix, Nat.lt_succ_of_lt hr.2⟩
  induction t using Piece.ofTemplateLiteral.induct with
  | case1 =>
    rw [Piece.ofTemplateLiteral] at h
    cases h
  | case2 c r ih =>
    rw [Piece.ofTemplateLiteral] at h
    simp only [List.mem_cons, reduceCtorEq, false_or] at h
    exact hcons (hcons (ih h))
  | case3 r inner rest hclose hlt ih =>
    rw [ofTemplateLiteral_hole hclose] at h
    obtain rfl : r = inner ++ '}' :: rest := eq_append_of_closing rfl hclose
    -- it is this hole, or one behind it
    rcases List.mem_cons.1 h with h | h
    · cases h
      refine ⟨⟨['$', '{'], '}' :: rest, by simp⟩, ?_⟩
      simp only [List.length_cons, List.length_append]
      omega
    · obtain ⟨hpart, hlength⟩ := ih h
      refine ⟨hpart.trans ⟨'$' :: '{' :: (inner ++ ['}']), [], by simp⟩, ?_⟩
      simp only [List.length_cons, List.length_append]
      omega
  | case4 r hclose ih =>
    rw [ofTemplateLiteral_dollar hclose] at h
    simp only [List.mem_cons, reduceCtorEq, false_or] at h
    exact hcons (ih h)
  | case5 c r hescape hdollar ih =>
    rw [Piece.ofTemplateLiteral.eq_4 c r hescape hdollar] at h
    simp only [List.mem_cons, reduceCtorEq, false_or] at h
    exact hcons (ih h)

/-- Pieces are filled alike by what fills their holes alike. -/
theorem fillPieces_congr {f g : Scanner} {pieces : List Piece}
    (h : ∀ opening expr closing, Piece.hole opening expr closing ∈ pieces → f expr = g expr) :
    fillPieces f pieces = fillPieces g pieces := by
  induction pieces with
  | nil => rfl
  | cons p pieces ih =>
    have hrest := ih fun o e c hm => h o e c (List.mem_cons_of_mem p hm)
    cases p with
    | plain c => rw [fillPieces, fillPieces, hrest]
    | hole o e c => rw [fillPieces, fillPieces, hrest, h o e c List.mem_cons_self]

section Congr

variable {f g : Scanner} {bound bound' : NameSet} {scopes : List ArrowScope} {expr : Text}

/-- A token is qualified alike if its interpolations are and the sets agree on
its text. -/
theorem qualifyToken_congr {t : Token} (hbound : AgreeOn t.text bound bound')
    (h : ∀ e : Text, e <:+: t.text → e.length < t.text.length → f e = g e) (site : Site) :
    qualifyToken f bound scopes site t = qualifyToken g bound' scopes site t := by
  have hverdict : verdict bound scopes site t.text = verdict bound' scopes site t.text := by
    rw [verdict, hbound.contains_eq, verdict]
  unfold qualifyToken
  rw [hverdict]
  split
  · refine fillPieces_congr fun o e c hm => ?_
    obtain ⟨hpart, hlength⟩ := infix_of_hole_mem hm
    exact h e hpart hlength
  · rfl
  · rfl

/-- Tokens are qualified alike if each of them is, for the places and the
brackets are the same. -/
theorem qualifyTokens_congr {ts : List Token} (hbound : ∀ t ∈ ts, AgreeOn t.text bound bound')
    (h : ∀ t ∈ ts, ∀ e : Text, e <:+: t.text → e.length < t.text.length → f e = g e) (i : Nat)
    (last : Option Token) (groups : List TokenKind) :
    qualifyTokens f bound scopes expr i last groups ts =
      qualifyTokens g bound' scopes expr i last groups ts := by
  induction ts generalizing i last groups with
  | nil => rfl
  | cons t ts ih =>
    have htoken : ∀ site, qualifyToken f bound scopes site t = qualifyToken g bound' scopes site t :=
      qualifyToken_congr (hbound t List.mem_cons_self) (h t List.mem_cons_self)
    have hrest := ih (fun u hu => hbound u (List.mem_cons_of_mem t hu))
      fun u hu => h u (List.mem_cons_of_mem t hu)
    rw [qualifyTokens, qualifyTokens]
    simp only [htoken, hrest]

/-- The tokens of a text are parts of it. -/
theorem infix_of_tokenize {text : Text} {ts : List Token} (h : tokenize text = .ok ts) :
    ∀ t ∈ ts, t.text <:+: text := by
  intro t ht
  obtain ⟨pre, post, rfl⟩ := List.append_of_mem ht
  refine ⟨pre.flatMap Token.text, post.flatMap Token.text, ?_⟩
  rw [← flatMap_of_tokenize h, List.flatMap_append, List.flatMap_cons, List.append_assoc]

/-- Behind a step that can fail, only its results count. -/
theorem ofExcept_bind_congr {α β : Type} {r : Except ExprError α} {f g : α → Traced ExprError β}
    (h : ∀ a, r = .ok a → f a = g a) :
    (Traced.ofExcept r >>= f) = (Traced.ofExcept r >>= g) := by
  cases r with
  | error e => rfl
  | ok a =>
    show Traced.bind (Traced.ofExcept (.ok a)) f = Traced.bind (Traced.ofExcept (.ok a)) g
    simp only [Traced.bind, Traced.ofExcept, h a rfl]

theorem infix_body (expr : Text) : (margins expr).2.1 <:+: expr :=
  ⟨(margins expr).1, (margins expr).2.2, margins_append expr⟩

/-- An expression is qualified alike if the shorter texts in it are and the sets
agree on it.  Interpolations are such texts, which is why the recursion over
them ends. -/
theorem qualifyWith_congr (hbound : AgreeOn expr bound bound')
    (h : ∀ e : Text, e <:+: expr → e.length < expr.length → f e = g e) :
    qualifyWith f bound expr = qualifyWith g bound' expr := by
  have hbody := infix_body expr
  unfold qualifyWith
  split
  next before body after hmargins =>
  rw [hmargins] at hbody
  split
  · rfl
  · refine ofExcept_bind_congr fun ts hts => ofExcept_bind_congr fun scopes _ => ?_
    have htoken : ∀ t ∈ ts, t.text <:+: expr := fun t ht =>
      (infix_of_tokenize hts t ht).trans hbody
    rw [qualifyTokens_congr fun t ht => hbound.mono (htoken t ht)]
    intro t ht e he hlength
    exact h e (he.trans (htoken t ht)) (hlength.trans_le (htoken t ht).length_le)

end Congr

/-- Interpolations are qualified like expressions. -/
theorem qualify_eq (bound : NameSet) (expr : Text) :
    qualify bound expr = qualifyWith (qualify bound) bound expr := by
  rw [qualify]
  refine qualifyWith_congr (AgreeOn.refl expr bound) ?_
  intro e _ he
  rw [dif_pos he]

/-- Only the names that occur in an expression decide what it is qualified to. -/
theorem qualify_congr {bound bound' : NameSet} {expr : Text} (h : AgreeOn expr bound bound') :
    qualify bound expr = qualify bound' expr := by
  induction hlength : expr.length using Nat.strong_induction_on generalizing expr with
  | _ _ ih =>
    subst hlength
    rw [qualify_eq, qualify_eq]
    exact qualifyWith_congr h fun e he hshorter => ih e.length hshorter (h.mono he) rfl

/-! ## §2. Margins. -/

/-- Blanks around a text that neither starts nor ends with one are its margins. -/
theorem margins_eq {before body after : Text} (hb : ∀ c ∈ before, isBlank c = true)
    (ha : ∀ c ∈ after, isBlank c = true) (hne : body ≠ [])
    (hhead : ∀ c, body.head? = some c → isBlank c = false)
    (hlast : ∀ c, body.getLast? = some c → isBlank c = false) :
    margins (before ++ (body ++ after)) = (before, body, after) := by
  have hstop : StopsAt isBlank (body ++ after) := by
    obtain ⟨c, r, rfl⟩ := List.exists_cons_of_ne_nil hne
    exact stopsAt_cons (hhead c rfl)
  have hstop' : StopsAt isBlank body.reverse := by
    intro c hc
    exact hlast c (by rwa [List.head?_reverse] at hc)
  have ha' : ∀ c ∈ after.reverse, isBlank c = true := fun c hc => ha c (List.mem_reverse.1 hc)
  simp only [margins, takeWhile_run hb hstop, dropWhile_run hb hstop, List.reverse_append,
    takeWhile_run ha' hstop', dropWhile_run ha' hstop', List.reverse_reverse]

/-- A text that is not blank has its body between blank margins. -/
theorem exists_margins (t : Text) :
    (∀ c ∈ t, isBlank c = true) ∨
    ∃ before body after, t = before ++ (body ++ after) ∧ (∀ c ∈ before, isBlank c = true) ∧
      (∀ c ∈ after, isBlank c = true) ∧ body ≠ [] ∧
      (∀ c, body.head? = some c → isBlank c = false) ∧
      (∀ c, body.getLast? = some c → isBlank c = false) := by
  have hsplit : t.takeWhile isBlank ++ t.dropWhile isBlank = t := List.takeWhile_append_dropWhile
  have hbefore : ∀ c ∈ t.takeWhile isBlank, isBlank c = true := fun c hc => List.mem_takeWhile_imp hc
  cases hinner : t.dropWhile isBlank with
  | nil =>
    refine Or.inl ?_
    rw [hinner, List.append_nil] at hsplit
    rwa [hsplit] at hbefore
  | cons d r =>
    have hd : isBlank d = false := head_dropWhile (t := t) (by rw [hinner]; rfl)
    rw [hinner] at hsplit
    -- the margin behind the body is the one in front of it, read backwards
    have hback : (d :: r).reverse.takeWhile isBlank ++ (d :: r).reverse.dropWhile isBlank =
        (d :: r).reverse := List.takeWhile_append_dropWhile
    have hforth : ((d :: r).reverse.dropWhile isBlank).reverse ++
        ((d :: r).reverse.takeWhile isBlank).reverse = d :: r := by
      rw [← List.reverse_append, hback, List.reverse_reverse]
    have hne : ((d :: r).reverse.dropWhile isBlank).reverse ≠ [] := by
      intro hnil
      rw [hnil, List.nil_append] at hforth
      have hmem : d ∈ ((d :: r).reverse.takeWhile isBlank).reverse := by
        rw [hforth]
        exact List.mem_cons_self
      rw [List.mem_takeWhile_imp (List.mem_reverse.1 hmem)] at hd
      cases hd
    refine Or.inr ⟨t.takeWhile isBlank, ((d :: r).reverse.dropWhile isBlank).reverse,
      ((d :: r).reverse.takeWhile isBlank).reverse, ?_, hbefore, ?_, hne, ?_, ?_⟩
    · rw [hforth, hsplit]
    · intro c hc
      exact List.mem_takeWhile_imp (List.mem_reverse.1 hc)
    · intro c hc
      have hhead : (d :: r).head? = some c := by
        rw [← hforth, List.head?_append, hc]
        rfl
      rw [← Option.some.inj hhead]
      exact hd
    · intro c hc
      rw [List.getLast?_reverse] at hc
      exact head_dropWhile hc

theorem margins_of_blank {t : Text} (h : ∀ c ∈ t, isBlank c = true) : (margins t).2.1 = [] := by
  have hnil : t.dropWhile isBlank = [] := List.dropWhile_eq_nil_iff.2 h
  simp [margins, hnil]

/-! ## §3. Expressions. -/

section

variable {inner : Scanner} {bound : NameSet}

/-- A blank expression stays as it is. -/
theorem qualifyWith_of_blank {expr : Text} (h : ∀ c ∈ expr, isBlank c = true) :
    (qualifyWith inner bound expr).outcome = .ok expr := by
  have hbody := margins_of_blank h
  unfold qualifyWith
  split
  next before body after hmargins =>
  rw [hmargins] at hbody
  simp only at hbody
  rw [hbody]
  rfl

/-- What qualifying an expression comes to; a body without tokens is no
exception. -/
theorem outcome_qualifyWith (expr : Text) :
    (qualifyWith inner bound expr).outcome =
      ((tokenize (trim expr)).bind fun ts => (arrowScopes (trim expr) ts).bind fun scopes =>
        (qualifyTokens inner bound scopes (trim expr) 0 none [] ts).outcome).map
        fun out => (margins expr).1 ++ out ++ (margins expr).2.2 := by
  have hexpr := margins_append expr
  unfold qualifyWith trim
  split
  next before body after hmargins =>
  simp only [hmargins] at hexpr ⊢
  -- a body that is empty has no tokens, and the stages come to the same
  by_cases hbody : body.isEmpty = true
  · obtain rfl : body = [] := List.isEmpty_iff.1 hbody
    rw [if_pos hbody, tokenize_nil, ← hexpr]
    rfl
  · rw [if_neg hbody, Traced.outcome_bind, Traced.outcome_ofExcept]
    cases tokenize body with
    | error e => rfl
    | ok ts =>
      simp only [Except.bind, Traced.outcome_bind, Traced.outcome_ofExcept]
      cases arrowScopes body ts with
      | error e => rfl
      | ok scopes => rfl

/-- The steps by which an expression is qualified, with a body or without. -/
theorem outcome_qualifyWith_iff {expr out : Text} :
    (qualifyWith inner bound expr).outcome = .ok out ↔
      ∃ ts scopes out', tokenize (trim expr) = .ok ts ∧ arrowScopes (trim expr) ts = .ok scopes ∧
        (qualifyTokens inner bound scopes (trim expr) 0 none [] ts).outcome = .ok out' ∧
        out = (margins expr).1 ++ (out' ++ (margins expr).2.2) := by
  rw [outcome_qualifyWith, map_eq_ok_iff]
  constructor
  · rintro ⟨out', h, rfl⟩
    obtain ⟨ts, hts, h⟩ := bind_eq_ok_iff.1 h
    obtain ⟨scopes, hscopes, hout⟩ := bind_eq_ok_iff.1 h
    exact ⟨ts, scopes, out', hts, hscopes, hout, List.append_assoc _ _ _⟩
  · rintro ⟨ts, scopes, out', hts, hscopes, hout, rfl⟩
    refine ⟨out', ?_, List.append_assoc _ _ _⟩
    exact bind_eq_ok_iff.2 ⟨ts, hts, bind_eq_ok_iff.2 ⟨scopes, hscopes, hout⟩⟩

/-- The same for an expression whose margins are known. -/
theorem qualifyWith_eq_ok_iff {expr before body after out : Text}
    (hmargins : margins expr = (before, body, after)) :
    (qualifyWith inner bound expr).outcome = .ok out ↔
      ∃ ts scopes out', tokenize body = .ok ts ∧ arrowScopes body ts = .ok scopes ∧
        (qualifyTokens inner bound scopes body 0 none [] ts).outcome = .ok out' ∧
        out = before ++ (out' ++ after) := by
  rw [outcome_qualifyWith_iff, trim, hmargins]

/-- Behind a barrier and blanks a mark can stand: no word, no clause and no
escape goes on there. -/
theorem open_of_barrier {before blanks : Text} (h : Barrier before)
    (hblanks : ∀ c ∈ blanks, isBlank c = true) (text : Text) :
    Open (blanks.reverse ++ before) text := by
  -- neither character is part of a word or of a clause name, and neither escapes
  have hno : ∀ d, d = '{' ∨ d = '\'' → d ≠ '\\' ∧ d ≠ '@' ∧ isIdentifierPart d = false ∧
      SelectorPart.isClauseNameChar d = false := by
    rintro d (rfl | rfl)
    · decide
    · decide
  have hclause : (before.dropWhile SelectorPart.isClauseNameChar).head? ≠ some '@' := by
    cases before with
    | nil => simp
    | cons d before =>
      have hd := hno d (h d rfl)
      rw [List.dropWhile_cons_of_neg (by rw [hd.2.2.2]; decide)]
      intro hhead
      exact hd.2.1 (Option.some.inj hhead)
  -- without blanks the barrier is next to the text, and else a blank is
  by_cases hnil : blanks = []
  · subst hnil
    cases before with
    | nil => exact ⟨by simp, by simp, Or.inl (by simp)⟩
    | cons d before =>
      have hd := hno d (h d rfl)
      refine ⟨fun hhead => hd.1 (Option.some.inj hhead), hclause, Or.inl ?_⟩
      show ∀ c ∈ (d :: before).takeWhile isIdentifierPart, _
      rw [List.takeWhile_cons_of_neg (by rw [hd.2.2.1]; decide)]
      intro c hc
      cases hc
  · refine open_append hnil (not_mem_of_all hblanks (by decide))
      (not_mem_of_all hblanks (by decide)) hclause (Or.inl (digits_append hnil ?_ before))
    intro c hc
    exact isIdentifierPart_of_isBlank (hblanks c (List.mem_of_getLast? hc))

/-- The later tokens are tokens with marks by themselves, behind a longer text. -/
theorem exists_lexed_suffix {before : Text} {pre ms : List MarkedToken}
    (h : Lexed before (pre ++ ms)) : ∃ before', Lexed before' ms := by
  induction pre generalizing before with
  | nil => exact ⟨before, h⟩
  | cons m pre ih =>
    cases h with
    | cons _ _ _ _ more => exact ih more

/-- Marks are made in tokens that are spelled as their kinds demand. -/
theorem spelled_of_lexed {before : Text} {ms : List MarkedToken} (h : Lexed before ms) :
    ∀ t ∈ ms.map token, t.Spelled := by
  induction h with
  | nil _ =>
    intro t ht
    cases ht
  | cons read reread valid unmarked more ih =>
    rw [List.map_cons]
    exact List.forall_mem_cons.2 ⟨read.spelled, ih⟩

/-- What is marked as a shorthand property is not followed by an arrow. -/
theorem propertiesEnd_of_lexed {before : Text} {ms : List MarkedToken} (h : Lexed before ms) :
    PropertiesEnd ms := by
  rintro pre m post rfl hproperty u hu
  obtain ⟨before', hlex⟩ := exists_lexed_suffix h
  -- only the third kind of mark is that of a property
  rcases hlex.added_cases with ⟨-, hadded⟩ | ⟨-, -, hadded⟩ | ⟨hstart, hkind, -, hat, -⟩
  · rw [MarkedToken.isProperty, hadded] at hproperty
    cases hproperty
  · rw [MarkedToken.isProperty, hadded] at hproperty
    have hlen := congrArg List.length hproperty
    simp only [List.length_cons, List.length_nil] at hlen
    omega
  cases hlex with
  | cons read reread valid unmarked more =>
    obtain ⟨-, -, htext, hrest⟩ := read.of_symbol hkind
    have hall : ∀ x ∈ m.token.text, isIdentifierPart x = true := by
      rw [htext]
      exact List.forall_mem_cons.2
        ⟨isIdentifierPart_of_isIdentifierStart hstart, fun x hx => mem_word hx⟩
    have hstop : StopsAt isIdentifierPart (textOf post) := by
      rw [hrest]
      exact fun c hc => head_dropWhile hc
    -- behind a shorthand property stands a comma or a brace, and an arrow starts with
    -- neither
    have hcloses := hat.closes
    rw [pastWord, dropWhile_run hall hstop] at hcloses
    cases harrow : u.token.isArrow with
    | false => rfl
    | true =>
      have hfind : (post.map token).find? (fun t => !t.isBlank) = some u.token := by
        rw [List.find?_map]
        exact Option.map_eq_some_iff.2 ⟨u, hu, rfl⟩
      have hhead := head_dropWhile_flatMap (spelled_of_lexed more) hfind []
      rw [List.append_nil, List.flatMap_map, head?_of_isArrow harrow] at hhead
      rcases hcloses '=' hhead with h | h
      · cases h
      · cases h

/-- The body of a marked expression is the marked body. -/
theorem margins_new {before after : Text} {Y : MarkedText} (hb : ∀ c ∈ before, isBlank c = true)
    (ha : ∀ c ∈ after, isBlank c = true) {known more : Text} (hv : Valid more known Y)
    (hne : old Y ≠ []) (hhead : ∀ c, (old Y).head? = some c → isBlank c = false)
    (hlast : ∀ c, (old Y).getLast? = some c → isBlank c = false) :
    margins (before ++ (new Y ++ after)) = (before, new Y, after) ∧ new Y ≠ [] := by
  -- marks only add characters
  have hne' : new Y ≠ [] := by
    intro hnil
    have hle := length_old_le Y
    rw [hnil, List.length_nil] at hle
    exact hne (List.eq_nil_of_length_eq_zero (Nat.le_zero.1 hle))
  refine ⟨margins_eq hb ha hne' ?_ ?_, hne'⟩
  · intro c hc
    cases hblank : isBlank c with
    | false => rfl
    | true =>
      have hstart := isIdentifierStart_eq_false (isIdentifierPart_of_isBlank hblank)
      rw [← hblank]
      exact hhead c ((head?_new hv hstart).1 hc)
  · intro c hc
    -- the last character is one of the text: marks stand in front of characters
    obtain ⟨init, d, hd⟩ := exists_concat hne
    obtain ⟨X, Z, rfl, -, hZ⟩ := MarkedText.exists_append hd
    obtain ⟨ins, W, rfl, hW⟩ := MarkedText.exists_cons hZ
    obtain rfl := eq_nil_of_old hW
    have hnew : new (X ++ [(ins, d)]) = new X ++ ins ++ [d] := by simp
    rw [hnew, List.getLast?_concat] at hc
    apply hlast
    rw [hd, List.getLast?_concat]
    exact hc

/-- At the start there is no last token, and so nothing to tell of it. -/
theorem follows_none (before : Text) : Follows none before := by
  intro t ht
  cases ht

/-- The verdicts on the tokens of a body are marks in it, behind blanks or
not. -/
theorem exists_judged_body {scopes : List ArrowScope} {body out : Text} {ts : List Token}
    (hread : tokenize body = .ok ts)
    (hinner : ∀ e : Text, e.length < body.length → Settles Barrier inner e)
    (hout : (qualifyTokens inner bound scopes body 0 none [] ts).outcome = .ok out) :
    ∃ js, js.map Prod.fst = ts ∧ Judged inner bound scopes 0 none [] js ∧
      old (js.flatMap Prod.snd) = body ∧ new (js.flatMap Prod.snd) = out ∧
      ∀ blanks : Text, (∀ c ∈ blanks, isBlank c = true) → ∀ after before, Barrier before →
        Valid after (blanks.reverse ++ before) (js.flatMap Prod.snd) := by
  -- interpolations are shorter than the body, so they are settled by hypothesis
  have htemplate : ∀ t ∈ ts, t.kind = .templateString →
      Settles (fun _ => True) (fillTemplate inner) t.text := by
    intro t ht _
    apply settles_fillTemplate
    intro e he
    exact hinner e (he.trans_le (infix_of_tokenize hread t ht).length_le)
  obtain ⟨js, hmap, hj, hnew⟩ :=
    exists_judged inner bound scopes (spelled_of_tokenize hread) htemplate hout
  refine ⟨js, hmap, hj, ?_, hnew, ?_⟩
  · rw [hj.old_eq, hmap, flatMap_of_tokenize hread]
  · intro blanks hblanks after before hbarrier
    have hread' : tokenize body = .ok (js.map Prod.fst) := by
      rw [hmap]
      exact hread
    exact hj.valid hread' (open_of_barrier hbarrier hblanks body) (follows_none _) after

/-- Qualifying an expression settles it if its interpolations are settled. -/
theorem settles_qualifyWith {expr : Text}
    (hinner : ∀ e : Text, e.length < expr.length → Settles Barrier inner e) :
    Settles Barrier (qualifyWith inner bound) expr := by
  intro out hout
  rcases exists_margins expr with hblank | ⟨b, body, a, rfl, hb, ha, hne, hhead, hlast⟩
  · -- a blank expression stays as it is
    have hstart : ∀ c ∈ expr, isIdentifierStart c = false := fun c hc =>
      isIdentifierStart_eq_false (isIdentifierPart_of_isBlank (hblank c hc))
    rw [qualifyWith_of_blank hblank] at hout
    cases hout
    refine ⟨plain expr, old_plain expr, new_plain expr, fun _ _ _ => valid_plain _ _ _, ?_⟩
    intro A hcovers hv
    rw [eq_plain_of_valid hv (hcovers.old.trans (old_plain expr)) hstart, new_plain]
    exact qualifyWith_of_blank hblank
  have hmargins := margins_eq hb ha hne hhead hlast
  obtain ⟨ts, scopes, out', hts, hscopes, hout', rfl⟩ := (qualifyWith_eq_ok_iff hmargins).1 hout
  obtain ⟨js, hmap, hj, hold, hnew, hvalid⟩ := exists_judged_body hts
    (fun e he => hinner e (by simp only [List.length_append]; omega)) hout'
  refine ⟨plain b ++ (js.flatMap Prod.snd ++ plain a), ?_, ?_, ?_, ?_⟩
  · rw [old_append, old_append, old_plain, old_plain, hold]
  · rw [new_append, new_append, new_plain, new_plain, hnew]
  · intro after before hbarrier
    refine (valid_append _ _).2 ⟨valid_plain _ _ _, (valid_append _ _).2 ⟨?_, valid_plain _ _ _⟩⟩
    rw [old_plain, old_plain]
    exact hvalid b hb _ before hbarrier
  · intro A hcovers hv
    have hnostart : ∀ s : Text, (∀ c ∈ s, isBlank c = true) →
        ∀ c ∈ s, isIdentifierStart c = false := fun s hs c hc =>
      isIdentifierStart_eq_false (isIdentifierPart_of_isBlank (hs c hc))
    obtain ⟨B, R, rfl, hB, hR⟩ := covers_append hcovers
    obtain ⟨Y, Z, rfl, hY, hZ⟩ := covers_append hR
    obtain ⟨hvB, hvR⟩ := (valid_append B _).1 hv
    obtain ⟨hvY, hvZ⟩ := (valid_append Y Z).1 hvR
    obtain rfl := eq_plain_of_valid hvB (hB.old.trans (old_plain b)) (hnostart b hb)
    obtain rfl := eq_plain_of_valid hvZ (hZ.old.trans (old_plain a)) (hnostart a ha)
    have holdY : old Y = body := hY.old.trans hold
    have hvY' : Valid [] b.reverse Y := by
      have hstop : StopsAt isIdentifierPart (a ++ []) := by
        rw [List.append_nil]
        intro c hc
        exact isIdentifierPart_of_isBlank (ha c (List.mem_of_mem_head? hc))
      rw [old_plain, old_plain] at hvY
      have hnil : Valid ([] ++ (a ++ [])) (b.reverse ++ []) Y := hvY
      exact hnil.of_append (Or.inl hstop)
    -- the tokens of the marked body
    obtain ⟨ms, hlex, hmsmap, rfl⟩ := exists_lexed hvY' (by rw [holdY]; exact hts)
    obtain ⟨scopes', hscopes', htracks⟩ := exists_arrowScopesFrom (new (marksOf ms))
      (show ms = [].reverse ++ ms from rfl) hlex.steady (propertiesEnd_of_lexed hlex)
      (by rw [hmsmap]; exact hscopes)
    have hstay := qualifyTokens_tokensOf (show ms = [].reverse ++ ms from rfl) hlex.steady
      (carries_of_tracks htracks) hlex hj (hmap.trans hmsmap.symm) hY (follows_none _) ⟨rfl, rfl⟩
      (new (marksOf ms))
    obtain ⟨hmargins', hne'⟩ := margins_new hb ha hvY' (by rw [holdY]; exact hne)
      (by rw [holdY]; exact hhead) (by rw [holdY]; exact hlast)
    rw [new_append, new_append, new_plain, new_plain]
    exact (qualifyWith_eq_ok_iff hmargins').2
      ⟨tokensOf ms, scopes', new (marksOf ms), hlex.tokenize_eq, hscopes', hstay, rfl⟩

end

/-- **Qualifying an expression settles it.**  Every later pass over a text that
only has more marks leaves the expression as it is. -/
theorem settles_qualify (bound : NameSet) (expr : Text) : Settles Barrier (qualify bound) expr := by
  have hwith : qualify bound = qualifyWith (qualify bound) bound := funext (qualify_eq bound)
  induction hlength : expr.length using Nat.strong_induction_on generalizing expr with
  | _ n ih =>
    subst hlength
    rw [hwith]
    exact settles_qualifyWith fun e he => ih e.length he e rfl

/-- **Qualifying a dynamic string settles it**, since the expressions in its
holes are settled and its delimiters are found again. -/
theorem settles_qualifyDynamic (bound : NameSet) (text : Text) :
    Settles (fun _ => True) (qualifyDynamic bound) text :=
  settles_fillDynamic (qualify bound) (settles_qualify bound) text

end QwebReceiver.Expr
