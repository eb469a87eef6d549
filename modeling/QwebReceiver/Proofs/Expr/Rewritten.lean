import QwebReceiver.Proofs.Expr.Speculate

/-!
  QwebReceiver.Proofs.Expr.Rewritten — the tokens of a qualified expression.

  A qualified expression is read as the tokens of the expression, each one
  replaced by what qualifying made of it:

    identifier         itself, or `this` `.` and itself, or itself, a colon,
                       a blank, `this` `.` and itself
    template string    one template string with the same plain characters
                       and qualified interpolations
    any other          itself

  So nothing that is inserted runs into a neighbour, cuts it in two or makes
  another kind of token of it.

  Main results:

    * `filled_of_fillTemplate` — the pieces of a filled template literal are
      those of the literal, filled;
    * `exists_rewritten` — the tokens of a qualified expression, with their
      marks;
    * `reread_of_qualify` — the margins and the tokens of the result.
-/

namespace QwebReceiver.Expr

open QwebReceiver.Text MarkedText MarkedToken

/-! ## §1. Pieces of template strings. -/

/-- How a piece of a template string is filled.  Text outside of the holes and
the delimiters are left as they were. -/
def Filled (inner : Scanner) : Piece → Piece → Prop
  | .plain c, q => q = .plain c
  | .hole opening expr closing, q =>
    ∃ filled, q = .hole opening filled closing ∧ (inner expr).outcome = .ok filled

/-- The interpolations of a filled template literal are found where they
were. -/
theorem filled_of_fillTemplate {inner : Scanner} {t out : Text}
    (h : ∀ e : Text, e.length < t.length → Settles Barrier inner e)
    (hout : (fillTemplate inner t).outcome = .ok out) :
    List.Forall₂ (Filled inner) (Piece.ofTemplateLiteral t) (Piece.ofTemplateLiteral out) := by
  induction t using Piece.ofTemplateLiteral.induct generalizing out with
  | case1 =>
    rw [fillTemplate, Piece.ofTemplateLiteral] at hout
    cases hout
    rw [Piece.ofTemplateLiteral]
    exact .nil
  | case2 c r ih =>
    rw [fillTemplate, Piece.ofTemplateLiteral] at hout
    obtain ⟨out₁, hout₁, rfl⟩ := fillPieces_plain_eq_ok hout
    obtain ⟨out₂, hout₂, rfl⟩ := fillPieces_plain_eq_ok hout₁
    rw [Piece.ofTemplateLiteral, Piece.ofTemplateLiteral]
    exact .cons rfl (.cons rfl
      (ih (fun e he => h e (by simp only [List.length_cons]; omega)) hout₂))
  | case3 r expr rest hclose hlt ih =>
    rw [fillTemplate, ofTemplateLiteral_hole hclose] at hout
    obtain ⟨filled, out₁, hfilled, hout₁, rfl⟩ := fillPieces_hole_eq_ok hout
    have hlength := length_of_closing hclose
    obtain rfl : r = expr ++ '}' :: rest := eq_append_of_closing rfl hclose
    have hexpr : Settles Barrier inner expr := h expr (by simp only [List.length_cons]; omega)
    have hclose' := closingBrace_filled hexpr hfilled hclose out₁
    have happend : ['$', '{'] ++ filled ++ ['}'] ++ out₁ =
        '$' :: '{' :: (filled ++ '}' :: out₁) := by
      simp
    rw [happend, ofTemplateLiteral_hole hclose, ofTemplateLiteral_hole hclose']
    exact .cons ⟨filled, rfl, hfilled⟩
      (ih (fun e he => h e (by simp only [List.length_cons]; omega)) hout₁)
  | case4 r hclose ih =>
    rw [fillTemplate, ofTemplateLiteral_dollar hclose] at hout
    obtain ⟨out₁, hout₁, rfl⟩ := fillPieces_plain_eq_ok hout
    have h' : ∀ e : Text, e.length < ('{' :: r).length → Settles Barrier inner e := by
      intro e he
      exact h e (Nat.lt_succ_of_lt he)
    obtain ⟨A, hA⟩ := settles_fillTemplate inner h' out₁ hout₁
    -- nothing that was filled in behind it closes the brace
    obtain ⟨X, rfl, rfl, hX⟩ := hA.exists_behind_brace
    have hclose' := closingBrace_new_none hX hclose
    rw [ofTemplateLiteral_dollar hclose, ofTemplateLiteral_dollar hclose']
    exact .cons rfl (ih h' hout₁)
  | case5 c r hescape hdollar ih =>
    rw [fillTemplate, Piece.ofTemplateLiteral.eq_4 c r hescape hdollar] at hout
    obtain ⟨out₁, hout₁, rfl⟩ := fillPieces_plain_eq_ok hout
    have h' : ∀ e : Text, e.length < r.length → Settles Barrier inner e := by
      intro e he
      exact h e (Nat.lt_succ_of_lt he)
    obtain ⟨A, hA⟩ := settles_fillTemplate inner h' out₁ hout₁
    have hrest := ih h' hout₁
    obtain rfl := hA.old_eq
    obtain rfl := hA.new_eq
    rw [Piece.ofTemplateLiteral.eq_4 c _ hescape hdollar,
      ofTemplateLiteral_cons_new (hA.valid [] [] trivial) hescape hdollar]
    exact .cons rfl hrest

/-! ## §2. Tokens. -/

/-- The tokens of an identifier under a verdict.  A shorthand property is
written out, with its key first. -/
def Verdict.tokens (t : Token) : Verdict → List Token
  | .keep => [t]
  | .member => [receiverToken, pointToken, t]
  | .property => [t, colonToken, spaceToken, receiverToken, pointToken, t]

/-- The tokens with their sites are the tokens. -/
theorem map_snd_of_sited {i : Nat} {last : Option Token} {groups : List TokenKind}
    {ts : List Token} {xs : List (Site × Token)} (h : sited i last groups ts = some xs) :
    xs.map Prod.snd = ts := by
  induction ts generalizing i last groups xs with
  | nil =>
    cases h
    rfl
  | cons t ts ih =>
    rw [sited] at h
    split at h
    · obtain ⟨ys, hys, rfl⟩ := Option.map_eq_some_iff.1 h
      exact congrArg (t :: ·) (ih hys)
    · obtain ⟨groups', -, hmap⟩ := Option.bind_eq_some_iff.1 h
      obtain ⟨ys, hys, rfl⟩ := Option.map_eq_some_iff.1 hmap
      exact congrArg (t :: ·) (ih hys)

section

variable (inner : Scanner) (bound : NameSet) (scopes : List ArrowScope)

/-- What becomes of the token at a site.  Identifiers have their verdict,
template strings their filled holes, and everything else stays. -/
inductive Rewritten (site : Site) (t : Token) : List Token → Prop where
  | symbol (hkind : t.kind = .symbol) :
      Rewritten site t ((verdict bound scopes site t.text).tokens t)
  | template {u : Token} (hkind : t.kind = .templateString) (hsame : u.kind = .templateString)
      (hfilled : List.Forall₂ (Filled inner) (Piece.ofTemplateLiteral t.text)
        (Piece.ofTemplateLiteral u.text)) : Rewritten site t [u]
  | other (htemplate : t.kind ≠ .templateString) (hsymbol : t.kind ≠ .symbol) :
      Rewritten site t [t]

/-- The token with its marks is what became of the token at the site: the same
token, rewritten as its kind asks. -/
structure Became (x : Site × Token) (m : MarkedToken) : Prop where
  same : x.2 = m.token
  rewritten : Rewritten inner bound scopes x.1 x.2 m.tokens

end

/-- The tokens of an identifier with the mark of a verdict. -/
theorem tokens_of_verdict {v : Verdict} {m : MarkedToken} (h : m.marks = v.marks m.token.text) :
    m.tokens = v.tokens m.token := by
  have hmarks : (m.ins, m.first) :: m.rest =
      (v.ins (m.first :: old m.rest), m.first) :: plain (old m.rest) := by
    rw [m.text_eq] at h
    exact h
  obtain ⟨hhead, hrest⟩ := List.cons.inj hmarks
  have hins : m.ins = v.ins m.token.text := by
    rw [m.text_eq]
    exact (Prod.mk.inj hhead).1
  -- the mark is in front, so the token itself has not grown
  have hgrown : m.grown = m.token := by
    show (⟨m.token.kind, m.first :: new m.rest⟩ : Token) = m.token
    rw [hrest, new_plain, ← m.text_eq]
  rw [tokens, added, hins, hgrown]
  cases v with
  | keep => rfl
  | member => rfl
  | property =>
    -- the two marks are told apart by the colon
    have hne : Verdict.property.ins m.token.text ≠ receiverMark := by
      intro heq
      have hcolon : ':' ∈ receiverMark := by
        rw [← heq]
        simp [Verdict.ins]
      exact absurd hcolon (by decide)
    rw [if_neg (by simp [Verdict.ins]), if_neg hne]
    rfl

theorem MarkedToken.Lexed.tail {before : Text} {m : MarkedToken} {ms : List MarkedToken}
    (h : Lexed before (m :: ms)) : Lexed (m.token.text.reverse ++ before) ms := by
  cases h with
  | cons _ _ _ _ more => exact more

/-- The marks of all tokens are marks. -/
theorem MarkedToken.Lexed.valid {before : Text} {ms : List MarkedToken} (h : Lexed before ms) :
    Valid [] before (marksOf ms) := by
  induction h with
  | nil before => trivial
  | @cons before m ms read reread valid unmarked more ih =>
    refine (valid_append m.marks (marksOf ms)).2 ⟨?_, ?_⟩
    · rw [old_marksOf, List.append_nil]
      exact valid
    · rw [old_marks]
      exact ih

/-- Marks of a token are told from those of the tokens behind it. -/
theorem append_marks_inj {m : MarkedToken} {ms : List MarkedToken} {A B : MarkedText}
    (h : A ++ B = marksOf (m :: ms)) (hold : old A = m.token.text) :
    A = m.marks ∧ B = marksOf ms := by
  have hlen : A.length = m.marks.length := by
    have holds := congrArg List.length (hold.trans (old_marks m).symm)
    rwa [old, old, List.length_map, List.length_map] at holds
  exact List.append_inj h hlen

/-- Nothing is inserted in front of a template string. -/
theorem added_of_template {m : MarkedToken} (h : m.Steady) (hkind : m.token.kind = .templateString) :
    m.added = [] :=
  h.added_of_kind (by rw [hkind]; decide) (by rw [hkind]; decide)

section

variable {inner : Scanner} {bound : NameSet} {scopes : List ArrowScope}

/-- The marks of a token are read as what became of it. -/
theorem rewritten_of_marking {site : Site} {before : Text} {m : MarkedToken} {ms : List MarkedToken}
    (h : Marking inner bound scopes site m.token m.marks) (hlex : Lexed before (m :: ms))
    (hinner : ∀ e : Text, e.length < m.token.text.length → Settles Barrier inner e) :
    Rewritten inner bound scopes site m.token m.tokens := by
  generalize hA : m.marks = A at h
  cases h with
  | symbol hkind =>
    rw [tokens_of_verdict hA]
    exact .symbol hkind
  | @template out _ hkind hout hsettled =>
    have hadded := added_of_template hlex.steady_head hkind
    -- so its marks are inside it, and the literal with them is the filled one
    have hins := hlex.ins_of_added hadded
    have htext : out = m.grown.text := by
      rw [← hsettled.new_eq, ← hA, marks, new_cons, hins]
      rfl
    rw [tokens, hadded, List.nil_append]
    rw [htext] at hout
    exact .template hkind (show m.grown.kind = _ from hkind) (filled_of_fillTemplate hinner hout)
  | other htemplate hsymbol =>
    have hkeep : m.tokens = [m.token] := tokens_of_verdict (v := .keep) (by
      rw [hA, m.text_eq]
      rfl)
    rw [hkeep]
    exact .other htemplate hsymbol

/-- The tokens with the marks of their verdicts are what became of them. -/
theorem rewritten_of_judged {i : Nat} {last : Option Token} {groups : List TokenKind}
    {js : List (Token × MarkedText)} (h : Judged inner bound scopes i last groups js)
    {before : Text} {ms : List MarkedToken} (hlex : Lexed before ms)
    (hmap : js.map Prod.fst = ms.map token) (hmarks : js.flatMap Prod.snd = marksOf ms)
    (hinner : ∀ m ∈ ms, ∀ e : Text, e.length < m.token.text.length → Settles Barrier inner e) :
    ∃ xs, sited i last groups (ms.map token) = some xs ∧
      List.Forall₂ (Became inner bound scopes) xs ms := by
  -- the marks of the whole text are split where the tokens of the text end
  induction h generalizing before ms with
  | nil i last groups =>
    obtain rfl := List.map_eq_nil_iff.1 hmap.symm
    exact ⟨[], rfl, .nil⟩
  | @blank i last groups t js hblank more ih =>
    cases ms with
    | nil => cases hmap
    | cons m ms =>
      obtain ⟨rfl, hmap'⟩ := List.cons.inj hmap
      obtain ⟨hhead, hrest⟩ := append_marks_inj hmarks (old_plain _)
      obtain ⟨xs, hxs, hall⟩ := ih hlex.tail hmap' hrest
        fun u hu => hinner u (List.mem_cons_of_mem m hu)
      have hkind := kind_of_isBlank hblank
      have hother : Marking inner bound scopes
          ⟨i, last, (ms.map token).find? fun u => !u.isBlank, groups.head?⟩ m.token m.marks := by
        rw [← hhead]
        exact .other (by rw [hkind]; decide) (by rw [hkind]; decide)
      refine ⟨(_, m.token) :: xs, ?_, .cons ⟨rfl, rewritten_of_marking hother hlex
        (hinner m List.mem_cons_self)⟩ hall⟩
      rw [List.map_cons, sited, if_pos hblank, hxs]
      rfl
  | @token i last groups groups' t A₁ js hblank marking hgroups more ih =>
    cases ms with
    | nil => cases hmap
    | cons m ms =>
      obtain ⟨rfl, hmap'⟩ := List.cons.inj hmap
      obtain ⟨rfl, hrest⟩ := append_marks_inj hmarks marking.old_eq
      obtain ⟨xs, hxs, hall⟩ := ih hlex.tail hmap' hrest
        fun u hu => hinner u (List.mem_cons_of_mem m hu)
      rw [hmap'] at marking
      refine ⟨(_, m.token) :: xs, ?_, .cons ⟨rfl, rewritten_of_marking marking hlex
        (hinner m List.mem_cons_self)⟩ hall⟩
      rw [List.map_cons, sited, if_neg (by rw [hblank]; decide), hgroups, Option.bind_some, hxs]
      rfl

/-- The tokens of a qualified body, with their marks. -/
theorem exists_rewritten_body {before body out : Text} {ts : List Token}
    (hbefore : ∀ c ∈ before, isBlank c = true) (hread : tokenize body = .ok ts)
    (hinner : ∀ e : Text, e.length < body.length → Settles Barrier inner e)
    (hout : (qualifyTokens inner bound scopes body 0 none [] ts).outcome = .ok out) :
    ∃ ms xs, Lexed before.reverse ms ∧ ms.map token = ts ∧ new (marksOf ms) = out ∧
      sited 0 none [] ts = some xs ∧
      List.Forall₂ (Became inner bound scopes) xs ms := by
  obtain ⟨js, hmap, hjudged, hold, hnew, hbehind⟩ := exists_judged_body hread hinner hout
  -- the marks are valid behind the margin, which is blank
  have hvalid : Valid [] before.reverse (js.flatMap Prod.snd) := by
    have hall := hbehind before hbefore [] [] barrier_nil
    rwa [List.append_nil] at hall
  obtain ⟨ms, hlex, hmsmap, hmarks⟩ := exists_lexed hvalid (by rw [hold]; exact hread)
  have hpart : ∀ m ∈ ms, ∀ e : Text, e.length < m.token.text.length → Settles Barrier inner e := by
    intro m hm e he
    have hmem : m.token ∈ ts := by
      rw [← hmsmap]
      exact List.mem_map_of_mem hm
    exact hinner e (he.trans_le (infix_of_tokenize hread m.token hmem).length_le)
  obtain ⟨xs, hxs, hall⟩ :=
    rewritten_of_judged hjudged hlex (hmap.trans hmsmap.symm) hmarks.symm hpart
  rw [hmsmap] at hxs
  exact ⟨ms, xs, hlex, hmsmap, by rw [hmarks, hnew], hxs, hall⟩

end

/-! ## §3. Expressions. -/

/-- A qualified expression has the margins of the expression, and between them
the text of its tokens with their marks. -/
theorem exists_rewritten {bound : NameSet} {expr out : Text}
    (h : (qualify bound expr).outcome = .ok out) :
    ∃ scopes ms xs, tokenize (trim expr) = .ok (ms.map token) ∧
      arrowScopes (trim expr) (ms.map token) = .ok scopes ∧
      Lexed (margins expr).1.reverse ms ∧ sited 0 none [] (ms.map token) = some xs ∧
      List.Forall₂ (Became (qualify bound) bound scopes) xs ms ∧
      margins out = ((margins expr).1, new (marksOf ms), (margins expr).2.2) := by
  rw [qualify_eq] at h
  obtain ⟨ts, scopes, out', hread, hscopes, hout', rfl⟩ := outcome_qualifyWith_iff.1 h
  have hbefore : ∀ c ∈ (margins expr).1, isBlank c = true := by
    intro c hc
    exact List.mem_takeWhile_imp hc
  obtain ⟨ms, xs, hlex, rfl, rfl, hxs, hall⟩ := exists_rewritten_body hbefore hread
    (fun e _ => settles_qualify bound e) hout'
  refine ⟨scopes, ms, xs, hread, hscopes, hlex, hxs, hall, ?_⟩
  -- the tokens with their marks make up the body
  have hold : old (marksOf ms) = trim expr := by
    rw [old_marksOf, ← flatMap_of_tokenize hread, List.flatMap_map]
    rfl
  have hvalid : Valid [] (margins expr).1.reverse (marksOf ms) := hlex.valid
  rcases exists_margins expr with hblank | ⟨b, body, a, rfl, hb, ha, hne, hhead, hlast⟩
  · -- a blank expression has no tokens
    have hbody : trim expr = [] := margins_of_blank hblank
    have hnil : marksOf ms = [] := eq_nil_of_old (hold.trans hbody)
    have hexpr := margins_append expr
    rw [show (margins expr).2.1 = [] from hbody, List.append_nil] at hexpr
    rw [hnil, new_nil, List.nil_append, hexpr]
    show margins expr = ((margins expr).1, [], (margins expr).2.2)
    rw [← hbody]
    rfl
  · have hmargins := margins_eq hb ha hne hhead hlast
    rw [trim, hmargins] at hold
    rw [hmargins] at hvalid ⊢
    exact (margins_new hb ha hvalid (by rw [hold]; exact hne) (by rw [hold]; exact hhead)
      (by rw [hold]; exact hlast)).1

/-- The tokens of the marked text, token by token. -/
theorem tokensOf_eq_flatten {inner : Scanner} {bound : NameSet} {scopes : List ArrowScope}
    {xs : List (Site × Token)} {ms : List MarkedToken}
    (h : List.Forall₂ (Became inner bound scopes) xs ms) :
    ∃ uss, List.Forall₂ (fun x us => Rewritten inner bound scopes x.1 x.2 us) xs uss ∧
      tokensOf ms = uss.flatten := by
  induction h with
  | nil => exact ⟨[], .nil, rfl⟩
  | @cons x m xs ms hx _ ih =>
    obtain ⟨uss, hall, htokens⟩ := ih
    refine ⟨m.tokens :: uss, .cons hx.rewritten hall, ?_⟩
    rw [tokensOf_cons, htokens, List.flatten_cons]

/-- How the second text is read if the first one was qualified to it: between
the same margins, token by token as what became of the tokens of the first. -/
structure Reread (bound : NameSet) (expr out : Text) : Prop where
  leading : (margins out).1 = (margins expr).1
  trailing : (margins out).2.2 = (margins expr).2.2
  tokens : ∃ ts scopes xs uss, tokenize (trim expr) = .ok ts ∧
    arrowScopes (trim expr) ts = .ok scopes ∧
    sited 0 none [] ts = some xs ∧ xs.map Prod.snd = ts ∧
    List.Forall₂ (fun x us => Rewritten (qualify bound) bound scopes x.1 x.2 us) xs uss ∧
    tokenize (trim out) = .ok uss.flatten

/-- **A qualified expression keeps its margins, and is read as what became of
each token.** -/
theorem reread_of_qualify {bound : NameSet} {expr out : Text}
    (h : (qualify bound expr).outcome = .ok out) : Reread bound expr out := by
  obtain ⟨scopes, ms, xs, hread, hscopes, hlex, hxs, hall, hmargins⟩ := exists_rewritten h
  obtain ⟨uss, huss, htokens⟩ := tokensOf_eq_flatten hall
  have htrim : trim out = new (marksOf ms) := by rw [trim, hmargins]
  have hretoken : tokenize (trim out) = .ok uss.flatten := by
    rw [htrim, ← htokens]
    exact hlex.tokenize_eq
  exact ⟨by rw [hmargins], by rw [hmargins],
    ⟨ms.map token, scopes, xs, uss, hread, hscopes, hxs, map_snd_of_sited hxs, huss, hretoken⟩⟩

/-- A number, a keyword and a template string keep their neighbours apart. -/
theorem reread_of_qualify_sample :
    (qualify ∅ "\t[1.x, typeof y, {z}, `a${ b }`] ".toList).outcome =
        .ok "\t[1.x, typeof this.y, {z: this.z}, `a${ this.b }`] ".toList ∧
      Reread ∅ "\t[1.x, typeof y, {z}, `a${ b }`] ".toList
        "\t[1.x, typeof this.y, {z: this.z}, `a${ this.b }`] ".toList := by
  have h : (qualify ∅ "\t[1.x, typeof y, {z}, `a${ b }`] ".toList).outcome =
      .ok "\t[1.x, typeof this.y, {z: this.z}, `a${ this.b }`] ".toList := by
    decide +kernel
  exact ⟨h, reread_of_qualify h⟩

end QwebReceiver.Expr
