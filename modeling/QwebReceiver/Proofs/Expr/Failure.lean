import QwebReceiver.Proofs.Expr.Qualify

/-!
  QwebReceiver.Proofs.Expr.Failure — which expressions cannot be qualified.

  What is wrong with an expression is a matter of its tokens alone:

    first    the text is read to its end
    second   every `) =>` has a `(` that matches, counting parentheses only
    third    no prefix of the tokens closes more brackets than it opens,
             counting all kinds together, and every interpolation on the way
             is in order itself

  An expression in order is `WellFormed`; what is reported of any other is its
  `FirstFault`.  Neither mentions the bound names.

  Main results:

    * `exists_outcome_of_wellFormed` — an expression in order is qualified;
    * `outcome_of_firstFault` — any other is reported with its first fault;
    * `qualify_outcome` — the two outcomes, as equivalences.
-/

namespace QwebReceiver.Expr

open QwebReceiver.Text

/-! ## §1. Expressions in order. -/

/-- How many of the tokens are of a kind.  The failures of an expression are
told by these counts. -/
def number (p : TokenKind → Bool) (ts : List Token) : Nat := ts.countP fun t => p t.kind

/-- The kind of an opening parenthesis. -/
def isLeftParen (k : TokenKind) : Bool := k = .leftParen

/-- The kind of a closing parenthesis. -/
def isRightParen (k : TokenKind) : Bool := k = .rightParen

/-- No prefix of the tokens has more of the one kind than of the other: nothing
is closed before it is opened. -/
def Covered (more less : TokenKind → Bool) (ts : List Token) : Prop :=
  ∀ k, number less (ts.take k) ≤ number more (ts.take k)

/-- The parentheses among the tokens match each other: none is closed too early,
and none is left open at the end. -/
structure Paired (ts : List Token) : Prop where
  covered : Covered isLeftParen isRightParen ts
  total : number isLeftParen ts = number isRightParen ts

/-- A closing parenthesis behind these tokens has an opening one among them
that matches. -/
def HasPartner (before : List Token) : Prop :=
  ∃ outer t inner, before = outer ++ t :: inner ∧ t.kind = .leftParen ∧ Paired inner

/-- If the last token that is not blank is a closing parenthesis, it has a
partner. -/
def ParametersOpen (before : List Token) : Prop :=
  ∀ outer p blanks, before = outer ++ p :: blanks → p.kind = .rightParen →
    (∀ b ∈ blanks, b.isBlank = true) → HasPartner outer

/-- Every arrow behind a closing parenthesis has its parameters in front, that
is, the parenthesis that opens them. -/
def ArrowsMatched (ts : List Token) : Prop :=
  ∀ before t after, ts = before ++ t :: after → t.isArrow = true → ParametersOpen before

/-- No bracket is closed that is not open, whatever its kind.  Brackets of
different kinds may close each other, since only their number is watched. -/
def BracketsCovered (ts : List Token) : Prop :=
  Covered TokenKind.isOpening TokenKind.isClosing ts

/-- The expressions embedded in pieces, in order.  They are compiled in this
order, so the first that fails gives the error of the whole. -/
def embedded : List Piece → List Text
  | [] => []
  | .plain _ :: rest => embedded rest
  | .hole _ expr _ :: rest => expr :: embedded rest

/-- The interpolations of a token: those of a template string.  Every other
token, strings included, has none. -/
def Token.interpolations (t : Token) : List Text :=
  if t.kind = .templateString then embedded (Piece.ofTemplateLiteral t.text) else []

/-- The expression is blank, or its tokens and their interpolations are in
order. -/
inductive WellFormed : Text → Prop where
  | blank {expr : Text} (h : ∀ c ∈ expr, isBlank c = true) : WellFormed expr
  | body {expr : Text} {ts : List Token} (read : tokenize (trim expr) = .ok ts)
      (arrows : ArrowsMatched ts) (brackets : BracketsCovered ts)
      (inner : ∀ e ∈ ts.flatMap Token.interpolations, WellFormed e) : WellFormed expr

/-- What is reported of an expression: that it cannot be read, else that an
arrow has no parameters, else the first token that closes a bracket too many
or has an interpolation that is not in order. -/
inductive FirstFault : Text → ExprError → Prop where
  | unread {expr : Text} {e : ExprError} (h : tokenize (trim expr) = .error e) :
      FirstFault expr e
  | arrow {expr : Text} {ts : List Token} (read : tokenize (trim expr) = .ok ts)
      (h : ¬ ArrowsMatched ts) : FirstFault expr (.unmatchedArrow (trim expr))
  | bracket {expr : Text} {pre post : List Token} {t : Token} {c : Char}
      (read : tokenize (trim expr) = .ok (pre ++ t :: post))
      (arrows : ArrowsMatched (pre ++ t :: post)) (brackets : BracketsCovered pre)
      (inner : ∀ e ∈ pre.flatMap Token.interpolations, WellFormed e)
      (h : ¬ BracketsCovered (pre ++ [t])) (found : t.text = [c]) :
      FirstFault expr (.unbalancedGroup c (trim expr))
  | interpolation {expr inner : Text} {pre post : List Token} {t : Token}
      {earlier later : List Text} {e : ExprError}
      (read : tokenize (trim expr) = .ok (pre ++ t :: post))
      (arrows : ArrowsMatched (pre ++ t :: post)) (brackets : BracketsCovered pre)
      (split : t.interpolations = earlier ++ inner :: later)
      (before : ∀ e ∈ pre.flatMap Token.interpolations ++ earlier, WellFormed e)
      (h : FirstFault inner e) : FirstFault expr e

/-! ## §2. Parentheses. -/

theorem number_append (p : TokenKind → Bool) (s t : List Token) :
    number p (s ++ t) = number p s + number p t := List.countP_append

theorem number_cons (p : TokenKind → Bool) (t : Token) (ts : List Token) :
    number p (t :: ts) = number p ts + if p t.kind then 1 else 0 := List.countP_cons

theorem number_reverse (p : TokenKind → Bool) (ts : List Token) :
    number p ts.reverse = number p ts := List.countP_reverse

theorem number_take_add_drop (p : TokenKind → Bool) (k : Nat) (ts : List Token) :
    number p (ts.take k) + number p (ts.drop k) = number p ts := by
  rw [← number_append, List.take_append_drop]

/-- The way back from `depth` open pairs: it meets no more opening parentheses
than it may, and at its end they are even. -/
structure WayBack (depth : Nat) (inner : List Token) : Prop where
  within : ∀ k, number isLeftParen (inner.take k) ≤ depth + number isRightParen (inner.take k)
  even : number isLeftParen inner = depth + number isRightParen inner

/-- One step back. -/
theorem wayBack_cons_iff (depth depth' : Nat) {t : Token}
    (h : depth + number isRightParen [t] = depth' + number isLeftParen [t]) (inner : List Token) :
    WayBack depth (t :: inner) ↔ WayBack depth' inner := by
  -- one more token shifts both counts in every initial part
  have hstep : ∀ ts : List Token,
      number isLeftParen (t :: ts) + depth' + number isRightParen ts =
        depth + number isRightParen (t :: ts) + number isLeftParen ts := by
    intro ts
    have hleft := number_append isLeftParen [t] ts
    have hright := number_append isRightParen [t] ts
    rw [List.singleton_append] at hleft hright
    omega
  have hend := hstep inner
  constructor
  · intro hway
    have heven := hway.even
    refine ⟨?_, by omega⟩
    intro k
    have hk := hway.within (k + 1)
    have hnext := hstep (inner.take k)
    rw [List.take_succ_cons] at hk
    omega
  · intro hway
    have heven := hway.even
    refine ⟨?_, by omega⟩
    intro k
    cases k with
    | zero => exact Nat.zero_le _
    | succ k =>
      have hk := hway.within k
      have hnext := hstep (inner.take k)
      rw [List.take_succ_cons]
      omega

/-- At the end of the way back no pair is open. -/
theorem wayBack_nil_iff {depth : Nat} : WayBack depth [] ↔ depth = 0 := by
  constructor
  · intro h
    have heven := h.even
    simp only [number, List.countP_nil] at heven
    omega
  · rintro rfl
    exact ⟨fun k => by simp [number], rfl⟩

/-- A parenthesis at the end of the way back, in front of `t` or at it. -/
theorem exists_wayBack_cons {depth : Nat} {u : Token} {ts : List Token} :
    (∃ inner t outer, u :: ts = inner ++ t :: outer ∧ t.kind = .leftParen ∧ WayBack depth inner) ↔
      (u.kind = .leftParen ∧ depth = 0) ∨
        ∃ inner t outer, ts = inner ++ t :: outer ∧ t.kind = .leftParen ∧
          WayBack depth (u :: inner) := by
  constructor
  · rintro ⟨inner, t, outer, hsplit, hkind, hway⟩
    cases inner with
    | nil =>
      cases hsplit
      exact Or.inl ⟨hkind, wayBack_nil_iff.1 hway⟩
    | cons v inner =>
      cases hsplit
      exact Or.inr ⟨inner, t, outer, rfl, hkind, hway⟩
  · rintro (⟨hkind, hdepth⟩ | ⟨inner, t, outer, rfl, hkind, hway⟩)
    · exact ⟨[], u, ts, rfl, hkind, wayBack_nil_iff.2 hdepth⟩
    · exact ⟨u :: inner, t, outer, rfl, hkind, hway⟩

/-- Walking back finds a parenthesis exactly if there is one. -/
theorem matchingOpen_isSome_iff {depth : Nat} {ts : List Token} :
    (matchingOpen depth ts).isSome = true ↔
      ∃ inner t outer, ts = inner ++ t :: outer ∧ t.kind = .leftParen ∧ WayBack depth inner := by
  -- each kind of token is one step back, from its own depth to the next
  induction ts generalizing depth with
  | nil => simp [matchingOpen]
  | cons u ts ih =>
    rw [MarkedToken.matchingOpen_cons, exists_wayBack_cons]
    by_cases hright : u.kind = .rightParen
    · have hstep := wayBack_cons_iff depth (depth + 1) (t := u)
        (by simp [number, isLeftParen, isRightParen, hright])
      rw [if_pos hright, Option.isSome_map, ih]
      simp [hright, hstep]
    rw [if_neg hright]
    by_cases hleft : u.kind = .leftParen
    · rw [if_pos hleft]
      cases depth with
      | zero => simp [hleft]
      | succ d =>
        have hstep := wayBack_cons_iff (d + 1) d (t := u)
          (by simp [number, isLeftParen, isRightParen, hleft])
        show ((matchingOpen d ts).map _).isSome = true ↔ _
        rw [Option.isSome_map, ih]
        simp [hstep]
    · have hstep := wayBack_cons_iff depth depth (t := u)
        (by simp [number, isLeftParen, isRightParen, hleft, hright])
      rw [if_neg hleft, Option.isSome_map, ih]
      simp [hleft, hstep]

/-- Seen from the other end, the parentheses on the way back match. -/
theorem wayBack_reverse_iff {inner : List Token} : WayBack 0 inner.reverse ↔ Paired inner := by
  have htake : ∀ p k, number p (inner.reverse.take k) =
      number p (inner.drop (inner.length - k)) := by
    intro p k
    rw [List.take_reverse, number_reverse]
  constructor
  · intro h
    have heven := h.even
    simp only [number_reverse] at heven
    refine ⟨?_, by omega⟩
    -- a prefix is what the way back has not yet met
    intro k
    have hleft := number_take_add_drop isLeftParen k inner
    have hright := number_take_add_drop isRightParen k inner
    rcases Nat.le_total inner.length k with hk | hk
    · rw [List.take_of_length_le hk]
      omega
    · have hback := h.within (inner.length - k)
      rw [htake, htake, show inner.length - (inner.length - k) = k by omega] at hback
      omega
  · intro h
    have htotal := h.total
    refine ⟨?_, by simp only [number_reverse]; omega⟩
    intro k
    have hleft := number_take_add_drop isLeftParen (inner.length - k) inner
    have hright := number_take_add_drop isRightParen (inner.length - k) inner
    have hcovered := h.covered (inner.length - k)
    rw [htake, htake]
    omega

/-- A closing parenthesis has a partner exactly where walking back finds one. -/
theorem hasPartner_iff {before : List Token} :
    HasPartner before ↔ (matchingOpen 0 before.reverse).isSome = true := by
  rw [matchingOpen_isSome_iff]
  constructor
  · rintro ⟨outer, t, inner, rfl, hkind, hpaired⟩
    exact ⟨inner.reverse, t, outer.reverse, by simp, hkind, wayBack_reverse_iff.2 hpaired⟩
  · rintro ⟨inner, t, outer, hsplit, hkind, hway⟩
    refine ⟨outer.reverse, t, inner.reverse, ?_, hkind, ?_⟩
    · rw [← List.reverse_reverse before, hsplit]
      simp
    · rw [← wayBack_reverse_iff, List.reverse_reverse]
      exact hway

/-! ## §3. Arrows. -/

/-- The tokens before an arrow open a scope, or none, if a parenthesis there
has its partner. -/
theorem scopeBefore_isOk_iff (expr : Text) (before : List Token) :
    (∃ scope, scopeBefore expr before.reverse = .ok scope) ↔ ParametersOpen before := by
  have hsplit : before = (before.reverse.dropWhile Token.isBlank).reverse ++
      (before.reverse.takeWhile Token.isBlank).reverse := by
    rw [← List.reverse_append, List.takeWhile_append_dropWhile, List.reverse_reverse]
  have hblanks : ∀ b ∈ before.reverse.takeWhile Token.isBlank, b.isBlank = true :=
    fun b hb => List.mem_takeWhile_imp hb
  -- the nearest token is the one the condition is about
  have hnearest : ∀ outer p blanks, before = outer ++ p :: blanks → p.kind = .rightParen →
      (∀ b ∈ blanks, b.isBlank = true) →
      before.reverse.dropWhile Token.isBlank = p :: outer.reverse := by
    rintro outer p blanks rfl hkind hall
    have hp : ¬ p.isBlank = true := by simp [Token.isBlank, hkind]
    rw [List.reverse_append, List.reverse_cons, List.append_assoc, List.dropWhile_append_of_pos,
      List.singleton_append, List.dropWhile_cons_of_neg hp]
    intro b hb
    exact hall b (List.mem_reverse.1 hb)
  unfold scopeBefore
  cases hdrop : before.reverse.dropWhile Token.isBlank with
  | nil =>
    refine iff_of_true ⟨none, rfl⟩ ?_
    intro outer p blanks hbefore hkind hall
    rw [hnearest outer p blanks hbefore hkind hall] at hdrop
    cases hdrop
  | cons t earlier =>
    simp only
    by_cases hright : t.kind = .rightParen
    · rw [if_pos hright]
      have hpartner : HasPartner earlier.reverse ↔ ParametersOpen before := by
        constructor
        · intro h outer p blanks hbefore hkind hall
          rw [hnearest outer p blanks hbefore hkind hall] at hdrop
          cases hdrop
          rwa [List.reverse_reverse] at h
        · intro h
          refine h earlier.reverse t (before.reverse.takeWhile Token.isBlank).reverse ?_ hright ?_
          · rw [hdrop, List.reverse_cons, List.append_assoc, List.singleton_append] at hsplit
            exact hsplit
          · intro b hb
            exact hblanks b (List.mem_reverse.1 hb)
      rw [← hpartner, hasPartner_iff, List.reverse_reverse]
      cases matchingOpen 0 earlier with
      | none => simp
      | some p => simp
    · rw [if_neg hright]
      refine iff_of_true ?_ ?_
      · split
        · exact ⟨_, rfl⟩
        · exact ⟨none, rfl⟩
      · intro outer p blanks hbefore hkind hall
        rw [hnearest outer p blanks hbefore hkind hall] at hdrop
        cases hdrop
        exact absurd hkind hright

/-- Before an arrow there is one thing to report. -/
theorem scopeBefore_eq_error {expr : Text} {before : List Token} {e : ExprError}
    (h : scopeBefore expr before = .error e) : e = .unmatchedArrow expr := by
  unfold scopeBefore at h
  split at h
  · cases h
  · split at h
    · split at h
      · cases h
        rfl
      · cases h
    · split at h
      · cases h
      · cases h

/-- Scopes are found exactly if every arrow has its parameters in front.  The
tokens already passed are kept in reverse, as the scan does, and the induction
is for all of them. -/
theorem arrowScopesFrom_isOk_iff (expr : Text) (before ts : List Token) :
    (∃ scopes, arrowScopesFrom expr before.reverse ts = .ok scopes) ↔
      ∀ pre t post, ts = pre ++ t :: post → t.isArrow = true → ParametersOpen (before ++ pre) := by
  induction ts generalizing before with
  | nil => simp [arrowScopesFrom]
  | cons u ts ih =>
    have hrest := ih (before ++ [u])
    rw [List.reverse_append, List.reverse_singleton, List.singleton_append] at hrest
    -- the first token, and the others
    have hall : (∀ pre t post, u :: ts = pre ++ t :: post → t.isArrow = true →
          ParametersOpen (before ++ pre)) ↔
        (u.isArrow = true → ParametersOpen before) ∧ ∀ pre t post, ts = pre ++ t :: post →
          t.isArrow = true → ParametersOpen (before ++ [u] ++ pre) := by
      constructor
      · intro h
        refine ⟨fun hu => ?_, ?_⟩
        · have hfirst := h [] u ts rfl hu
          rwa [List.append_nil] at hfirst
        · rintro pre t post rfl ht
          rw [List.append_assoc]
          exact h (u :: pre) t post rfl ht
      · rintro ⟨hfirst, hothers⟩ pre t post hsplit ht
        cases pre with
        | nil =>
          cases hsplit
          rw [List.append_nil]
          exact hfirst ht
        | cons v pre =>
          cases hsplit
          have hpre := hothers pre t post rfl ht
          rwa [List.append_assoc] at hpre
    rw [hall, ← hrest, arrowScopesFrom]
    by_cases harrow : u.isArrow = true
    · rw [if_pos harrow, ← scopeBefore_isOk_iff expr]
      cases scopeBefore expr before.reverse with
      | error e => simp [bind, Except.bind, harrow]
      | ok scope =>
        cases arrowScopesFrom expr (u :: before.reverse) ts with
        | error e => simp [bind, Except.bind]
        | ok scopes => simp [bind, Except.bind, pure, Except.pure]
    · rw [if_neg harrow]
      simp [harrow]

/-- In looking for scopes there is one thing to report. -/
theorem arrowScopesFrom_eq_error {expr : Text} {before ts : List Token} {e : ExprError}
    (h : arrowScopesFrom expr before ts = .error e) : e = .unmatchedArrow expr := by
  induction ts generalizing before with
  | nil => cases h
  | cons t ts ih =>
    rw [arrowScopesFrom] at h
    split at h
    -- either this arrow has no parameters, or a later one has none
    · cases hscope : scopeBefore expr before with
      | error e' =>
        rw [hscope] at h
        cases h
        exact scopeBefore_eq_error hscope
      | ok scope =>
        cases hscopes : arrowScopesFrom expr (t :: before) ts with
        | error e' =>
          rw [hscope, hscopes] at h
          cases h
          exact ih hscopes
        | ok scopes =>
          rw [hscope, hscopes] at h
          cases h
    · exact ih h

/-- The arrows of an expression find their parameters. -/
theorem exists_arrowScopes_iff (expr : Text) (ts : List Token) :
    (∃ scopes, arrowScopes expr ts = .ok scopes) ↔ ArrowsMatched ts :=
  arrowScopesFrom_isOk_iff expr [] ts

/-- An arrow without parameters is reported with the whole expression. -/
theorem arrowScopes_eq_error {expr : Text} {ts : List Token} (h : ¬ ArrowsMatched ts) :
    arrowScopes expr ts = .error (.unmatchedArrow expr) := by
  cases hscopes : arrowScopes expr ts with
  | error e => rw [arrowScopesFrom_eq_error hscopes]
  | ok scopes => exact absurd ((exists_arrowScopes_iff expr ts).1 ⟨scopes, hscopes⟩) h

/-! ## §4. Brackets. -/

theorem isOpening_eq_false {k : TokenKind} (h : k.isClosing = true) : k.isOpening = false := by
  revert h
  cases k <;> decide

/-- Prefixes stay covered with one more token if all of the tokens are. -/
theorem covered_append_singleton {more less : TokenKind → Bool} {pre : List Token} {t : Token}
    (h : Covered more less pre) (hlast : number less (pre ++ [t]) ≤ number more (pre ++ [t])) :
    Covered more less (pre ++ [t]) := by
  intro k
  rcases Nat.lt_or_ge pre.length k with hk | hk
  · rw [List.take_of_length_le (by rw [List.length_append, List.length_singleton]; omega)]
    exact hlast
  · rw [List.take_append_of_le_length hk]
    exact h k

/-- The token that uncovers a bracket closes one, and all others before it
are closed. -/
theorem closing_of_not_covered {pre : List Token} {t : Token} (hcovered : BracketsCovered pre)
    (h : ¬ BracketsCovered (pre ++ [t])) :
    t.kind.isClosing = true ∧
      number TokenKind.isOpening pre ≤ number TokenKind.isClosing pre := by
  have hlast :
      ¬ number TokenKind.isClosing (pre ++ [t]) ≤ number TokenKind.isOpening (pre ++ [t]) :=
    fun hle => h (covered_append_singleton hcovered hle)
  have hpre := hcovered pre.length
  rw [List.take_length] at hpre
  rw [number_append, number_append] at hlast
  -- a token that closes nothing leaves the prefix covered
  have hclosing : t.kind.isClosing = true := by
    by_contra hno
    have hzero : number TokenKind.isClosing [t] = 0 := by simp [number, hno]
    omega
  have hone : number TokenKind.isClosing [t] = 1 := by simp [number, hclosing]
  exact ⟨hclosing, by omega⟩

/-! ## §5. Tokens. -/

section

variable {inner : Scanner} (bound : NameSet) (scopes : List ArrowScope)

/-- The scanner has a result for a text. -/
def Succeeds (inner : Scanner) (e : Text) : Prop := ∃ out, (inner e).outcome = .ok out

/-- Holes that can all be filled are filled. -/
theorem succeeds_fillPieces {pieces : List Piece} (h : ∀ e ∈ embedded pieces, Succeeds inner e) :
    ∃ out, (fillPieces inner pieces).outcome = .ok out := by
  induction pieces with
  | nil => exact ⟨[], rfl⟩
  | cons p pieces ih =>
    cases p with
    | plain c =>
      obtain ⟨out, hout⟩ := ih h
      refine ⟨c :: out, ?_⟩
      rw [fillPieces, Traced.outcome_map, hout]
      rfl
    -- only holes can fail
    | hole o e c =>
      obtain ⟨filled, hfilled⟩ := h e List.mem_cons_self
      obtain ⟨out, hout⟩ := ih fun x hx => h x (List.mem_cons_of_mem e hx)
      refine ⟨o ++ filled ++ c ++ out, ?_⟩
      rw [fillPieces, Traced.outcome_bind, hfilled]
      show ((fillPieces inner pieces).outcome.map _) = _
      rw [hout]
      rfl

/-- The first hole that cannot be filled is reported. -/
theorem fillPieces_eq_error {pieces : List Piece} {earlier later : List Text} {x : Text}
    {e : ExprError} (hsplit : embedded pieces = earlier ++ x :: later)
    (h : ∀ e ∈ earlier, Succeeds inner e) (hx : (inner x).outcome = .error e) :
    (fillPieces inner pieces).outcome = .error e := by
  induction pieces generalizing earlier with
  | nil => simp [embedded] at hsplit
  | cons p pieces ih =>
    cases p with
    | plain c =>
      rw [fillPieces, Traced.outcome_map, ih hsplit h]
      rfl
    | hole o y c =>
      rw [fillPieces, Traced.outcome_bind]
      -- the hole at fault is this one, or it comes later and this one is filled
      cases earlier with
      | nil =>
        cases hsplit
        rw [hx]
        rfl
      | cons y' earlier =>
        obtain ⟨rfl, hrest⟩ := List.cons.inj hsplit
        obtain ⟨filled, hfilled⟩ := h y List.mem_cons_self
        rw [hfilled]
        show ((fillPieces inner pieces).outcome.map _) = _
        rw [ih hrest fun z hz => h z (List.mem_cons_of_mem y hz)]
        rfl

/-- A token is passed if its interpolations can be, wherever it stands. -/
theorem succeeds_qualifyToken {t : Token} (h : ∀ e ∈ t.interpolations, Succeeds inner e)
    (site : Site) : ∃ out, (qualifyToken inner bound scopes site t).outcome = .ok out := by
  unfold qualifyToken
  split
  · next hkind =>
    rw [Token.interpolations, if_pos hkind] at h
    exact succeeds_fillPieces h
  · split
    · exact ⟨_, rfl⟩
    · exact ⟨_, rfl⟩
  · exact ⟨_, rfl⟩

/-- A token whose interpolations are not in order fails with the fault of the
first such interpolation. -/
theorem qualifyToken_eq_error {t : Token} {earlier later : List Text} {x : Text} {e : ExprError}
    (hsplit : t.interpolations = earlier ++ x :: later) (h : ∀ e ∈ earlier, Succeeds inner e)
    (hx : (inner x).outcome = .error e) (site : Site) :
    t.isBlank = false ∧ (qualifyToken inner bound scopes site t).outcome = .error e := by
  have hkind : t.kind = .templateString := by
    by_contra hkind
    rw [Token.interpolations, if_neg hkind] at hsplit
    simp at hsplit
  rw [Token.interpolations, if_pos hkind] at hsplit
  refine ⟨by simp [Token.isBlank, hkind], ?_⟩
  simp only [qualifyToken, hkind]
  exact fillPieces_eq_error hsplit h hx

/-- The number of open brackets changes with the token. -/
theorem exists_groupsAfter {k : TokenKind} {groups : List TokenKind}
    (h : k.isClosing = true → 0 < groups.length) :
    ∃ groups', groupsAfter k groups = some groups' ∧
      groups'.length + (if k.isClosing then 1 else 0) =
        groups.length + if k.isOpening then 1 else 0 := by
  unfold groupsAfter
  -- no kind both opens and closes
  by_cases hopening : k.isOpening = true
  · have hclosing : k.isClosing = false := by
      cases k with
      | leftBrace | leftBracket | leftParen => rfl
      | _ => cases hopening
    rw [if_pos hopening]
    exact ⟨_, rfl, by simp [hopening, hclosing]⟩
  · rw [if_neg hopening]
    by_cases hclosing : k.isClosing = true
    · rw [if_pos hclosing]
      cases groups with
      | nil => exact absurd (h hclosing) (by decide)
      | cons g outer => exact ⟨outer, rfl, by simp [hopening, hclosing]⟩
    · rw [if_neg hclosing]
      exact ⟨groups, rfl, by simp [hopening, hclosing]⟩

/-- The brackets open before are not needed. -/
theorem BracketsCovered.from {ts : List Token} (h : BracketsCovered ts) (groups : List TokenKind)
    (k : Nat) : number TokenKind.isClosing (ts.take k) ≤
      groups.length + number TokenKind.isOpening (ts.take k) :=
  (h k).trans (Nat.le_add_left _ _)

/-- A token that is in order is passed. -/
theorem exists_qualifyTokens_cons (expr : Text) (i : Nat) (last : Option Token)
    {groups next : List TokenKind} {t : Token} (hinner : ∀ e ∈ t.interpolations, Succeeds inner e)
    (hnext : groupsAfter t.kind groups = some next) (rest : List Token) :
    ∃ text, (qualifyTokens inner bound scopes expr i last groups (t :: rest)).outcome =
      (qualifyTokens inner bound scopes expr (i + 1) (if t.isBlank then last else some t) next
        rest).outcome.map (text ++ ·) := by
  cases hblank : t.isBlank with
  | true =>
    have hkind := kind_of_isBlank hblank
    rw [hkind] at hnext
    obtain rfl : groups = next := Option.some.inj hnext
    refine ⟨t.text, ?_⟩
    rw [if_pos rfl]
    exact qualifyTokens_blank _ _ _ hblank expr i last groups rest
  -- the token is passed, and its kind says which brackets are open behind it
  | false =>
    obtain ⟨text, htext⟩ := succeeds_qualifyToken bound scopes hinner
      ⟨i, last, rest.find? fun u => !u.isBlank, groups.head?⟩
    refine ⟨text, ?_⟩
    rw [if_neg (by decide), qualifyTokens, if_neg (by rw [hblank]; decide), Traced.outcome_bind,
      htext]
    simp only [Except.bind, hnext, Traced.outcome_map]

/-- Two texts put in front of a result are one text in front of it. -/
theorem map_append_map (out text : Text) (r : Except ExprError Text) :
    (r.map (out ++ ·)).map (text ++ ·) = r.map (text ++ out ++ ·) := by
  cases r with
  | error e => rfl
  | ok s => exact congrArg Except.ok (List.append_assoc text out s).symm

/-- Tokens that are in order are passed, and leave as many brackets open as
they open and do not close. -/
theorem exists_qualifyTokens_append (expr : Text) (i : Nat) (last : Option Token)
    {groups : List TokenKind} {pre : List Token}
    (hinner : ∀ e ∈ pre.flatMap Token.interpolations, Succeeds inner e)
    (hcovered : ∀ k, number TokenKind.isClosing (pre.take k) ≤
      groups.length + number TokenKind.isOpening (pre.take k)) (rest : List Token) :
    ∃ out i' last' groups',
      groups'.length + number TokenKind.isClosing pre =
        groups.length + number TokenKind.isOpening pre ∧
      (qualifyTokens inner bound scopes expr i last groups (pre ++ rest)).outcome =
        (qualifyTokens inner bound scopes expr i' last' groups' rest).outcome.map (out ++ ·) := by
  induction pre generalizing i last groups with
  | nil =>
    refine ⟨[], i, last, groups, rfl, ?_⟩
    show (qualifyTokens inner bound scopes expr i last groups rest).outcome = _
    cases (qualifyTokens inner bound scopes expr i last groups rest).outcome with
    | error e => rfl
    | ok r => rfl
  | cons t pre ih =>
    rw [List.flatMap_cons] at hinner
    -- the prefix of one token says that a closing bracket has one to close
    have hcloses : t.kind.isClosing = true → 0 < groups.length := by
      intro hclosing
      have hfirst := hcovered 1
      rw [List.take_succ_cons, List.take_zero, number_cons, number_cons, if_pos hclosing,
        isOpening_eq_false hclosing, if_neg (by decide)] at hfirst
      simp only [number, List.countP_nil] at hfirst
      omega
    obtain ⟨next, hnext, hlength⟩ := exists_groupsAfter hcloses
    have hcovered' : ∀ k, number TokenKind.isClosing (pre.take k) ≤
        next.length + number TokenKind.isOpening (pre.take k) := by
      intro k
      have hk := hcovered (k + 1)
      rw [List.take_succ_cons, number_cons, number_cons] at hk
      omega
    obtain ⟨text, htext⟩ := exists_qualifyTokens_cons bound scopes expr i last
      (fun e he => hinner e (List.mem_append_left _ he)) hnext (pre ++ rest)
    obtain ⟨out, i', last', groups', htotal, hrest⟩ :=
      ih (i + 1) (if t.isBlank then last else some t)
        (fun e he => hinner e (List.mem_append_right _ he)) hcovered'
    refine ⟨text ++ out, i', last', groups', ?_, ?_⟩
    · rw [number_cons, number_cons]
      omega
    · rw [List.cons_append, htext, hrest, map_append_map]

theorem isBlank_of_isClosing {t : Token} (h : t.kind.isClosing = true) : t.isBlank = false := by
  revert h
  unfold Token.isBlank
  cases t.kind <;> decide

/-- The first bracket that is closed and not open is reported. -/
theorem qualifyTokens_eq_unbalanced (expr : Text) {pre : List Token} (post : List Token)
    {t : Token} {c : Char}
    (hinner : ∀ e ∈ pre.flatMap Token.interpolations, Succeeds inner e)
    (hcovered : BracketsCovered pre) (h : ¬ BracketsCovered (pre ++ [t])) (hc : t.text = [c]) :
    (qualifyTokens inner bound scopes expr 0 none [] (pre ++ t :: post)).outcome =
      .error (.unbalancedGroup c expr) := by
  obtain ⟨out, i, last, groups, htotal, hout⟩ :=
    exists_qualifyTokens_append bound scopes expr 0 none hinner (hcovered.from []) (t :: post)
  obtain ⟨hclosing, hequal⟩ := closing_of_not_covered hcovered h
  -- nothing is open any more when the bracket comes
  obtain rfl : groups = [] := by
    rw [List.length_nil] at htotal
    exact List.eq_nil_of_length_eq_zero (by omega)
  have hnone : groupsAfter t.kind [] = none := by
    rw [groupsAfter, if_neg (by rw [isOpening_eq_false hclosing]; decide), if_pos hclosing]
  have htoken : ∀ site, qualifyToken inner bound scopes site t = pure t.text := by
    intro site
    refine qualifyToken_of_other inner bound scopes ?_ ?_
    · intro hkind
      rw [hkind] at hclosing
      cases hclosing
    · intro hkind
      rw [hkind] at hclosing
      cases hclosing
  rw [hout, qualifyTokens, if_neg (by rw [isBlank_of_isClosing hclosing]; decide),
    Traced.outcome_bind, htoken]
  simp only [Traced.outcome_pure, Except.bind, hnone, Traced.outcome_fail, hc]
  rfl

/-- The first interpolation that is not in order is reported. -/
theorem qualifyTokens_eq_error (expr : Text) {pre : List Token} (post : List Token) {t : Token}
    {earlier later : List Text} {x : Text} {e : ExprError} (hcovered : BracketsCovered pre)
    (hsplit : t.interpolations = earlier ++ x :: later)
    (h : ∀ y ∈ pre.flatMap Token.interpolations ++ earlier, Succeeds inner y)
    (hx : (inner x).outcome = .error e) :
    (qualifyTokens inner bound scopes expr 0 none [] (pre ++ t :: post)).outcome = .error e := by
  obtain ⟨out, i, last, groups, -, hout⟩ :=
    exists_qualifyTokens_append bound scopes expr 0 none
      (fun y hy => h y (List.mem_append_left _ hy)) (hcovered.from []) (t :: post)
  obtain ⟨hblank, hfail⟩ := qualifyToken_eq_error bound scopes hsplit
    (fun y hy => h y (List.mem_append_right _ hy)) hx
    ⟨i, last, post.find? fun u => !u.isBlank, groups.head?⟩
  rw [hout, qualifyTokens, if_neg (by rw [hblank]; decide), Traced.outcome_bind, hfail]
  rfl

end

/-! ## §6. Expressions. -/

/-- The first member of a list with which a property of the prefixes ends. -/
theorem exists_first_prefix {α : Type} {Q : List α → Prop} (hnil : Q []) {l : List α} (h : ¬ Q l) :
    ∃ pre x post, l = pre ++ x :: post ∧ Q pre ∧ ¬ Q (pre ++ [x]) := by
  -- the induction is on what is left, and the part already passed has the property
  have hscan : ∀ post pre, Q pre → ¬ Q (pre ++ post) →
      ∃ pre' x post', pre ++ post = pre' ++ x :: post' ∧ Q pre' ∧ ¬ Q (pre' ++ [x]) := by
    intro post
    induction post with
    | nil =>
      intro pre hpre hall
      rw [List.append_nil] at hall
      exact absurd hpre hall
    | cons x post ih =>
      intro pre hpre hall
      by_cases hx : Q (pre ++ [x])
      · have hmore := ih (pre ++ [x]) hx
        rw [List.append_assoc] at hmore
        exact hmore hall
      · exact ⟨pre, x, post, rfl, hpre, hx⟩
  exact hscan l [] hnil h

/-- A bracket that closes something is one character. -/
theorem exists_text_of_isClosing {t : Token} (h : t.Spelled) (hclosing : t.kind.isClosing = true) :
    ∃ c, t.text = [c] := by
  -- closing kinds are those of single characters
  cases h with
  | blank _ _ => cases hclosing
  | string hkind _ =>
    rcases hkind with rfl | rfl
    · cases hclosing
    · cases hclosing
  | number _ _ => cases hclosing
  | operator _ => cases hclosing
  | @identifier c w _ _ =>
    have hno : (identifierKind (c :: w)).isClosing = false := by
      unfold identifierKind
      split
      · rfl
      · rfl
    rw [hno] at hclosing
    cases hclosing
  | punctuation _ => exact ⟨_, rfl⟩

/-- An embedded expression stands in a hole between two delimiters. -/
theorem exists_hole_of_embedded {pieces : List Piece} {e : Text} (h : e ∈ embedded pieces) :
    ∃ opening closing, Piece.hole opening e closing ∈ pieces := by
  induction pieces with
  | nil => cases h
  | cons p pieces ih =>
    have hmore : e ∈ embedded pieces →
        ∃ opening closing, Piece.hole opening e closing ∈ p :: pieces := by
      intro hmem
      obtain ⟨o, c, hp⟩ := ih hmem
      exact ⟨o, c, List.mem_cons_of_mem p hp⟩
    cases p with
    | plain c => exact hmore h
    | hole o x c =>
      rcases List.mem_cons.1 h with rfl | h
      · exact ⟨o, c, List.mem_cons_self⟩
      · exact hmore h

/-- An interpolation is shorter than the expression that holds it. -/
theorem length_lt_of_interpolation {expr e : Text} {ts : List Token} {t : Token}
    (hread : tokenize (trim expr) = .ok ts) (ht : t ∈ ts) (he : e ∈ t.interpolations) :
    e.length < expr.length := by
  have hlength := (infix_of_tokenize hread t ht).length_le.trans (infix_body expr).length_le
  unfold Token.interpolations at he
  split at he
  · obtain ⟨o, c, hp⟩ := exists_hole_of_embedded he
    exact (infix_of_hole_mem hp).2.trans_le hlength
  · cases he

/-- **An expression in order is qualified.**  The induction is on its length,
since template strings embed shorter expressions. -/
theorem exists_outcome_of_wellFormed (bound : NameSet) {expr : Text} (h : WellFormed expr) :
    Succeeds (qualify bound) expr := by
  induction h with
  | @blank expr h =>
    refine ⟨expr, ?_⟩
    rw [qualify_eq]
    exact qualifyWith_of_blank h
  | @body expr ts read arrows brackets inner ih =>
    obtain ⟨scopes, hscopes⟩ := (exists_arrowScopes_iff (trim expr) _).2 arrows
    obtain ⟨out, i, last, groups, -, hout⟩ :=
      exists_qualifyTokens_append bound scopes (trim expr) 0 none ih (brackets.from []) []
    rw [List.append_nil] at hout
    refine ⟨(margins expr).1 ++ (out ++ []) ++ (margins expr).2.2, ?_⟩
    rw [qualify_eq, outcome_qualifyWith, read, Except.bind, hscopes, Except.bind, hout]
    rfl

/-- **What is not in order is reported with its first fault**, faults being
ordered as the passes over the expression come to them. -/
theorem outcome_of_firstFault (bound : NameSet) {expr : Text} {e : ExprError}
    (h : FirstFault expr e) : (qualify bound expr).outcome = .error e := by
  -- one stage of qualifying for each fault; an interpolation has its own fault
  induction h with
  | unread h =>
    rw [qualify_eq, outcome_qualifyWith, h]
    rfl
  | @arrow expr ts read h =>
    rw [qualify_eq, outcome_qualifyWith, read, Except.bind, arrowScopes_eq_error h]
    rfl
  | @bracket expr pre post t c read arrows brackets inner h found =>
    obtain ⟨scopes, hscopes⟩ := (exists_arrowScopes_iff (trim expr) _).2 arrows
    have hfail := qualifyTokens_eq_unbalanced bound scopes (trim expr) post
      (fun e he => exists_outcome_of_wellFormed bound (inner e he)) brackets h found
    rw [qualify_eq, outcome_qualifyWith, read, Except.bind, hscopes, Except.bind, hfail]
    rfl
  | @interpolation expr inner pre post t earlier later e read arrows brackets split before _ ih =>
    obtain ⟨scopes, hscopes⟩ := (exists_arrowScopes_iff (trim expr) _).2 arrows
    have hsucceeds : ∀ x ∈ pre.flatMap Token.interpolations ++ earlier,
        Succeeds (qualify bound) x := fun x hx => exists_outcome_of_wellFormed bound (before x hx)
    have hfail := qualifyTokens_eq_error bound scopes (trim expr) post brackets split hsucceeds ih
    rw [qualify_eq, outcome_qualifyWith, read, Except.bind, hscopes, Except.bind, hfail]
    rfl

/-- An expression that is not in order has a first fault. -/
theorem wellFormed_or_firstFault (expr : Text) : WellFormed expr ∨ ∃ e, FirstFault expr e := by
  induction hlength : expr.length using Nat.strong_induction_on generalizing expr with
  | _ n ih =>
    subst hlength
    cases hread : tokenize (trim expr) with
    | error e => exact Or.inr ⟨e, .unread hread⟩
    | ok ts =>
      by_cases harrows : ArrowsMatched ts
      · by_cases hall : BracketsCovered ts ∧ ∀ e ∈ ts.flatMap Token.interpolations, WellFormed e
        · exact Or.inl (.body hread harrows hall.1 hall.2)
        -- the first token that is not in order
        obtain ⟨pre, t, post, rfl, ⟨hcovered, hinner⟩, hnot⟩ := exists_first_prefix
          (Q := fun ts => BracketsCovered ts ∧ ∀ e ∈ ts.flatMap Token.interpolations, WellFormed e)
          ⟨fun k => by simp [number], by simp⟩ hall
        refine Or.inr ?_
        by_cases hnext : BracketsCovered (pre ++ [t])
        · have hsome : ¬ ∀ e ∈ t.interpolations, WellFormed e := by
            intro ht
            refine hnot ⟨hnext, ?_⟩
            rw [List.flatMap_append, List.flatMap_singleton]
            exact List.forall_mem_append.2 ⟨hinner, ht⟩
          obtain ⟨earlier, x, later, hsplit, hearlier, hx⟩ :=
            exists_first_prefix (Q := fun l => ∀ e ∈ l, WellFormed e) (by simp) hsome
          -- its own first fault is that of the expression
          have hshorter : x.length < expr.length :=
            length_lt_of_interpolation (t := t) hread (by simp) (by rw [hsplit]; simp)
          have hfault : ¬ WellFormed x := by
            intro hx'
            exact hx (List.forall_mem_append.2 ⟨hearlier, by simpa using hx'⟩)
          obtain ⟨e, he⟩ := (ih x.length hshorter x rfl).resolve_left hfault
          exact ⟨e, .interpolation hread harrows hcovered hsplit
            (List.forall_mem_append.2 ⟨hinner, hearlier⟩) he⟩
        · have hclosing := (closing_of_not_covered hcovered hnext).1
          obtain ⟨c, hc⟩ :=
            exists_text_of_isClosing (spelled_of_tokenize hread t (by simp)) hclosing
          exact ⟨_, .bracket hread harrows hcovered hinner hnext hc⟩
      · exact Or.inr ⟨_, .arrow hread harrows⟩

/-- Qualifying succeeds exactly on the expressions in order, whatever is
bound. -/
theorem succeeds_qualify_iff (bound : NameSet) {expr : Text} :
    Succeeds (qualify bound) expr ↔ WellFormed expr := by
  constructor
  · rintro ⟨out, hout⟩
    rcases wellFormed_or_firstFault expr with h | ⟨e, he⟩
    · exact h
    · rw [outcome_of_firstFault bound he] at hout
      cases hout
  · exact exists_outcome_of_wellFormed bound

/-- What is reported is the first fault, whatever is bound. -/
theorem qualify_eq_error_iff (bound : NameSet) {expr : Text} {e : ExprError} :
    (qualify bound expr).outcome = .error e ↔ FirstFault expr e := by
  constructor
  · intro herror
    rcases wellFormed_or_firstFault expr with h | ⟨e', he'⟩
    · obtain ⟨out, hout⟩ := exists_outcome_of_wellFormed bound h
      rw [hout] at herror
      cases herror
    · rw [outcome_of_firstFault bound he'] at herror
      cases herror
      exact he'
  · exact outcome_of_firstFault bound

/-- **When qualifying fails, and with what.**  The bound names have no part in
it. -/
theorem qualify_outcome (bound : NameSet) (expr : Text) :
    ((∃ out, (qualify bound expr).outcome = .ok out) ↔ WellFormed expr) ∧
      (∀ e, (qualify bound expr).outcome = .error e ↔ FirstFault expr e) ∧
      ∀ bound', (qualify bound expr).outcome.map (fun _ => ()) =
        (qualify bound' expr).outcome.map fun _ => () := by
  refine ⟨succeeds_qualify_iff bound, fun e => qualify_eq_error_iff bound, ?_⟩
  intro bound'
  rcases wellFormed_or_firstFault expr with h | ⟨e, he⟩
  · obtain ⟨out, hout⟩ := exists_outcome_of_wellFormed bound h
    obtain ⟨out', hout'⟩ := exists_outcome_of_wellFormed bound' h
    rw [hout, hout']
    rfl
  · rw [outcome_of_firstFault bound he, outcome_of_firstFault bound' he]

-- brackets of all kinds count together, and those left open do no harm
example : (qualify ∅ "[(a]".toList).outcome = .ok "[(this.a]".toList := by decide +kernel

end QwebReceiver.Expr
