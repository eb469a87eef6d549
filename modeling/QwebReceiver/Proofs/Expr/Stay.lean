import QwebReceiver.Proofs.Expr.Judge

/-!
  QwebReceiver.Proofs.Expr.Stay — in a marked expression every identifier has
  a reason to stay.

  What pass one marked is a member of `this` now.  What it left alone keeps
  its reason: a parameter stays visible, a member name keeps its period and a
  key its colon.  What others marked is a member of `this`, and the key that a
  shorthand property got has a colon behind it and a brace or a comma before
  it, or stays for the reason for which the property stayed.
-/

namespace QwebReceiver.Expr

open QwebReceiver.Text MarkedText MarkedToken

variable {inner : Scanner} {bound : NameSet} {scopes : List ArrowScope}

/-! ## §1. Tokens that stay. -/

/-- An identifier that is left alone is copied. -/
theorem qualifyToken_of_keep {site : Site} {t : Token} (hkind : t.kind = .symbol)
    (h : verdict bound scopes site t.text = .keep) :
    (qualifyToken inner bound scopes site t).outcome = .ok t.text := by
  rw [outcome_qualifyToken_symbol _ _ _ hkind, h]
  rfl

/-- A token that stays goes in front. -/
theorem qualifyTokens_stay {t : Token} (hblank : t.isBlank = false) {expr : Text} {i : Nat}
    {last : Option Token} {groups groups' : List TokenKind} {rest : List Token} {out : Text}
    (htoken : (qualifyToken inner bound scopes
      ⟨i, last, rest.find? fun u => !u.isBlank, groups.head?⟩ t).outcome = .ok t.text)
    (hgroups : groupsAfter t.kind groups = some groups')
    (hrest : (qualifyTokens inner bound scopes expr (i + 1) (some t) groups' rest).outcome =
      .ok out) :
    (qualifyTokens inner bound scopes expr i last groups (t :: rest)).outcome =
      .ok (t.text ++ out) :=
  (qualifyTokens_token inner bound scopes hblank).2
    ⟨t.text, groups', out, htoken, hgroups, hrest, rfl⟩

/-- A word behind `this.` stays: the receiver is not qualified, and what stands
behind a period is a member. -/
theorem qualifyTokens_member {t : Token} (hkind : t.kind = .symbol ∨ t.kind = .operator)
    {expr : Text} {i : Nat} {last : Option Token} {groups groups' : List TokenKind}
    {rest : List Token} {out : Text} (hgroups : groupsAfter t.kind groups = some groups')
    (hrest : (qualifyTokens inner bound scopes expr (i + 3) (some t) groups' rest).outcome =
      .ok out) :
    (qualifyTokens inner bound scopes expr i last groups
      (receiverToken :: pointToken :: t :: rest)).outcome =
      .ok (receiverMark ++ (t.text ++ out)) := by
  have hblank : t.isBlank = false := by
    apply isBlank_of_kind
    rcases hkind with h | h
    · rw [h]
      decide
    · rw [h]
      decide
  -- from the last token to the first: behind the period the word is a member
  have hword : (qualifyToken inner bound scopes
      ⟨i + 2, some pointToken, rest.find? fun u => !u.isBlank, groups.head?⟩ t).outcome =
      .ok t.text := by
    rcases hkind with h | h
    · exact qualifyToken_of_keep h (verdict_eq_keep_iff.2 (Or.inr (Or.inr (Or.inl rfl))))
    · simp only [qualifyToken, h]
      rfl
  have hlast : (qualifyTokens inner bound scopes expr (i + 2) (some pointToken) groups
      (t :: rest)).outcome = .ok (t.text ++ out) :=
    qualifyTokens_stay hblank hword hgroups hrest
  have hpoint : (qualifyTokens inner bound scopes expr (i + 1) (some receiverToken) groups
      (pointToken :: t :: rest)).outcome = .ok ('.' :: (t.text ++ out)) :=
    qualifyTokens_stay (by decide) rfl rfl hlast
  exact qualifyTokens_stay (t := receiverToken) (by decide)
    (qualifyToken_of_keep rfl (verdict_eq_keep_iff.2 (Or.inl (Or.inl rfl)))) rfl hpoint

/-- A word that got its own key and `this.` in front stays: the key has a colon
behind it, and the word is a member. -/
theorem qualifyTokens_property {t t' : Token} (hkind : t.kind = .symbol) (hkind' : t'.kind = .symbol)
    {expr : Text} {i : Nat} {last : Option Token} {groups : List TokenKind} {rest : List Token}
    {out : Text}
    (hkeep : verdict bound scopes ⟨i, last, some colonToken, groups.head?⟩ t.text = .keep)
    (hrest : (qualifyTokens inner bound scopes expr (i + 6) (some t') groups rest).outcome =
      .ok out) :
    (qualifyTokens inner bound scopes expr i last groups
      (t :: colonToken :: spaceToken :: receiverToken :: pointToken :: t' :: rest)).outcome =
      .ok (t.text ++ (':' :: ' ' :: (receiverMark ++ (t'.text ++ out)))) := by
  have hgroups : groupsAfter t'.kind groups = some groups := by
    rw [hkind']
    rfl
  -- from the last token to the first: behind the key and its colon comes a member
  have hmember : (qualifyTokens inner bound scopes expr (i + 3) (some colonToken) groups
      (receiverToken :: pointToken :: t' :: rest)).outcome = .ok (receiverMark ++ (t'.text ++ out)) :=
    qualifyTokens_member (Or.inl hkind') hgroups hrest
  have hspace : (qualifyTokens inner bound scopes expr (i + 2) (some colonToken) groups
      (spaceToken :: receiverToken :: pointToken :: t' :: rest)).outcome =
      .ok (' ' :: (receiverMark ++ (t'.text ++ out))) := by
    rw [qualifyTokens_blank _ _ _ (by decide), hmember]
    rfl
  have hcolon : (qualifyTokens inner bound scopes expr (i + 1) (some t) groups
      (colonToken :: spaceToken :: receiverToken :: pointToken :: t' :: rest)).outcome =
      .ok (':' :: ' ' :: (receiverMark ++ (t'.text ++ out))) :=
    qualifyTokens_stay (by decide) rfl rfl hspace
  refine qualifyTokens_stay (isBlank_of_kind (by rw [hkind]; decide)) ?_ (by rw [hkind]; rfl) hcolon
  exact qualifyToken_of_keep hkind hkeep

/-! ## §2. The tokens around. -/

/-- A verdict does not tell the two tokens before an identifier apart: they
agree on whether a property or a member may follow. -/
structure Twin (last last' : Option Token) : Prop where
  property : (last'.any fun t => t.kind = .leftBrace || t.kind = .comma) =
    last.any fun t => t.kind = .leftBrace || t.kind = .comma
  member : (last'.any fun t => t.isOperator ['.']) = last.any fun t => t.isOperator ['.']

/-- A marked token looks to its neighbours as the token does. -/
theorem twin_grown {m : MarkedToken} (h : m.Steady) : Twin (some m.token) (some m.grown) := by
  refine ⟨rfl, ?_⟩
  by_cases hkind : m.token.kind = .operator
  · rw [h.grown (by rw [hkind]; decide) (by rw [hkind]; decide)]
  · have hkind' : ¬ m.grown.kind = .operator := hkind
    simp [Token.isOperator, hkind, hkind']

/-- A colon behind a token is behind it in the marked text. -/
theorem exists_find_colon {ms : List MarkedToken} (hs : ∀ m ∈ ms, m.Steady) {u : Token}
    (h : (ms.map token).find? (fun t => !t.isBlank) = some u) (hu : u.kind = .colon) :
    ∃ u', (tokensOf ms).find? (fun t => !t.isBlank) = some u' ∧ u'.kind = .colon := by
  induction ms with
  | nil => cases h
  | cons m ms ih =>
    have hm := hs m List.mem_cons_self
    rw [tokensOf_cons, MarkedToken.tokens]
    -- neither a blank nor a colon is marked, so that the colon is the next token still
    cases hblank : m.token.isBlank with
    | true =>
      rw [List.map_cons, List.find?_cons_of_neg (by rw [hblank]; decide)] at h
      rw [hm.added_of_isBlank hblank]
      show ∃ u', (m.grown :: tokensOf ms).find? _ = some u' ∧ _
      rw [List.find?_cons_of_neg (by rw [show m.grown.isBlank = true from hblank]; decide)]
      exact ih (fun x hx => hs x (List.mem_cons_of_mem m hx)) h
    | false =>
      rw [List.map_cons, List.find?_cons_of_pos (by rw [hblank]; rfl)] at h
      cases h
      rw [hm.added_of_kind (by rw [hu]; decide) (by rw [hu]; decide)]
      show ∃ u', (m.grown :: tokensOf ms).find? _ = some u' ∧ _
      rw [List.find?_cons_of_pos (by rw [show m.grown.isBlank = false from hblank]; rfl)]
      exact ⟨m.grown, rfl, hu⟩

/-- An identifier that stayed stays in the marked text. -/
theorem verdict_new {all done ms : List MarkedToken} {m : MarkedToken}
    (hall : all = done.reverse ++ m :: ms) (hs : ∀ m ∈ all, m.Steady)
    {scopes' : List ArrowScope} (hcarries : ∀ s ∈ scopes, ∃ s' ∈ scopes', Carries all s s')
    (hmember : ¬ m.isMember) {last last' : Option Token} (htwin : Twin last last')
    {group : Option TokenKind} {name : Text}
    (h : verdict bound scopes
      ⟨done.length, last, (ms.map token).find? fun u => !u.isBlank, group⟩ name = .keep) :
    verdict bound scopes'
      ⟨place all done.length, last', (tokensOf ms).find? fun u => !u.isBlank, group⟩ name = .keep := by
  have hget := getElem?_length hall
  have hsms : ∀ x ∈ ms, x.Steady := fun x hx => hs x (by rw [hall]; simp [hx])
  rw [verdict_eq_keep_iff] at h ⊢
  -- each reason to stay is one in the marked text
  rcases h with h | h | h | h
  · exact Or.inl h
  · exact Or.inr (Or.inl (isParameterAt_new hcarries hget hmember h))
  · exact Or.inr (Or.inr (Or.inl (htwin.member.trans h)))
  · refine Or.inr (Or.inr (Or.inr ?_))
    simp only [Site.isKey, Bool.and_eq_true, Option.any_eq_true, decide_eq_true_eq] at h ⊢
    obtain ⟨hproperty, u, hu, hcolon⟩ := h
    obtain ⟨u', hu', hcolon'⟩ := exists_find_colon hsms hu hcolon
    exact ⟨htwin.property.trans hproperty, u', hu', hcolon'⟩

/-- The verdict on a token whose mark covers it. -/
theorem verdict_of_covers {v : Verdict} {m : MarkedToken}
    (h : Covers (v.marks m.token.text) m.marks) : v.ins m.token.text = [] ∨
      m.ins = v.ins m.token.text := by
  rw [m.text_eq] at h ⊢
  obtain ⟨ins, A, hA, hins, -⟩ := h
  cases hA
  exact hins

/-- A verdict that inserts nothing leaves the name alone. -/
theorem verdict_eq_keep_of_ins {v : Verdict} {name : Text} (h : v.ins name = []) : v = .keep := by
  cases v with
  | keep => rfl
  | member => cases h
  | property => simp [Verdict.ins] at h

/-- The key that a shorthand property got stays. -/
theorem verdict_key {all done ms : List MarkedToken} {m : MarkedToken}
    (hall : all = done.reverse ++ m :: ms) {scopes' : List ArrowScope}
    (hcarries : ∀ s ∈ scopes, ∃ s' ∈ scopes', Carries all s s')
    (hproperty : m.isProperty) (hins : m.ins = m.token.text ++ ':' :: ' ' :: receiverMark)
    {last last' : Option Token} (htwin : Twin last last') {before : Text}
    (hfollows : Follows last before) (hat : AtProperty before (m.token.text ++ textOf ms))
    {group : Option TokenKind}
    (hcovers : Covers ((verdict bound scopes
      ⟨done.length, last, (ms.map token).find? fun u => !u.isBlank, group⟩ m.token.text).marks
      m.token.text) m.marks) :
    verdict bound scopes' ⟨place all done.length, last', some colonToken, group⟩ m.token.text =
      .keep := by
  have hmember : ¬ m.isMember := by
    intro hm
    have hlen := congrArg List.length (hm.symm.trans hproperty)
    simp only [List.length_cons, List.length_nil] at hlen
    omega
  cases last with
  | some t =>
    -- behind a brace or a comma it is a key
    obtain ⟨c, hc, hbrace, hcomma⟩ := hfollows t rfl
    have hkind : t.kind = .leftBrace ∨ t.kind = .comma := by
      rcases hat.opens c hc with h | h
      · exact Or.inl (hbrace.1 h)
      · exact Or.inr (hcomma.1 h)
    refine verdict_eq_keep_iff.2 (Or.inr (Or.inr (Or.inr ?_)))
    have hproperty' : (last'.any fun t => t.kind = .leftBrace || t.kind = .comma) = true := by
      rw [htwin.property]
      simpa using hkind
    simp only [Site.isKey, Site.atProperty, Bool.and_eq_true]
    exact ⟨hproperty', rfl⟩
  | none =>
    -- at the start of the expression it was no property in its own right
    generalize hv : verdict bound scopes
      ⟨done.length, none, (ms.map token).find? fun u => !u.isBlank, group⟩ m.token.text = v
      at hcovers
    have hkeep : v = .keep := by
      rcases verdict_of_covers hcovers with h | h
      · exact verdict_eq_keep_of_ins h
      · cases v with
        | keep => rfl
        | member =>
          have hcolon : ':' ∈ m.ins := by
            rw [hins]
            simp
          rw [h] at hcolon
          have hno : ':' ∉ receiverMark := by decide
          exact absurd hcolon hno
        | property =>
          have hshort := isShorthand_of_verdict hv
          simp [Site.isShorthand, Site.atProperty] at hshort
    rw [hkeep] at hv
    rw [verdict_eq_keep_iff] at hv ⊢
    have hget := getElem?_length hall
    rcases hv with h | h | h | h
    · exact Or.inl h
    · exact Or.inr (Or.inl (isParameterAt_new hcarries hget hmember h))
    · cases h
    · cases h

/-! ## §3. All tokens. -/

/-- The marks of a template string need nothing around it. -/
theorem MarkedToken.Lexed.valid_template {before : Text} {m : MarkedToken} {ms : List MarkedToken}
    (h : Lexed before (m :: ms)) (hkind : m.token.kind = .templateString) :
    Valid [] [] m.marks := by
  cases h with
  | cons read reread valid unmarked more =>
    -- a template literal starts and ends with its quote
    obtain ⟨q, content, htext, hq⟩ : ∃ q content, m.token.text = q :: (content ++ [q]) ∧
        isQuote q = true := by
      generalize htoken : m.token = t at read hkind
      cases read.spelled with
      | blank _ _ => cases hkind
      | @string q content kind _ hq => exact ⟨q, content, rfl, hq⟩
      | number _ _ => cases hkind
      | operator _ => cases hkind
      | @identifier c w _ _ =>
        have hk : identifierKind (c :: w) = .templateString := hkind
        unfold identifierKind at hk
        split at hk
        · cases hk
        · cases hk
      | punctuation hk =>
        exact absurd hkind (ofPunctuation?_forall (P := fun _ k => k ≠ .templateString) (by decide) hk)
    have hold : old m.marks = (q :: content) ++ [q] := by
      rw [old_marks, htext]
      rfl
    obtain ⟨X, Y, hXY, -, hY⟩ := MarkedText.exists_append hold
    obtain ⟨ins, Z, rfl, hZ⟩ := MarkedText.exists_cons hY
    obtain rfl := eq_nil_of_old hZ
    rw [hXY] at valid ⊢
    -- in front of the closing quote nothing is inserted
    have hpart := isIdentifierPart_of_isQuote hq
    obtain rfl := ins_eq_nil ((valid_append X _).1 valid).2 (isIdentifierStart_eq_false hpart)
    exact valid.alone_concat hpart

/-- An unmarked token stays. -/
theorem qualifyToken_grown {all done ms : List MarkedToken} {m : MarkedToken}
    (hall : all = done.reverse ++ m :: ms) (hs : ∀ m ∈ all, m.Steady)
    {scopes' : List ArrowScope} (hcarries : ∀ s ∈ scopes, ∃ s' ∈ scopes', Carries all s s')
    {before : Text} (hlex : Lexed before (m :: ms)) (hins : m.ins = []) (hadded : m.added = [])
    {last last' : Option Token} (htwin : Twin last last') {group : Option TokenKind}
    {A₁ : MarkedText} (hcovers : Covers A₁ m.marks)
    (h : Marking inner bound scopes
      ⟨done.length, last, (ms.map token).find? fun u => !u.isBlank, group⟩ m.token A₁) :
    (qualifyToken inner bound scopes'
      ⟨place all done.length, last', (tokensOf ms).find? fun u => !u.isBlank, group⟩
      m.grown).outcome = .ok m.grown.text := by
  have hm := hs m (by rw [hall]; simp)
  -- holes are settled, an identifier was left alone, and other tokens always are
  cases h with
  | template hkind _ hsettled =>
    have htext : m.grown.text = new m.marks := by
      rw [MarkedToken.marks, new_cons, hins]
      rfl
    have hstays := hsettled.stays m.marks hcovers (hlex.valid_template hkind)
    simp only [qualifyToken, show m.grown.kind = .templateString from hkind, htext]
    exact hstays
  | symbol hkind =>
    have hgrown := hm.grown (by rw [hkind]; decide) (by rw [hkind]; decide)
    have hkeep := verdict_eq_keep_of_ins ((verdict_of_covers hcovers).elim id
      fun h => h.symm.trans hins)
    have hmember : ¬ m.isMember := by
      intro hmem
      rw [MarkedToken.isMember, hadded] at hmem
      cases hmem
    rw [hgrown]
    exact qualifyToken_of_keep hkind (verdict_new hall hs hcarries hmember htwin hkeep)
  | other htemplate hsymbol =>
    rw [qualifyToken_of_other inner bound scopes' (t := m.grown) htemplate hsymbol]
    rfl

/-- A token that is not blank stays with the tokens of its mark, if those
behind it stay. -/
theorem qualifyTokens_tokens {all done ms : List MarkedToken} {m : MarkedToken}
    (hall : all = done.reverse ++ m :: ms) (hs : ∀ m ∈ all, m.Steady)
    {scopes' : List ArrowScope} (hcarries : ∀ s ∈ scopes, ∃ s' ∈ scopes', Carries all s s')
    {before : Text} (hlex : Lexed before (m :: ms)) {last last' : Option Token}
    (hfollows : Follows last before) (htwin : Twin last last')
    (hblank : m.token.isBlank = false) {groups groups' : List TokenKind} {A₁ : MarkedText}
    (hmarking : Marking inner bound scopes
      ⟨done.length, last, (ms.map token).find? fun u => !u.isBlank, groups.head?⟩ m.token A₁)
    (hcovers : Covers A₁ m.marks) (hgroups : groupsAfter m.token.kind groups = some groups')
    {expr out : Text}
    (hrest : (qualifyTokens inner bound scopes' expr (place all (done.length + 1)) (some m.grown)
      groups' (tokensOf ms)).outcome = .ok out) :
    (qualifyTokens inner bound scopes' expr (place all done.length) last' groups
      (m.tokens ++ tokensOf ms)).outcome = .ok (m.ins ++ (m.grown.text ++ out)) := by
  have hspelled : m.token.Spelled := by
    cases hlex with
    | cons read _ _ _ _ => exact read.spelled
  rw [place_succ (getElem?_length hall)] at hrest
  rw [MarkedToken.tokens]
  rcases hlex.added_cases with ⟨hins, hadded⟩ | ⟨hstart, hins, hadded⟩ |
    ⟨hstart, hkind, hins, hat, hadded⟩
  · -- not marked
    have hstay := qualifyToken_grown hall hs hcarries hlex hins hadded htwin hcovers hmarking
    rw [hadded] at hrest ⊢
    rw [hins]
    exact qualifyTokens_stay (t := m.grown) hblank hstay hgroups hrest
  · -- marked as a member
    have hkind : m.grown.kind = .symbol ∨ m.grown.kind = .operator :=
      (kind_of_isIdentifierStart hspelled m.text_eq hstart).imp id And.left
    rw [hadded] at hrest ⊢
    rw [hins]
    exact qualifyTokens_member hkind hgroups hrest
  · -- marked as a property
    cases hmarking with
    | template hk _ _ =>
      rw [hkind] at hk
      cases hk
    | other _ hk => exact absurd hkind hk
    | symbol _ =>
      have hkeep := verdict_key hall hcarries hadded hins htwin hfollows hat hcovers
      have hsame : groupsAfter m.token.kind groups = some groups := by
        rw [hkind]
        rfl
      obtain rfl := Option.some.inj (hsame.symm.trans hgroups)
      rw [hadded] at hrest ⊢
      have hstay := qualifyTokens_property hkind (show m.grown.kind = .symbol from hkind) hkeep hrest
      rw [hins]
      simpa using hstay

/-- In an expression with the marks of the verdicts, and possibly more, every
token stays. -/
theorem qualifyTokens_tokensOf {all done ms : List MarkedToken} (hall : all = done.reverse ++ ms)
    (hs : ∀ m ∈ all, m.Steady) {scopes' : List ArrowScope}
    (hcarries : ∀ s ∈ scopes, ∃ s' ∈ scopes', Carries all s s') {before : Text}
    (hlex : Lexed before ms) {last last' : Option Token} {groups : List TokenKind}
    {js : List (Token × MarkedText)}
    (hj : Judged inner bound scopes done.length last groups js)
    (hmap : js.map Prod.fst = ms.map token) (hcovers : Covers (js.flatMap Prod.snd) (marksOf ms))
    (hfollows : Follows last before) (htwin : Twin last last') (expr : Text) :
    (qualifyTokens inner bound scopes' expr (place all done.length) last' groups
      (tokensOf ms)).outcome = .ok (new (marksOf ms)) := by
  induction ms generalizing done before last last' groups js with
  | nil => rfl
  | cons m ms ih =>
    have hall' : all = (m :: done).reverse ++ ms := by
      rw [hall]
      simp
    have hnew : new (marksOf (m :: ms)) = m.ins ++ (m.grown.text ++ new (marksOf ms)) := by
      rw [marksOf_cons, new_append, MarkedToken.marks, new_cons]
      simp [MarkedToken.grown]
    have hmore : Lexed (m.token.text.reverse ++ before) ms ∧ m.token.Spelled := by
      cases hlex with
      | cons read _ _ _ more => exact ⟨more, read.spelled⟩
    have hm := hs m (by rw [hall]; simp)
    rw [tokensOf_cons, hnew]
    -- one token at a time, with the tokens of its mark in front
    cases hj with
    | nil _ _ _ => cases hmap
    | @blank _ _ _ t js hblank more =>
      obtain ⟨rfl, hmap'⟩ := List.cons.inj hmap
      obtain ⟨-, hcovers⟩ := Covers.of_append hcovers (by rw [old_plain, old_marks])
      have hadded := hm.added_of_isBlank hblank
      have hrest := ih hall' hmore.1 more hmap' hcovers
        (follows_blank hfollows hmore.2 hblank) htwin
      rw [List.length_cons, place_succ (getElem?_length hall), hadded] at hrest
      simp only [List.length_nil, Nat.add_zero] at hrest
      rw [MarkedToken.tokens, hadded, List.nil_append, List.singleton_append,
        qualifyTokens_blank _ _ _ (show m.grown.isBlank = true from hblank), hrest,
        hlex.ins_of_added hadded]
      rfl
    | @token _ _ _ groups' t A₁ js hblank marking hgroups more =>
      obtain ⟨rfl, hmap'⟩ := List.cons.inj hmap
      rw [hmap'] at marking
      obtain ⟨hcoversm, hcovers⟩ := Covers.of_append hcovers (by rw [marking.old_eq, old_marks])
      have hrest := ih hall' hmore.1 more hmap' hcovers
        (follows_cons hmore.2 hblank before) (twin_grown hm)
      exact qualifyTokens_tokens hall hs hcarries hlex hfollows htwin hblank marking hcoversm
        hgroups hrest

end QwebReceiver.Expr
