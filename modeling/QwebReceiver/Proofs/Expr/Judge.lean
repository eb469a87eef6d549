import QwebReceiver.Proofs.Expr.Fill
import QwebReceiver.Proofs.Expr.Scopes

/-!
  QwebReceiver.Proofs.Expr.Judge — the verdicts on the tokens of an expression.

  The verdict on an identifier depends on the tokens around it, a mark on the
  characters around it; the two agree, for a brace or a comma is a token of its
  own (`Follows`, `head_dropWhile_flatMap`).  So the verdicts on all tokens make
  a text with marks (`Judged`, `Judged.valid`), and in a text with these marks
  and possibly more every identifier has a reason to stay
  (`qualifyTokens_tokensOf`).
-/

namespace QwebReceiver.Expr

open QwebReceiver.Text MarkedText

/-! ## §1. Neighbours. -/

/-- The last character before a token that is not blank is a brace or a comma
exactly if the last token is one. -/
def Follows (last : Option Token) (before : Text) : Prop :=
  ∀ t, last = some t → ∃ c, (before.dropWhile isBlank).head? = some c ∧
    (c = '{' ↔ t.kind = .leftBrace) ∧ (c = ',' ↔ t.kind = .comma)

/-- How operators end. -/
theorem operators_last : ∀ op ∈ operators, ∃ c ∈ (op.reverse.dropWhile isBlank).head?,
    c ≠ '{' ∧ c ≠ ',' := by
  decide +kernel

/-- A token that was just passed is the one behind which the next stands. -/
theorem follows_cons {t : Token} (h : t.Spelled) (hblank : t.isBlank = false) (before : Text) :
    Follows (some t) (t.text.reverse ++ before) := by
  -- it is enough to look at the end of the token
  suffices hlast : ∃ c, (t.text.reverse.dropWhile isBlank).head? = some c ∧
      (c = '{' ↔ t.kind = .leftBrace) ∧ (c = ',' ↔ t.kind = .comma) by
    rintro u ⟨⟩
    obtain ⟨c, hc, hkind⟩ := hlast
    exact ⟨c, head_dropWhile_append hc before, hkind⟩
  -- a character that is neither, at the end of a token that is neither
  have hother : ∀ {c : Char} (init : Text), t.text = init ++ [c] → isBlank c = false →
      c ≠ '{' → c ≠ ',' → t.kind ≠ .leftBrace → t.kind ≠ .comma →
      ∃ c, (t.text.reverse.dropWhile isBlank).head? = some c ∧
        (c = '{' ↔ t.kind = .leftBrace) ∧ (c = ',' ↔ t.kind = .comma) := by
    intro c init htext hc hbrace hcomma hkb hkc
    refine ⟨c, ?_, iff_of_false hbrace hkb, iff_of_false hcomma hkc⟩
    rw [htext, List.reverse_append]
    show ((c :: init.reverse).dropWhile isBlank).head? = some c
    rw [List.dropWhile_cons_of_neg (by rw [hc]; decide)]
    rfl
  cases h with
  | blank _ _ => cases hblank
  | @string q content kind hkind hq =>
    have hne : q ≠ '{' ∧ q ≠ ',' := by
      rcases isQuote_iff.1 hq with rfl | rfl | rfl <;> decide
    have hkind' : kind ≠ .leftBrace ∧ kind ≠ .comma := by
      rcases hkind with rfl | rfl <;> decide
    exact hother (q :: content) rfl (isBlank_of_isQuote hq) hne.1 hne.2 hkind'.1 hkind'.2
  | @number w hne hall =>
    obtain ⟨init, c, rfl⟩ := exists_concat hne
    have hc : isBlank c = false ∧ c ≠ '{' ∧ c ≠ ',' := by
      rcases hall c (by simp) with hd | rfl
      · have hpart := isIdentifierPart_of_isAsciiDigit hd
        refine ⟨isBlank_of_isIdentifierPart hpart, ?_, ?_⟩
        · rintro rfl
          exact absurd hd (by decide)
        · rintro rfl
          exact absurd hd (by decide)
      · decide
    exact hother init rfl hc.1 hc.2.1 hc.2.2 (by simp) (by simp)
  | operator hmem =>
    obtain ⟨c, hc, hbrace, hcomma⟩ := operators_last _ hmem
    exact ⟨c, hc, iff_of_false hbrace (by simp), iff_of_false hcomma (by simp)⟩
  | @identifier d w hstart hw =>
    obtain ⟨init, c, hc⟩ := exists_concat (List.cons_ne_nil d w)
    have hpart : isIdentifierPart c = true := by
      have hmem : c ∈ d :: w := by rw [hc]; simp
      rcases List.mem_cons.1 hmem with rfl | hmem
      · exact isIdentifierPart_of_isIdentifierStart hstart
      · exact hw c hmem
    have hne : c ≠ '{' ∧ c ≠ ',' := by
      constructor
      · rintro rfl
        exact absurd hpart (by decide)
      · rintro rfl
        exact absurd hpart (by decide)
    have hkind : identifierKind (d :: w) ≠ .leftBrace ∧ identifierKind (d :: w) ≠ .comma := by
      unfold identifierKind
      split <;> decide
    exact hother _ hc (isBlank_of_isIdentifierPart hpart) hne.1 hne.2 hkind.1 hkind.2
  | @punctuation c kind hk =>
    have hc := ofPunctuation?_forall (P := fun c kind => isBlank c = false ∧
      (c = '{' ↔ kind = .leftBrace) ∧ (c = ',' ↔ kind = .comma)) (by decide) hk
    refine ⟨c, ?_, hc.2⟩
    show ([c].dropWhile isBlank).head? = some c
    rw [List.dropWhile_cons_of_neg (by rw [hc.1]; decide)]
    rfl

/-- A token that is not blank starts with a character that is not blank. -/
theorem exists_first {t : Token} (h : t.Spelled) (hblank : t.isBlank = false) :
    ∃ c w, t.text = c :: w ∧ isBlank c = false := by
  -- each kind of token starts with a character of its own class, and no class has
  -- blanks
  cases h with
  | blank _ _ => cases hblank
  | string _ hq => exact ⟨_, _, rfl, isBlank_of_isQuote hq⟩
  | @number w hne hall =>
    cases w with
    | nil => exact absurd rfl hne
    | cons c w =>
      refine ⟨c, w, rfl, ?_⟩
      rcases hall c List.mem_cons_self with hd | rfl
      · exact isBlank_of_isIdentifierPart (isIdentifierPart_of_isAsciiDigit hd)
      · decide
  | @operator op hmem =>
    have hall : ∀ op ∈ operators, ∃ c ∈ op.head?, isBlank c = false := by decide
    obtain ⟨c, hc, hno⟩ := hall op hmem
    obtain ⟨w, rfl⟩ := List.head?_eq_some_iff.1 hc
    exact ⟨c, w, rfl, hno⟩
  | identifier hstart _ => exact ⟨_, _, rfl, isBlank_of_isIdentifierStart hstart⟩
  | @punctuation c kind hk =>
    exact ⟨c, [], rfl, ofPunctuation?_forall (P := fun c _ => isBlank c = false) (by decide) hk⟩

/-- A token of blanks has no other character. -/
theorem Token.Spelled.all_blank {t : Token} (h : t.Spelled) (hblank : t.isBlank = true) :
    ∀ c ∈ t.text, Text.isBlank c = true := by
  have hkind := kind_of_isBlank hblank
  -- only the rule for blanks makes tokens of that kind
  cases h with
  | blank _ hall => exact hall
  | string hk _ =>
    rcases hk with rfl | rfl
    · cases hkind
    · cases hkind
  | number _ _ => cases hkind
  | operator _ => cases hkind
  | identifier _ _ =>
    unfold identifierKind at hkind
    split at hkind
    · cases hkind
    · cases hkind
  | punctuation hk =>
    exact absurd hkind (ofPunctuation?_forall (P := fun _ k => k ≠ .blank) (by decide) hk)

/-- Blanks do not change what the last token was. -/
theorem follows_blank {last : Option Token} {before : Text} (h : Follows last before) {t : Token}
    (ht : t.Spelled) (hblank : t.isBlank = true) : Follows last (t.text.reverse ++ before) := by
  intro u hu
  obtain ⟨c, hc, hkind⟩ := h u hu
  refine ⟨c, ?_, hkind⟩
  rw [List.dropWhile_append_of_pos]
  · exact hc
  · intro d hd
    exact ht.all_blank hblank d (List.mem_reverse.1 hd)

/-- The first character of the tokens to come that is not blank is the first
one of the next token. -/
theorem head_dropWhile_flatMap {ts : List Token} (h : ∀ t ∈ ts, t.Spelled) {u : Token}
    (hu : ts.find? (fun t => !t.isBlank) = some u) (more : Text) :
    ((ts.flatMap Token.text ++ more).dropWhile isBlank).head? = u.text.head? := by
  induction ts with
  | nil => cases hu
  | cons t ts ih =>
    rw [List.flatMap_cons, List.append_assoc]
    -- a blank token is dropped whole, and the first other one not at all
    by_cases hblank : t.isBlank = true
    · rw [List.find?_cons_of_neg (by rw [hblank]; decide)] at hu
      rw [List.dropWhile_append_of_pos ((h t List.mem_cons_self).all_blank hblank)]
      exact ih (fun x hx => h x (List.mem_cons_of_mem t hx)) hu
    · rw [Bool.not_eq_true] at hblank
      rw [List.find?_cons_of_pos (by rw [hblank]; rfl)] at hu
      cases hu
      obtain ⟨c, w, hcw, hc⟩ := exists_first (h _ List.mem_cons_self) hblank
      rw [hcw, List.cons_append, List.dropWhile_cons_of_neg (by rw [hc]; decide)]
      rfl

/-! ## §2. Verdicts as marks. -/

/-- What a verdict inserts in front of an identifier: nothing, the receiver, or
the key of a property and the receiver. -/
def Verdict.ins (name : Text) : Verdict → Text
  | .keep => []
  | .member => receiverMark
  | .property => name ++ ':' :: ' ' :: receiverMark

/-- An identifier with the mark of a verdict, which stands in front of its first
character. -/
def Verdict.marks (v : Verdict) : Text → MarkedText
  | [] => []
  | c :: w => (v.ins (c :: w), c) :: plain w

/-- The marks of a verdict are insertions: the name is there without them. -/
@[simp] theorem Verdict.old_marks (v : Verdict) (name : Text) : old (v.marks name) = name := by
  cases name with
  | nil => rfl
  | cons c w => rw [marks, old_cons, old_plain]

/-- With the marks of a verdict a name is what the verdict writes. -/
theorem Verdict.new_marks (v : Verdict) {name : Text} (h : name ≠ []) :
    new (v.marks name) = v.write name := by
  cases name with
  | nil => exact absurd rfl h
  | cons c w =>
    rw [marks, new_cons, new_plain]
    cases v with
    | keep => rfl
    | member => rfl
    | property => simp [ins, write, receiverMark]

/-- A name is left alone for what it is, or for where it stands: a name that is
bound or reserved, a parameter, a member or a key. -/
theorem verdict_eq_keep_iff {bound : NameSet} {scopes : List ArrowScope} {site : Site}
    {name : Text} : verdict bound scopes site name = .keep ↔
      (name = receiver ∨ isReserved name = true ∨ bound.contains name = true) ∨
        isParameterAt scopes site.index name = true ∨ site.isMember = true ∨ site.isKey = true := by
  unfold verdict
  constructor
  · intro h
    split at h
    -- the reasons are those of the condition, in another grouping
    · next hkeep =>
      simp only [Bool.or_eq_true, decide_eq_true_eq, or_assoc] at hkeep ⊢
      exact hkeep
    · split at h
      · cases h
      · cases h
  · intro h
    rw [if_pos]
    simp only [Bool.or_eq_true, decide_eq_true_eq, or_assoc] at h ⊢
    exact h

/-- A property is written out only where a shorthand stands. -/
theorem isShorthand_of_verdict {bound : NameSet} {scopes : List ArrowScope} {site : Site}
    {name : Text} (h : verdict bound scopes site name = .property) : site.isShorthand = true := by
  unfold verdict at h
  split at h
  · cases h
  · split at h
    · next hshort => exact hshort
    · cases h

section Judgement

variable (inner : Scanner) (bound : NameSet) (scopes : List ArrowScope)

/-- The marks that qualifying makes in one token.  A template string has those
of its holes, an identifier the one of its verdict, and any other token none. -/
inductive Marking (site : Site) (t : Token) : MarkedText → Prop where
  | template {out : Text} {A₁ : MarkedText} (hkind : t.kind = .templateString)
      (hout : (fillTemplate inner t.text).outcome = .ok out)
      (h : Settled (fun _ => True) (fillTemplate inner) t.text out A₁) : Marking site t A₁
  | symbol (hkind : t.kind = .symbol) :
      Marking site t ((verdict bound scopes site t.text).marks t.text)
  | other (htemplate : t.kind ≠ .templateString) (hsymbol : t.kind ≠ .symbol) :
      Marking site t (plain t.text)

/-- The tokens from index `i` on, after the token `last` and inside the
brackets `groups`, with the marks that qualifying makes in them. -/
inductive Judged : Nat → Option Token → List TokenKind → List (Token × MarkedText) → Prop where
  | nil (i : Nat) (last : Option Token) (groups : List TokenKind) : Judged i last groups []
  | blank {i : Nat} {last : Option Token} {groups : List TokenKind} {t : Token}
      {js : List (Token × MarkedText)} (hblank : t.isBlank = true)
      (more : Judged (i + 1) last groups js) : Judged i last groups ((t, plain t.text) :: js)
  | token {i : Nat} {last : Option Token} {groups groups' : List TokenKind} {t : Token}
      {A₁ : MarkedText} {js : List (Token × MarkedText)} (hblank : t.isBlank = false)
      (marking : Marking inner bound scopes
        ⟨i, last, (js.map Prod.fst).find? fun u => !u.isBlank, groups.head?⟩ t A₁)
      (hgroups : groupsAfter t.kind groups = some groups')
      (more : Judged (i + 1) (some t) groups' js) : Judged i last groups ((t, A₁) :: js)

/-- Blanks are copied, and neither the last token nor the brackets change. -/
theorem qualifyTokens_blank {t : Token} (h : t.isBlank = true) (expr : Text) (i : Nat)
    (last : Option Token) (groups : List TokenKind) (rest : List Token) :
    (qualifyTokens inner bound scopes expr i last groups (t :: rest)).outcome =
      (qualifyTokens inner bound scopes expr (i + 1) last groups rest).outcome.map
        (t.text ++ ·) := by
  rw [qualifyTokens, if_pos h]
  rfl

/-- The tokens are qualified one after the other. -/
theorem qualifyTokens_token {t : Token} (h : t.isBlank = false) {expr : Text} {i : Nat}
    {last : Option Token} {groups : List TokenKind} {rest : List Token} {out : Text} :
    (qualifyTokens inner bound scopes expr i last groups (t :: rest)).outcome = .ok out ↔
      ∃ text groups' out',
        (qualifyToken inner bound scopes
          ⟨i, last, rest.find? fun u => !u.isBlank, groups.head?⟩ t).outcome = .ok text ∧
        groupsAfter t.kind groups = some groups' ∧
        (qualifyTokens inner bound scopes expr (i + 1) (some t) groups' rest).outcome = .ok out' ∧
        out = text ++ out' := by
  -- three things have to succeed, in this order: the token, its bracket, and the rest
  rw [qualifyTokens, if_neg (by rw [h]; decide), Traced.outcome_bind, bind_eq_ok_iff]
  constructor
  · rintro ⟨text, htext, hbehind⟩
    cases hgroups : groupsAfter t.kind groups with
    | none =>
      rw [hgroups] at hbehind
      cases hbehind
    | some groups' =>
      rw [hgroups] at hbehind
      obtain ⟨out', hrest, rfl⟩ := map_eq_ok_iff.1 hbehind
      exact ⟨text, groups', out', htext, rfl, hrest, rfl⟩
  · rintro ⟨text, groups', out', htext, hgroups, hrest, rfl⟩
    refine ⟨text, htext, ?_⟩
    rw [hgroups]
    exact map_eq_ok_iff.2 ⟨out', hrest, rfl⟩

/-- A token that is neither an identifier nor a template literal is copied. -/
theorem qualifyToken_of_other {site : Site} {t : Token} (htemplate : t.kind ≠ .templateString)
    (hsymbol : t.kind ≠ .symbol) : qualifyToken inner bound scopes site t = pure t.text := by
  unfold qualifyToken
  split
  · next hkind => exact absurd hkind htemplate
  · next hkind => exact absurd hkind hsymbol
  · rfl

/-- An identifier becomes what the verdict on it writes. -/
theorem outcome_qualifyToken_symbol {site : Site} {t : Token} (hkind : t.kind = .symbol) :
    (qualifyToken inner bound scopes site t).outcome =
      .ok ((verdict bound scopes site t.text).write t.text) := by
  unfold qualifyToken
  rw [hkind]
  cases verdict bound scopes site t.text with
  | keep => rfl
  | member => rfl
  | property => rfl

/-- What qualifying makes of one token is the token with its marks. -/
theorem exists_marking {site : Site} {t : Token} (hs : t.Spelled)
    (htemplate : t.kind = .templateString → Settles (fun _ => True) (fillTemplate inner) t.text)
    {text : Text} (h : (qualifyToken inner bound scopes site t).outcome = .ok text) :
    ∃ A₁, Marking inner bound scopes site t A₁ ∧ new A₁ = text := by
  -- holes are marked inside of a template literal, an identifier in front, and nothing
  -- else
  by_cases hk : t.kind = .templateString
  · simp only [qualifyToken, hk] at h
    obtain ⟨A₁, hA⟩ := htemplate hk text h
    exact ⟨A₁, .template hk h hA, hA.new_eq⟩
  by_cases hsym : t.kind = .symbol
  · obtain ⟨c, w, htext, -⟩ := hs.symbol hsym
    refine ⟨_, .symbol hsym, ?_⟩
    rw [Verdict.new_marks _ (by rw [htext]; exact List.cons_ne_nil c w)]
    rw [outcome_qualifyToken_symbol inner bound scopes hsym] at h
    exact Except.ok.inj h
  · refine ⟨_, .other hk hsym, ?_⟩
    rw [new_plain]
    rw [qualifyToken_of_other inner bound scopes hk hsym] at h
    cases h
    rfl

/-- The verdicts on all tokens make a text with marks. -/
theorem exists_judged {ts : List Token} (hs : ∀ t ∈ ts, t.Spelled)
    (htemplate : ∀ t ∈ ts, t.kind = .templateString →
      Settles (fun _ => True) (fillTemplate inner) t.text)
    {expr : Text} {i : Nat} {last : Option Token} {groups : List TokenKind} {out : Text}
    (h : (qualifyTokens inner bound scopes expr i last groups ts).outcome = .ok out) :
    ∃ js, js.map Prod.fst = ts ∧ Judged inner bound scopes i last groups js ∧
      new (js.flatMap Prod.snd) = out := by
  induction ts generalizing i last groups out with
  | nil =>
    cases h
    exact ⟨[], rfl, .nil i last groups, rfl⟩
  | cons t ts ih =>
    have hs' := fun u (hu : u ∈ ts) => hs u (List.mem_cons_of_mem t hu)
    have htemplate' := fun u (hu : u ∈ ts) => htemplate u (List.mem_cons_of_mem t hu)
    cases hblank : t.isBlank with
    -- a blank has no marks and is the last token to no one
    | true =>
      rw [qualifyTokens_blank _ _ _ hblank] at h
      obtain ⟨out', hrest, rfl⟩ := map_eq_ok_iff.1 h
      obtain ⟨js, hmap, hj, hnew⟩ := ih hs' htemplate' hrest
      refine ⟨_ :: js, by rw [List.map_cons, hmap], .blank hblank hj, ?_⟩
      rw [List.flatMap_cons, new_append, new_plain, hnew]
    | false =>
      obtain ⟨text, groups', out', htext, hgroups, hrest, rfl⟩ :=
        (qualifyTokens_token inner bound scopes hblank).1 h
      obtain ⟨js, rfl, hj, hnew⟩ := ih hs' htemplate' hrest
      obtain ⟨A₁, hmarking, hnewA⟩ := exists_marking inner bound scopes
        (hs t List.mem_cons_self) (htemplate t List.mem_cons_self) htext
      refine ⟨(t, A₁) :: js, rfl, .token hblank hmarking hgroups hj, ?_⟩
      rw [List.flatMap_cons, new_append, hnewA, hnew]

/-! ## §3. The marks are valid. -/

variable {inner bound scopes}

/-- The marks in a token are insertions. -/
theorem Marking.old_eq {site : Site} {t : Token} {A₁ : MarkedText}
    (h : Marking inner bound scopes site t A₁) : old A₁ = t.text := by
  cases h with
  | template _ _ h => exact h.old_eq
  | symbol _ => exact Verdict.old_marks _ _
  | other _ _ => exact old_plain _

/-- The marks in all tokens are insertions. -/
theorem Judged.old_eq {i : Nat} {last : Option Token} {groups : List TokenKind}
    {js : List (Token × MarkedText)} (h : Judged inner bound scopes i last groups js) :
    old (js.flatMap Prod.snd) = (js.map Prod.fst).flatMap Token.text := by
  induction h with
  | nil _ _ _ => rfl
  | blank hblank more ih =>
    rw [List.flatMap_cons, old_append, old_plain, ih]
    rfl
  | token hblank marking hgroups more ih =>
    rw [List.flatMap_cons, old_append, marking.old_eq, ih]
    rfl

/-- The texts of the tokens make up the expression. -/
theorem flatMap_of_tokenize {text : Text} {ts : List Token} (h : tokenize text = .ok ts) :
    ts.flatMap Token.text = text := by
  induction ts generalizing text with
  | nil => exact (eq_nil_of_tokenize h).symm
  | cons t ts ih =>
    obtain ⟨c, cs, rest, rfl, hread, hrest⟩ := exists_of_tokenize_cons h
    rw [List.flatMap_cons, ih hrest]
    exact hread.append

/-- Every token of a text is spelled as its kind demands. -/
theorem spelled_of_tokenize {text : Text} {ts : List Token} (h : tokenize text = .ok ts) :
    ∀ t ∈ ts, t.Spelled := by
  induction ts generalizing text with
  | nil =>
    intro t ht
    cases ht
  | cons t ts ih =>
    obtain ⟨c, cs, rest, rfl, hread, hrest⟩ := exists_of_tokenize_cons h
    exact List.forall_mem_cons.2 ⟨hread.spelled, ih hrest⟩

/-- A symbol is read as an identifier. -/
theorem Reads.of_symbol {c : Char} {cs : Text} {t : Token} {rest : Text} (h : Reads c cs t rest)
    (hkind : t.kind = .symbol) : isIdentifierStart c = true ∧ operatorAt (c :: cs) = none ∧
      t.text = c :: word cs ∧ rest = pastWord cs := by
  cases h with
  | blank _ => cases hkind
  | string _ _ =>
    simp only at hkind
    split at hkind
    · cases hkind
    · cases hkind
  | number _ => cases hkind
  | operator _ _ _ _ => cases hkind
  | identifier hstart hop => exact ⟨hstart, hop, rfl, rfl⟩
  | punctuation _ hk =>
    exact absurd hkind (ofPunctuation?_forall (P := fun _ k => k ≠ .symbol) (by decide) hk)

/-- A brace or a comma is written as itself. -/
theorem text_of_kind {t : Token} (h : t.Spelled) :
    (t.kind = .rightBrace → t.text = ['}']) ∧ (t.kind = .comma → t.text = [',']) := by
  -- only punctuation has these kinds
  have hnot : t.kind ≠ .rightBrace → t.kind ≠ .comma →
      (t.kind = .rightBrace → t.text = ['}']) ∧ (t.kind = .comma → t.text = [',']) :=
    fun h₁ h₂ => ⟨fun h => absurd h h₁, fun h => absurd h h₂⟩
  cases h with
  | blank _ _ => exact hnot (by simp) (by simp)
  | string hk _ =>
    rcases hk with rfl | rfl
    · exact hnot (by simp) (by simp)
    · exact hnot (by simp) (by simp)
  | number _ _ => exact hnot (by simp) (by simp)
  | operator _ => exact hnot (by simp) (by simp)
  | @identifier c w _ _ =>
    have hkind : identifierKind (c :: w) ≠ .rightBrace ∧ identifierKind (c :: w) ≠ .comma := by
      unfold identifierKind
      split <;> decide
    exact hnot hkind.1 hkind.2
  | punctuation hk =>
    exact ofPunctuation?_forall
      (P := fun c k => (k = .rightBrace → [c] = ['}']) ∧ (k = .comma → [c] = [','])) (by decide) hk

/-- A shorthand property among the tokens is one among the characters. -/
theorem atProperty_of_isShorthand {c : Char} {cs : Text} {t : Token} {rest before : Text}
    {last : Option Token} {ts : List Token} {i : Nat} {group : Option TokenKind}
    (hread : Reads c cs t rest) (hkind : t.kind = .symbol) (hrest : tokenize rest = .ok ts)
    (hfollows : Follows last before)
    (h : (⟨i, last, ts.find? fun u => !u.isBlank, group⟩ : Site).isShorthand = true) (after : Text) :
    AtProperty before (t.text ++ (rest ++ after)) ∧ word (t.text ++ (rest ++ after)) = t.text := by
  obtain ⟨hstart, hop, htext, hpast⟩ := hread.of_symbol hkind
  simp only [Site.isShorthand, Site.atProperty, Bool.and_eq_true, Option.any_eq_true,
    Bool.or_eq_true, decide_eq_true_eq] at h
  obtain ⟨⟨-, p, rfl, hp⟩, u, hu, hukind⟩ := h
  -- the character behind the property
  have hspelled := spelled_of_tokenize hrest
  have hcloses : ∀ more, ∃ d, (((rest ++ more).dropWhile isBlank).head? = some d) ∧
      (d = '}' ∨ d = ',') := by
    intro more
    have hhead := head_dropWhile_flatMap hspelled hu more
    rw [flatMap_of_tokenize hrest] at hhead
    have htextu := text_of_kind (hspelled u (List.mem_of_find?_eq_some hu))
    rcases hukind with hk | hk
    · exact ⟨'}', by rw [hhead, htextu.1 hk]; rfl, Or.inl rfl⟩
    · exact ⟨',', by rw [hhead, htextu.2 hk]; rfl, Or.inr rfl⟩
  have hne : rest ≠ [] := by
    intro hnil
    obtain ⟨d, hd, -⟩ := hcloses []
    rw [hnil] at hd
    cases hd
  obtain ⟨d, r, rfl⟩ := List.exists_cons_of_ne_nil hne
  have hall : ∀ x ∈ t.text, isIdentifierPart x = true := by
    rw [htext]
    exact List.forall_mem_cons.2
      ⟨isIdentifierPart_of_isIdentifierStart hstart, fun x hx => mem_word hx⟩
  have hd : isIdentifierPart d = false :=
    head_dropWhile (t := cs) (by rw [show cs.dropWhile isIdentifierPart = d :: r from hpast.symm]; rfl)
  have hstop : StopsAt isIdentifierPart (d :: r ++ after) := stopsAt_cons hd
  have hword : word (t.text ++ (d :: r ++ after)) = t.text := takeWhile_run hall hstop
  have hpastWord : pastWord (t.text ++ (d :: r ++ after)) = d :: r ++ after := dropWhile_run hall hstop
  refine ⟨⟨?_, ?_, ?_, ?_⟩, hword⟩
  · obtain ⟨c', w, htext', -, -, hsymbol⟩ := hread.spelled.symbol hkind
    rw [hword, htext']
    exact hsymbol
  · rw [hword, hpastWord]
    intro hmem hblank
    have hsplit : c :: cs = (t.text ++ [' ']) ++ r := by
      rw [← hread.append]
      simp only [List.cons_append, List.head?_cons, Option.some.injEq] at hblank
      rw [hblank]
      simp
    have hnone := List.find?_eq_none.1 hop _ hmem
    rw [hsplit] at hnone
    exact hnone (List.isPrefixOf_iff_prefix.2 (List.prefix_append _ _))
  · intro x hx
    obtain ⟨y, hy, hbrace, hcomma⟩ := hfollows p rfl
    rw [hy] at hx
    cases hx
    rcases hp with hk | hk
    · exact Or.inl (hbrace.2 hk)
    · exact Or.inr (hcomma.2 hk)
  · rw [hpastWord]
    intro x hx
    obtain ⟨y, hy, hor⟩ := hcloses after
    rw [hy] at hx
    cases hx
    exact hor

/-- The marks in one token are marks. -/
theorem Marking.valid {c : Char} {cs : Text} {t : Token} {rest before : Text}
    {last : Option Token} {ts : List Token} {i : Nat} {group : Option TokenKind} {A₁ : MarkedText}
    (hread : Reads c cs t rest) (hrest : tokenize rest = .ok ts) (hopen : Open before (c :: cs))
    (hfollows : Follows last before)
    (h : Marking inner bound scopes ⟨i, last, ts.find? fun u => !u.isBlank, group⟩ t A₁)
    (after : Text) : Valid (rest ++ after) before A₁ := by
  cases h with
  | template _ _ h => exact h.valid _ _ trivial
  | other _ _ => exact valid_plain _ _ _
  | symbol hkind =>
    obtain ⟨hstart, -, htext, -⟩ := hread.of_symbol hkind
    generalize hv : verdict bound scopes ⟨i, last, ts.find? fun u => !u.isBlank, group⟩ t.text = v
    have hmarks : v.marks t.text = (v.ins t.text, c) :: plain (word cs) := by
      rw [htext]
      rfl
    rw [hmarks]
    refine ⟨?_, valid_plain _ _ _⟩
    -- the verdict says which mark is made, and why it may stand here
    cases v with
    | keep => exact Or.inl rfl
    | member => exact Or.inr ⟨hstart, .member (hopen.clear hstart)⟩
    | property =>
      -- a shorthand property: brackets and neighbours are those of the text
      obtain ⟨hp, hword⟩ := atProperty_of_isShorthand hread hkind hrest hfollows
        (isShorthand_of_verdict hv) after
      have htail : c :: (old (plain (word cs)) ++ (rest ++ after)) = t.text ++ (rest ++ after) := by
        rw [old_plain, htext]
        rfl
      refine Or.inr ⟨hstart, ?_⟩
      rw [htail]
      have hmark := IsMark.property (hopen.clear hstart) hp
      rwa [hword] at hmark

/-- The marks in all tokens are marks. -/
theorem Judged.valid {i : Nat} {last : Option Token} {groups : List TokenKind}
    {js : List (Token × MarkedText)} (h : Judged inner bound scopes i last groups js) {text : Text}
    (htokens : tokenize text = .ok (js.map Prod.fst)) {before : Text} (hopen : Open before text)
    (hfollows : Follows last before) (after : Text) :
    Valid after before (js.flatMap Prod.snd) := by
  -- the text before grows token by token, and stays open for a mark
  induction h generalizing text before with
  | nil _ _ _ => trivial
  | @blank i last groups t js hblank more ih =>
    obtain ⟨c, cs, rest, rfl, hread, hrest⟩ := exists_of_tokenize_cons htokens
    rw [List.flatMap_cons]
    refine (valid_append _ _).2 ⟨valid_plain _ _ _, ?_⟩
    rw [old_plain]
    exact ih hrest (hopen.read hread) (follows_blank hfollows hread.spelled hblank)
  | @token i last groups groups' t A₁ js hblank marking hgroups more ih =>
    obtain ⟨c, cs, rest, rfl, hread, hrest⟩ := exists_of_tokenize_cons htokens
    rw [List.flatMap_cons]
    refine (valid_append _ _).2 ⟨?_, ?_⟩
    · rw [more.old_eq, flatMap_of_tokenize hrest]
      exact marking.valid hread hrest hopen hfollows after
    · rw [marking.old_eq]
      exact ih hrest (hopen.read hread) (follows_cons hread.spelled hblank before)

end Judgement

end QwebReceiver.Expr
