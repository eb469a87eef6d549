import Mathlib.Data.List.Forall2
import QwebReceiver.Proofs.Expr.Relex

/-!
  QwebReceiver.Proofs.Expr.Scopes — marks hide no arrow parameter.

  The tokens that a mark adds are neither arrows nor parentheses, so the
  arrows of a marked expression find their parameters where they found them
  before.  A scope may start later, by as many tokens as were added before it,
  and may have more parameters; whatever name was visible at a token is still
  visible there (`isParameterAt_new`).
-/

namespace QwebReceiver.Expr

open QwebReceiver.Text MarkedText

/-! ## §1. Blanks and arrows. -/

theorem kind_of_isBlank {t : Token} (h : t.isBlank = true) : t.kind = .blank := by
  simpa [Token.isBlank] using h

theorem isBlank_of_kind {t : Token} (h : t.kind ≠ .blank) : t.isBlank = false := by
  simpa [Token.isBlank] using h

/-- Two operators are arrows. -/
theorem isArrow_iff {t : Token} :
    t.isArrow = true ↔ t.kind = .operator ∧ (t.text = arrow ∨ t.text = wideArrow) := by
  simp only [Token.isArrow, Token.isOperator, Bool.or_eq_true, Bool.and_eq_true, decide_eq_true_eq]
  rw [← and_or_left]

theorem isArrow_eq_false {t : Token} (h : t.kind ≠ .operator) : t.isArrow = false := by
  rw [← Bool.not_eq_true, isArrow_iff]
  exact fun harrow => h harrow.1

theorem isBlank_of_isArrow {t : Token} (h : t.isArrow = true) : t.isBlank = false := by
  refine isBlank_of_kind ?_
  rw [(isArrow_iff.1 h).1]
  decide

/-- An arrow starts with an equals sign. -/
theorem head?_of_isArrow {t : Token} (h : t.isArrow = true) : t.text.head? = some '=' := by
  rcases (isArrow_iff.1 h).2 with htext | htext
  · rw [htext]
    rfl
  · rw [htext]
    rfl

namespace MarkedToken

/-! ## §2. What marks do to a token. -/

/-- The token is marked as a shorthand property. -/
def isProperty (m : MarkedToken) : Prop :=
  m.added = [m.token, colonToken, spaceToken, receiverToken, pointToken]

/-- The token is marked as a member. -/
def isMember (m : MarkedToken) : Prop := m.added = [receiverToken, pointToken]

/-- What can be marked is a word; nothing but the inside of a string grows.  So
parentheses and arrows are the same before and after. -/
structure Steady (m : MarkedToken) : Prop where
  grown : m.token.kind ≠ .value → m.token.kind ≠ .templateString → m.grown = m.token
  added : m.added = [] ∨ (m.token.kind = .symbol ∨ m.token.kind = .operator ∧
    m.token.isArrow = false) ∧ (m.isMember ∨ m.token.kind = .symbol ∧ m.isProperty)

/-- Only a symbol, or an operator spelled as a word, gets tokens in front of it. -/
theorem Steady.added_of_kind {m : MarkedToken} (h : m.Steady) (hsymbol : m.token.kind ≠ .symbol)
    (hoperator : m.token.kind ≠ .operator) : m.added = [] := by
  rcases h.added with hnil | ⟨hk | ⟨hk, -⟩, -⟩
  · exact hnil
  · exact absurd hk hsymbol
  · exact absurd hk hoperator

theorem Steady.added_of_isBlank {m : MarkedToken} (h : m.Steady) (hblank : m.token.isBlank = true) :
    m.added = [] := by
  have hkind := kind_of_isBlank hblank
  exact h.added_of_kind (by rw [hkind]; decide) (by rw [hkind]; decide)

/-- An arrow gets none. -/
theorem Steady.added_of_isArrow {m : MarkedToken} (h : m.Steady) (harrow : m.token.isArrow = true) :
    m.added = [] := by
  rcases h.added with hnil | ⟨hk | ⟨-, hk⟩, -⟩
  · exact hnil
  · rw [(isArrow_iff.1 harrow).1] at hk
    cases hk
  · rw [hk] at harrow
    cases harrow

/-- A token that starts like an identifier is a symbol, or an operator but no
arrow. -/
theorem kind_of_isIdentifierStart {t : Token} (h : t.Spelled) {c : Char} {w : Text}
    (ht : t.text = c :: w) (hc : isIdentifierStart c = true) :
    t.kind = .symbol ∨ t.kind = .operator ∧ t.isArrow = false := by
  have hpart := isIdentifierPart_of_isIdentifierStart hc
  have harrow : t.isArrow = false := by
    rw [← Bool.not_eq_true]
    intro harrow
    have hhead := head?_of_isArrow harrow
    rw [ht] at hhead
    cases hhead
    exact absurd hc (by decide)
  -- words and the operators of the table are left: nothing else starts so
  cases h with
  | blank _ hall =>
    obtain rfl : _ = c :: w := ht
    have hblank := hall c List.mem_cons_self
    rw [isBlank_of_isIdentifierPart hpart] at hblank
    cases hblank
  | string _ hquote =>
    rw [(List.cons.inj ht).1, isQuote_of_isIdentifierPart hpart] at hquote
    cases hquote
  | number _ hall =>
    obtain rfl : _ = c :: w := ht
    rcases hall c List.mem_cons_self with hd | rfl
    · rw [isAsciiDigit_of_isIdentifierStart hc] at hd
      cases hd
    · exact absurd hc (by decide)
  | operator _ => exact Or.inr ⟨rfl, harrow⟩
  | @identifier d v _ _ =>
    by_cases hkind : identifierKind (d :: v) = .symbol
    · exact Or.inl hkind
    · refine Or.inr ⟨?_, harrow⟩
      show identifierKind (d :: v) = .operator
      unfold identifierKind at hkind ⊢
      split at hkind
      · next hany => rw [if_pos hany]
      · exact absurd rfl hkind
  | punctuation hk =>
    have hne := ofPunctuation?_forall (P := fun c _ => isIdentifierStart c = false) (by decide) hk
    rw [(List.cons.inj ht).1, hc] at hne
    cases hne

/-- A token that starts with a quote is a string. -/
theorem kind_of_isQuote {t : Token} (h : t.Spelled) {c : Char} {w : Text}
    (ht : t.text = c :: w) (hc : isQuote c = true) :
    t.kind = .value ∨ t.kind = .templateString := by
  have hpart := isIdentifierPart_of_isQuote hc
  -- no other kind of token can start with a quote
  cases h with
  | blank _ hall =>
    obtain rfl : _ = c :: w := ht
    have hblank := hall c List.mem_cons_self
    rw [isBlank_of_isQuote hc] at hblank
    cases hblank
  | string hk _ => exact hk.symm
  | number _ _ => exact Or.inl rfl
  | operator hmem =>
    have hall : ∀ op ∈ operators, op.head?.all (fun x => !isQuote x) = true := by decide
    obtain rfl : _ = c :: w := ht
    have hno := hall _ hmem
    simp [hc] at hno
  | identifier hstart _ =>
    rw [(List.cons.inj ht).1] at hstart
    rw [isIdentifierPart_of_isIdentifierStart hstart] at hpart
    cases hpart
  | punctuation hk =>
    have hne := ofPunctuation?_forall (P := fun c _ => isQuote c = false) (by decide) hk
    rw [(List.cons.inj ht).1, hc] at hne
    cases hne

/-- A token read off a text and off the marked text is steady. -/
theorem Lexed.steady_head {before : Text} {m : MarkedToken} {ms : List MarkedToken}
    (h : Lexed before (m :: ms)) : m.Steady := by
  have hcases := h.added_cases
  cases h with
  | cons read reread valid unmarked more =>
    constructor
    · intro hvalue htemplate
      -- a token that is no literal does not start with a quote, so nothing in it is
      -- marked
      have hquote : isQuote m.first = false := by
        cases hq : isQuote m.first with
        | false => rfl
        | true =>
          rcases kind_of_isQuote read.spelled m.text_eq hq with hk | hk
          · exact absurd hk hvalue
          · exact absurd hk htemplate
      have hrest := unmarked hquote
      show (⟨m.token.kind, m.first :: new m.rest⟩ : Token) = m.token
      rw [hrest, new_plain, ← m.text_eq]
    · rcases hcases with ⟨-, hadded⟩ | ⟨hstart, -, hadded⟩ | ⟨hstart, hkind, -, -, hadded⟩
      · exact Or.inl hadded
      · exact Or.inr ⟨kind_of_isIdentifierStart read.spelled m.text_eq hstart, Or.inl hadded⟩
      · exact Or.inr ⟨Or.inl hkind, Or.inr ⟨hkind, hadded⟩⟩

/-- So are all tokens of a text. -/
theorem Lexed.steady {before : Text} {ms : List MarkedToken} (h : Lexed before ms) :
    ∀ m ∈ ms, m.Steady := by
  induction h with
  | nil _ =>
    intro m hm
    cases hm
  | cons read reread valid unmarked more ih =>
    exact List.forall_mem_cons.2
      ⟨Lexed.steady_head (.cons read reread valid unmarked more), ih⟩

/-! ## §3. Matching parentheses. -/

/-- Neither a parenthesis nor an arrow.  Such a token opens no scope and is not
counted when parameters are sought. -/
def Quiet (t : Token) : Prop :=
  t.kind ≠ .rightParen ∧ t.kind ≠ .leftParen ∧ t.isArrow = false

/-- The tokens of marks do not take part in arrow functions. -/
theorem Steady.quiet {m : MarkedToken} (h : m.Steady) : ∀ t ∈ m.added, Quiet t := by
  have hreceiver : Quiet receiverToken ∧ Quiet pointToken ∧ Quiet colonToken ∧ Quiet spaceToken := by
    unfold Quiet
    decide
  obtain ⟨hthis, hpoint, hcolon, hspace⟩ := hreceiver
  rcases h.added with hadded | ⟨-, hadded | ⟨hkind, hadded⟩⟩
  · rw [hadded]
    intro t ht
    cases ht
  · rw [show m.added = _ from hadded]
    simp [hthis, hpoint]
  -- the key of a property is a symbol, and neither a parenthesis nor an arrow
  · have htoken : Quiet m.token := by
      unfold Quiet
      rw [isArrow_eq_false (by rw [hkind]; decide), hkind]
      decide
    rw [show m.added = _ from hadded]
    simp [hthis, hpoint, hcolon, hspace, htoken]

/-- The tokens of the marked text before a token, nearest first. -/
def backward (done : List MarkedToken) : List Token :=
  done.flatMap fun m => m.grown :: m.added.reverse

@[simp] theorem backward_cons (m : MarkedToken) (done : List MarkedToken) :
    backward (m :: done) = m.grown :: (m.added.reverse ++ backward done) := rfl

/-- There are as many tokens before a token as the marked tokens there stand
for. -/
theorem length_backward (done : List MarkedToken) :
    (backward done).length = (tokensOf done.reverse).length := by
  induction done with
  | nil => rfl
  | cons m done ih =>
    simp only [backward_cons, List.reverse_cons, tokensOf, List.flatMap_append] at ih ⊢
    simp only [List.length_cons, List.length_append, List.length_reverse, ih, tokens,
      List.flatMap_cons, List.flatMap_nil, List.append_nil, List.length_nil]
    omega

/-- One step on the way back from a closing parenthesis. -/
theorem matchingOpen_cons (depth : Nat) (t : Token) (before : List Token) :
    matchingOpen depth (t :: before) =
      if t.kind = .rightParen then
        (matchingOpen (depth + 1) before).map fun p => (t :: p.1, p.2)
      else if t.kind = .leftParen then
        match depth with
        | 0 => some ([], before.length)
        | d + 1 => (matchingOpen d before).map fun p => (t :: p.1, p.2)
      else (matchingOpen depth before).map fun p => (t :: p.1, p.2) := by
  cases depth <;> rfl

/-- Quiet tokens are passed on the way back. -/
theorem matchingOpen_append {quiet : List Token} (h : ∀ t ∈ quiet, Quiet t) (depth : Nat)
    (before : List Token) :
    matchingOpen depth (quiet ++ before) =
      (matchingOpen depth before).map fun p => (quiet ++ p.1, p.2) := by
  induction quiet with
  | nil => simp
  | cons t quiet ih =>
    obtain ⟨hright, hleft, -⟩ := h t List.mem_cons_self
    rw [List.cons_append, matchingOpen_cons, if_neg hright, if_neg hleft,
      ih fun u hu => h u (List.mem_cons_of_mem t hu), Option.map_map]
    rfl

/-- A symbol is among the tokens if it is the first one or among the others. -/
theorem mem_symbolTexts_cons {name : Text} {t : Token} {ts : List Token} :
    name ∈ symbolTexts (t :: ts) ↔ (t.kind = .symbol ∧ t.text = name) ∨ name ∈ symbolTexts ts := by
  unfold symbolTexts
  by_cases h : t.kind = .symbol
  · rw [List.filter_cons_of_pos (by simpa using h), List.map_cons, List.mem_cons]
    constructor
    · rintro (rfl | hmem)
      · exact Or.inl ⟨h, rfl⟩
      · exact Or.inr hmem
    · rintro (⟨-, rfl⟩ | hmem)
      · exact Or.inl rfl
      · exact Or.inr hmem
  · rw [List.filter_cons_of_neg (by simpa using h)]
    simp [h]

theorem mem_symbolTexts_append {name : Text} {s t : List Token} :
    name ∈ symbolTexts (s ++ t) ↔ name ∈ symbolTexts s ∨ name ∈ symbolTexts t := by
  unfold symbolTexts
  rw [List.filter_append, List.map_append, List.mem_append]

theorem mem_symbolTexts_reverse {name : Text} {ts : List Token} :
    name ∈ symbolTexts ts.reverse ↔ name ∈ symbolTexts ts := by
  unfold symbolTexts
  rw [List.filter_reverse, List.map_reverse, List.mem_reverse]

/-- A symbol between two parentheses is between them in the marked text. -/
theorem Steady.mem_symbolTexts {m : MarkedToken} (h : m.Steady) {name : Text} {ts ts' : List Token}
    (hsub : ∀ name ∈ symbolTexts ts, name ∈ symbolTexts ts')
    (hmem : name ∈ symbolTexts (m.token :: ts)) :
    name ∈ symbolTexts (m.grown :: (m.added.reverse ++ ts')) := by
  rw [mem_symbolTexts_cons] at hmem ⊢
  rcases hmem with ⟨hkind, htext⟩ | hmem
  · refine Or.inl ⟨hkind, ?_⟩
    rw [h.grown (by rw [hkind]; decide) (by rw [hkind]; decide)]
    exact htext
  · exact Or.inr (mem_symbolTexts_append.2 (Or.inr (hsub name hmem)))

/-- Other symbols than those of the text are the receiver's. -/
theorem Steady.symbolTexts_subset {m : MarkedToken} (h : m.Steady) {name : Text}
    {ts ts' : List Token}
    (hsub : ∀ name ∈ symbolTexts ts', name = receiver ∨ name ∈ symbolTexts ts)
    (hmem : name ∈ symbolTexts (m.grown :: (m.added.reverse ++ ts'))) :
    name = receiver ∨ name ∈ symbolTexts (m.token :: ts) := by
  rw [mem_symbolTexts_cons, mem_symbolTexts_append, mem_symbolTexts_reverse] at hmem
  rw [mem_symbolTexts_cons]
  -- the symbol is the token, one of its mark, or one of the tokens before
  rcases hmem with ⟨hkind, htext⟩ | hmem | hmem
  · have hkind' : m.token.kind = .symbol := hkind
    rw [h.grown (by rw [hkind']; decide) (by rw [hkind']; decide)] at htext
    exact Or.inr (Or.inl ⟨hkind', htext⟩)
  · rcases h.added with hadded | ⟨-, hadded | ⟨hkind, hadded⟩⟩
    · rw [hadded] at hmem
      cases hmem
    · rw [show m.added = _ from hadded] at hmem
      exact Or.inl (List.mem_singleton.1 hmem)
    · rw [show m.added = _ from hadded, mem_symbolTexts_cons] at hmem
      rcases hmem with ⟨-, htext⟩ | hmem
      · exact Or.inr (Or.inl ⟨hkind, htext⟩)
      · exact Or.inl (List.mem_singleton.1 hmem)
  · exact (hsub name hmem).imp id Or.inr

/-- The parenthesis that matches is the same one in the marked text. -/
theorem exists_matchingOpen_backward {depth : Nat} {done : List MarkedToken}
    (hs : ∀ m ∈ done, m.Steady) {between : List Token} {start : Nat}
    (h : matchingOpen depth (done.map token) = some (between, start)) :
    ∃ between' pre p earlier, done = pre ++ p :: earlier ∧ start = earlier.length ∧
      p.added = [] ∧
      matchingOpen depth (backward done) = some (between', (backward earlier).length) ∧
      (∀ name ∈ symbolTexts between, name ∈ symbolTexts between') ∧
      ∀ name ∈ symbolTexts between', name = receiver ∨ name ∈ symbolTexts between := by
  induction done generalizing depth between with
  | nil => cases h
  | cons m done ih =>
    have hm := hs m List.mem_cons_self
    have hquiet : ∀ t ∈ m.added.reverse, Quiet t := fun t ht => hm.quiet t (List.mem_reverse.1 ht)
    have hkind : m.grown.kind = m.token.kind := rfl
    -- walking on past this token, in both texts
    have hon : ∀ {d : Nat},
        (matchingOpen d (done.map token)).map (fun p => (m.token :: p.1, p.2)) =
          some (between, start) →
        ∃ between' pre p earlier, m :: done = pre ++ p :: earlier ∧ start = earlier.length ∧
          p.added = [] ∧ (matchingOpen d (m.added.reverse ++ backward done)).map
            (fun p => (m.grown :: p.1, p.2)) = some (between', (backward earlier).length) ∧
          (∀ name ∈ symbolTexts between, name ∈ symbolTexts between') ∧
          ∀ name ∈ symbolTexts between', name = receiver ∨ name ∈ symbolTexts between := by
      intro d hd
      obtain ⟨⟨b, s⟩, hb, heq⟩ := Option.map_eq_some_iff.1 hd
      simp only [Prod.mk.injEq] at heq
      obtain ⟨rfl, rfl⟩ := heq
      obtain ⟨b', pre, p, earlier, rfl, hstart, hp, hmatch, hsub, hsub'⟩ :=
        ih (fun x hx => hs x (List.mem_cons_of_mem m hx)) hb
      refine ⟨m.grown :: (m.added.reverse ++ b'), m :: pre, p, earlier, rfl, hstart, hp, ?_, ?_, ?_⟩
      · rw [matchingOpen_append hquiet, hmatch]
        rfl
      · intro name hname
        exact hm.mem_symbolTexts hsub hname
      · intro name hname
        exact hm.symbolTexts_subset hsub' hname
    rw [List.map_cons, matchingOpen_cons] at h
    rw [backward_cons, matchingOpen_cons, hkind]
    split at h
    · next hright =>
      rw [if_pos hright]
      exact hon h
    next hright =>
    rw [if_neg hright]
    split at h
    · next hleft =>
      rw [if_pos hleft]
      split at h
      · cases h
        have hadded := hm.added_of_kind (by rw [hleft]; decide) (by rw [hleft]; decide)
        refine ⟨[], [], m, done, rfl, by rw [List.length_map], hadded, ?_,
          fun name hname => hname, fun name hname => Or.inr hname⟩
        rw [hadded]
        rfl
      · exact hon h
    · next hleft =>
      rw [if_neg hleft]
      exact hon h

/-! ## §4. Scopes. -/

/-- Where the `i`-th token starts among the tokens of the marked text.  Scopes
of the two texts are compared through it. -/
def place (all : List MarkedToken) (i : Nat) : Nat := (tokensOf (all.take i)).length

/-- The token at which `done` ends. -/
theorem getElem?_length {all done ms : List MarkedToken} {m : MarkedToken}
    (hall : all = done.reverse ++ m :: ms) : all[done.length]? = some m := by
  rw [hall, List.getElem?_append_right (by simp)]
  simp

/-- The next token starts behind this one and what is added in front of it. -/
theorem place_succ {all : List MarkedToken} {i : Nat} {m : MarkedToken} (hm : all[i]? = some m) :
    place all (i + 1) = place all i + m.added.length + 1 := by
  rw [place, place, List.take_add_one, hm]
  simp [tokensOf, MarkedToken.tokens]
  omega

/-- Later tokens start later in the marked text. -/
theorem place_mono (all : List MarkedToken) {i j : Nat} (h : i ≤ j) : place all i ≤ place all j := by
  obtain ⟨d, rfl⟩ := Nat.exists_eq_add_of_le h
  rw [place, place, List.take_add, tokensOf, tokensOf, List.flatMap_append, List.length_append]
  omega

/-- What shows `s` shows `s'`: a scope starts no later, save behind the mark
of its own parameter. -/
structure Carries (all : List MarkedToken) (s s' : ArrowScope) : Prop where
  params : ∀ name ∈ s.params, name ∈ s'.params
  start : s'.start ≤ place all s.start ∨
    ∃ m, all[s.start]? = some m ∧ m.isMember ∧ s'.start ≤ place all s.start + 2

/-- The scope `s'` is `s` in the marked text: it starts with the same token, and
has no other parameter than the receiver. -/
structure Tracks (all : List MarkedToken) (s s' : ArrowScope) : Prop extends Carries all s s' where
  only : ∀ name ∈ s'.params, name = receiver ∨ name ∈ s.params
  same : ∃ m, all[s.start]? = some m ∧ s'.start = place all s.start + m.added.length

/-- Scopes that are the same in the marked text show there what they showed. -/
theorem carries_of_tracks {all : List MarkedToken} {scopes scopes' : List ArrowScope}
    (h : List.Forall₂ (Tracks all) scopes scopes') :
    ∀ s ∈ scopes, ∃ s' ∈ scopes', Carries all s s' := by
  induction h with
  | nil =>
    intro s hs
    cases hs
  | @cons s s' scopes scopes' htracks _ ih =>
    refine List.forall_mem_cons.2 ⟨⟨s', List.mem_cons_self, htracks.toCarries⟩, ?_⟩
    intro t ht
    obtain ⟨t', ht', hcarries⟩ := ih t ht
    exact ⟨t', List.mem_cons_of_mem s' ht', hcarries⟩

/-- A shorthand property is not the parameter of an arrow: no arrow comes next
behind it. -/
def PropertiesEnd (all : List MarkedToken) : Prop :=
  ∀ pre m post, all = pre ++ m :: post → m.isProperty →
    ∀ u, post.find? (fun u => !u.token.isBlank) = some u → u.token.isArrow = false

/-- A token starts behind all tokens of the marked text before it. -/
theorem place_reverse (earlier rest : List MarkedToken) :
    place (earlier.reverse ++ rest) earlier.length = (backward earlier).length := by
  rw [place, List.take_left' List.length_reverse, length_backward]

/-- The nearest token that is not blank is the same one in the marked text. -/
theorem exists_dropWhile_backward {done : List MarkedToken} (hs : ∀ m ∈ done, m.Steady) :
    ∃ blanks nearest, done = blanks ++ nearest ∧ (∀ b ∈ blanks, b.token.isBlank = true) ∧
      (done.map token).dropWhile Token.isBlank = nearest.map token ∧
      (backward done).dropWhile Token.isBlank = backward nearest := by
  induction done with
  | nil => exact ⟨[], [], rfl, by simp, rfl, rfl⟩
  | cons m done ih =>
    -- a blank has no mark, and is dropped on both sides
    by_cases hblank : m.token.isBlank = true
    · obtain ⟨blanks, nearest, rfl, hblanks, hdrop, hdrop'⟩ :=
        ih fun x hx => hs x (List.mem_cons_of_mem m hx)
      refine ⟨m :: blanks, nearest, rfl, List.forall_mem_cons.2 ⟨hblank, hblanks⟩, ?_, ?_⟩
      · rw [List.map_cons, List.dropWhile_cons_of_pos hblank]
        exact hdrop
      · have hgrown : m.grown.isBlank = true := hblank
        rw [backward_cons, (hs m List.mem_cons_self).added_of_isBlank hblank,
          List.dropWhile_cons_of_pos hgrown]
        exact hdrop'
    · refine ⟨[], m :: done, rfl, by simp, ?_, ?_⟩
      · rw [List.map_cons, List.dropWhile_cons_of_neg hblank]
      · have hgrown : ¬ m.grown.isBlank = true := hblank
        rw [backward_cons, List.dropWhile_cons_of_neg hgrown]

/-- A single parameter opens a scope that starts with it; in the marked text
the scope starts behind its mark. -/
theorem tracks_parameter {all earlier later : List MarkedToken} {t : MarkedToken}
    (hall : all = earlier.reverse ++ t :: later) (ht : t.Steady) (hsymbol : t.token.kind = .symbol)
    (hproperty : ¬ t.isProperty) :
    Tracks all ⟨earlier.length, [t.token.text]⟩
      ⟨(t.added.reverse ++ backward earlier).length, [t.grown.text]⟩ := by
  have hplace : place all earlier.length = (backward earlier).length := by
    rw [hall]
    exact place_reverse earlier _
  have hget := getElem?_length hall
  -- the scope starts at the parameter itself, behind what is inserted before it
  have hstart : (t.added.reverse ++ backward earlier).length =
      place all earlier.length + t.added.length := by
    rw [List.length_append, List.length_reverse, hplace, Nat.add_comm]
  rw [ht.grown (by rw [hsymbol]; decide) (by rw [hsymbol]; decide)]
  refine ⟨⟨fun name hname => hname, ?_⟩, fun name hname => Or.inr hname, t, hget, hstart⟩
  -- a marked parameter has moved by its mark, which a property cannot have
  rcases ht.added with hnil | ⟨-, hmember | ⟨-, hprop⟩⟩
  · refine Or.inl (Nat.le_of_eq (hstart.trans ?_))
    rw [hnil]
    rfl
  · refine Or.inr ⟨t, hget, hmember, Nat.le_of_eq (hstart.trans ?_)⟩
    rw [show t.added = _ from hmember]
    rfl
  · exact absurd hprop hproperty

/-- Parameters in parentheses open a scope that starts with them. -/
theorem exists_tracks_parentheses {all earlier later : List MarkedToken}
    (hall : all = earlier.reverse ++ later) (hs : ∀ m ∈ earlier, m.Steady) {between : List Token}
    {start : Nat} (h : matchingOpen 0 (earlier.map token) = some (between, start)) :
    ∃ between' start', matchingOpen 0 (backward earlier) = some (between', start') ∧
      Tracks all ⟨start, symbolTexts between.reverse⟩ ⟨start', symbolTexts between'.reverse⟩ := by
  obtain ⟨between', pre, p, first, rfl, rfl, hp, hmatch, hsub, hsub'⟩ :=
    exists_matchingOpen_backward hs h
  have hallp : all = first.reverse ++ p :: (pre.reverse ++ later) := by
    rw [hall]
    simp
  -- the list starts with its parenthesis, which is never marked
  have hplace : place all first.length = (backward first).length := by
    rw [hallp]
    exact place_reverse first _
  refine ⟨between', _, hmatch, ⟨⟨?_, Or.inl (Nat.le_of_eq hplace.symm)⟩, ?_, p,
    getElem?_length hallp, ?_⟩⟩
  · intro name hname
    rw [mem_symbolTexts_reverse] at hname ⊢
    exact hsub name hname
  · intro name hname
    rw [mem_symbolTexts_reverse] at hname ⊢
    exact hsub' name hname
  · rw [hplace, hp]
    rfl

/-- Behind blanks, the next token is the one that is not blank. -/
theorem find?_behind_blanks {blanks rest : List MarkedToken} {m : MarkedToken}
    (hblanks : ∀ b ∈ blanks, b.token.isBlank = true) (hm : m.token.isBlank = false) :
    (blanks ++ m :: rest).find? (fun u => !u.token.isBlank) = some m := by
  rw [List.find?_append, List.find?_eq_none.2, Option.none_or]
  · rw [List.find?_cons_of_pos (by rw [hm]; rfl)]
  · intro b hb
    rw [hblanks b hb]
    decide

/-- The scope of an arrow in the marked text. -/
theorem exists_scopeBefore_backward {expr : Text} (expr' : Text) {all done rest : List MarkedToken}
    {m : MarkedToken} (hall : all = done.reverse ++ m :: rest) (hs : ∀ m ∈ done, m.Steady)
    (hends : PropertiesEnd all) (harrow : m.token.isArrow = true) {scope : Option ArrowScope}
    (h : scopeBefore expr (done.map token) = .ok scope) :
    ∃ scope', scopeBefore expr' (backward done) = .ok scope' ∧
      List.Forall₂ (Tracks all) scope.toList scope'.toList := by
  obtain ⟨blanks, nearest, rfl, hblanks, hdrop, hdrop'⟩ := exists_dropWhile_backward hs
  unfold scopeBefore at h ⊢
  rw [hdrop] at h
  rw [hdrop']
  cases nearest with
  | nil =>
    cases h
    exact ⟨none, rfl, .nil⟩
  | cons t earlier =>
    have ht := hs t (by simp)
    have hearlier : ∀ x ∈ earlier, x.Steady := fun x hx => hs x (by simp [hx])
    have hallt : all = earlier.reverse ++ t :: (blanks.reverse ++ m :: rest) := by
      rw [hall]
      simp
    have hkind : t.grown.kind = t.token.kind := rfl
    simp only [List.map_cons, backward_cons, hkind] at h ⊢
    split at h
    · next hright =>
      rw [if_pos hright, ht.added_of_kind (by rw [hright]; decide) (by rw [hright]; decide)]
      split at h
      · cases h
      · next between start hmatch =>
        cases h
        obtain ⟨between', start', hmatch', htracks⟩ :=
          exists_tracks_parentheses hallt hearlier hmatch
        refine ⟨some ⟨start', symbolTexts between'.reverse⟩, ?_, .cons htracks .nil⟩
        rw [List.reverse_nil, List.nil_append, hmatch']
    next hright =>
    rw [if_neg hright]
    split at h
    · next hsymbol =>
      rw [if_pos hsymbol]
      cases h
      -- behind a shorthand property stands no arrow
      have hproperty : ¬ t.isProperty := by
        intro hproperty
        have hfind : (blanks.reverse ++ m :: rest).find? (fun u => !u.token.isBlank) = some m :=
          find?_behind_blanks (fun b hb => hblanks b (List.mem_reverse.1 hb))
            (isBlank_of_isArrow harrow)
        rw [hends _ _ _ hallt hproperty m hfind] at harrow
        cases harrow
      refine ⟨_, rfl, .cons ?_ .nil⟩
      rw [List.length_map]
      exact tracks_parameter hallt ht hsymbol hproperty
    · next hsymbol =>
      rw [if_neg hsymbol]
      cases h
      exact ⟨none, rfl, .nil⟩

/-- Tokens that are no arrows open no scope. -/
theorem arrowScopesFrom_append {quiet : List Token} (h : ∀ t ∈ quiet, Quiet t) (expr : Text)
    (before rest : List Token) :
    arrowScopesFrom expr before (quiet ++ rest) =
      arrowScopesFrom expr (quiet.reverse ++ before) rest := by
  induction quiet generalizing before with
  | nil => rfl
  | cons t quiet ih =>
    have harrow := (h t List.mem_cons_self).2.2
    rw [List.cons_append, arrowScopesFrom, if_neg (by rw [harrow]; decide),
      ih fun u hu => h u (List.mem_cons_of_mem t hu), List.reverse_cons, List.append_assoc]
    rfl

/-- An arrow is an arrow in the marked text, and nothing else becomes one. -/
theorem isArrow_grown {m : MarkedToken} (h : m.Steady) : m.grown.isArrow = m.token.isArrow := by
  by_cases hkind : m.token.kind = .operator
  · rw [h.grown (by rw [hkind]; decide) (by rw [hkind]; decide)]
  · have hkind' : m.grown.kind ≠ .operator := hkind
    rw [isArrow_eq_false hkind, isArrow_eq_false hkind']

/-- The scopes of the marked text are those of the text. -/
theorem exists_arrowScopesFrom {expr : Text} (expr' : Text) {all done ms : List MarkedToken}
    (hall : all = done.reverse ++ ms) (hs : ∀ m ∈ all, m.Steady) (hends : PropertiesEnd all)
    {scopes : List ArrowScope}
    (h : arrowScopesFrom expr (done.map token) (ms.map token) = .ok scopes) :
    ∃ scopes', arrowScopesFrom expr' (backward done) (tokensOf ms) = .ok scopes' ∧
      List.Forall₂ (Tracks all) scopes scopes' := by
  induction ms generalizing done scopes with
  | nil =>
    cases h
    exact ⟨[], rfl, .nil⟩
  | cons m ms ih =>
    have hm : m.Steady := hs m (by rw [hall]; simp)
    have hdone : ∀ x ∈ done, x.Steady := fun x hx => hs x (by rw [hall]; simp [hx])
    have hall' : all = (m :: done).reverse ++ ms := by
      rw [hall]
      simp
    rw [List.map_cons, arrowScopesFrom] at h
    rw [tokensOf_cons, tokens, List.append_assoc, arrowScopesFrom_append hm.quiet,
      List.singleton_append, arrowScopesFrom, isArrow_grown hm]
    -- the tokens of a mark are passed; only an arrow of the text opens a scope
    by_cases harrow : m.token.isArrow = true
    · rw [if_pos harrow] at h
      rw [if_pos harrow]
      have hadded := hm.added_of_isArrow harrow
      obtain ⟨scope, hscope, h⟩ := bind_eq_ok_iff.1 h
      obtain ⟨more, hmore, h⟩ := bind_eq_ok_iff.1 h
      cases h
      obtain ⟨scope', hscope', htracks⟩ :=
        exists_scopeBefore_backward expr' hall hdone hends harrow hscope
      obtain ⟨more', hmore', htracks'⟩ := ih hall' hmore
      rw [backward_cons, hadded, List.reverse_nil, List.nil_append] at hmore'
      refine ⟨scope'.toList ++ more', ?_, List.rel_append htracks htracks'⟩
      rw [hadded, List.reverse_nil, List.nil_append, hscope', hmore']
      rfl
    · rw [if_neg harrow] at h
      rw [if_neg harrow]
      exact ih hall' h

/-- A parameter that is visible at a token is visible at it in the marked text,
if the token is not marked as a member. -/
theorem isParameterAt_new {all : List MarkedToken} {scopes scopes' : List ArrowScope}
    (hcarries : ∀ s ∈ scopes, ∃ s' ∈ scopes', Carries all s s') {i : Nat} {m : MarkedToken}
    (hm : all[i]? = some m) (hmember : ¬ m.isMember) {name : Text}
    (h : isParameterAt scopes i name = true) : isParameterAt scopes' (place all i) name = true := by
  unfold isParameterAt at h ⊢
  rw [List.any_eq_true] at h ⊢
  obtain ⟨s, hs, hvisible⟩ := h
  simp only [Bool.and_eq_true, decide_eq_true_eq, List.contains_iff_mem] at hvisible
  obtain ⟨s', hs', hc⟩ := hcarries s hs
  refine ⟨s', hs', ?_⟩
  simp only [Bool.and_eq_true, decide_eq_true_eq, List.contains_iff_mem]
  refine ⟨?_, hc.params name hvisible.2⟩
  -- the scope starts no later, or else behind the mark of its own parameter
  rcases hc.start with hstart | ⟨x, hx, hxm, hstart⟩
  · exact Nat.le_trans hstart (place_mono all hvisible.1)
  · rcases Nat.lt_or_ge s.start i with hlt | hge
    · -- the token in between is marked itself
      have hnext : place all (s.start + 1) = place all s.start + 3 := by
        rw [place_succ hx, show x.added = _ from hxm]
        rfl
      have hle : place all (s.start + 1) ≤ place all i := place_mono all hlt
      omega
    · obtain rfl : s.start = i := Nat.le_antisymm hvisible.1 hge
      rw [hm] at hx
      cases hx
      exact absurd hxm hmember

end MarkedToken

end QwebReceiver.Expr
