import QwebReceiver.Proofs.Expr.Failure
import QwebReceiver.Proofs.Expr.Rewritten

/-!
  QwebReceiver.Proofs.Expr.Compose — qualifying an expression twice.

  An expression that was qualified against one set of names may be qualified
  again against another.  Whatever the first pass left alone it left alone for
  a reason: the name is bound, or the tokens around it say so.  The second pass
  finds the same tokens around it, so it comes to the verdict that it would
  have come to at once.  Whatever the first pass made a member of `this` stays
  one.  Hence a name is left alone by both exactly if each of them binds it or
  has another reason, and the two passes are one pass against the names that
  both bind.

  Main results:

    * `isParameterAt_place` — a token that was left alone sees the same
      parameters;
    * `qualifyTokens_rewritten` — the second pass, token by token;
    * `qualify_compose` — two passes are one.
-/

namespace QwebReceiver

/-! ## §1. Names that two sets have in common. -/

/-- The names in both sets.  Qualifying against one set and then against the
other binds just these. -/
def NameSet.inter (s t : NameSet) : NameSet :=
  { toList := s.toList.filter t.contains, ascending := s.ascending.filter _ }

@[simp] theorem NameSet.mem_inter {x : Text} {s t : NameSet} : x ∈ s.inter t ↔ x ∈ s ∧ x ∈ t := by
  show x ∈ s.toList.filter t.contains ↔ _
  rw [List.mem_filter, NameSet.contains_eq_true]
  exact Iff.rfl

theorem NameSet.inter_comm (s t : NameSet) : s.inter t = t.inter s := by
  apply NameSet.ext
  intro x
  rw [mem_inter, mem_inter, and_comm]

theorem NameSet.inter_self (s : NameSet) : s.inter s = s := by
  apply NameSet.ext
  intro x
  rw [mem_inter, and_self_iff]

namespace Expr

open QwebReceiver.Text MarkedText MarkedToken

/-! ## §2. Verdicts of two passes. -/

section Verdicts

variable {first second : NameSet} {scopes scopes' : List ArrowScope} {site site' : Site}
  {name : Text}

/-- Of a name that the first pass leaves alone, the names bound in both are
those of the second. -/
theorem verdict_inter_of_keep (h : verdict first scopes site name = .keep) :
    verdict (first.inter second) scopes site name = verdict second scopes site name := by
  by_cases hbound : first.contains name = true
  -- a name bound in the first set is common if and only if it is bound in the second
  · have hsame : (first.inter second).contains name = second.contains name := by
      rw [NameSet.contains_eq_true] at hbound
      refine decide_eq_decide.2 ?_
      rw [NameSet.mem_inter]
      exact and_iff_right hbound
    rw [verdict, hsame, verdict]
  · -- there is another reason, and it is one in every pass
    have hkeep : ∀ bound : NameSet, verdict bound scopes site name = .keep := by
      intro bound
      rw [verdict_eq_keep_iff] at h ⊢
      rcases h with (h | h | h) | h
      · exact Or.inl (Or.inl h)
      · exact Or.inl (Or.inr (Or.inl h))
      · exact absurd h hbound
      · exact Or.inr h
    rw [hkeep, hkeep]

/-- What the first pass does not leave alone is not bound in both. -/
theorem verdict_inter_of_ne_keep (h : verdict first scopes site name ≠ .keep) :
    verdict (first.inter second) scopes site name = verdict first scopes site name := by
  have hbound : first.contains name = false := by
    rw [← Bool.not_eq_true]
    intro hbound
    exact h (verdict_eq_keep_iff.2 (Or.inl (Or.inr (Or.inr hbound))))
  have hboth : (first.inter second).contains name = false := by
    rw [← Bool.not_eq_true, NameSet.contains_eq_true, NameSet.mem_inter]
    intro hmem
    rw [NameSet.contains_eq_true.2 hmem.1] at hbound
    cases hbound
  rw [verdict, hboth, verdict, hbound]

/-- A verdict depends on the visible parameters and on the tokens around. -/
theorem verdict_congr {bound : NameSet}
    (hparam : name ≠ receiver →
      isParameterAt scopes' site'.index name = isParameterAt scopes site.index name)
    (hmember : site'.isMember = site.isMember) (hkey : site'.isKey = site.isKey)
    (hshort : site'.isShorthand = site.isShorthand) :
    verdict bound scopes' site' name = verdict bound scopes site name := by
  by_cases hname : name = receiver
  · rw [verdict_eq_keep_iff.2 (Or.inl (Or.inl hname)),
      verdict_eq_keep_iff.2 (Or.inl (Or.inl hname))]
  · rw [verdict, hparam hname, hmember, hkey, hshort, verdict]

end Verdicts

/-! ## §3. Parameters and neighbours. -/

/-- A token that was left alone sees the parameters that it saw. -/
theorem isParameterAt_place {all : List MarkedToken} {scopes scopes' : List ArrowScope}
    (h : List.Forall₂ (Tracks all) scopes scopes') {i : Nat} {m : MarkedToken}
    (hm : all[i]? = some m) (hadded : m.added = []) {name : Text} (hname : name ≠ receiver) :
    isParameterAt scopes' (place all i) name = isParameterAt scopes i name := by
  induction h with
  | nil => rfl
  | @cons s s' scopes scopes' htracks _ ih =>
    have hparams : s'.params.contains name = s.params.contains name := by
      rw [Bool.eq_iff_iff, List.contains_iff_mem, List.contains_iff_mem]
      exact ⟨fun h => (htracks.only name h).resolve_left hname, htracks.params name⟩
    have hstart : s'.start ≤ place all i ↔ s.start ≤ i := by
      obtain ⟨x, hx, hstart⟩ := htracks.same
      have hnext := place_succ hx
      have hnext' := place_succ hm
      rw [hadded, List.length_nil] at hnext'
      -- only at the start of the scope itself could the two come to differ
      rcases Nat.lt_trichotomy s.start i with hlt | rfl | hgt
      · have hle : place all (s.start + 1) ≤ place all i := place_mono all hlt
        omega
      · rw [hm] at hx
        cases hx
        rw [hadded, List.length_nil] at hstart
        omega
      · have hle : place all (i + 1) ≤ place all s.start := place_mono all hgt
        omega
    show (decide (s'.start ≤ place all i) && s'.params.contains name ||
        isParameterAt scopes' (place all i) name) =
      (decide (s.start ≤ i) && s.params.contains name || isParameterAt scopes i name)
    rw [hparams, ih, decide_eq_decide.2 hstart]

/-- What is marked is an identifier.  A mark on anything else could be met by
the second pass, and the two passes would not compose. -/
def Named (m : MarkedToken) : Prop :=
  m.added = [] ∨ m.token.kind = .symbol ∧ (m.isMember ∨ m.isProperty)

/-- The next token that is not blank is of the same kind in the marked text. -/
theorem kind_find_tokensOf {ms : List MarkedToken} (h : ∀ m ∈ ms, Named m) :
    ((tokensOf ms).find? fun t => !t.isBlank).map Token.kind =
      ((ms.map token).find? fun t => !t.isBlank).map Token.kind := by
  induction ms with
  | nil => rfl
  | cons m ms ih =>
    rw [tokensOf_cons, MarkedToken.tokens, List.map_cons]
    -- a token without marks is blank or not as it was; what is marked is a symbol, and
    -- the first token of its mark is one too
    rcases h m List.mem_cons_self with hadded | ⟨hkind, hadded⟩
    · rw [hadded, List.nil_append, List.singleton_append]
      cases hblank : m.token.isBlank with
      | true =>
        have hgrown : m.grown.isBlank = true := hblank
        rw [List.find?_cons_of_neg (by rw [hgrown]; decide),
          List.find?_cons_of_neg (by rw [hblank]; decide)]
        exact ih fun u hu => h u (List.mem_cons_of_mem m hu)
      | false =>
        have hgrown : m.grown.isBlank = false := hblank
        rw [List.find?_cons_of_pos (by rw [hgrown]; rfl),
          List.find?_cons_of_pos (by rw [hblank]; rfl)]
        rfl
    · have hblank : m.token.isBlank = false := isBlank_of_kind (by rw [hkind]; decide)
      rw [List.find?_cons_of_pos (by rw [hblank]; rfl), Option.map_some, hkind]
      rcases hadded with hadded | hadded
      · rw [show m.added = _ from hadded]
        rfl
      · rw [show m.added = _ from hadded, List.cons_append, List.cons_append,
          List.find?_cons_of_pos (by rw [hblank]; rfl), Option.map_some, hkind]

/-- Sites between the same kinds of tokens are alike. -/
theorem site_congr (i i' : Nat) {last last' after after' : Option Token}
    (group : Option TokenKind) (htwin : Twin last last')
    (hafter : after'.map Token.kind = after.map Token.kind) :
    Site.isMember ⟨i', last', after', group⟩ = Site.isMember ⟨i, last, after, group⟩ ∧
      Site.isKey ⟨i', last', after', group⟩ = Site.isKey ⟨i, last, after, group⟩ ∧
      Site.isShorthand ⟨i', last', after', group⟩ = Site.isShorthand ⟨i, last, after, group⟩ := by
  -- of the next token only its kind is asked for
  have hany : ∀ p : TokenKind → Bool,
      (after'.any fun t => p t.kind) = after.any fun t => p t.kind := by
    intro p
    have hmap : ∀ o : Option Token, (o.any fun t => p t.kind) = (o.map Token.kind).any p := by
      intro o
      rw [Option.any_map]
    rw [hmap, hmap, hafter]
  have hcolon := hany fun k => k = .colon
  have hends := hany fun k => k = .rightBrace || k = .comma
  have hproperty : Site.atProperty ⟨i', last', after', group⟩ =
      Site.atProperty ⟨i, last, after, group⟩ := htwin.property
  refine ⟨htwin.member, ?_, ?_⟩
  · show (Site.atProperty _ && _) = (Site.atProperty _ && _)
    rw [hproperty]
    exact congrArg _ hcolon
  · show (_ && Site.atProperty _ && _) = (_ && Site.atProperty _ && _)
    rw [hproperty]
    exact congrArg _ hends

/-! ## §4. The second pass. -/

section

variable {inner₁ inner₂ inner : Scanner}

/-- Of a text, the two scanners one after the other make what the third one
makes. -/
def Composes (inner₁ inner₂ inner : Scanner) (e : Text) : Prop :=
  ∀ out both, (inner₁ e).outcome = .ok out → (inner e).outcome = .ok both →
    (inner₂ out).outcome = .ok both

/-- Holes that were filled are filled again. -/
theorem fillPieces_filled {ps qs : List Piece} (h : List.Forall₂ (Filled inner₁) ps qs)
    (hcompose : ∀ opening e closing, Piece.hole opening e closing ∈ ps →
      Composes inner₁ inner₂ inner e)
    {both : Text} (hboth : (fillPieces inner ps).outcome = .ok both) :
    (fillPieces inner₂ qs).outcome = .ok both := by
  induction h generalizing both with
  | nil => exact hboth
  | @cons p q ps qs hfilled _ ih =>
    have hrest : ∀ {rest : Text}, (fillPieces inner ps).outcome = .ok rest →
        (fillPieces inner₂ qs).outcome = .ok rest :=
      fun h => ih (fun o e c hmem => hcompose o e c (List.mem_cons_of_mem p hmem)) h
    cases p with
    | plain c =>
      obtain rfl : q = .plain c := hfilled
      obtain ⟨rest, hps, rfl⟩ := fillPieces_plain_eq_ok hboth
      exact fillPieces_plain_of_ok (hrest hps)
    -- only here do the two scanners meet: the filled hole is filled again
    | hole o e c =>
      obtain ⟨filled, rfl, hfill⟩ := hfilled
      obtain ⟨filled', rest, hfill', hps, rfl⟩ := fillPieces_hole_eq_ok hboth
      have hagain := hcompose o e c List.mem_cons_self filled filled' hfill hfill'
      exact fillPieces_hole_of_ok hagain (hrest hps)

variable {first second : NameSet} {scopes scopes' : List ArrowScope}

/-- What became of a token with its marks. -/
theorem rewritten_cases {site : Site} {m : MarkedToken}
    (h : Rewritten inner first scopes site m.token m.tokens) :
    (m.token.kind = .symbol ∧ m.tokens = (verdict first scopes site m.token.text).tokens m.token) ∨
    (m.token.kind = .templateString ∧ m.added = [] ∧
      List.Forall₂ (Filled inner) (Piece.ofTemplateLiteral m.token.text)
        (Piece.ofTemplateLiteral m.grown.text)) ∨
    (m.token.kind ≠ .templateString ∧ m.token.kind ≠ .symbol ∧ m.added = [] ∧
      m.grown = m.token) := by
  -- what became of a token ends with the token itself, so nothing was added if it is
  -- alone
  have hone : ∀ {u : Token}, m.tokens = [u] → m.added = [] ∧ m.grown = u := by
    intro u hu
    obtain ⟨hadded, hgrown⟩ := List.append_inj' (show m.added ++ [m.grown] = [] ++ [u] from hu) rfl
    exact ⟨hadded, (List.cons.inj hgrown).1⟩
  generalize htokens : m.tokens = us at h
  cases h with
  | symbol hkind => exact Or.inl ⟨hkind, rfl⟩
  | template hkind _ hfilled =>
    obtain ⟨hadded, rfl⟩ := hone htokens
    exact Or.inr (Or.inl ⟨hkind, hadded, hfilled⟩)
  | other htemplate hsymbol =>
    obtain ⟨hadded, hgrown⟩ := hone htokens
    exact Or.inr (Or.inr ⟨htemplate, hsymbol, hadded, hgrown⟩)

/-- An identifier with its marks, verdict by verdict. -/
theorem tokens_cases {v : Verdict} {m : MarkedToken} (h : m.tokens = v.tokens m.token) :
    m.grown = m.token ∧ ((v = .keep ∧ m.added = []) ∨ (v = .member ∧ m.isMember) ∨
      (v = .property ∧ m.isProperty)) := by
  -- the last token is the identifier, and those before it are the mark
  have hsplit : ∀ added : List Token, v.tokens m.token = added ++ [m.token] →
      m.added = added ∧ m.grown = m.token := by
    intro added hadded
    obtain ⟨hfront, hlast⟩ := List.append_inj' (h.trans hadded) rfl
    exact ⟨hfront, (List.cons.inj hlast).1⟩
  cases v with
  | keep =>
    obtain ⟨hadded, hgrown⟩ := hsplit [] rfl
    exact ⟨hgrown, Or.inl ⟨rfl, hadded⟩⟩
  | member =>
    obtain ⟨hadded, hgrown⟩ := hsplit [receiverToken, pointToken] rfl
    exact ⟨hgrown, Or.inr (Or.inl ⟨rfl, hadded⟩)⟩
  | property =>
    obtain ⟨hadded, hgrown⟩ :=
      hsplit [m.token, colonToken, spaceToken, receiverToken, pointToken] rfl
    exact ⟨hgrown, Or.inr (Or.inr ⟨rfl, hadded⟩)⟩

/-- Qualifying marks identifiers only. -/
theorem named_of_rewritten {site : Site} {m : MarkedToken}
    (h : Rewritten inner first scopes site m.token m.tokens) : Named m := by
  rcases rewritten_cases h with ⟨hkind, htokens⟩ | ⟨-, hadded, -⟩ | ⟨-, -, hadded, -⟩
  · obtain ⟨-, ⟨-, hadded⟩ | ⟨-, hadded⟩ | ⟨-, hadded⟩⟩ := tokens_cases htokens
    · exact Or.inl hadded
    · exact Or.inr ⟨hkind, Or.inl hadded⟩
    · exact Or.inr ⟨hkind, Or.inr hadded⟩
  · exact Or.inl hadded
  · exact Or.inl hadded

section Token

variable {m : MarkedToken} {ms : List MarkedToken} {site : Site} {expr : Text} {i : Nat}
  {last : Option Token} {groups groups' : List TokenKind} {text out : Text}

/-- A token that was left alone goes in front of tokens that were qualified
again. -/
theorem qualifyTokens_unmarked (hadded : m.added = []) (hblank : m.token.isBlank = false)
    (htext : (qualifyToken inner₂ second scopes'
      ⟨i, last, (tokensOf ms).find? fun u => !u.isBlank, groups.head?⟩ m.grown).outcome = .ok text)
    (hgroups : groupsAfter m.token.kind groups = some groups')
    (hrest : (qualifyTokens inner₂ second scopes' expr (i + m.added.length + 1) (some m.grown)
      groups' (tokensOf ms)).outcome = .ok out) :
    (qualifyTokens inner₂ second scopes' expr i last groups (m.tokens ++ tokensOf ms)).outcome =
      .ok (text ++ out) := by
  rw [hadded] at hrest
  rw [MarkedToken.tokens, hadded]
  exact (qualifyTokens_token inner₂ second scopes' (t := m.grown) hblank).2
    ⟨text, groups', out, htext, hgroups, hrest, rfl⟩

/-- So does an identifier with what the first pass made of it: a member of
`this` is one again, and a shorthand property is a key now. -/
theorem qualifyTokens_symbol (hkind : m.token.kind = .symbol)
    (htokens : m.tokens = (verdict first scopes site m.token.text).tokens m.token)
    (htwin : Twin site.before last)
    (hverdict : m.added = [] → ∀ bound : NameSet,
      verdict bound scopes' ⟨i, last, (tokensOf ms).find? fun u => !u.isBlank, groups.head?⟩
        m.token.text = verdict bound scopes site m.token.text)
    (hrest : (qualifyTokens inner₂ second scopes' expr (i + m.added.length + 1) (some m.grown)
      groups (tokensOf ms)).outcome = .ok out) :
    (qualifyTokens inner₂ second scopes' expr i last groups (m.tokens ++ tokensOf ms)).outcome =
      .ok ((verdict (first.inter second) scopes site m.token.text).write m.token.text ++ out) := by
  have hblank : m.token.isBlank = false := isBlank_of_kind (by rw [hkind]; decide)
  have hgroups : groupsAfter m.token.kind groups = some groups := by
    rw [hkind]
    rfl
  obtain ⟨hgrown, ⟨hv, hadded⟩ | ⟨hv, hadded⟩ | ⟨hv, hadded⟩⟩ := tokens_cases htokens
  · rw [verdict_inter_of_keep hv]
    refine qualifyTokens_unmarked hadded hblank ?_ hgroups hrest
    rw [hgrown, outcome_qualifyToken_symbol _ _ _ hkind, hverdict hadded second]
  · -- `this` stays, and what stands behind the period is a member
    have hlen : m.added.length = 2 := by rw [show m.added = _ from hadded]; rfl
    rw [verdict_inter_of_ne_keep (by rw [hv]; decide), hv]
    rw [hlen, hgrown] at hrest
    rw [MarkedToken.tokens, show m.added = _ from hadded, hgrown]
    have hagain : (qualifyTokens inner₂ second scopes' expr i last groups
        (receiverToken :: pointToken :: m.token :: tokensOf ms)).outcome =
        .ok (receiverMark ++ (m.token.text ++ out)) :=
      qualifyTokens_member (Or.inl hkind) hgroups hrest
    simpa [Verdict.write, receiverMark] using hagain
  · have hlen : m.added.length = 5 := by rw [show m.added = _ from hadded]; rfl
    -- the colon that was inserted is the next token
    have hkey : verdict second scopes' ⟨i, last, some colonToken, groups.head?⟩ m.token.text =
        .keep := by
      have hshort := isShorthand_of_verdict hv
      refine verdict_eq_keep_iff.2 (Or.inr (Or.inr (Or.inr ?_)))
      simp only [Site.isShorthand, Site.atProperty, Bool.and_eq_true] at hshort
      simp only [Site.isKey, Site.atProperty, Bool.and_eq_true]
      exact ⟨htwin.property.trans hshort.1.2, rfl⟩
    rw [verdict_inter_of_ne_keep (by rw [hv]; decide), hv]
    rw [hlen, hgrown] at hrest
    rw [MarkedToken.tokens, show m.added = _ from hadded, hgrown]
    have hagain := qualifyTokens_property hkind hkind hkey hrest
    simpa [Verdict.write, receiverMark] using hagain

/-- And so does any token. -/
theorem qualifyTokens_again (hrewritten : Rewritten inner₁ first scopes site m.token m.tokens)
    (hcompose : ∀ opening e closing,
      Piece.hole opening e closing ∈ Piece.ofTemplateLiteral m.token.text →
        Composes inner₁ inner₂ inner e)
    (hblank : m.token.isBlank = false) (htwin : Twin site.before last)
    (hverdict : m.added = [] → ∀ bound : NameSet,
      verdict bound scopes' ⟨i, last, (tokensOf ms).find? fun u => !u.isBlank, groups.head?⟩
        m.token.text = verdict bound scopes site m.token.text)
    (htext : (qualifyToken inner (first.inter second) scopes site m.token).outcome = .ok text)
    (hgroups : groupsAfter m.token.kind groups = some groups')
    (hrest : (qualifyTokens inner₂ second scopes' expr (i + m.added.length + 1) (some m.grown)
      groups' (tokensOf ms)).outcome = .ok out) :
    (qualifyTokens inner₂ second scopes' expr i last groups (m.tokens ++ tokensOf ms)).outcome =
      .ok (text ++ out) := by
  rcases rewritten_cases hrewritten with ⟨hkind, htokens⟩ | ⟨hkind, hadded, hfilled⟩ |
    ⟨htemplate, hsymbol, hadded, hgrown⟩
  -- an identifier: the verdict of the second pass is the one on its neighbours
  · rw [outcome_qualifyToken_symbol _ _ _ hkind] at htext
    obtain rfl := Except.ok.inj htext
    obtain rfl : groups = groups' := by
      rw [hkind] at hgroups
      exact Option.some.inj hgroups
    exact qualifyTokens_symbol hkind htokens htwin hverdict hrest
  -- a template literal: its holes are filled again
  · have hkind' : m.grown.kind = .templateString := hkind
    refine qualifyTokens_unmarked hadded hblank ?_ hgroups hrest
    simp only [qualifyToken, hkind] at htext
    simp only [qualifyToken, hkind']
    exact fillPieces_filled hfilled hcompose htext
  · refine qualifyTokens_unmarked hadded hblank ?_ hgroups hrest
    rw [qualifyToken_of_other _ _ _ htemplate hsymbol] at htext
    rw [hgrown, qualifyToken_of_other _ _ _ htemplate hsymbol]
    exact htext

end Token

/-- Of all tokens that were qualified, only identifiers were marked. -/
theorem forall_named {xs : List (Site × Token)} {ms : List MarkedToken}
    (h : List.Forall₂ (Became inner first scopes) xs ms) : ∀ m ∈ ms, Named m := by
  induction h with
  | nil =>
    intro m hm
    cases hm
  | cons hx _ ih =>
    obtain ⟨htoken, hrewritten⟩ := hx
    rw [htoken] at hrewritten
    exact List.forall_mem_cons.2 ⟨named_of_rewritten hrewritten, ih⟩

/-- **The second pass, token by token.**  What the first pass made of a token is
met with the same scopes and between the same kinds of tokens, and so it is
judged in the same way. -/
theorem qualifyTokens_rewritten {all done ms : List MarkedToken} (hall : all = done.reverse ++ ms)
    (hs : ∀ m ∈ all, m.Steady) (htracks : List.Forall₂ (Tracks all) scopes scopes')
    {last last' : Option Token} {groups : List TokenKind} {xs : List (Site × Token)}
    (hxs : sited done.length last groups (ms.map token) = some xs)
    (hbecame : List.Forall₂ (Became inner₁ first scopes) xs ms)
    (hcompose : ∀ m ∈ ms, ∀ opening e closing,
      Piece.hole opening e closing ∈ Piece.ofTemplateLiteral m.token.text →
        Composes inner₁ inner₂ inner e)
    (htwin : Twin last last') (expr expr' : Text) {both : Text}
    (hboth : (qualifyTokens inner (first.inter second) scopes expr done.length last groups
      (ms.map token)).outcome = .ok both) :
    (qualifyTokens inner₂ second scopes' expr' (place all done.length) last' groups
      (tokensOf ms)).outcome = .ok both := by
  induction ms generalizing done last last' groups xs both with
  | nil => exact hboth
  | cons m ms ih =>
    have hget := getElem?_length hall
    have hplace := place_succ hget
    have hm : m.Steady := hs m (by rw [hall]; simp)
    have hall' : all = (m :: done).reverse ++ ms := by
      rw [hall]
      simp
    have hcompose' := fun u (hu : u ∈ ms) => hcompose u (List.mem_cons_of_mem m hu)
    rw [List.map_cons] at hxs hboth
    rw [tokensOf_cons]
    cases hblank : m.token.isBlank with
    | true =>
      have hadded := hm.added_of_isBlank hblank
      have hkind := kind_of_isBlank hblank
      have hgrown := hm.grown (by rw [hkind]; decide) (by rw [hkind]; decide)
      rw [sited, if_pos hblank] at hxs
      obtain ⟨xs, hxs', rfl⟩ := Option.map_eq_some_iff.1 hxs
      rw [qualifyTokens_blank _ _ _ hblank] at hboth
      rw [MarkedToken.tokens, hadded, hgrown, List.nil_append, List.singleton_append,
        qualifyTokens_blank _ _ _ hblank]
      cases hbecame with
      | cons _ hmore =>
        cases hrest : (qualifyTokens inner (first.inter second) scopes expr (done.length + 1) last
            groups (ms.map token)).outcome with
        | error e =>
          rw [hrest] at hboth
          cases hboth
        | ok out =>
          rw [hrest] at hboth
          have hrest' := ih hall' hxs' hmore hcompose' htwin hrest
          rw [List.length_cons, hplace, hadded] at hrest'
          rw [show place all done.length + 1 = place all done.length + ([] : List Token).length + 1
            from rfl, hrest']
          exact hboth
    | false =>
      obtain ⟨text, groups', out, htext, hgroups, hrest, rfl⟩ :=
        (qualifyTokens_token inner (first.inter second) scopes hblank).1 hboth
      rw [sited, if_neg (by rw [hblank]; decide), hgroups, Option.bind_some] at hxs
      obtain ⟨xs, hxs', rfl⟩ := Option.map_eq_some_iff.1 hxs
      cases hbecame with
      | cons hx hmore =>
        have hrest' := ih hall' hxs' hmore hcompose' (twin_grown hm) hrest
        rw [List.length_cons, hplace] at hrest'
        refine qualifyTokens_again hx.rewritten (hcompose m List.mem_cons_self) hblank htwin ?_ htext
          hgroups hrest'
        -- left alone, the token has the neighbours and the parameters that it had
        intro hadded bound
        obtain ⟨hmember, hkey, hshort⟩ := site_congr done.length (place all done.length)
          groups.head? htwin (kind_find_tokensOf (forall_named hmore))
        exact verdict_congr (isParameterAt_place htracks hget hadded) hmember hkey hshort

end

/-! ## §5. Expressions. -/

/-- Two passes over an expression make what one pass makes. -/
theorem composes_qualify (first second : NameSet) (expr : Text) :
    Composes (qualify first) (qualify second) (qualify (first.inter second)) expr := by
  induction hlength : expr.length using Nat.strong_induction_on generalizing expr with
  | _ n ih =>
    subst hlength
    intro out both hout hboth
    obtain ⟨scopes, ms, xs, hread, hscopes, hlex, hxs, hall, hmargins⟩ := exists_rewritten hout
    rw [qualify_eq] at hboth
    obtain ⟨ts, scopes₀, text, hread₀, hscopes₀, htext, rfl⟩ := outcome_qualifyWith_iff.1 hboth
    -- the pass against both sets reads the tokens that the first pass read
    obtain rfl : ms.map token = ts := Except.ok.inj (hread.symm.trans hread₀)
    obtain rfl : scopes = scopes₀ := Except.ok.inj (hscopes.symm.trans hscopes₀)
    have htrim : trim out = new (marksOf ms) := by rw [trim, hmargins]
    obtain ⟨scopes', hscopes', htracks⟩ := exists_arrowScopesFrom (trim out)
      (show ms = [].reverse ++ ms from rfl) hlex.steady (propertiesEnd_of_lexed hlex) hscopes
    -- an interpolation is shorter than the expression
    have hcompose : ∀ m ∈ ms, ∀ opening e closing,
        Piece.hole opening e closing ∈ Piece.ofTemplateLiteral m.token.text →
          Composes (qualify first) (qualify second) (qualify (first.inter second)) e := by
      intro m hm opening e closing hhole
      have hpart := infix_of_tokenize hread m.token (List.mem_map_of_mem hm)
      have hle := hpart.length_le.trans (infix_body expr).length_le
      exact ih e.length ((infix_of_hole_mem hhole).2.trans_le hle) e rfl
    have hagain := qualifyTokens_rewritten (show ms = [].reverse ++ ms from rfl) hlex.steady htracks
      hxs hall hcompose ⟨rfl, rfl⟩ (trim expr) (trim out) htext
    rw [qualify_eq]
    refine outcome_qualifyWith_iff.2 ⟨tokensOf ms, scopes', text, ?_, hscopes', hagain, ?_⟩
    · rw [htrim]
      exact hlex.tokenize_eq
    · rw [hmargins]

/-- What can be qualified against some names can be qualified against any. -/
theorem exists_qualify_of_ok {bound : NameSet} {expr out : Text}
    (h : (qualify bound expr).outcome = .ok out) (bound' : NameSet) :
    ∃ out', (qualify bound' expr).outcome = .ok out' :=
  exists_outcome_of_wellFormed bound' ((succeeds_qualify_iff bound).1 ⟨out, h⟩)

/-- **Two passes are one pass against the names that both bind.**  So a second
pass against the same names changes nothing, and it does not matter which set
comes first. -/
theorem qualify_compose {first second : NameSet} {expr out : Text}
    (h : (qualify first expr).outcome = .ok out) :
    (∃ both, (qualify second out).outcome = .ok both ∧
      (qualify (first.inter second) expr).outcome = .ok both ∧
      ∃ out', (qualify second expr).outcome = .ok out' ∧
        (qualify first out').outcome = .ok both) ∧
      (qualify first out).outcome = .ok out := by
  obtain ⟨both, hboth⟩ := exists_qualify_of_ok h (first.inter second)
  obtain ⟨out', hout'⟩ := exists_qualify_of_ok h second
  have hagain := composes_qualify first second expr out both h hboth
  -- what both sets bind does not depend on which comes first
  have hother : (qualify first out').outcome = .ok both := by
    refine composes_qualify second first expr out' both hout' ?_
    rw [NameSet.inter_comm]
    exact hboth
  have hsame : (qualify first out).outcome = .ok out := by
    refine composes_qualify first first expr out out h ?_
    rw [NameSet.inter_self]
    exact h
  exact ⟨⟨both, hagain, hboth, out', hout', hother⟩, hsame⟩

/-- The parameter `p` and the name `a` stay in the first pass, and only the
parameter in the second. -/
theorem qualify_compose_sample :
    (qualify (.ofList ["a".toList]) "p => [p, a, {b}, `${a + b}`]".toList).outcome =
        .ok "p => [p, a, {b: this.b}, `${a + this.b}`]".toList ∧
      (∃ both,
        (qualify (.ofList ["b".toList]) "p => [p, a, {b: this.b}, `${a + this.b}`]".toList).outcome =
            .ok both ∧
          (qualify ((NameSet.ofList ["a".toList]).inter (.ofList ["b".toList]))
            "p => [p, a, {b}, `${a + b}`]".toList).outcome = .ok both ∧
          ∃ out', (qualify (.ofList ["b".toList]) "p => [p, a, {b}, `${a + b}`]".toList).outcome =
              .ok out' ∧
            (qualify (.ofList ["a".toList]) out').outcome = .ok both) ∧
      (qualify (.ofList ["a".toList]) "p => [p, a, {b: this.b}, `${a + this.b}`]".toList).outcome =
        .ok "p => [p, a, {b: this.b}, `${a + this.b}`]".toList := by
  have h : (qualify (.ofList ["a".toList]) "p => [p, a, {b}, `${a + b}`]".toList).outcome =
      .ok "p => [p, a, {b: this.b}, `${a + this.b}`]".toList := by
    decide +kernel
  exact ⟨h, qualify_compose h⟩

end Expr
end QwebReceiver
