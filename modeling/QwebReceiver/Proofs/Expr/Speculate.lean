import Mathlib.Data.List.Forall2
import QwebReceiver.Proofs.Expr.Qualify

/-!
  QwebReceiver.Proofs.Expr.Speculate — qualifying in one pass.

  Arrow parameters stand before the arrow that makes them parameters.
  `qualify` therefore looks for all arrows first and judges the identifiers
  afterwards.  The other way to do it is a single scan from left to right that
  judges every identifier when it comes to it, as if no arrow followed:

    `) =>`   walks back to the matching `(`, gives every identifier on the way
             its own text back and takes them all for parameters
    `x =>`   takes `x` for a parameter before it judges it

  Both stop where a bracket is closed that is not open, where the `)` before
  an arrow has no partner, and where an interpolation cannot be qualified.
  They come to the same (`toOption_qualify`): at every token the scan has
  judged the tokens behind it by the scopes whose arrow it has seen, and a
  scope seen later either starts at the token or takes back what it covers.
-/

namespace QwebReceiver.Expr

open QwebReceiver.Text
open MarkedToken (matchingOpen_cons mem_symbolTexts_cons mem_symbolTexts_reverse)

/-! ## §1. The scan. -/

/-- Fills every hole with what `inner` makes of it.  The first hole that fails
makes the whole fail. -/
def fillHoles (inner : Text → Option Text) : List Piece → Option Text
  | [] => some []
  | .plain c :: rest => (fillHoles inner rest).map (c :: ·)
  | .hole opening expr closing :: rest =>
    (inner expr).bind fun filled =>
      (fillHoles inner rest).map fun out => opening ++ filled ++ closing ++ out

/-- A token that was scanned, and the text it has been given.  The text may be
taken back later, when the token turns out to be a parameter. -/
structure Slot where
  token : Token
  text : Text

/-- An identifier gets its own text back.  Other tokens keep theirs, as no
binding changes them. -/
def Slot.restore (s : Slot) : Slot :=
  if s.token.kind = .symbol then { s with text := s.token.text } else s

/-- Walks back from a closing parenthesis to the one that opens it, over the
slots before it, nearest first: the slots between the two, and those from the
opening one on. -/
def walkBack : Nat → List Slot → Option (List Slot × List Slot)
  | _, [] => none
  | depth, s :: before =>
    if s.token.kind = .rightParen then
      (walkBack (depth + 1) before).map fun p => (s :: p.1, p.2)
    else if s.token.kind = .leftParen then
      match depth with
      | 0 => some ([], s :: before)
      | d + 1 => (walkBack d before).map fun p => (s :: p.1, p.2)
    else (walkBack depth before).map fun p => (s :: p.1, p.2)

/-- How far the scan has come: the slots of the tokens behind it, nearest
first, the parameters it has met, and the brackets that are open. -/
structure Speculation where
  done : List Slot := []
  params : NameSet := ∅
  groups : List TokenKind := []

/-- Whether the next token that is not blank is an arrow.  It is the only look
ahead that the scan needs. -/
def arrowNext (rest : List Token) : Bool := (rest.find? fun u => !u.isBlank).any Token.isArrow

/-- The text of a token if only the `known` names are in scope.  Interpolations
are left to `inner`, which does not see the parameters. -/
def speculateToken (inner : Text → Option Text) (known : NameSet) (site : Site) (t : Token) :
    Option Text :=
  match t.kind with
  | .templateString => fillHoles inner (Piece.ofTemplateLiteral t.text)
  | .symbol => some ((verdict known [] site t.text).write t.text)
  | _ => some t.text

namespace Speculation

/-- The parameters by which a token is judged: a lone parameter is known before
it is judged. -/
def paramsAt (s : Speculation) (t : Token) (rest : List Token) : NameSet :=
  if t.kind = .symbol ∧ arrowNext rest = true then s.params.insert t.text else s.params

/-- Leaves a token behind with its text; a parameter list that ends with it is
taken back. -/
def leave (s : Speculation) (t : Token) (rest : List Token) (text : Text) : Option Speculation :=
  if t.kind = .rightParen ∧ arrowNext rest = true then
    (walkBack 0 s.done).map fun p =>
      { s with
        done := ⟨t, text⟩ :: (p.1.map Slot.restore ++ p.2)
        params := s.params.insertAll (symbolTexts (p.1.map Slot.token)) }
  else some { s with done := ⟨t, text⟩ :: s.done, params := s.paramsAt t rest }

/-- Where the scan stands; `rest` are the tokens after the one it has come to. -/
def site (s : Speculation) (rest : List Token) : Site :=
  ⟨s.done.length, (s.done.map Slot.token).find? fun u => !u.isBlank,
    rest.find? fun u => !u.isBlank, s.groups.head?⟩

/-- Scans one token; `rest` are the tokens after it. -/
def step (inner : Text → Option Text) (bound : NameSet) (s : Speculation) (t : Token)
    (rest : List Token) : Option Speculation :=
  if t.isBlank then some { s with done := ⟨t, t.text⟩ :: s.done }
  else
    (speculateToken inner (bound.union (s.paramsAt t rest)) (s.site rest) t).bind fun text =>
      (groupsAfter t.kind s.groups).bind fun groups =>
        (s.leave t rest text).map fun s => { s with groups }

/-- Scans all tokens. -/
def run (inner : Text → Option Text) (bound : NameSet) : Speculation → List Token → Option Speculation
  | s, [] => some s
  | s, t :: rest => (s.step inner bound t rest).bind fun s => run inner bound s rest

/-- The text that the slots make up. -/
def text (s : Speculation) : Text := s.done.reverse.flatMap Slot.text

end Speculation

/-- Qualifies an expression in one pass, with `inner` for the interpolations of
its template strings. -/
def speculateWith (inner : Text → Option Text) (bound : NameSet) (expr : Text) : Option Text :=
  match margins expr with
  | (before, body, after) =>
    if body.isEmpty then some expr
    else do
      let tokens ← (tokenize body).toOption
      let s ← Speculation.run inner bound {} tokens
      some (before ++ s.text ++ after)

/-- Qualifies an expression in one pass. -/
def speculate (bound : NameSet) (expr : Text) : Option Text :=
  speculateWith
    (fun inner => if _ : inner.length < expr.length then speculate bound inner else some inner)
    bound expr
termination_by expr.length

/-! ## §2. Results without their errors. -/

section ToOption

variable {ε α β : Type}

theorem toOption_map (f : α → β) (x : Except ε α) : (x.map f).toOption = x.toOption.map f := by
  cases x with
  | error e => rfl
  | ok a => rfl

/-- Two steps have a result if the first has one, and the second on it. -/
theorem toOption_bind (x : Except ε α) (f : α → Except ε β) :
    (x.bind f).toOption = x.toOption.bind fun a => (f a).toOption := by
  cases x with
  | error e => rfl
  | ok a => rfl

end ToOption

/-- Without the errors, filling pieces is filling holes. -/
theorem toOption_fillPieces (inner : Scanner) (pieces : List Piece) :
    (fillPieces inner pieces).outcome.toOption =
      fillHoles (fun e => (inner e).outcome.toOption) pieces := by
  induction pieces with
  | nil => rfl
  | cons p pieces ih =>
    cases p with
    | plain c => rw [outcome_fillPieces_plain, toOption_map, ih, fillHoles]
    | hole opening expr closing =>
      rw [outcome_fillPieces_hole, toOption_bind, fillHoles]
      simp only [toOption_map, ih]

/-! ## §3. The two phases apart. -/

section Phases

variable (inner : Scanner) (bound : NameSet)

/-- The text of a token at a site under scopes, all of which are known
beforehand.  The scan has to reach the same text with the scopes it has seen. -/
def scopedText (scopes : List ArrowScope) (x : Site × Token) : Option Text :=
  (qualifyToken inner bound scopes x.1 x.2).outcome.toOption

/-- The tokens with the sites at which they stand; nothing if a bracket is
closed that is not open. -/
def sited : Nat → Option Token → List TokenKind → List Token → Option (List (Site × Token))
  | _, _, _, [] => some []
  | i, last, groups, t :: rest =>
    let site : Site := ⟨i, last, rest.find? fun u => !u.isBlank, groups.head?⟩
    if t.isBlank then (sited (i + 1) last groups rest).map ((site, t) :: ·)
    else (groupsAfter t.kind groups).bind fun groups =>
      (sited (i + 1) (some t) groups rest).map ((site, t) :: ·)

/-- An identifier is written as the verdict on it demands. -/
theorem scopedText_of_symbol {scopes : List ArrowScope} {site : Site} {t : Token}
    (h : t.kind = .symbol) :
    scopedText inner bound scopes (site, t) =
      some ((verdict bound scopes site t.text).write t.text) := by
  rw [scopedText, outcome_qualifyToken_symbol inner bound scopes h]
  rfl

/-- Scopes matter to identifiers only. -/
theorem scopedText_of_not_symbol {scopes scopes' : List ArrowScope} {x : Site × Token}
    (h : x.2.kind ≠ .symbol) :
    scopedText inner bound scopes x = scopedText inner bound scopes' x := by
  unfold scopedText qualifyToken
  split
  · rfl
  · next hsymbol => exact absurd hsymbol h
  · rfl

/-- Whether a token has a text does not depend on the scopes. -/
theorem scopedText_eq_none {scopes : List ArrowScope} {x : Site × Token}
    (h : scopedText inner bound scopes x = none) (scopes' : List ArrowScope) :
    scopedText inner bound scopes' x = none := by
  by_cases hsymbol : x.2.kind = .symbol
  · rw [scopedText_of_symbol inner bound hsymbol] at h
    cases h
  · rw [← h]
    exact scopedText_of_not_symbol inner bound hsymbol

/-- A blank is written as it is. -/
theorem scopedText_blank {scopes : List ArrowScope} {x : Site × Token} (h : x.2.isBlank = true) :
    scopedText inner bound scopes x = some x.2.text := by
  have hkind : x.2.kind = .blank := of_decide_eq_true h
  unfold scopedText
  rw [qualifyToken_of_other inner bound scopes (by rw [hkind]; decide) (by rw [hkind]; decide)]
  rfl

/-- The text of tokens at their sites under scopes. -/
def scopedTexts (scopes : List ArrowScope) : List (Site × Token) → Option Text
  | [] => some []
  | x :: xs => (scopedText inner bound scopes x).bind fun text =>
    (scopedTexts scopes xs).map (text ++ ·)

/-- The text of tokens side by side is their texts, one after the other. -/
theorem scopedTexts_append (scopes : List ArrowScope) (xs ys : List (Site × Token)) :
    scopedTexts inner bound scopes (xs ++ ys) =
      (scopedTexts inner bound scopes xs).bind fun text =>
        (scopedTexts inner bound scopes ys).map (text ++ ·) := by
  induction xs with
  | nil =>
    show scopedTexts inner bound scopes ys =
      (some []).bind fun text => (scopedTexts inner bound scopes ys).map (text ++ ·)
    simp
  | cons x xs ih =>
    -- the texts are appended in the same order on both sides
    rw [List.cons_append, scopedTexts, ih, scopedTexts, Option.bind_assoc]
    congr 1
    funext text
    rw [Option.map_bind, Option.bind_map]
    congr 1
    funext text'
    simp [Function.comp_def]

/-- Tokens of which one has no text have none. -/
theorem scopedTexts_eq_none {scopes : List ArrowScope} {x : Site × Token}
    (h : scopedText inner bound scopes x = none) (xs ys : List (Site × Token)) :
    scopedTexts inner bound scopes (xs ++ x :: ys) = none := by
  rw [scopedTexts_append, scopedTexts, h]
  cases scopedTexts inner bound scopes xs with
  | none => rfl
  | some text => rfl

/-- The tokens are qualified site by site. -/
theorem toOption_qualifyTokens (scopes : List ArrowScope) (expr : Text) (i : Nat)
    (last : Option Token) (groups : List TokenKind) (ts : List Token) :
    (qualifyTokens inner bound scopes expr i last groups ts).outcome.toOption =
      (sited i last groups ts).bind (scopedTexts inner bound scopes) := by
  induction ts generalizing i last groups with
  | nil => rfl
  | cons t ts ih =>
    -- both go token by token, and fail at the first bracket that is not open
    by_cases hblank : t.isBlank = true
    · rw [qualifyTokens_blank inner bound scopes hblank, toOption_map, ih, sited, if_pos hblank,
        Option.map_bind, Option.bind_map]
      congr 1
      funext xs
      show _ = scopedTexts inner bound scopes (_ :: xs)
      rw [scopedTexts, scopedText_blank inner bound (x := (_, t)) hblank]
      rfl
    · have htoken : ∀ site, (qualifyToken inner bound scopes site t).outcome.toOption =
          scopedText inner bound scopes (site, t) := fun _ => rfl
      rw [qualifyTokens, if_neg hblank, Traced.outcome_bind, toOption_bind, htoken, sited,
        if_neg hblank]
      cases hgroups : groupsAfter t.kind groups with
      | none =>
        simp only [Option.bind_none]
        exact Option.bind_eq_none_iff.2 fun text _ => rfl
      | some groups' =>
        simp only [Traced.outcome_map, toOption_map, ih, Option.bind_some]
        rw [Option.bind_map]
        cases sited (i + 1) (some t) groups' ts with
        | none => exact Option.bind_eq_none_iff.2 fun text _ => rfl
        | some xs => rfl

end Phases

/-! ## §4. Scopes in the order of their parameters. -/

/-- The scopes that a token opens with an arrow after it; `before` are the
tokens before it, nearest first. -/
def scopeAt (before : List Token) (t : Token) : Option (List ArrowScope) :=
  if t.kind = .rightParen then
    (matchingOpen 0 before).map fun p => [⟨p.2, symbolTexts p.1.reverse⟩]
  else if t.kind = .symbol then some [⟨before.length, [t.text]⟩]
  else some []

/-- The scopes that a token opens; `rest` are the tokens after it. -/
def scopeOpened (before : List Token) (t : Token) (rest : List Token) : Option (List ArrowScope) :=
  if t.isBlank = false ∧ arrowNext rest = true then scopeAt before t else some []

/-- The scopes that tokens open, each listed where its last parameter stands.
Listed so, a scan meets them in order. -/
def scopesAlong : List Token → List Token → Option (List ArrowScope)
  | _, [] => some []
  | before, t :: rest =>
    (scopeOpened before t rest).bind fun opened =>
      (scopesAlong (t :: before) rest).map (opened ++ ·)

theorem arrowNext_blank {t : Token} (h : t.isBlank = true) (rest : List Token) :
    arrowNext (t :: rest) = arrowNext rest := by
  unfold arrowNext
  rw [List.find?_cons_of_neg (by simp [h])]

/-- What is not blank decides whether an arrow comes next. -/
theorem arrowNext_token {t : Token} (h : t.isBlank = false) (rest : List Token) :
    arrowNext (t :: rest) = t.isArrow := by
  unfold arrowNext
  rw [List.find?_cons_of_pos (by simp [h])]
  rfl

theorem scopeBefore_blank {t : Token} (h : t.isBlank = true) (expr : Text) (before : List Token) :
    scopeBefore expr (t :: before) = scopeBefore expr before := by
  unfold scopeBefore
  rw [List.dropWhile_cons_of_pos h]

/-- The scope before an arrow is the one that the last token there opens. -/
theorem toOption_scopeBefore {t : Token} (h : t.isBlank = false) (expr : Text)
    (before : List Token) :
    (scopeBefore expr (t :: before)).toOption.map Option.toList = scopeAt before t := by
  unfold scopeBefore scopeAt
  rw [List.dropWhile_cons_of_neg (by simp [h])]
  show (if t.kind = .rightParen then _ else _ : Except ExprError _).toOption.map _ = _
  split
  · cases matchingOpen 0 before with
    | none => rfl
    | some p => rfl
  · split
    · rfl
    · rfl

/-- The arrows find the scopes that stand before them. -/
theorem toOption_arrowScopesFrom (expr : Text) (before ts : List Token) :
    (arrowScopesFrom expr before ts).toOption =
      (if arrowNext ts = true then (scopeBefore expr before).toOption.map Option.toList
        else some []).bind fun pending => (scopesAlong before ts).map (pending ++ ·) := by
  -- the scan opens a scope one token ahead of its arrow: `pending` is the one
  -- it has opened already
  induction ts generalizing before with
  | nil => rfl
  | cons t ts ih =>
    rw [arrowScopesFrom, scopesAlong, scopeOpened]
    by_cases hblank : t.isBlank = true
    · have harrow : ¬ t.isArrow = true := by
        intro h
        rw [isBlank_of_isArrow h] at hblank
        cases hblank
      have hopened : (if t.isBlank = false ∧ arrowNext ts = true then scopeAt before t
          else some []) = some [] := if_neg (by simp [hblank])
      rw [if_neg harrow, ih, scopeBefore_blank hblank, arrowNext_blank hblank, hopened]
      simp
    · rw [Bool.not_eq_true] at hblank
      have hopened : (if t.isBlank = false ∧ arrowNext ts = true then scopeAt before t else some []) =
          if arrowNext ts = true then (scopeBefore expr (t :: before)).toOption.map Option.toList
          else some [] := by
        rw [toOption_scopeBefore hblank]
        simp [hblank]
      rw [arrowNext_token hblank, hopened]
      by_cases harrow : t.isArrow = true
      · rw [if_pos harrow, if_pos harrow, ← ih]
        show ((scopeBefore expr before).bind fun scope =>
          (arrowScopesFrom expr (t :: before) ts).bind fun scopes =>
            .ok (scope.toList ++ scopes)).toOption = _
        rw [toOption_bind, Option.bind_map]
        congr 1
        funext scope
        rw [toOption_bind]
        exact Option.map_eq_bind.symm
      · rw [if_neg harrow, if_neg harrow, ← ih]
        simp

/-- All scopes of an expression. -/
theorem toOption_arrowScopes (expr : Text) (ts : List Token) :
    (arrowScopes expr ts).toOption = scopesAlong [] ts := by
  have hnone : (if arrowNext ts = true then (scopeBefore expr []).toOption.map Option.toList
      else some []) = some [] := by
    split
    · rfl
    · rfl
  rw [arrowScopes, toOption_arrowScopesFrom, hnone]
  simp

/-! ## §5. The scan and the scopes it has seen. -/

section Agreement

variable {inner : Scanner} {bound : NameSet} {seen opened : List ArrowScope}
  {xs : List (Site × Token)} {s : Speculation} {t : Token} {rest : List Token}

/-- A slot holds the text that its token has under scopes.  This is the
invariant of the scan, slot by slot. -/
def Fits (inner : Scanner) (bound : NameSet) (scopes : List ArrowScope) (x : Site × Token)
    (slot : Slot) : Prop :=
  slot.token = x.2 ∧ scopedText inner bound scopes x = some slot.text

/-- The sites are numbered; the last one comes first, as the scan stacks what is
done. -/
def Numbered : List (Site × Token) → Prop
  | [] => True
  | x :: xs => x.1.index = xs.length ∧ Numbered xs

/-- The scan has judged the tokens behind it by the scopes it has seen.  With
all scopes seen this is the whole result. -/
structure Abreast (inner : Scanner) (bound : NameSet) (seen : List ArrowScope)
    (xs : List (Site × Token)) (s : Speculation) : Prop where
  slots : List.Forall₂ (Fits inner bound seen) xs s.done
  params : ∀ name, name ∈ s.params ↔ ∃ scope ∈ seen, name ∈ scope.params
  starts : ∀ scope ∈ seen, scope.start < xs.length
  numbered : Numbered xs

/-- The slots hold the tokens in their order. -/
theorem tokens_of_slots {slots : List Slot} (h : List.Forall₂ (Fits inner bound seen) xs slots) :
    slots.map Slot.token = xs.map Prod.snd := by
  induction h with
  | nil => rfl
  | cons hfit _ ih => rw [List.map_cons, List.map_cons, hfit.1, ih]

/-- The texts in the slots are those of the tokens under the scopes seen so far. -/
theorem texts_of_slots {slots : List Slot} (h : List.Forall₂ (Fits inner bound seen) xs slots) :
    scopedTexts inner bound seen xs.reverse = some (slots.reverse.flatMap Slot.text) := by
  induction h with
  | nil => rfl
  | @cons x slot xs slots hfit _ ih =>
    rw [List.reverse_cons, scopedTexts_append, ih, scopedTexts, hfit.2]
    simp [scopedTexts]

/-- Whether a name is a parameter at a site, one scope at a time. -/
theorem isParameterAt_append (scopes : List ArrowScope) (scope : ArrowScope) (i : Nat)
    (name : Text) :
    isParameterAt (scopes ++ [scope]) i name =
      (isParameterAt scopes i name || (scope.start ≤ i && scope.params.contains name)) := by
  simp [isParameterAt]

/-- A scope that starts later does not matter. -/
theorem Fits.of_later {x : Site × Token} {slot : Slot} (h : Fits inner bound seen x slot)
    {scope : ArrowScope} (hstart : x.1.index < scope.start) :
    Fits inner bound (seen ++ [scope]) x slot := by
  refine ⟨h.1, ?_⟩
  obtain ⟨site, token⟩ := x
  by_cases hsymbol : token.kind = .symbol
  · have hsame : isParameterAt (seen ++ [scope]) site.index token.text =
        isParameterAt seen site.index token.text := by
      rw [isParameterAt_append, decide_eq_false (Nat.not_le.2 hstart)]
      simp
    rw [← h.2, scopedText_of_symbol inner bound hsymbol, scopedText_of_symbol inner bound hsymbol,
      verdict, hsame, verdict]
  · rw [← h.2]
    exact scopedText_of_not_symbol inner bound hsymbol

/-- A token that is no identifier keeps its text. -/
theorem Fits.of_not_symbol {x : Site × Token} {slot : Slot} (h : Fits inner bound seen x slot)
    (hsymbol : x.2.kind ≠ .symbol) (scopes : List ArrowScope) : Fits inner bound scopes x slot := by
  refine ⟨h.1, ?_⟩
  rw [← h.2]
  exact scopedText_of_not_symbol inner bound hsymbol

/-- A parameter has its own text. -/
theorem fits_param {x : Site × Token} {scope : ArrowScope} (hsymbol : x.2.kind = .symbol)
    (hstart : scope.start ≤ x.1.index) (hname : x.2.text ∈ scope.params) :
    Fits inner bound (seen ++ [scope]) x ⟨x.2, x.2.text⟩ := by
  refine ⟨rfl, ?_⟩
  obtain ⟨site, token⟩ := x
  have hparam : isParameterAt (seen ++ [scope]) site.index token.text = true := by
    rw [isParameterAt_append, decide_eq_true hstart, List.contains_iff_mem.2 hname]
    simp
  rw [scopedText_of_symbol inner bound hsymbol, verdict, hparam]
  simp [Verdict.write]

/-- A scope that starts behind the slots changes nothing in them. -/
theorem fits_before {slots : List Slot} (h : List.Forall₂ (Fits inner bound seen) xs slots)
    (hnumbered : Numbered xs) {scope : ArrowScope} (hstart : xs.length ≤ scope.start) :
    List.Forall₂ (Fits inner bound (seen ++ [scope])) xs slots := by
  induction h with
  | nil => exact .nil
  | @cons x slot xs slots hfit hrest ih =>
    rw [List.length_cons] at hstart
    have hindex : x.1.index < scope.start := by
      rw [hnumbered.1]
      omega
    exact .cons (hfit.of_later hindex) (ih hnumbered.2 (by omega))

/-- One step of walking back over the slots. -/
theorem walkBack_cons (depth : Nat) (slot : Slot) (before : List Slot) :
    walkBack depth (slot :: before) =
      if slot.token.kind = .rightParen then
        (walkBack (depth + 1) before).map fun p => (slot :: p.1, p.2)
      else if slot.token.kind = .leftParen then
        match depth with
        | 0 => some ([], slot :: before)
        | d + 1 => (walkBack d before).map fun p => (slot :: p.1, p.2)
      else (walkBack depth before).map fun p => (slot :: p.1, p.2) := by
  cases depth <;> rfl

/-- Walking back over the slots finds the parenthesis that walking back over
the tokens finds. -/
theorem matchingOpen_tokens (depth : Nat) (slots : List Slot) :
    matchingOpen depth (slots.map Slot.token) =
      (walkBack depth slots).map fun p => (p.1.map Slot.token, p.2.tail.length) := by
  induction slots generalizing depth with
  | nil => rfl
  | cons slot slots ih =>
    -- a slot that is passed is passed as its token
    have hpass : ∀ d, (matchingOpen d (slots.map Slot.token)).map (fun p => (slot.token :: p.1, p.2)) =
        ((walkBack d slots).map fun p => (slot :: p.1, p.2)).map
          fun p => (p.1.map Slot.token, p.2.tail.length) := by
      intro d
      rw [ih, Option.map_map, Option.map_map]
      rfl
    rw [List.map_cons, matchingOpen_cons, walkBack_cons]
    split
    · exact hpass (depth + 1)
    · split
      · cases depth with
        | zero => simp
        | succ d => exact hpass d
      · exact hpass depth

/-- Nothing is lost on the way, which ends at a parenthesis. -/
theorem append_of_walkBack {depth : Nat} {slots between before : List Slot}
    (h : walkBack depth slots = some (between, before)) :
    between ++ before = slots ∧ ∃ slot earlier, before = slot :: earlier ∧
      slot.token.kind = .leftParen := by
  induction slots generalizing depth between with
  | nil => cases h
  | cons slot slots ih =>
    -- what is passed is kept in front of what is found further on
    have hpass : ∀ d, (walkBack d slots).map (fun p => (slot :: p.1, p.2)) = some (between, before) →
        between ++ before = slot :: slots ∧ ∃ slot' earlier, before = slot' :: earlier ∧
          slot'.token.kind = .leftParen := by
      intro d hd
      obtain ⟨⟨between', before'⟩, hwalk, heq⟩ := Option.map_eq_some_iff.1 hd
      cases heq
      obtain ⟨happend, hopen⟩ := ih hwalk
      exact ⟨congrArg (slot :: ·) happend, hopen⟩
    rw [walkBack_cons] at h
    split at h
    · exact hpass (depth + 1) h
    · split at h
      · next hleft =>
        cases depth with
        | zero =>
          cases h
          exact ⟨rfl, slot, slots, rfl, hleft⟩
        | succ d => exact hpass d h
      · exact hpass depth h

theorem mem_symbolTexts_of_mem {ts : List Token} (ht : t ∈ ts) (hsymbol : t.kind = .symbol) :
    t.text ∈ symbolTexts ts :=
  List.mem_map.2 ⟨t, List.mem_filter.2 ⟨ht, by simpa using hsymbol⟩, rfl⟩

/-- The slots between the parentheses, restored, fit the scope that the
parentheses make; so do the slots before them as they are. -/
theorem fits_restored {between before : List Slot}
    (h : List.Forall₂ (Fits inner bound seen) xs (between ++ before)) (hnumbered : Numbered xs)
    {slot : Slot} {earlier : List Slot} (hbefore : before = slot :: earlier)
    (hopen : slot.token.kind = .leftParen) {params : List Text}
    (hparams : ∀ name ∈ symbolTexts (between.map Slot.token), name ∈ params) :
    List.Forall₂ (Fits inner bound (seen ++ [⟨earlier.length, params⟩])) xs
      (between.map Slot.restore ++ before) := by
  -- the scope starts where the slots before it end, so that it shows in all those
  -- between
  induction between generalizing xs with
  | nil =>
    subst hbefore
    cases h with
    | @cons x _ xs _ hfit hrest =>
      have hlength : xs.length = earlier.length := hrest.length_eq
      have hnot : x.2.kind ≠ .symbol := by
        rw [← hfit.1, hopen]
        decide
      exact .cons (hfit.of_not_symbol hnot _) (fits_before hrest hnumbered.2 hlength.le)
  | cons s between ih =>
    cases h with
    | @cons x _ xs _ hfit hrest =>
      have hlength : earlier.length < xs.length := by
        have hlen : xs.length = (between ++ before).length := hrest.length_eq
        rw [hbefore] at hlen
        simp only [List.length_append, List.length_cons] at hlen
        omega
      refine .cons ?_ (ih hrest hnumbered.2 fun name hname => ?_)
      · unfold Slot.restore
        -- every identifier between the parentheses is a parameter, and gets its own
        -- text back
        by_cases hsymbol : s.token.kind = .symbol
        · rw [if_pos hsymbol, hfit.1]
          refine fits_param (by rw [← hfit.1]; exact hsymbol) ?_ (hparams _ ?_)
          · show earlier.length ≤ x.1.index
            rw [hnumbered.1]
            exact hlength.le
          · rw [← hfit.1]
            exact mem_symbolTexts_of_mem List.mem_cons_self hsymbol
        · rw [if_neg hsymbol]
          exact hfit.of_not_symbol (by rw [← hfit.1]; exact hsymbol) _
      · exact hparams name (mem_symbolTexts_cons.2 (Or.inr hname))

/-! One step of the scan. -/

/-- An identifier is judged by the parameters that the scan knows as it is by
the scopes they come from. -/
theorem verdict_known {params : NameSet} {scopes : List ArrowScope} {site : Site} {name : Text}
    (h : name ∈ params ↔ isParameterAt scopes site.index name = true) :
    verdict (bound.union params) [] site name = verdict bound scopes site name := by
  have hcontains : (bound.union params).contains name =
      (bound.contains name || isParameterAt scopes site.index name) := by
    rw [Bool.eq_iff_iff, Bool.or_eq_true, NameSet.contains_eq_true, NameSet.contains_eq_true,
      NameSet.mem_union, h]
  have hnone : isParameterAt [] site.index name = false := rfl
  rw [verdict, hcontains, hnone, Bool.or_false, ← Bool.or_assoc, verdict]

/-- A token is scanned as it is qualified, if the parameters known are those in
scope. -/
theorem speculateToken_eq {params : NameSet} {scopes : List ArrowScope} {site : Site}
    (h : t.kind = .symbol → (t.text ∈ params ↔ isParameterAt scopes site.index t.text = true)) :
    speculateToken (fun e => (inner e).outcome.toOption) (bound.union params) site t =
      scopedText inner bound scopes (site, t) := by
  by_cases hsymbol : t.kind = .symbol
  · rw [scopedText_of_symbol inner bound hsymbol, ← verdict_known (h hsymbol), speculateToken, hsymbol]
  · by_cases htemplate : t.kind = .templateString
    · simp only [speculateToken, scopedText, qualifyToken, htemplate]
      exact (toOption_fillPieces inner _).symm
    · rw [scopedText, qualifyToken_of_other inner bound scopes htemplate hsymbol]
      unfold speculateToken
      split
      · next hkind => exact absurd hkind htemplate
      · next hkind => exact absurd hkind hsymbol
      · rfl

/-- Where all scopes have started, the names in any of them are parameters. -/
theorem isParameterAt_of_starts {scopes : List ArrowScope} {i : Nat}
    (h : ∀ scope ∈ scopes, scope.start ≤ i) (name : Text) :
    isParameterAt scopes i name = true ↔ ∃ scope ∈ scopes, name ∈ scope.params := by
  unfold isParameterAt
  rw [List.any_eq_true]
  constructor
  · rintro ⟨scope, hscope, hname⟩
    rw [Bool.and_eq_true, List.contains_iff_mem] at hname
    exact ⟨scope, hscope, hname.2⟩
  · rintro ⟨scope, hscope, hname⟩
    refine ⟨scope, hscope, ?_⟩
    rw [Bool.and_eq_true, List.contains_iff_mem]
    exact ⟨decide_eq_true (h scope hscope), hname⟩

/-- An identifier in front of an arrow is the parameter of its scope. -/
theorem scopeOpened_symbol (hsymbol : t.kind = .symbol) (h : arrowNext rest = true)
    (before : List Token) : scopeOpened before t rest = some [⟨before.length, [t.text]⟩] := by
  have hblank : t.isBlank = false := isBlank_of_kind (by rw [hsymbol]; decide)
  rw [scopeOpened, if_pos ⟨hblank, h⟩, scopeAt, if_neg (by rw [hsymbol]; decide), if_pos hsymbol]

/-- A closing parenthesis in front of an arrow opens a scope with the symbols in
its list, and none if no parenthesis matches it. -/
theorem scopeOpened_paren (hparen : t.kind = .rightParen) (h : arrowNext rest = true)
    (before : List Token) :
    scopeOpened before t rest =
      (matchingOpen 0 before).map fun p => [⟨p.2, symbolTexts p.1.reverse⟩] := by
  have hblank : t.isBlank = false := isBlank_of_kind (by rw [hparen]; decide)
  rw [scopeOpened, if_pos ⟨hblank, h⟩, scopeAt, if_pos hparen]

/-- Any other token opens no scope. -/
theorem scopeOpened_of_plain (hparen : ¬ (t.kind = .rightParen ∧ arrowNext rest = true))
    (hsymbol : ¬ (t.kind = .symbol ∧ arrowNext rest = true)) (before : List Token) :
    scopeOpened before t rest = some [] := by
  unfold scopeOpened
  split
  · next harrow =>
    rw [scopeAt, if_neg fun hk => hparen ⟨hk, harrow.2⟩, if_neg fun hk => hsymbol ⟨hk, harrow.2⟩]
  · rfl

/-- The scan judges a token by the scopes seen so far and the one that the
token itself opens. -/
theorem Abreast.speculateToken_eq (h : Abreast inner bound seen xs s)
    (hopened : scopeOpened (xs.map Prod.snd) t rest = some opened) :
    speculateToken (fun e => (inner e).outcome.toOption) (bound.union (s.paramsAt t rest))
      (s.site rest) t = scopedText inner bound (seen ++ opened) (s.site rest, t) := by
  have hlength : (s.site rest).index = xs.length := h.slots.length_eq.symm
  apply QwebReceiver.Expr.speculateToken_eq
  intro hsymbol
  rw [hlength]
  unfold Speculation.paramsAt
  -- an identifier in front of an arrow is in its own scope
  by_cases harrow : arrowNext rest = true
  · rw [scopeOpened_symbol hsymbol harrow, List.length_map] at hopened
    cases hopened
    rw [if_pos ⟨hsymbol, harrow⟩, isParameterAt_append]
    simp
  · rw [scopeOpened_of_plain (fun hboth => harrow hboth.2) fun hboth => harrow hboth.2] at hopened
    cases hopened
    rw [if_neg fun hboth => harrow hboth.2, List.append_nil, h.params,
      isParameterAt_of_starts fun scope hscope => (h.starts scope hscope).le]

/-- The scan leaves a token behind with the scope that it opens. -/
theorem Abreast.exists_leave (h : Abreast inner bound seen xs s)
    (hopened : scopeOpened (xs.map Prod.snd) t rest = some opened) {text : Text}
    (htext : scopedText inner bound (seen ++ opened) (s.site rest, t) = some text) :
    ∃ s', s.leave t rest text = some s' ∧
      Abreast inner bound (seen ++ opened) ((s.site rest, t) :: xs) s' := by
  have hlength : s.done.length = xs.length := h.slots.length_eq.symm
  have hfit : Fits inner bound (seen ++ opened) (s.site rest, t) ⟨t, text⟩ := ⟨rfl, htext⟩
  have hnumbered : Numbered ((s.site rest, t) :: xs) := ⟨hlength, h.numbered⟩
  -- a parameter list changes slots that were filled before it, a single
  -- parameter none
  by_cases hparen : t.kind = .rightParen ∧ arrowNext rest = true
  · rw [scopeOpened_paren hparen.1 hparen.2, ← tokens_of_slots h.slots, matchingOpen_tokens,
      Option.map_map] at hopened
    obtain ⟨⟨between, before⟩, hwalk, rfl⟩ := Option.map_eq_some_iff.1 hopened
    obtain ⟨happend, slot, earlier, rfl, hopen⟩ := append_of_walkBack hwalk
    refine ⟨_, by rw [Speculation.leave, if_pos hparen, hwalk]; rfl, ?_⟩
    have hslots := h.slots
    rw [← happend] at hslots
    refine ⟨.cons hfit (fits_restored hslots h.numbered rfl hopen ?_), ?_, ?_, hnumbered⟩
    · intro name hname
      exact mem_symbolTexts_reverse.2 hname
    · intro name
      rw [NameSet.mem_insertAll, h.params, ← mem_symbolTexts_reverse]
      simp [or_comm]
    · intro scope hscope
      rcases List.mem_append.1 hscope with hscope | hscope
      · exact Nat.lt_succ_of_lt (h.starts scope hscope)
      · obtain rfl := List.mem_singleton.1 hscope
        have hlen := congrArg List.length happend
        simp only [List.length_append, List.length_cons] at hlen
        show earlier.length < xs.length + 1
        omega
  · refine ⟨_, if_neg hparen, ?_⟩
    by_cases hsymbol : t.kind = .symbol ∧ arrowNext rest = true
    · rw [scopeOpened_symbol hsymbol.1 hsymbol.2, List.length_map] at hopened
      cases hopened
      refine ⟨.cons hfit (fits_before h.slots h.numbered le_rfl), ?_, ?_, hnumbered⟩
      · intro name
        show name ∈ s.paramsAt t rest ↔ _
        rw [Speculation.paramsAt, if_pos hsymbol, NameSet.mem_insert, h.params]
        simp [or_comm]
      · intro scope hscope
        rcases List.mem_append.1 hscope with hscope | hscope
        · exact Nat.lt_succ_of_lt (h.starts scope hscope)
        · obtain rfl := List.mem_singleton.1 hscope
          exact Nat.lt_succ_self _
    · rw [scopeOpened_of_plain hparen hsymbol] at hopened
      cases hopened
      rw [List.append_nil] at hfit ⊢
      refine ⟨.cons hfit h.slots, ?_, fun scope hscope => ?_, hnumbered⟩
      · show ∀ name, name ∈ s.paramsAt t rest ↔ _
        rw [Speculation.paramsAt, if_neg hsymbol]
        exact h.params
      · exact Nat.lt_succ_of_lt (h.starts scope hscope)

/-- A blank is passed over. -/
theorem Abreast.blank (h : Abreast inner bound seen xs s) (hblank : t.isBlank = true) :
    Abreast inner bound seen ((s.site rest, t) :: xs) { s with done := ⟨t, t.text⟩ :: s.done } where
  slots := .cons ⟨rfl, scopedText_blank inner bound hblank⟩ h.slots
  params := h.params
  starts scope hscope := Nat.lt_succ_of_lt (h.starts scope hscope)
  numbered := ⟨h.slots.length_eq.symm, h.numbered⟩

/-- A parameter list without its opening parenthesis stops the scan. -/
theorem Abreast.leave_eq_none (h : Abreast inner bound seen xs s)
    (hopened : scopeOpened (xs.map Prod.snd) t rest = none) (text : Text) :
    s.leave t rest text = none := by
  by_cases hparen : t.kind = .rightParen ∧ arrowNext rest = true
  · rw [scopeOpened_paren hparen.1 hparen.2, ← tokens_of_slots h.slots, matchingOpen_tokens,
      Option.map_map, Option.map_eq_none_iff] at hopened
    rw [Speculation.leave, if_pos hparen, hopened]
    rfl
  · by_cases hsymbol : t.kind = .symbol ∧ arrowNext rest = true
    · rw [scopeOpened_symbol hsymbol.1 hsymbol.2] at hopened
      cases hopened
    · rw [scopeOpened_of_plain hparen hsymbol] at hopened
      cases hopened

/-- **The scan comes to what the two phases come to.**  The tokens behind it
stand under the scopes it has seen; in the end all tokens stand under all
scopes. -/
theorem Abreast.run_eq (h : Abreast inner bound seen xs s) (ts : List Token) :
    (s.run (fun e => (inner e).outcome.toOption) bound ts).map Speculation.text =
      (sited xs.length ((xs.map Prod.snd).find? fun u => !u.isBlank) s.groups ts).bind fun ys =>
        (scopesAlong (xs.map Prod.snd) ts).bind fun later =>
          scopedTexts inner bound (seen ++ later) (xs.reverse ++ ys) := by
  induction ts generalizing seen xs s with
  | nil =>
    rw [Speculation.run, sited, scopesAlong]
    simp only [Option.map_some, Option.bind_some, List.append_nil]
    exact (texts_of_slots h.slots).symm
  | cons t ts ih =>
    have hsite : (⟨xs.length, (xs.map Prod.snd).find? fun u => !u.isBlank,
        ts.find? fun u => !u.isBlank, s.groups.head?⟩ : Site) = s.site ts := by
      rw [Speculation.site, tokens_of_slots h.slots, h.slots.length_eq]
    rw [Speculation.run, Speculation.step, sited, hsite, scopesAlong]
    by_cases hblank : t.isBlank = true
    · have hnone : scopeOpened (xs.map Prod.snd) t ts = some [] := if_neg (by simp [hblank])
      have habreast : Abreast inner bound seen ((s.site ts, t) :: xs) _ := h.blank hblank
      have hnext := ih habreast
      rw [List.map_cons, List.find?_cons_of_neg (by simp [hblank])] at hnext
      rw [if_pos hblank, if_pos hblank, hnone, Option.bind_some, hnext, Option.bind_map]
      simp only [Function.comp_def, Option.bind_some, List.nil_append, Option.map_id', List.reverse_cons,
        List.append_assoc, List.singleton_append, List.length_cons]
    · rw [Bool.not_eq_true] at hblank
      rw [if_neg (by simp [hblank]), if_neg (by simp [hblank])]
      cases hgroups : groupsAfter t.kind s.groups with
      | none =>
        simp only [Option.bind_none, Option.bind_fun_none, Option.map_none]
      | some groups =>
        cases hopened : scopeOpened (xs.map Prod.snd) t ts with
        | none =>
          simp only [h.leave_eq_none hopened, Option.bind_none, Option.bind_fun_none,
            Option.bind_some, Option.map_none]
        | some opened =>
          rw [h.speculateToken_eq hopened]
          cases htext : scopedText inner bound (seen ++ opened) (s.site ts, t) with
          | none =>
            -- an interpolation that cannot be qualified is no matter of scopes
            have hfails : ∀ later ys,
                scopedTexts inner bound (seen ++ later) (xs.reverse ++ (s.site ts, t) :: ys) = none :=
              fun later ys => scopedTexts_eq_none inner bound
                (scopedText_eq_none inner bound htext _) _ _
            simp only [Option.bind_none, Option.map_none, Option.bind_some, Option.bind_map,
              Function.comp_def, hfails, Option.bind_fun_none]
          | some text =>
            obtain ⟨s', hleave, hnext⟩ := h.exists_leave hopened htext
            have habreast : Abreast inner bound (seen ++ opened) ((s.site ts, t) :: xs)
                { s' with groups } := ⟨hnext.slots, hnext.params, hnext.starts, hnext.numbered⟩
            have hrest := ih habreast
            rw [List.map_cons, List.find?_cons_of_pos (by simp [hblank])] at hrest
            simp only [Option.bind_some, hleave, Option.map_some, hrest, Option.bind_map,
              Function.comp_def, List.append_assoc, List.reverse_cons, List.length_cons,
              List.cons_append, List.nil_append]

end Agreement

/-! ## §6. Expressions. -/

/-- At the start nothing is behind the scan and no scope was seen. -/
theorem abreast_start (inner : Scanner) (bound : NameSet) : Abreast inner bound [] [] {} where
  slots := .nil
  params name := by simp
  starts scope hscope := by cases hscope
  numbered := trivial

/-- The scan of all tokens, and the two phases. -/
theorem toOption_phases (inner : Scanner) (bound : NameSet) (body : Text) (ts : List Token) :
    ((arrowScopes body ts).bind fun scopes =>
        (qualifyTokens inner bound scopes body 0 none [] ts).outcome).toOption =
      (Speculation.run (fun e => (inner e).outcome.toOption) bound {} ts).map Speculation.text := by
  rw [(abreast_start inner bound).run_eq ts, toOption_bind, toOption_arrowScopes]
  simp only [toOption_qualifyTokens]
  show ((scopesAlong [] ts).bind fun scopes => (sited 0 none [] ts).bind _) =
    (sited 0 none [] ts).bind fun ys => (scopesAlong [] ts).bind fun later => _
  cases sited 0 none [] ts with
  | none => simp
  | some ys => rfl

/-- Qualifying is qualifying in one pass, if it is so for the interpolations. -/
theorem toOption_qualifyWith (inner : Scanner) (bound : NameSet) (expr : Text) :
    (qualifyWith inner bound expr).outcome.toOption =
      speculateWith (fun e => (inner e).outcome.toOption) bound expr := by
  rcases hmargins : margins expr with ⟨before, body, after⟩
  simp only [qualifyWith, speculateWith, hmargins]
  split
  · rfl
  · rw [Traced.outcome_bind, toOption_bind, Traced.outcome_ofExcept]
    show _ = (tokenize body).toOption.bind fun ts => _
    congr 1
    funext ts
    -- the body is the same on both sides, and the margins are put around its result
    have hphases := congrArg (Option.map fun out => before ++ out ++ after)
      (toOption_phases inner bound body ts)
    rw [toOption_bind, Option.map_bind, Option.map_map] at hphases
    rw [Traced.outcome_bind, Traced.outcome_ofExcept, toOption_bind]
    simp only [Traced.outcome_map, toOption_map]
    exact hphases.trans Option.map_eq_bind

/-- **One pass is enough.**  The scan that judges every identifier at once and
takes back what turns out to be a parameter fails exactly where qualifying
fails, and comes to the same text where it does not. -/
theorem toOption_qualify (bound : NameSet) (expr : Text) :
    (qualify bound expr).outcome.toOption = speculate bound expr := by
  induction hlength : expr.length using Nat.strong_induction_on generalizing expr with
  | _ n ih =>
    subst hlength
    rw [qualify, speculate, toOption_qualifyWith]
    congr 1
    funext e
    by_cases he : e.length < expr.length
    · rw [dif_pos he, dif_pos he]
      exact ih e.length he e rfl
    · rw [dif_neg he, dif_neg he]
      rfl

-- both identifiers in the parameter list were judged before the arrow was seen
example : speculate ∅ "ev + ((a, {ev}) => ev(b))".toList =
    some "this.ev + ((a, {ev}) => ev(this.b))".toList := by decide +kernel

end QwebReceiver.Expr
