import QwebReceiver.Text.CharClass

/-!
  QwebReceiver.Expr.Delimiter — where a literal or an interpolation ends.

  An interpolation may hold object literals and quoted strings, so its end is
  the first closing brace that is neither inside a string literal nor matched
  by an inner opening brace; a template literal may in turn hold
  interpolations.  The scanner keeps the constructs it stands in as a stack of
  frames and reads one character at a time:

    innermost frame     character     effect
    braces d            ' " `         a literal opens
    braces d            open brace    d + 1
    braces 0            close brace   the frame closes
    braces (d+1)        close brace   d
    literal q           backslash     the next character is inert
    literal q           q             the frame closes
    literal back-tick   $ and brace   an interpolation opens
-/

namespace QwebReceiver.Expr

open QwebReceiver.Text

/-! ## §1. The stack machine. -/

/-- How the next character of a literal is to be taken. -/
inductive LiteralMode where
  /-- As it stands. -/
  | plain
  /-- As inert: a backslash came before. -/
  | escaped
  /-- As it stands, but an opening brace completes `$` to an interpolation. -/
  | dollar
  deriving Repr, DecidableEq

/-- A construct the scanner stands in. -/
inductive Frame where
  /-- A brace group with `depth` inner braces open. -/
  | braces (depth : Nat)
  /-- A string literal. -/
  | literal (quote : Char) (mode : LiteralMode)
  deriving Repr, DecidableEq

/-- A character of a literal that is neither escaped nor the brace of an
interpolation. -/
def stepLiteral (quote c : Char) (below : List Frame) : List Frame :=
  if c = '\\' then .literal quote .escaped :: below
  else if c = quote then below
  else if quote = '`' ∧ c = '$' then .literal quote .dollar :: below
  else .literal quote .plain :: below

/-- The stack after one character. -/
def step (c : Char) : List Frame → List Frame
  | [] => []
  | .braces depth :: below =>
    if isQuote c then .literal c .plain :: .braces depth :: below
    else if c = '{' then .braces (depth + 1) :: below
    else if c = '}' then
      match depth with
      | 0 => below
      | d + 1 => .braces d :: below
    else .braces depth :: below
  | .literal quote .escaped :: below => .literal quote .plain :: below
  | .literal quote .plain :: below => stepLiteral quote c below
  | .literal quote .dollar :: below =>
    -- the literal waits below the interpolation, and its `$` is spent
    if c = '{' then .braces 0 :: .literal quote .plain :: below
    else stepLiteral quote c below

/-! ## §2. The three ends. -/

/-- Splits the text at the character that closes the last frame: what stands
before that character, and what stands after it. -/
def closing : List Frame → Text → Option (Text × Text)
  | _, [] => none
  | stack, c :: r =>
    match step c stack with
    | [] => some ([], r)
    | f :: below => (closing (f :: below) r).map fun p => (c :: p.1, p.2)

/-- Splits the content of a string literal from what follows its closing
quote. -/
def closingQuote (quote : Char) (t : Text) : Option (Text × Text) :=
  closing [.literal quote .plain] t

/-- Splits the content of a brace group from what follows its closing brace. -/
def closingBrace (t : Text) : Option (Text × Text) := closing [.braces 0] t

/-- Splits the content of a double-brace group from what follows its two
closing braces: the first pair with no inner brace open.  A single closing
brace closes an inner brace, if one is open, and is else passed over.
`inner` are the literals the scanner stands in. -/
def closingDoubleFrom : Nat → List Frame → Text → Option (Text × Text)
  | _, _, [] => none
  | depth, f :: inner, c :: r =>
    (closingDoubleFrom depth (step c (f :: inner)) r).map fun p => (c :: p.1, p.2)
  | depth, [], c :: r =>
    -- the pair counts only where no inner brace claims its first half
    if depth = 0 ∧ c = '}' ∧ r.head? = some '}' then some ([], r.tail)
    else if isQuote c then
      (closingDoubleFrom depth [.literal c .plain] r).map fun p => (c :: p.1, p.2)
    else if c = '{' then
      (closingDoubleFrom (depth + 1) [] r).map fun p => (c :: p.1, p.2)
    else if c = '}' then
      (closingDoubleFrom (depth - 1) [] r).map fun p => (c :: p.1, p.2)
    else (closingDoubleFrom depth [] r).map fun p => (c :: p.1, p.2)

/-- Splits the content of a double-brace group from what follows it. -/
def closingDoubleBrace (t : Text) : Option (Text × Text) := closingDoubleFrom 0 [] t

/-! ## §3. Nothing but the closing character is lost. -/

theorem length_of_closing {stack : List Frame} {t content rest : Text}
    (h : closing stack t = some (content, rest)) :
    content.length + rest.length + 1 = t.length := by
  induction t generalizing stack content with
  | nil => simp [closing] at h
  | cons c r ih =>
    simp only [closing] at h
    split at h
    · simp only [Option.some.injEq, Prod.mk.injEq] at h
      obtain ⟨rfl, rfl⟩ := h
      simp
    · obtain ⟨⟨a, b⟩, hab, heq⟩ := Option.map_eq_some_iff.1 h
      simp only [Prod.mk.injEq] at heq
      obtain ⟨rfl, rfl⟩ := heq
      have := ih hab
      simp only [List.length_cons]
      omega

theorem length_of_closingDoubleFrom {depth : Nat} {inner : List Frame} {t content rest : Text}
    (h : closingDoubleFrom depth inner t = some (content, rest)) :
    content.length + rest.length + 2 = t.length := by
  induction t generalizing depth inner content with
  | nil => cases inner <;> simp [closingDoubleFrom] at h
  | cons c r ih =>
    have key : ∀ {d s}, (closingDoubleFrom d s r).map (fun p => (c :: p.1, p.2)) =
        some (content, rest) → content.length + rest.length + 2 = (c :: r).length := by
      intro d s hd
      obtain ⟨⟨a, b⟩, hab, heq⟩ := Option.map_eq_some_iff.1 hd
      simp only [Prod.mk.injEq] at heq
      obtain ⟨rfl, rfl⟩ := heq
      have := ih hab
      simp only [List.length_cons]
      omega
    cases inner with
    | cons f inner => exact key h
    | nil =>
      simp only [closingDoubleFrom] at h
      split at h
      · next hc =>
        simp only [Option.some.injEq, Prod.mk.injEq] at h
        obtain ⟨rfl, rfl⟩ := h
        cases r with
        | nil => simp at hc
        | cons d r => simp
      · split at h
        · exact key h
        · split at h
          · exact key h
          · split at h <;> exact key h

end QwebReceiver.Expr
