import QwebReceiver.Expr.Token

/-!
  QwebReceiver.Expr.Arrow — the parameters of arrow functions.

  Every arrow with parameters before it opens a scope: a lone identifier, or
  the identifiers between a closing parenthesis and the parenthesis that
  matches it.  The scope starts at its first token and stays open to the end
  of the expression.  Only parentheses count for the match.
-/

namespace QwebReceiver.Expr

/-- The parameters of one arrow function, visible from token `start` on. -/
structure ArrowScope where
  start : Nat
  params : List Text
  deriving Repr, DecidableEq

/-- Walks back from a closing parenthesis to the one that opens it, over the
tokens before it, nearest first: the tokens between the two, and how many
tokens stand before the opening one. -/
def matchingOpen : Nat → List Token → Option (List Token × Nat)
  | _, [] => none
  | depth, t :: before =>
    if t.kind = .rightParen then
      (matchingOpen (depth + 1) before).map fun p => (t :: p.1, p.2)
    else if t.kind = .leftParen then
      match depth with
      | 0 => some ([], before.length)
      | d + 1 => (matchingOpen d before).map fun p => (t :: p.1, p.2)
    else (matchingOpen depth before).map fun p => (t :: p.1, p.2)

/-- The identifiers among the tokens. -/
def symbolTexts (tokens : List Token) : List Text :=
  (tokens.filter fun t => t.kind = .symbol).map Token.text

/-- The scope opened by an arrow, given the tokens before it, nearest first:
none if it has no parameters to read, an error if their parenthesis has no
partner. -/
def scopeBefore (expr : Text) (before : List Token) : Except ExprError (Option ArrowScope) :=
  match before.dropWhile Token.isBlank with
  | [] => .ok none
  | t :: earlier =>
    if t.kind = .rightParen then
      match matchingOpen 0 earlier with
      | none => .error (.unmatchedArrow expr)
      | some (between, start) => .ok (some ⟨start, symbolTexts between.reverse⟩)
    else if t.kind = .symbol then .ok (some ⟨earlier.length, [t.text]⟩)
    else .ok none

/-- The scopes of all arrows among `tokens`, which stand after `before`
(nearest first). -/
def arrowScopesFrom (expr : Text) :
    List Token → List Token → Except ExprError (List ArrowScope)
  | _, [] => .ok []
  | before, t :: rest =>
    if t.isArrow then do
      let scope ← scopeBefore expr before
      let scopes ← arrowScopesFrom expr (t :: before) rest
      pure (scope.toList ++ scopes)
    else arrowScopesFrom expr (t :: before) rest

/-- The scopes of all arrows of an expression. -/
def arrowScopes (expr : Text) (tokens : List Token) : Except ExprError (List ArrowScope) :=
  arrowScopesFrom expr [] tokens

/-- Whether a parameter of that name is visible at token `i`. -/
def isParameterAt (scopes : List ArrowScope) (i : Nat) (name : Text) : Bool :=
  scopes.any fun s => s.start ≤ i && s.params.contains name

end QwebReceiver.Expr
