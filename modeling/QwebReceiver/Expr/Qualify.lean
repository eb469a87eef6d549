import QwebReceiver.Expr.Arrow
import QwebReceiver.Expr.Piece
import QwebReceiver.NameSet
import QwebReceiver.Trace

/-!
  QwebReceiver.Expr.Qualify — giving free identifiers their receiver.

  A free identifier `x` of a template expression means a member of the
  rendering receiver and becomes `this.x`.  An identifier keeps its text when
  it is

    `this`, a reserved word, a bound variable, a visible arrow parameter,
    a member name (a period stands before it), or
    an object key (`{` or `,` before it, `:` after it).

  A shorthand property `x` directly inside braces becomes `x: this.x`.
  Interpolations of template strings are expressions of their own: they see
  the bound variables, not the arrow parameters around them.
-/

namespace QwebReceiver.Expr

open QwebReceiver.Text

/-! ## §1. Names that are never qualified. -/

/-- The receiver of free identifiers. -/
def receiver : Text := "this".toList

/-- Identifiers with a meaning of their own. -/
def reservedWords : List Text :=
  ["true", "false", "NaN", "null", "undefined", "debugger", "console", "window", "in",
    "instanceof", "new", "function", "return", "eval", "void", "Math", "RegExp", "Array",
    "Object", "Date", "__globals__"].map String.toList

def isReserved (name : Text) : Bool := reservedWords.contains name

/-! ## §2. What becomes of one identifier. -/

/-- The surroundings of a token: its index, the nearest tokens that are not
blank, and the innermost open bracket. -/
structure Site where
  index : Nat
  before : Option Token
  after : Option Token
  group : Option TokenKind

/-- What becomes of an identifier. -/
inductive Verdict where
  /-- It stays as it is. -/
  | keep
  /-- It becomes a member of the receiver. -/
  | member
  /-- It is a shorthand property and gets a key and a member. -/
  | property
  deriving Repr, DecidableEq

/-- Whether an identifier stands where a property starts. -/
def Site.atProperty (s : Site) : Bool :=
  s.before.any fun t => t.kind = .leftBrace || t.kind = .comma

/-- Whether an identifier at this site is a member name. -/
def Site.isMember (s : Site) : Bool := s.before.any fun t => t.isOperator ['.']

/-- Whether an identifier at this site is an object key. -/
def Site.isKey (s : Site) : Bool := s.atProperty && s.after.any fun t => t.kind = .colon

/-- Whether an identifier at this site is a property without a value. -/
def Site.isShorthand (s : Site) : Bool :=
  s.group = some .leftBrace && s.atProperty &&
    s.after.any fun t => t.kind = .rightBrace || t.kind = .comma

/-- The verdict on an identifier. -/
def verdict (bound : NameSet) (scopes : List ArrowScope) (site : Site) (name : Text) : Verdict :=
  if name = receiver || isReserved name || bound.contains name ||
      isParameterAt scopes site.index name || site.isMember || site.isKey then .keep
  else if site.isShorthand then .property
  else .member

/-- An identifier written out under a verdict. -/
def Verdict.write (name : Text) : Verdict → Text
  | .keep => name
  | .member => receiver ++ '.' :: name
  | .property => name ++ ':' :: ' ' :: (receiver ++ '.' :: name)

/-! ## §3. All tokens. -/

/-- Fills every hole with what `inner` makes of it. -/
def fillPieces (inner : Text → Traced ExprError Text) :
    List Piece → Traced ExprError Text
  | [] => pure []
  | .plain c :: rest => (fillPieces inner rest).map (c :: ·)
  | .hole opening expr closing :: rest => do
    let filled ← inner expr
    (fillPieces inner rest).map fun out => opening ++ filled ++ closing ++ out

/-- The text of one token. -/
def qualifyToken (inner : Text → Traced ExprError Text) (bound : NameSet)
    (scopes : List ArrowScope) (site : Site) (t : Token) : Traced ExprError Text :=
  match t.kind with
  | .templateString => fillPieces inner (Piece.ofTemplateLiteral t.text)
  | .symbol =>
    match verdict bound scopes site t.text with
    | .keep => pure t.text
    | v => do
      Traced.note .trace s!"rewrite identifier `{t.text.str}` -> `{(v.write t.text).str}`"
      pure (v.write t.text)
  | _ => pure t.text

/-- The open brackets after a token, innermost first; `none` if the token
closes a bracket and none is open.  Any closing bracket closes any opening
one. -/
def groupsAfter (kind : TokenKind) (groups : List TokenKind) : Option (List TokenKind) :=
  if kind.isOpening then some (kind :: groups)
  else if kind.isClosing then
    match groups with
    | [] => none
    | _ :: outer => some outer
  else some groups

/-- The text of the tokens from index `i` on, after the token `before` and
inside the brackets `groups`. -/
def qualifyTokens (inner : Text → Traced ExprError Text) (bound : NameSet)
    (scopes : List ArrowScope) (expr : Text) :
    Nat → Option Token → List TokenKind → List Token → Traced ExprError Text
  | _, _, _, [] => pure []
  | i, before, groups, t :: rest =>
    if t.isBlank then
      (qualifyTokens inner bound scopes expr (i + 1) before groups rest).map (t.text ++ ·)
    else do
      let after := rest.find? fun u => !u.isBlank
      let text ← qualifyToken inner bound scopes ⟨i, before, after, groups.head?⟩ t
      -- the token is judged in the brackets around it, and only then closes one
      match groupsAfter t.kind groups with
      | none => Traced.fail (.unbalancedGroup (t.text.headD ' ') expr)
      | some groups =>
        (qualifyTokens inner bound scopes expr (i + 1) (some t) groups rest).map (text ++ ·)

/-! ## §4. Expressions. -/

/-- Qualifies an expression, with `inner` for the interpolations of its
template strings.  Blank margins stay; a blank expression stays as it is. -/
def qualifyWith (inner : Text → Traced ExprError Text) (bound : NameSet) (expr : Text) :
    Traced ExprError Text :=
  match margins expr with
  | (before, body, after) =>
    if body.isEmpty then pure expr
    else do
      -- an unreadable text is reported before an arrow without parameters,
      -- and that before a bracket too many
      let tokens ← Traced.ofExcept (tokenize body)
      let scopes ← Traced.ofExcept (arrowScopes body tokens)
      (qualifyTokens inner bound scopes body 0 none [] tokens).map fun out => before ++ out ++ after

/-- Qualifies an expression against the bound variables.  An interpolation is
shorter than the expression that holds it, so the recursion ends. -/
def qualify (bound : NameSet) (expr : Text) : Traced ExprError Text :=
  qualifyWith
    (fun inner => if _ : inner.length < expr.length then qualify bound inner else pure inner)
    bound expr
termination_by expr.length

/-- Qualifies the expressions embedded in a dynamic string. -/
def qualifyDynamic (bound : NameSet) (text : Text) : Traced ExprError Text :=
  fillPieces (qualify bound) (Piece.ofDynamicString text)

end QwebReceiver.Expr
