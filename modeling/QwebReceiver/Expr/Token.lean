import QwebReceiver.Expr.Delimiter
import QwebReceiver.Expr.Error

/-!
  QwebReceiver.Expr.Token — the tokens of an expression.

  Tokens keep every character, blanks included, so the texts of the tokens
  concatenate to the expression.  The rules, in the order they are tried:

    first character     token
    blank               a run of blanks
    ' " or back-tick    a string, a template string
    digit               digits, with a fraction if digits follow the period
    (any)               the first entry of the operator table that matches
    [A-Za-z_$]          an identifier, or an operator written as a word
    bracket , :         itself
-/

namespace QwebReceiver.Expr

open QwebReceiver.Text

/-! ## §1. Tokens. -/

/-- The kinds of tokens. -/
inductive TokenKind where
  | blank
  | value
  | templateString
  | symbol
  | operator
  | leftBrace
  | rightBrace
  | leftBracket
  | rightBracket
  | leftParen
  | rightParen
  | comma
  | colon
  deriving Repr, DecidableEq

namespace TokenKind

def isOpening (k : TokenKind) : Bool := k = .leftBrace || k = .leftBracket || k = .leftParen

def isClosing (k : TokenKind) : Bool := k = .rightBrace || k = .rightBracket || k = .rightParen

/-- The kind of a token that is one bracket, comma or colon. -/
def ofPunctuation? (c : Char) : Option TokenKind :=
  if c = '{' then some .leftBrace
  else if c = '}' then some .rightBrace
  else if c = '[' then some .leftBracket
  else if c = ']' then some .rightBracket
  else if c = '(' then some .leftParen
  else if c = ')' then some .rightParen
  else if c = ',' then some .comma
  else if c = ':' then some .colon
  else none

end TokenKind

/-- A token: what it is, and the characters it is written with. -/
structure Token where
  kind : TokenKind
  text : Text
  deriving Repr, DecidableEq

/-! ## §2. Operators. -/

def arrow : Text := "=>".toList

/-- An arrow with a figure space inside. -/
def wideArrow : Text := "=\u2007>".toList

/-- The operators, in the order in which they are tried. -/
def operators : List Text :=
  ["...", ".", "===", "==", "+", "!==", "!=", "!", "||", "&&", ">=", ">", "<="].map String.toList
  ++ [wideArrow]
  ++ ["<", "?", "-", "*", "/", "%", "typeof "].map String.toList
  ++ [arrow]
  ++ ["=", ";", "in ", "new ", "|", "&", "^", "~"].map String.toList

/-- Operators written as words, with the operator they spell. -/
def wordOperators : List (Text × Text) :=
  [("and", "&&"), ("or", "||"), ("gt", ">"), ("gte", ">="), ("lt", "<"), ("lte", "<=")].map
    fun p => (p.1.toList, p.2.toList)

theorem length_pos_of_mem_operators : ∀ op ∈ operators, 0 < op.length := by decide

namespace Token

def isBlank (t : Token) : Bool := t.kind = .blank

/-- Whether the token is this operator. -/
def isOperator (t : Token) (op : Text) : Bool := t.kind = .operator && t.text = op

def isArrow (t : Token) : Bool := t.isOperator arrow || t.isOperator wideArrow

/-- What an operator means: a word stands for the operator it spells, a wide
arrow for an arrow, and a keyword loses its blank. -/
def operatorMeaning? (t : Token) : Option Text :=
  if t.kind = .operator then
    match wordOperators.find? fun p => p.1 = t.text with
    | some p => some p.2
    | none => if t.isArrow then some arrow else some (trimEnd t.text)
  else none

/-- The tokens with the byte offsets at which they start and end, the first
one at `start`. -/
def placed (start : Nat) : List Token → List (Nat × Nat × Token)
  | [] => []
  | t :: r => (start, start + utf8Size t.text, t) :: placed (start + utf8Size t.text) r

end Token

/-! ## §3. One token. -/

/-- The digits of a number and what follows them; the fraction belongs to the
number only if a digit follows the period. -/
def scanNumber (t : Text) : Text × Text :=
  let whole := t.takeWhile isAsciiDigit
  match t.dropWhile isAsciiDigit with
  | '.' :: r =>
    if (r.takeWhile isAsciiDigit).isEmpty then (whole, '.' :: r)
    else (whole ++ '.' :: r.takeWhile isAsciiDigit, r.dropWhile isAsciiDigit)
  | r => (whole, r)

/-- An identifier is a symbol unless it spells an operator. -/
def identifierKind (name : Text) : TokenKind :=
  if wordOperators.any fun p => p.1 = name then .operator else .symbol

/-- The token at the start of `c :: cs`, and what follows it. -/
def nextToken (c : Char) (cs : Text) : Except ExprError (Token × Text) :=
  if isBlank c then .ok (⟨.blank, c :: cs.takeWhile isBlank⟩, cs.dropWhile isBlank)
  -- a literal is taken whole: a template string with its interpolations
  else if isQuote c then
    match closingQuote c cs with
    | none => .error (.unterminatedString (c :: cs))
    | some (content, rest) =>
      .ok (⟨if c = '`' then .templateString else .value, c :: (content ++ [c])⟩, rest)
  else if isAsciiDigit c then
    .ok (⟨.value, (scanNumber (c :: cs)).1⟩, (scanNumber (c :: cs)).2)
  else
    -- before identifiers: `typeof `, `in ` and `new ` start like one
    match operators.find? fun op => op.isPrefixOf (c :: cs) with
    | some op => .ok (⟨.operator, op⟩, (c :: cs).drop op.length)
    | none =>
      if isIdentifierStart c then
        .ok (⟨identifierKind (c :: cs.takeWhile isIdentifierPart),
          c :: cs.takeWhile isIdentifierPart⟩, cs.dropWhile isIdentifierPart)
      else
        match TokenKind.ofPunctuation? c with
        | some kind => .ok (⟨kind, [c]⟩, cs)
        | none => .error (.unreadable (c :: cs))

/-! ## §4. All tokens. -/

theorem length_dropWhile_le (p : Char → Bool) (t : Text) : (t.dropWhile p).length ≤ t.length :=
  (List.dropWhile_sublist p).length_le

theorem length_scanNumber {c : Char} {cs : Text} (h : isAsciiDigit c = true) :
    (scanNumber (c :: cs)).2.length ≤ cs.length := by
  have hd : (c :: cs).dropWhile isAsciiDigit = cs.dropWhile isAsciiDigit := by
    simp [h]
  have hle := length_dropWhile_le isAsciiDigit cs
  simp only [scanNumber, hd]
  split
  · next r hr =>
    rw [hr] at hle
    simp only [List.length_cons] at hle
    split
    · simpa using hle
    · have := length_dropWhile_le isAsciiDigit r
      simp only
      omega
  · exact hle

/-- A token takes at least its first character. -/
theorem length_of_nextToken {c : Char} {cs : Text} {t : Token} {rest : Text}
    (h : nextToken c cs = .ok (t, rest)) : rest.length ≤ cs.length := by
  unfold nextToken at h
  split at h
  · simp only [Except.ok.injEq, Prod.mk.injEq] at h
    rw [← h.2]; exact length_dropWhile_le _ _
  split at h
  · split at h
    · simp at h
    · next content r hr =>
      simp only [Except.ok.injEq, Prod.mk.injEq] at h
      have := length_of_closing hr
      rw [← h.2]; omega
  split at h
  · next hdigit =>
    simp only [Except.ok.injEq, Prod.mk.injEq] at h
    rw [← h.2]; exact length_scanNumber hdigit
  split at h
  · next op hop =>
    simp only [Except.ok.injEq, Prod.mk.injEq] at h
    have := length_pos_of_mem_operators op (List.mem_of_find?_eq_some hop)
    rw [← h.2, List.length_drop, List.length_cons]; omega
  split at h
  · simp only [Except.ok.injEq, Prod.mk.injEq] at h
    rw [← h.2]; exact length_dropWhile_le _ _
  split at h
  · simp only [Except.ok.injEq, Prod.mk.injEq] at h
    exact Nat.le_of_eq (congrArg List.length h.2.symm)
  · simp at h

/-- The tokens of a text, or why it cannot be read. -/
def tokenize (t : Text) : Except ExprError (List Token) :=
  match t with
  | [] => .ok []
  | c :: cs =>
    match h : nextToken c cs with
    | .error e => .error e
    | .ok (token, rest) =>
      have : rest.length < (c :: cs).length :=
        Nat.lt_succ_of_le (length_of_nextToken h)
      match tokenize rest with
      | .error e => .error e
      | .ok tokens => .ok (token :: tokens)
termination_by t.length
decreasing_by assumption

end QwebReceiver.Expr
