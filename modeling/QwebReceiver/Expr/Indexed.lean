import QwebReceiver.Expr.ByteDelimiter
import QwebReceiver.Expr.Qualify

/-!
  QwebReceiver.Expr.Indexed — expressions read by byte index, every access
  checked.

  A reader that works on bytes holds an index and cuts pieces out of the text.
  Nothing in the types keeps such an index in range, so here each access asks:
  a byte is read only where there is one, a text is cut only at boundaries of
  characters, a depth is lowered only above zero, and a loop runs only as many
  rounds as it is given.  An access that is refused stops the run with an
  outcome of its own (`Stop`).

    skipFrom, braceFrom, doubleFrom    where literals and groups end
    scanFrom, tokensFrom               the tokens of an expression
    fillFrom, dynamicFrom              the interpolations of a text
    qualify, qualifyDynamic            the whole of it
-/

namespace QwebReceiver.Expr.Indexed

open QwebReceiver.Text QwebReceiver.Expr.ByteDelimiter

/-! ## §1. Checked accesses. -/

/-- Why a run stops without a result. -/
inductive Stop where
  /-- No byte stands at the index. -/
  | pastEnd (i : Nat)
  /-- A cut that does not lead from one boundary to a later one. -/
  | offBoundary (start stop : Nat)
  /-- A number would fall below zero. -/
  | belowZero
  /-- The rounds of a loop are used up. -/
  | unfinished
  /-- The expression itself is at fault. -/
  | refused (e : ExprError)
  deriving Repr, DecidableEq

/-- A computation whose accesses are checked. -/
abbrev Checked (α : Type) := Except Stop α

/-- The byte at an index. -/
def byteAt (bytes : Array UInt8) (i : Nat) : Checked UInt8 :=
  match bytes[i]? with
  | some b => .ok b
  | none => .error (.pastEnd i)

/-- The difference of two numbers, if there is one. -/
def minus (a b : Nat) : Checked Nat := if b ≤ a then .ok (a - b) else .error .belowZero

/-- The piece of a text between two indices. -/
def cut (t : Text) (start stop : Nat) : Checked Text :=
  if start ≤ stop ∧ isBoundary t start ∧ isBoundary t stop then .ok (slice t start stop)
  else .error (.offBoundary start stop)

/-- The rounds that a loop over the bytes may take. -/
def enough (bytes : Array UInt8) : Nat := bytes.size + 1

/-! ## §2. Where literals and groups end. -/

/-- An interpolation of a literal: the index of its content and the index of
its closing brace. -/
structure ByteSpan where
  start : Nat
  close : Nat
  deriving Repr, DecidableEq

/-- Whether an interpolation opens at `i` in a literal with this quote. -/
def interpolates (bytes : Array UInt8) (quote : UInt8) (i : Nat) : Checked Bool :=
  if quote = backtick then do
    let b ← byteAt bytes i
    return b == dollar && bytes[i + 1]? == some openBrace
  else return false

mutual

/-- Reads on in a literal up to the index just past its quote, or to the end
of the text; with the interpolations it skips. -/
def skipFrom (bytes : Array UInt8) (quote : UInt8) : Nat → Nat → Checked (List ByteSpan × Nat)
  | 0, _ => .error .unfinished
  | rounds + 1, i =>
    if i < bytes.size then do
      let b ← byteAt bytes i
      if b = backslash then skipFrom bytes quote rounds (i + 2)
      else if b = quote then return ([], i + 1)
      else if ← interpolates bytes quote i then
        match ← braceFrom bytes rounds 0 (i + 2) with
        | none => return ([], bytes.size)
        | some close =>
          let (spans, next) ← skipFrom bytes quote rounds (close + 1)
          return (⟨i + 2, close⟩ :: spans, next)
      else skipFrom bytes quote rounds (i + 1)
    else return ([], bytes.size)

/-- Reads on in a brace group, `depth` inner braces open, up to the index of
its closing brace. -/
def braceFrom (bytes : Array UInt8) : Nat → Nat → Nat → Checked (Option Nat)
  | 0, _, _ => .error .unfinished
  | rounds + 1, depth, i =>
    if i < bytes.size then do
      let b ← byteAt bytes i
      if isQuoteByte b then
        let quote ← byteAt bytes i
        let (_, next) ← skipFrom bytes quote rounds (i + 1)
        braceFrom bytes rounds depth next
      else if b = openBrace then braceFrom bytes rounds (depth + 1) (i + 1)
      else if b = closeBrace then
        if depth = 0 then return some i
        else
          let lower ← minus depth 1
          braceFrom bytes rounds lower (i + 1)
      else braceFrom bytes rounds depth (i + 1)
    else return none

end

/-- Reads on in a double-brace group up to the index of the first of its two
closing braces.  A depth of zero is not lowered any more. -/
def doubleFrom (bytes : Array UInt8) : Nat → Nat → Nat → Checked (Option Nat)
  | 0, _, _ => .error .unfinished
  | rounds + 1, depth, i =>
    if i < bytes.size then do
      let b ← byteAt bytes i
      if isQuoteByte b then
        let quote ← byteAt bytes i
        let (_, next) ← skipFrom bytes quote (enough bytes) (i + 1)
        doubleFrom bytes rounds depth next
      else if b = openBrace then doubleFrom bytes rounds (depth + 1) (i + 1)
      else if b = closeBrace then
        if depth = 0 ∧ bytes[i + 1]? = some closeBrace then return some i
        else doubleFrom bytes rounds (depth - 1) (i + 1)
      else doubleFrom bytes rounds depth (i + 1)
    else return none

/-- Skips the literal whose quote is the byte at `start`. -/
def skip (text : Text) (start : Nat) : Checked (List ByteSpan × Nat) := do
  let bytes := text.utf8.toArray
  let quote ← byteAt bytes start
  skipFrom bytes quote (enough bytes) (start + 1)

/-- Index of the brace that closes the group whose content starts at `start`. -/
def brace (text : Text) (start : Nat) : Checked (Option Nat) :=
  let bytes := text.utf8.toArray
  braceFrom bytes (enough bytes) 0 start

/-- Index of the braces that close the double-brace group whose content starts
at `start`. -/
def double (text : Text) (start : Nat) : Checked (Option Nat) :=
  let bytes := text.utf8.toArray
  doubleFrom bytes (enough bytes) 0 start

/-! ## §3. Tokens. -/

/-- Reads on in a literal at the start of an expression up to the index of its
quote, if there is one; with the interpolations it skips.  The quote is tried
last. -/
def scanFrom (bytes : Array UInt8) (quote : UInt8) :
    Nat → Nat → Checked (List ByteSpan × Option Nat)
  | 0, _ => .error .unfinished
  | rounds + 1, i =>
    if i < bytes.size then do
      let b ← byteAt bytes i
      if b = backslash then scanFrom bytes quote rounds (i + 2)
      else if ← interpolates bytes quote i then
        match ← braceFrom bytes (enough bytes) 0 (i + 2) with
        | none => return ([], none)
        | some close =>
          let (spans, stop) ← scanFrom bytes quote rounds (close + 1)
          return (⟨i + 2, close⟩ :: spans, stop)
      else if b = quote then return ([], some i)
      else scanFrom bytes quote rounds (i + 1)
    else return ([], none)

/-- The byte of an ASCII character. -/
def asciiByte (c : Char) : UInt8 := UInt8.ofNat c.toNat

/-- Scans the literal with this quote that opens `rest`. -/
def scan (quote : Char) (rest : Text) : Checked (List ByteSpan × Option Nat) :=
  let bytes := rest.utf8.toArray
  scanFrom bytes (asciiByte quote) (enough bytes) 1

/-- The string token that opens `rest`. -/
def stringToken (quote : Char) (rest : Text) : Checked Token := do
  match ← scan quote rest with
  | (_, none) => .error (.refused (.unterminatedString rest))
  | (_, some i) =>
    let text ← cut rest 0 (i + 1)
    return ⟨if quote = '`' then .templateString else .value, text⟩

/-- The token that opens `rest`. -/
def token : Text → Checked Token
  | [] => .error (.refused (.unreadable []))
  | c :: cs =>
    if isQuote c then stringToken c (c :: cs)
    else ((nextToken c cs).mapError Stop.refused).map Prod.fst

/-- The tokens from byte `index` on. -/
def tokensFrom (input : Text) : Nat → Nat → Checked (List Token)
  | 0, _ => .error .unfinished
  | rounds + 1, index =>
    if index < utf8Size input then do
      let rest ← cut input index (utf8Size input)
      let t ← token rest
      let ts ← tokensFrom input rounds (index + utf8Size t.text)
      return t :: ts
    else return []

/-- The tokens of an expression. -/
def tokens (input : Text) : Checked (List Token) := tokensFrom input (utf8Size input + 1) 0

/-! ## §4. Interpolations. -/

/-- What to do at an interpolation: what becomes of the content between the
two indices, and what happens where none of the braces closes it. -/
structure Visitor where
  closed : Nat → Nat → Text → Traced Stop Text
  unclosed : Nat → Traced Stop Unit

/-- Whether an interpolation opens at `i`, where two bytes must stand. -/
def opensWithin (bytes : Array UInt8) (i : Nat) : Checked Bool := do
  let b ← byteAt bytes i
  if b = dollar then
    let next ← byteAt bytes (i + 1)
    return next = openBrace
  else return false

/-- Reads on in a template literal of which the text up to `copied` is written
out. -/
def fillFrom (v : Visitor) (literal : Text) (bytes : Array UInt8) :
    Nat → Nat → Nat → Traced Stop Text
  | 0, _, _ => Traced.fail .unfinished
  | rounds + 1, copied, i =>
    if i + 1 < bytes.size then do
      let b ← Traced.ofExcept (byteAt bytes i)
      if b = backslash then fillFrom v literal bytes rounds copied (i + 2)
      else if ← Traced.ofExcept (opensWithin bytes i) then
        match ← Traced.ofExcept (braceFrom bytes (enough bytes) 0 (i + 2)) with
        | some close =>
          let inner ← Traced.ofExcept (cut literal (i + 2) close)
          let before ← Traced.ofExcept (cut literal copied (i + 2))
          let filled ← v.closed (i + 2) close inner
          (fillFrom v literal bytes rounds close (close + 1)).map (before ++ filled ++ ·)
        | none =>
          v.unclosed (i + 2)
          fillFrom v literal bytes rounds copied (i + 1)
      else fillFrom v literal bytes rounds copied (i + 1)
    else Traced.ofExcept (cut literal copied bytes.size)

/-- Fills the interpolations of a template literal. -/
def fill (v : Visitor) (literal : Text) : Traced Stop Text :=
  let bytes := literal.utf8.toArray
  fillFrom v literal bytes (enough bytes) 0 0

def hashOpening : Text := ['#', '{']
def hashClosing : Text := ['}']
def doubleOpening : Text := ['{', '{']
def doubleClosing : Text := ['}', '}']

/-- The delimiters of the interpolation at byte `i`, where `rest` starts, and
the index of the closing one. -/
def delimitersAt (text rest : Text) (i : Nat) : Checked (Option (Text × Nat × Text)) :=
  if hashOpening.isPrefixOf rest then do
    let close ← brace text (i + utf8Size hashOpening)
    return close.map fun j => (hashOpening, j, hashClosing)
  else if doubleOpening.isPrefixOf rest then do
    let close ← double text (i + utf8Size doubleOpening)
    return close.map fun j => (doubleOpening, j, doubleClosing)
  else return none

/-- Reads on in a dynamic string of which the text up to `copied` is written
out; it steps over whole characters. -/
def dynamicFrom (inner : Text → Traced Stop Text) (text : Text) :
    Nat → Nat → Nat → Traced Stop Text
  | 0, _, _ => Traced.fail .unfinished
  | rounds + 1, copied, i =>
    if i < utf8Size text then do
      let rest ← Traced.ofExcept (cut text i (utf8Size text))
      match ← Traced.ofExcept (delimitersAt text rest i) with
      | some (opening, close, closing) =>
        let expr ← Traced.ofExcept (cut text (i + utf8Size opening) close)
        let before ← Traced.ofExcept (cut text copied i)
        let filled ← inner expr
        let next := close + utf8Size closing
        (dynamicFrom inner text rounds next next).map (before ++ opening ++ filled ++ closing ++ ·)
      | none => dynamicFrom inner text rounds copied (i + (rest.head?.map Char.utf8Size).getD 1)
    else Traced.ofExcept (cut text copied (utf8Size text))

/-- Fills the interpolations of a dynamic string. -/
def dynamic (inner : Text → Traced Stop Text) (text : Text) : Traced Stop Text :=
  dynamicFrom inner text (utf8Size text + 1) 0 0

/-! ## §5. Expressions. -/

/-- The text of one token, with `literal` for template strings. -/
def qualifyToken (literal : Text → Traced Stop Text) (bound : NameSet)
    (scopes : List ArrowScope) (site : Site) (t : Token) : Traced Stop Text :=
  if t.kind = .templateString then literal t.text
  else (Expr.qualifyToken pure bound scopes site t).mapError .refused

/-- The text of the tokens from token `i` on. -/
def qualifyTokens (literal : Text → Traced Stop Text) (bound : NameSet)
    (scopes : List ArrowScope) (expr : Text) :
    Nat → Option Token → List TokenKind → List Token → Traced Stop Text
  | _, _, _, [] => pure []
  | i, before, groups, t :: rest =>
    if t.isBlank then
      (qualifyTokens literal bound scopes expr (i + 1) before groups rest).map (t.text ++ ·)
    else do
      let after := rest.find? fun u => !u.isBlank
      let text ← qualifyToken literal bound scopes ⟨i, before, after, groups.head?⟩ t
      match groupsAfter t.kind groups with
      | none => Traced.fail (.refused (.unbalancedGroup (t.text.headD ' ') expr))
      | some groups =>
        (qualifyTokens literal bound scopes expr (i + 1) (some t) groups rest).map (text ++ ·)

/-- Qualifies an expression, with `literal` for its template strings; the
margins are cut off by index. -/
def qualifyWith (literal : Text → Traced Stop Text) (bound : NameSet) (expr : Text) :
    Traced Stop Text :=
  let trimmed := trim expr
  if trimmed.isEmpty then pure expr
  else do
    let start ← Traced.ofExcept (minus (utf8Size expr) (utf8Size (expr.dropWhile isBlank)))
    let stop := start + utf8Size trimmed
    let ts ← Traced.ofExcept (tokens trimmed)
    let scopes ← Traced.ofExcept ((arrowScopes trimmed ts).mapError Stop.refused)
    let out ← qualifyTokens literal bound scopes trimmed 0 none [] ts
    let before ← Traced.ofExcept (cut expr 0 start)
    let after ← Traced.ofExcept (cut expr stop (utf8Size expr))
    return before ++ out ++ after

/-- Qualifies an expression with at most so many expressions inside of each
other. -/
def qualifyWithin (bound : NameSet) : Nat → Text → Traced Stop Text
  | 0, _ => Traced.fail .unfinished
  | depth + 1, expr =>
    qualifyWith (fill ⟨fun _ _ inner => qualifyWithin bound depth inner, fun _ => pure ()⟩)
      bound expr

/-- Qualifies an expression. -/
def qualify (bound : NameSet) (expr : Text) : Traced Stop Text :=
  qualifyWithin bound (expr.length + 1) expr

/-- Qualifies the expressions embedded in a dynamic string. -/
def qualifyDynamic (bound : NameSet) (text : Text) : Traced Stop Text :=
  dynamic (qualify bound) text

end QwebReceiver.Expr.Indexed
