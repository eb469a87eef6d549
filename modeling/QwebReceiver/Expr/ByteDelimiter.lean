import QwebReceiver.Text

/-!
  QwebReceiver.Expr.ByteDelimiter — delimiters found by byte index.

  The same ends as in `QwebReceiver.Expr.Delimiter`, for a caller who holds
  bytes and an index.  All delimiters are ASCII and a byte of a longer
  character is never ASCII, so the scan may step byte by byte: a backslash
  makes one byte inert, and the further bytes of the character behind it
  match nothing.

    literalEnd          index just past the closing quote, or the size
    closingBraceAt      index of the closing brace, if there is one
    closingDoubleAt     index of the first of the two closing braces
-/

namespace QwebReceiver.Expr.ByteDelimiter

/-! ## §1. The bytes that matter. -/

def backslash : UInt8 := 0x5C
def backtick : UInt8 := 0x60
def dollar : UInt8 := 0x24
def openBrace : UInt8 := 0x7B
def closeBrace : UInt8 := 0x7D

/-- The three quotes that open a string literal. -/
def isQuoteByte (b : UInt8) : Bool := b == 0x27 || b == 0x22 || b == 0x60

/-- Whether an interpolation opens at `i`. -/
def startsInterpolation (bytes : Array UInt8) (i : Nat) : Bool :=
  bytes[i]? == some dollar && bytes[i + 1]? == some openBrace

/-! ## §2. Literals and braces, by mutual recursion. -/

mutual

/-- Index just past the literal with this quote whose content continues at
`i`; the number of bytes if it is never closed.  A template literal skips its
interpolations whole. -/
def literalEnd (bytes : Array UInt8) (quote : UInt8) (i : Nat) :
    { j : Nat // min i bytes.size ≤ j } :=
  if h : i < bytes.size then
    if bytes[i] = backslash then
      let ⟨j, hj⟩ := literalEnd bytes quote (i + 2)
      ⟨j, by omega⟩
    else if bytes[i] = quote then ⟨i + 1, by omega⟩
    else if quote = backtick ∧ startsInterpolation bytes i then
      match braceEnd bytes 0 (i + 2) with
      | none => ⟨bytes.size, by omega⟩
      | some ⟨close, hc⟩ =>
        let ⟨j, hj⟩ := literalEnd bytes quote (close + 1)
        ⟨j, by omega⟩
    else
      let ⟨j, hj⟩ := literalEnd bytes quote (i + 1)
      ⟨j, by omega⟩
  else ⟨bytes.size, by omega⟩
termination_by bytes.size - i

/-- Index of the brace that closes a group of which `depth` inner braces are
open at `i`. -/
def braceEnd (bytes : Array UInt8) (depth i : Nat) :
    Option { j : Nat // min i bytes.size ≤ j } :=
  if h : i < bytes.size then
    if isQuoteByte bytes[i] then
      let ⟨next, hn⟩ := literalEnd bytes bytes[i] (i + 1)
      (braceEnd bytes depth next).map fun ⟨j, hj⟩ => ⟨j, by omega⟩
    else if bytes[i] = openBrace then
      (braceEnd bytes (depth + 1) (i + 1)).map fun ⟨j, hj⟩ => ⟨j, by omega⟩
    else if bytes[i] = closeBrace then
      match depth with
      | 0 => some ⟨i, by omega⟩
      | d + 1 => (braceEnd bytes d (i + 1)).map fun ⟨j, hj⟩ => ⟨j, by omega⟩
    else (braceEnd bytes depth (i + 1)).map fun ⟨j, hj⟩ => ⟨j, by omega⟩
  else none
termination_by bytes.size - i

end

/-- Index of the first of the two braces that close a double-brace group of
which `depth` inner braces are open at `i`. -/
def doubleBraceEnd (bytes : Array UInt8) (depth i : Nat) : Option Nat :=
  if h : i < bytes.size then
    if isQuoteByte bytes[i] then
      let ⟨next, hn⟩ := literalEnd bytes bytes[i] (i + 1)
      have : bytes.size - next < bytes.size - i := by omega
      doubleBraceEnd bytes depth next
    else if bytes[i] = openBrace then doubleBraceEnd bytes (depth + 1) (i + 1)
    else if bytes[i] = closeBrace then
      if depth = 0 ∧ bytes[i + 1]? = some closeBrace then some i
      else doubleBraceEnd bytes (depth - 1) (i + 1)
    else doubleBraceEnd bytes depth (i + 1)
  else none
termination_by bytes.size - i

/-! ## §3. The scanners of a text. -/

/-- Index just past the literal whose quote is the byte at `start`, whatever
byte that is; the size of the text if it is never closed. -/
def skipLiteral (text : Text) (start : Nat) : Nat :=
  let bytes := text.utf8.toArray
  match bytes[start]? with
  | none => bytes.size
  | some quote => (literalEnd bytes quote (start + 1)).1

/-- Index of the brace that closes the group whose content starts at `start`. -/
def closingBraceAt (text : Text) (start : Nat) : Option Nat :=
  (braceEnd text.utf8.toArray 0 start).map Subtype.val

/-- Index of the braces that close the double-brace group whose content starts
at `start`. -/
def closingDoubleAt (text : Text) (start : Nat) : Option Nat :=
  doubleBraceEnd text.utf8.toArray 0 start

/-- Whether an interpolation opens at byte `start`. -/
def opensInterpolation (text : Text) (start : Nat) : Bool :=
  startsInterpolation text.utf8.toArray start

end QwebReceiver.Expr.ByteDelimiter
