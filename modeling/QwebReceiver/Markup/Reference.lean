import QwebReceiver.Text.CharClass

/-!
  QwebReceiver.Markup.Reference — character references.

  The body of a reference, between `&` and `;`, is one of five names, `#` and
  decimal digits, or `#x` and hexadecimal digits.  Digit strings have any
  length; the number they write must be the code of a character.

  Numbers are read in 32 bits, digit by digit.  A product or a sum that needs
  more ends the reading, so nothing wraps around.
-/

namespace QwebReceiver.Markup

open QwebReceiver.Text

/-! ## §1. Numbers of 32 bits. -/

/-- The product of two numbers, if it fits 32 bits. -/
def checkedMul? (m n : UInt32) : Option UInt32 :=
  if BitVec.umulOverflow m.toBitVec n.toBitVec then none else some (m * n)

/-- The sum of two numbers, if it fits 32 bits. -/
def checkedAdd? (m n : UInt32) : Option UInt32 :=
  if BitVec.uaddOverflow m.toBitVec n.toBitVec then none else some (m + n)

/-- The value of a digit. -/
def digitValue (c : Char) : UInt32 :=
  if isAsciiDigit c then c.val - '0'.val
  else if 'a' ≤ c && c ≤ 'f' then c.val - 'a'.val + 10
  else c.val - 'A'.val + 10

/-- The number that `n` becomes when one more digit is written behind it. -/
def appendDigit? (base n : UInt32) (c : Char) : Option UInt32 :=
  (checkedMul? n base).bind fun m => checkedAdd? m (digitValue c)

/-- The number that digits write in a base, if it fits 32 bits. -/
def readNumber? (base : UInt32) (digits : Text) : Option UInt32 :=
  digits.foldlM (appendDigit? base) 0

/-! ## §2. References. -/

/-- The names with a meaning in every document. -/
def predefinedReferences : List (Text × Char) :=
  [("amp".toList, '&'), ("lt".toList, '<'), ("gt".toList, '>'), ("quot".toList, '"'),
    ("apos".toList, '\'')]

/-- The character with a code; surrogates and numbers beyond U+10FFFF have
none. -/
def charOfCode? (code : UInt32) : Option Char :=
  if h : code.isValidChar then some ⟨code, h⟩ else none

/-- The character that a run of digits of one class refers to; there must be
digits and nothing else. -/
def numericReference? (base : UInt32) (isDigit : Char → Bool) (digits : Text) : Option Char :=
  if !digits.isEmpty && digits.all isDigit then (readNumber? base digits).bind charOfCode?
  else none

/-- The character that a reference with this body stands for. -/
def decodeReference? : Text → Option Char
  | '#' :: 'x' :: digits => numericReference? 16 isHexDigit digits
  | '#' :: 'X' :: digits => numericReference? 16 isHexDigit digits
  | '#' :: digits => numericReference? 10 isAsciiDigit digits
  | body => (predefinedReferences.find? fun p => p.1 = body).map Prod.snd

end QwebReceiver.Markup
