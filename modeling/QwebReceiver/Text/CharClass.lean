import QwebReceiver.Text
import QwebReceiver.Text.Alphabetic
import QwebReceiver.Text.Mark
import QwebReceiver.Text.Numeric
import QwebReceiver.Text.Uppercase

/-!
  QwebReceiver.Text.CharClass — the character classes of expressions, of
  markup and of selectors.

    class              members
    isBlank            the Unicode property White_Space
    isQuote            ' " `
    isIdentifierStart  [A-Za-z_$]
    isIdentifierPart   letters and numbers of any script, _ and $
    isNameStart        letters of any script, _ and :
    isNamePart         those, numbers, - and .
    isWordChar         letters, marks, decimal digits, connectors, joiners

  ASCII is decided without a table.
-/

namespace QwebReceiver.Text

/-! ## §1. Properties of characters. -/

/-- The Unicode property White_Space. -/
def isBlank (c : Char) : Bool :=
  let n := c.toNat
  (9 ≤ n && n ≤ 13) || n == 0x20 || n == 0x85 || n == 0xA0 || n == 0x1680 ||
  (0x2000 ≤ n && n ≤ 0x200A) || n == 0x2028 || n == 0x2029 || n == 0x202F ||
  n == 0x205F || n == 0x3000

def isAsciiDigit (c : Char) : Bool := '0' ≤ c && c ≤ '9'

def isAsciiUpper (c : Char) : Bool := 'A' ≤ c && c ≤ 'Z'

def isAsciiLetter (c : Char) : Bool := isAsciiUpper c || ('a' ≤ c && c ≤ 'z')

def isHexDigit (c : Char) : Bool :=
  isAsciiDigit c || ('a' ≤ c && c ≤ 'f') || ('A' ≤ c && c ≤ 'F')

/-- The Unicode property Alphabetic. -/
def isAlphabetic (c : Char) : Bool :=
  if c.toNat < 0x80 then isAsciiLetter c else inRanges alphabeticRanges c

/-- Alphabetic, or a number of any kind. -/
def isAlphanumeric (c : Char) : Bool :=
  isAlphabetic c || (if c.toNat < 0x80 then isAsciiDigit c else inRanges numericRanges c)

/-- The Unicode property Uppercase. -/
def isUppercase (c : Char) : Bool :=
  if c.toNat < 0x80 then isAsciiUpper c else onStrides uppercaseStrides c

/-- A character of a word: letters, marks, decimal digits, connecting
punctuation and join controls. -/
def isWordChar (c : Char) : Bool :=
  if c.toNat < 0x80 then isAsciiLetter c || isAsciiDigit c || c == '_'
  else inRanges alphabeticRanges c || inRanges markRanges c || inRanges decimalRanges c ||
    inRanges connectorRanges c || inRanges joinControlRanges c

/-! ## §2. Classes of expressions. -/

/-- The three quotes that open a string literal. -/
def isQuote (c : Char) : Bool := c == '\'' || c == '"' || c == '`'

def isIdentifierStart (c : Char) : Bool := isAsciiLetter c || c == '_' || c == '$'

def isIdentifierPart (c : Char) : Bool := isAlphanumeric c || c == '_' || c == '$'

/-! ## §3. Classes of markup names. -/

def isNameStart (c : Char) : Bool := isAlphabetic c || c == '_' || c == ':'

/-- Attribute names carry modifiers (`t-on-click.prevent`), so a period is a
name character. -/
def isNamePart (c : Char) : Bool :=
  isNameStart c || isAlphanumeric c || c == '-' || c == '.'

/-! ## §4. Blank margins. -/

/-- The text between its blank margins, with both margins: what stands
before, the body, what stands after.  A blank text is all body-less margin. -/
def margins (t : Text) : Text × Text × Text :=
  let inner := t.dropWhile isBlank
  (t.takeWhile isBlank, (inner.reverse.dropWhile isBlank).reverse,
    (inner.reverse.takeWhile isBlank).reverse)

/-- The text without its blank margins. -/
def trim (t : Text) : Text := (margins t).2.1

/-- The text without blanks at its end. -/
def trimEnd (t : Text) : Text := (t.reverse.dropWhile isBlank).reverse

theorem margins_append (t : Text) :
    (margins t).1 ++ (margins t).2.1 ++ (margins t).2.2 = t := by
  simp only [margins, List.append_assoc]
  rw [← List.reverse_append, List.takeWhile_append_dropWhile, List.reverse_reverse,
    List.takeWhile_append_dropWhile]

end QwebReceiver.Text
