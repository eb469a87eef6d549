import QwebReceiver.Json.Reader
import QwebReceiver.Text.CharClass

/-!
  QwebReceiver.Json.Numeral — numbers.

    -? (0 | [1-9][0-9]*) (. [0-9]+)? ([eE] [+-]? [0-9]+)?

  A numeral without sign, fraction and exponent is a natural number as long as
  it fits 64 bits.  All others are reals, kept in double precision: a numeral
  whose magnitude exceeds every double is malformed.  The digits of a real
  that fit 64 bits are its significand; it is scaled by a power of ten, and
  both are rounded to a double before they are multiplied.
-/

namespace QwebReceiver.Json

open QwebReceiver.Text (isAsciiDigit)

/-! ## §1. The parts of a numeral. -/

/-- A numeral by its parts. -/
structure Numeral where
  negative : Bool := false
  whole : Text
  fraction : Option Text := none
  exponent : Option (Bool × Text) := none
  deriving Repr, DecidableEq

/-- The digits at the front of a text, and the text after them; there must be
one. -/
def digits (t : Text) : Reading Text :=
  match t with
  | [] => .error .truncated
  | c :: _ =>
    if isAsciiDigit c then .ok (t.takeWhile isAsciiDigit, t.dropWhile isAsciiDigit)
    else .error .malformed

/-- Digits that start with a zero only if they are a zero. -/
def wholeDigits (t : Text) : Reading Text :=
  match digits t with
  | .error e => .error e
  | .ok (ds, r) => if ds.head? = some '0' && 1 < ds.length then .error .malformed else .ok (ds, r)

/-- The fraction, if there is one. -/
def fractionPart : Text → Reading (Option Text)
  | '.' :: r => (digits r).map fun p => (some p.1, p.2)
  | t => .ok (none, t)

/-- The sign of an exponent: whether it is negative. -/
def exponentSign : Text → Bool × Text
  | '+' :: r => (false, r)
  | '-' :: r => (true, r)
  | t => (false, t)

/-- The exponent, if there is one. -/
def exponentPart : Text → Reading (Option (Bool × Text))
  | [] => .ok (none, [])
  | c :: r =>
    if c = 'e' || c = 'E' then
      (digits (exponentSign r).2).map fun p => (some ((exponentSign r).1, p.1), p.2)
    else .ok (none, c :: r)

/-- The sign of a numeral: whether it is negative. -/
def numeralSign : Text → Bool × Text
  | '-' :: r => (true, r)
  | t => (false, t)

/-- Reads the parts of a numeral. -/
def readParts (t : Text) : Reading Numeral :=
  match wholeDigits (numeralSign t).2 with
  | .error e => .error e
  | .ok (whole, r) =>
    match fractionPart r with
    | .error e => .error e
    | .ok (fraction, r) =>
      (exponentPart r).map fun p =>
        ({ negative := (numeralSign t).1, whole, fraction, exponent := p.1 }, p.2)

/-! ## §2. Magnitude. -/

/-- The largest number of 64 bits. -/
def maxWord : Nat := 18446744073709551615

/-- The value of a digit. -/
def digitValue (c : Char) : Nat := c.toNat - '0'.toNat

/-- Takes digits into a significand as long as it fits 64 bits; also the
number of digits that were left. -/
def absorb (n : Nat) : Text → Nat × Nat
  | [] => (n, 0)
  | d :: ds =>
    if n * 10 + digitValue d ≤ maxWord then absorb (n * 10 + digitValue d) ds
    else (n, ds.length + 1)

/-- The value of a string of digits. -/
def decimalValue (ds : Text) : Nat := ds.foldl (fun n d => n * 10 + digitValue d) 0

/-- The double nearest to a natural number, the even one of two. -/
def nearestDouble (n : Nat) : Nat :=
  let extra := n.log2 + 1 - 53
  let unit := 1 <<< extra
  let half := unit / 2
  if extra = 0 then n
  else if n % unit < half || (n % unit = half && n / unit % 2 = 0) then n / unit * unit
  else (n / unit + 1) * unit

/-- From here on a magnitude rounds to infinity. -/
def doubleLimit : Nat := 1 <<< 1024 - 1 <<< 970

namespace Numeral

/-- The significand and its power of ten. -/
def scientific (n : Numeral) : Nat × Int :=
  -- a digit that no longer fits raises the power, a fraction digit lowers it
  let (whole, left) := absorb 0 n.whole
  let fraction := n.fraction.getD []
  let (all, cut) := absorb whole fraction
  let shift : Int := match n.exponent with
    | none => 0
    | some (true, ds) => -(decimalValue ds : Int)
    | some (false, ds) => decimalValue ds
  (all, (left : Int) - (fraction.length - cut : Nat) + shift)

/-- Whether a significand times a power of ten exceeds every double. -/
def exceeds (significand : Nat) (power : Int) : Bool :=
  -- beyond 10^308 the power itself is no double
  if power < 0 then false
  else if 308 < power then significand ≠ 0
  else doubleLimit ≤ nearestDouble significand * nearestDouble (Nat.pow 10 power.toNat)

/-- The natural number that a numeral writes. -/
def natural? (n : Numeral) : Option Nat :=
  if n.negative || n.fraction.isSome || n.exponent.isSome || maxWord < decimalValue n.whole then none
  else some (decimalValue n.whole)

/-- Whether a numeral has a value. -/
def inRange (n : Numeral) : Bool :=
  n.natural?.isSome || !exceeds n.scientific.1 n.scientific.2

end Numeral

/-! ## §3. Readers. -/

theorem length_digits_lt {t ds r : Text} (h : digits t = .ok (ds, r)) : r.length < t.length := by
  unfold digits at h
  split at h
  · simp at h
  · next c s =>
    split at h
    · next hc =>
      cases h
      rw [List.dropWhile_cons_of_pos hc, List.length_cons]
      exact Nat.lt_succ_of_le (List.dropWhile_suffix _).length_le
    · simp at h

theorem length_wholeDigits_lt {t ds r : Text} (h : wholeDigits t = .ok (ds, r)) :
    r.length < t.length := by
  unfold wholeDigits at h
  split at h
  · simp at h
  · next hd =>
    split at h
    · simp at h
    · cases h; exact length_digits_lt hd

theorem length_fractionPart_le {t r : Text} {f : Option Text} (h : fractionPart t = .ok (f, r)) :
    r.length ≤ t.length := by
  unfold fractionPart at h
  split at h
  · obtain ⟨⟨ds, s⟩, hp, heq⟩ := map_eq_ok_iff.1 h
    cases heq
    exact Nat.le_succ_of_le (Nat.le_of_lt (length_digits_lt hp))
  · cases h; exact Nat.le_refl _

theorem length_exponentSign_le (t : Text) : (exponentSign t).2.length ≤ t.length := by
  unfold exponentSign
  split <;> simp

theorem length_exponentPart_le {t r : Text} {e : Option (Bool × Text)}
    (h : exponentPart t = .ok (e, r)) : r.length ≤ t.length := by
  unfold exponentPart at h
  split at h
  · cases h; exact Nat.le_refl _
  · next c s =>
    split at h
    · obtain ⟨⟨ds, u⟩, hp, heq⟩ := map_eq_ok_iff.1 h
      cases heq
      have := length_digits_lt hp
      have := length_exponentSign_le s
      dsimp only [List.length_cons]
      omega
    · cases h; exact Nat.le_refl _

theorem length_numeralSign_le (t : Text) : (numeralSign t).2.length ≤ t.length := by
  unfold numeralSign
  split <;> simp

theorem length_readParts_lt {t r : Text} {n : Numeral} (h : readParts t = .ok (n, r)) :
    r.length < t.length := by
  unfold readParts at h
  split at h
  · simp at h
  · next whole s hw =>
    split at h
    · simp at h
    · next f u hf =>
      obtain ⟨⟨e, v⟩, hp, heq⟩ := map_eq_ok_iff.1 h
      cases heq
      have := length_numeralSign_le t
      have := length_wholeDigits_lt hw
      have := length_fractionPart_le hf
      have := length_exponentPart_le hp
      dsimp only
      omega

/-- A numeral that has a value. -/
def numeral : Reader Numeral where
  read t :=
    match readParts t with
    | .error e => .error e
    | .ok (n, r) => if n.inRange then .ok (n, r) else .error .malformed
  consumes h := by
    split at h
    · simp at h
    · next hp =>
      split at h
      · cases h; exact length_readParts_lt hp
      · simp at h

/-- A numeral of which only the form counts.  One that ends early is not told
from one that goes on wrongly. -/
def looseNumeral : Reader Unit where
  read t :=
    match readParts t with
    | .error _ => .error .malformed
    | .ok (_, r) => .ok ((), r)
  consumes h := by
    split at h
    · simp at h
    · next hp => cases h; exact length_readParts_lt hp

end QwebReceiver.Json
