import QwebReceiver.Text.CharClass
import Mathlib.Data.List.TakeWhile

/-!
  QwebReceiver.Proofs.Text.CharClass — how the character classes lie to one
  another.

  The scanners decide by the class of one character where a run of another
  class ends, so most arguments about them come down to two facts:

    * blanks are neither name characters nor identifier characters;
    * a punctuation mark is in none of the classes of words.
-/

namespace QwebReceiver.Text

/-- What is said of the characters of a text is decided along the text, and
not by going through all characters there are. -/
instance decidableForallMem (p : Char → Prop) [DecidablePred p] (t : Text) :
    Decidable (∀ c ∈ t, p c) := List.decidableBAll p t

/-- The same for the first character of a text. -/
instance decidableForallHead (p : Char → Prop) [DecidablePred p] (c : Option Char) :
    Decidable (∀ x ∈ c, p x) := Option.decidableForallMem c

instance decidableExistsHead (p : Char → Prop) [DecidablePred p] (c : Option Char) :
    Decidable (∃ x ∈ c, p x) := Option.decidableExistsMem c

/-! ## §1. Blanks. -/

/-- The code points of the blanks, in the order of their ranges.  Tables are
checked against this list by evaluation. -/
def blankCodes : List Nat :=
  [9, 10, 11, 12, 13, 0x20, 0x85, 0xA0, 0x1680, 0x2000, 0x2001, 0x2002, 0x2003, 0x2004, 0x2005,
    0x2006, 0x2007, 0x2008, 0x2009, 0x200A, 0x2028, 0x2029, 0x202F, 0x205F, 0x3000]

/-- A blank has one of the codes of blanks. -/
theorem toNat_mem_blankCodes {c : Char} (h : isBlank c = true) : c.toNat ∈ blankCodes := by
  simp only [isBlank, Bool.or_eq_true, Bool.and_eq_true, decide_eq_true_eq, beq_iff_eq] at h
  simp only [blankCodes, List.mem_cons, List.not_mem_nil, or_false]
  omega

/-- No blank has a property that no code of a blank has; with a short list of
codes the premise is decided by evaluation. -/
theorem not_of_isBlank {p : Char → Bool}
    (hp : ∀ n ∈ blankCodes, p (Char.ofNat n) = false) {c : Char} (h : isBlank c = true) :
    p c = false := by
  have hc : p (Char.ofNat c.toNat) = false := hp c.toNat (toNat_mem_blankCodes h)
  rwa [Char.ofNat_toNat] at hc

/-- Whether no range of a table holds the code of a blank. -/
def blanksOutside (ranges : List CodeRange) : Bool :=
  ranges.all fun r => blankCodes.all fun n => Nat.blt n r.1 || Nat.blt r.2 n

/-- A blank is in no range of a table that leaves the blanks out. -/
theorem inRanges_of_isBlank (ranges : List CodeRange) (hr : blanksOutside ranges = true)
    {c : Char} (h : isBlank c = true) : inRanges ranges c = false := by
  rw [inRanges, List.any_eq_false]
  intro r hmem hin
  have hall := List.all_eq_true.1 (List.all_eq_true.1 hr r hmem) c.toNat (toNat_mem_blankCodes h)
  simp only [Bool.or_eq_true, Bool.and_eq_true, decide_eq_true_eq, Nat.blt_eq] at hall hin
  omega

/-- The table of letters leaves the blanks out. -/
theorem isAlphabetic_of_isBlank {c : Char} (h : isBlank c = true) : isAlphabetic c = false := by
  have hletter : isAsciiLetter c = false := not_of_isBlank (by decide) h
  have htable := inRanges_of_isBlank alphabeticRanges (by decide +kernel) h
  unfold isAlphabetic
  split
  · exact hletter
  · exact htable

/-- A blank is neither a letter nor a digit. -/
theorem isAlphanumeric_of_isBlank {c : Char} (h : isBlank c = true) :
    isAlphanumeric c = false := by
  have hdigit : isAsciiDigit c = false := not_of_isBlank (by decide) h
  have htable := inRanges_of_isBlank numericRanges (by decide +kernel) h
  unfold isAlphanumeric
  rw [isAlphabetic_of_isBlank h, hdigit, htable]
  simp

/-- A name ends before a blank. -/
theorem isNamePart_of_isBlank {c : Char} (h : isBlank c = true) : isNamePart c = false := by
  have hmarks : (c == '_' || c == ':' || c == '-' || c == '.') = false :=
    not_of_isBlank (p := fun c => c == '_' || c == ':' || c == '-' || c == '.') (by decide) h
  simp only [Bool.or_eq_false_iff] at hmarks
  simp [isNamePart, isNameStart, isAlphabetic_of_isBlank h, isAlphanumeric_of_isBlank h, hmarks]

/-- An identifier ends before a blank. -/
theorem isIdentifierPart_of_isBlank {c : Char} (h : isBlank c = true) :
    isIdentifierPart c = false := by
  have hmarks : (c == '_' || c == '$') = false :=
    not_of_isBlank (p := fun c => c == '_' || c == '$') (by decide) h
  simp only [Bool.or_eq_false_iff] at hmarks
  simp [isIdentifierPart, isAlphanumeric_of_isBlank h, hmarks]

/-- A character of a name is no blank; so a scanner that skips blanks stops at
it. -/
theorem isBlank_of_isNamePart {c : Char} (h : isNamePart c = true) : isBlank c = false := by
  cases hb : isBlank c with
  | false => rfl
  | true => rw [isNamePart_of_isBlank hb] at h; cases h

/-- A character of an identifier is no blank. -/
theorem isBlank_of_isIdentifierPart {c : Char} (h : isIdentifierPart c = true) :
    isBlank c = false := by
  cases hb : isBlank c with
  | false => rfl
  | true => rw [isIdentifierPart_of_isBlank hb] at h; cases h

/-! ## §2. Words. -/

theorem isNamePart_of_isNameStart {c : Char} (h : isNameStart c = true) : isNamePart c = true := by
  simp [isNamePart, h]

/-- What starts an identifier can also go on with it. -/
theorem isIdentifierPart_of_isIdentifierStart {c : Char} (h : isIdentifierStart c = true) :
    isIdentifierPart c = true := by
  simp only [isIdentifierStart, Bool.or_eq_true] at h
  rcases h with (h | h) | h
  · have hlt : c.toNat < 0x80 := by
      simp only [isAsciiLetter, isAsciiUpper, Bool.or_eq_true, Bool.and_eq_true,
        decide_eq_true_eq, Char.le_def, UInt32.le_iff_toNat_le] at h
      rcases h with h | h
      · exact Nat.lt_of_le_of_lt h.2 (by decide)
      · exact Nat.lt_of_le_of_lt h.2 (by decide)
    simp [isIdentifierPart, isAlphanumeric, isAlphabetic, hlt, h]
  · simp [isIdentifierPart, h]
  · simp [isIdentifierPart, h]

/-- A letter that starts an identifier is no digit. -/
theorem isAsciiDigit_of_isIdentifierStart {c : Char} (h : isIdentifierStart c = true) :
    isAsciiDigit c = false := by
  cases hd : isAsciiDigit c with
  | false => rfl
  | true =>
    simp only [isAsciiDigit, Bool.and_eq_true, decide_eq_true_eq, Char.le_def,
      UInt32.le_iff_toNat_le] at hd
    simp only [isIdentifierStart, isAsciiLetter, isAsciiUpper, Bool.or_eq_true, Bool.and_eq_true,
      decide_eq_true_eq, Char.le_def, UInt32.le_iff_toNat_le, beq_iff_eq] at h
    -- a digit lies in 48 to 57, a letter in 65 to 122, and neither `_` nor `$` is among
    -- them
    have h9 : ('9' : Char).val.toNat = 57 := rfl
    have h0 : ('0' : Char).val.toNat = 48 := rfl
    have hA : ('A' : Char).val.toNat = 65 := rfl
    have ha : ('a' : Char).val.toNat = 97 := rfl
    rcases h with ((h | h) | h) | h
    · omega
    · omega
    · subst h; exact absurd hd.2 (by decide)
    · subst h; exact absurd hd.1 (by decide)

/-- A digit cannot start an identifier, but can go on with it. -/
theorem isIdentifierPart_of_isAsciiDigit {c : Char} (h : isAsciiDigit c = true) :
    isIdentifierPart c = true := by
  have hlt : c.toNat < 0x80 := by
    simp only [isAsciiDigit, Bool.and_eq_true, decide_eq_true_eq, Char.le_def,
      UInt32.le_iff_toNat_le] at h
    exact Nat.lt_of_le_of_lt h.2 (by decide)
  simp [isIdentifierPart, isAlphanumeric, hlt, h]

/-! ## §3. Runs. -/

/-- The text does not go on with a character of the class, so a run of that
class ends in front of it. -/
def StopsAt (p : Char → Bool) (rest : Text) : Prop := ∀ c, rest.head? = some c → p c = false

theorem stopsAt_nil (p : Char → Bool) : StopsAt p [] := by
  intro c hc
  cases hc

/-- It is the first character that decides. -/
theorem stopsAt_cons {p : Char → Bool} {c : Char} {r : Text} (h : p c = false) :
    StopsAt p (c :: r) := by
  intro x hx
  simp only [List.head?_cons, Option.some.injEq] at hx
  subst hx
  exact h

/-- What follows a text that is not empty does not matter. -/
theorem StopsAt.append {p : Char → Bool} {s t : Text} (hs : StopsAt p s) (ht : StopsAt p t) :
    StopsAt p (s ++ t) := by
  cases s with
  | nil => exact ht
  | cons c s => exact stopsAt_cons (hs c rfl)

/-- A run that cannot be continued is what `takeWhile` takes; so a scanner reads
the longest run there is. -/
theorem takeWhile_run {p : Char → Bool} {w r : Text} (hw : ∀ c ∈ w, p c = true)
    (hr : StopsAt p r) : (w ++ r).takeWhile p = w := by
  rw [List.takeWhile_append_of_pos hw]
  cases r with
  | nil => simp
  | cons c r => simp [hr c rfl]

/-- A run that cannot be continued is what `dropWhile` drops. -/
theorem dropWhile_run {p : Char → Bool} {w r : Text} (hw : ∀ c ∈ w, p c = true)
    (hr : StopsAt p r) : (w ++ r).dropWhile p = r := by
  rw [List.dropWhile_append_of_pos hw]
  cases r with
  | nil => rfl
  | cons c r => simp [hr c rfl]

/-- What `dropWhile` leaves does not go on with the class. -/
theorem head_dropWhile {p : Char → Bool} {t : Text} {c : Char}
    (h : (t.dropWhile p).head? = some c) : p c = false := by
  have hnot := List.head?_dropWhile_not p t
  rw [h] at hnot
  exact hnot

end QwebReceiver.Text
