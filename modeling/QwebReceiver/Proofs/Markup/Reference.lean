import QwebReceiver.Markup.Reference
import QwebReceiver.Proofs.Text.CharClass
import Mathlib.Data.List.Forall2
import Mathlib.Data.Nat.Digits.Defs

/-!
  QwebReceiver.Proofs.Markup.Reference — what a character reference stands for.

  The reader works in 32 bits and from the left.  What a reference stands for
  is said without either: the digits write a natural number, by the powers of
  the base, and the reference stands for the character of that code.

    checkedMul?_eq_some_iff    an operation of 32 bits gives a number exactly
    checkedAdd?_eq_some_iff    where the true result is that number
    appendDigit?_eq_some_iff   one more digit
    readFrom_eq_some_iff       a run of digits behind a number already read

  The number never falls as digits are added.  So the reader gives up on the way
  only if the whole number needs more than 32 bits, and such a number is the
  code of no character.  Together: `decodes_iff_denotes`.
-/

namespace QwebReceiver.Markup

open QwebReceiver.Text

/-! ## §1. Numbers written in digits. -/

/-- The character is the digit of a value in a base; a letter counts in either
case. -/
def IsDigit (base : Nat) (c : Char) (d : Nat) : Prop :=
  d < base ∧ (c = d.digitChar ∨ c = d.digitChar.toUpper)

/-- Whether a character is a digit is found out among the values below the base. -/
instance decidableIsDigit (base : Nat) (c : Char) (d : Nat) : Decidable (IsDigit base c d) :=
  inferInstanceAs (Decidable (_ ∧ _))

/-- The text writes the number in a base: at least one digit, and the last one
counts ones. -/
def Writes (base : Nat) (digits : Text) (n : Nat) : Prop :=
  digits ≠ [] ∧
    ∃ values, List.Forall₂ (IsDigit base) digits values ∧ Nat.ofDigits base values.reverse = n

/-- Zeros in front do not change the number. -/
theorem Writes.zeros {base : Nat} {digits : Text} {n : Nat} (h : Writes base digits n) (k : Nat) :
    Writes base (List.replicate k '0' ++ digits) n := by
  obtain ⟨hne, values, hdigits, hvalue⟩ := h
  have hbase : 0 < base := by
    obtain ⟨c, r, rfl⟩ := List.exists_cons_of_ne_nil hne
    cases hdigits with
    | cons hc _ => exact Nat.zero_lt_of_lt hc.1
  have hzeros : List.Forall₂ (IsDigit base) (List.replicate k '0') (List.replicate k 0) := by
    induction k with
    | zero => exact .nil
    | succ k ih => exact .cons ⟨hbase, .inl rfl⟩ ih
  refine ⟨by simp [hne], List.replicate k 0 ++ values, List.rel_append hzeros hdigits, ?_⟩
  rw [List.reverse_append, List.reverse_replicate, Nat.ofDigits_append_replicate_zero, hvalue]

/-- The body writes the number: `#` and decimal digits, or `#x` and hexadecimal
digits. -/
inductive WritesCode : Text → Nat → Prop
  | decimal {digits : Text} {n : Nat} (h : Writes 10 digits n) : WritesCode ('#' :: digits) n
  | hexadecimal {x : Char} {digits : Text} {n : Nat} (hx : x = 'x' ∨ x = 'X')
      (h : Writes 16 digits n) : WritesCode ('#' :: x :: digits) n

/-- What a reference with this body stands for: one of five characters by its
name, or a character by its code. -/
inductive Denotes : Text → Char → Prop
  | amp : Denotes "amp".toList '&'
  | lt : Denotes "lt".toList '<'
  | gt : Denotes "gt".toList '>'
  | quot : Denotes "quot".toList '"'
  | apos : Denotes "apos".toList '\''
  | code {body : Text} {c : Char} (h : WritesCode body c.toNat) : Denotes body c

/-! ## §2. Digits as they are read. -/

/-- What holds of all characters of ASCII holds of each. -/
theorem of_ascii {p : Char → Prop} (hp : ∀ n < 128, p (Char.ofNat n)) {c : Char}
    (hc : c.toNat < 128) : p c := by
  have h : p (Char.ofNat c.toNat) := hp c.toNat hc
  rwa [Char.ofNat_toNat] at h

/-- Hexadecimal digits are characters of ASCII, so 128 comparisons settle what
holds of all of them. -/
theorem toNat_lt_of_isHexDigit {c : Char} (h : isHexDigit c = true) : c.toNat < 128 := by
  simp only [isHexDigit, isAsciiDigit, Bool.or_eq_true, Bool.and_eq_true, decide_eq_true_eq,
    Char.le_def, UInt32.le_iff_toNat_le] at h
  have h9 : ('9' : Char).val.toNat = 57 := rfl
  have hf : ('f' : Char).val.toNat = 102 := rfl
  have hF : ('F' : Char).val.toNat = 70 := rfl
  show c.val.toNat < 128
  omega

/-- The characters of the class are the digits of the base, and each is read as
its value. -/
def ReadsDigits (base : Nat) (isDigit : Char → Bool) : Prop :=
  ∀ c d, IsDigit base c d ↔ isDigit c = true ∧ (digitValue c).toNat = d

/-- A class within ASCII is compared digit by digit. -/
theorem readsDigits_of_ascii {base : Nat} {isDigit : Char → Bool}
    (hascii : ∀ c, isDigit c = true → c.toNat < 128)
    (hlower : ∀ d < base, isDigit d.digitChar = true ∧ (digitValue d.digitChar).toNat = d)
    (hupper : ∀ d < base,
      isDigit d.digitChar.toUpper = true ∧ (digitValue d.digitChar.toUpper).toNat = d)
    (hclass : ∀ n < 128, isDigit (Char.ofNat n) = true →
      IsDigit base (Char.ofNat n) (digitValue (Char.ofNat n)).toNat) :
    ReadsDigits base isDigit := by
  intro c d
  -- the digits are finitely many and ASCII, so the other direction is a check of 128
  -- characters
  constructor
  · rintro ⟨hd, rfl | rfl⟩
    · exact hlower d hd
    · exact hupper d hd
  · intro ⟨hc, hd⟩
    rw [← hd]
    exact of_ascii (p := fun c => isDigit c = true → IsDigit base c (digitValue c).toNat) hclass
      (hascii c hc) hc

/-- The reader takes ten characters for decimal digits, those of ASCII. -/
theorem readsDigits_decimal : ReadsDigits 10 isAsciiDigit :=
  readsDigits_of_ascii (fun _ hc => toNat_lt_of_isHexDigit (by simp [isHexDigit, hc])) (by decide)
    (by decide) (by decide +kernel)

/-- The reader takes letters of either case for hexadecimal digits. -/
theorem readsDigits_hexadecimal : ReadsDigits 16 isHexDigit :=
  readsDigits_of_ascii (fun _ hc => toNat_lt_of_isHexDigit hc) (by decide) (by decide)
    (by decide +kernel)

/-- The number that digits write, by the powers of the base.  It is not bounded,
unlike what the decoder computes. -/
def valueOf (base : Nat) (digits : Text) : Nat :=
  Nat.ofDigits base (digits.map fun c => (digitValue c).toNat).reverse

theorem valueOf_nil (base : Nat) : valueOf base [] = 0 := rfl

/-- The first digit counts the highest power of the base. -/
theorem valueOf_cons (base : Nat) (c : Char) (digits : Text) :
    valueOf base (c :: digits) =
      (digitValue c).toNat * base ^ digits.length + valueOf base digits := by
  unfold valueOf
  rw [List.map_cons, List.reverse_cons, Nat.ofDigits_append, Nat.ofDigits_singleton,
    List.length_reverse, List.length_map, Nat.mul_comm, Nat.add_comm]

/-- Digits write one number, and only digits do. -/
theorem writes_iff {base : Nat} {isDigit : Char → Bool} (hread : ReadsDigits base isDigit)
    {digits : Text} {n : Nat} :
    Writes base digits n ↔
      digits ≠ [] ∧ (∀ c ∈ digits, isDigit c = true) ∧ valueOf base digits = n := by
  have hrel : IsDigit base = fun c d => isDigit c = true ∧ (digitValue c).toNat = d := by
    funext c d
    exact propext (hread c d)
  -- each digit fixes its value, so the list of values is the map over the digits
  have hvalues : ∀ values, List.Forall₂ (IsDigit base) digits values ↔
      (∀ c ∈ digits, isDigit c = true) ∧ digits.map (fun c => (digitValue c).toNat) = values := by
    intro values
    rw [hrel, List.forall₂_and_left, ← List.forall₂_map_left_iff (R := Eq),
      List.forall₂_eq_eq_eq]
  unfold Writes
  refine and_congr_right fun _ => ?_
  constructor
  · rintro ⟨values, hdigits, rfl⟩
    obtain ⟨hall, rfl⟩ := (hvalues values).1 hdigits
    exact ⟨hall, rfl⟩
  · rintro ⟨hall, rfl⟩
    exact ⟨_, (hvalues _).2 ⟨hall, rfl⟩, rfl⟩

/-- Digits write one number: the base and the digits determine it. -/
theorem Writes.unique {base : Nat} {isDigit : Char → Bool} (hread : ReadsDigits base isDigit)
    {digits : Text} {m n : Nat} (hm : Writes base digits m) (hn : Writes base digits n) : m = n := by
  have hvalue : valueOf base digits = m := ((writes_iff hread).1 hm).2.2
  rw [← hvalue]
  exact ((writes_iff hread).1 hn).2.2

/-! ## §3. Reading in 32 bits. -/

/-- An operation that wraps around, and gives up where its true result needs
more than 32 bits, gives a number exactly where the true result is that number. -/
theorem checked_eq_some_iff {overflow : Bool} {result : UInt32} {value : Nat}
    (hoverflow : overflow = decide (2 ^ 32 ≤ value)) (hresult : result.toNat = value % 2 ^ 32)
    {k : UInt32} : (if overflow then none else some result) = some k ↔ value = k.toNat := by
  have hk : k.toNat < 2 ^ 32 := k.toNat_lt
  by_cases h : 2 ^ 32 ≤ value
  · simp only [hoverflow, h, decide_true, if_true, reduceCtorEq, false_iff]
    omega
  · simp only [hoverflow, h, decide_false, Bool.false_eq_true, if_false, Option.some.injEq]
    rw [← UInt32.toNat_inj, hresult, Nat.mod_eq_of_lt (by omega)]

/-- A product is found exactly where it fits into 32 bits, and is the product of
the numbers then. -/
theorem checkedMul?_eq_some_iff {m n k : UInt32} :
    checkedMul? m n = some k ↔ m.toNat * n.toNat = k.toNat :=
  checked_eq_some_iff rfl (UInt32.toNat_mul m n)

/-- A sum is found exactly where it fits into 32 bits, and is the sum of the
numbers then. -/
theorem checkedAdd?_eq_some_iff {m n k : UInt32} :
    checkedAdd? m n = some k ↔ m.toNat + n.toNat = k.toNat :=
  checked_eq_some_iff rfl (UInt32.toNat_add m n)

/-- What is at most a number of 32 bits has 32 bits. -/
theorem exists_toNat_eq {k : Nat} {m : UInt32} (h : k ≤ m.toNat) : ∃ n : UInt32, k = n.toNat := by
  have hk : k < 2 ^ 32 := Nat.lt_of_le_of_lt h m.toNat_lt
  exact ⟨UInt32.ofNat k, (UInt32.toNat_ofNat_of_lt' hk).symm⟩

/-- One more digit: the number is multiplied by the base and the value added. -/
theorem appendDigit?_eq_some_iff {base n m : UInt32} {c : Char} :
    appendDigit? base n c = some m ↔
      n.toNat * base.toNat + (digitValue c).toNat = m.toNat := by
  simp only [appendDigit?, Option.bind_eq_some_iff, checkedMul?_eq_some_iff,
    checkedAdd?_eq_some_iff]
  constructor
  · rintro ⟨k, hk, hm⟩
    omega
  · intro hm
    -- the product is part of the sum, so it fits if the sum does
    obtain ⟨k, hk⟩ := exists_toNat_eq (k := n.toNat * base.toNat) (m := m) (by omega)
    exact ⟨k, hk, by omega⟩

/-- A run of digits behind a number already read.  The induction is on the
digits, for every number in front of them. -/
theorem readFrom_eq_some_iff {base : UInt32} (hbase : 0 < base.toNat) (digits : Text)
    {n m : UInt32} :
    digits.foldlM (appendDigit? base) n = some m ↔
      n.toNat * base.toNat ^ digits.length + valueOf base.toNat digits = m.toNat := by
  induction digits generalizing n with
  | nil => simp [valueOf_nil, UInt32.toNat_inj]
  | cons c digits ih =>
    have hpow : 0 < base.toNat ^ digits.length := Nat.pow_pos hbase
    have hvalue : n.toNat * base.toNat ^ (c :: digits).length + valueOf base.toNat (c :: digits) =
        (n.toNat * base.toNat + (digitValue c).toNat) * base.toNat ^ digits.length +
          valueOf base.toNat digits := by
      rw [valueOf_cons, List.length_cons, Nat.pow_succ', Nat.add_mul, Nat.mul_assoc, Nat.add_assoc]
    rw [List.foldlM_cons, hvalue]
    simp only [Option.bind_eq_bind, Option.bind_eq_some_iff, appendDigit?_eq_some_iff, ih]
    constructor
    · rintro ⟨k, hk, hm⟩
      rw [hk, hm]
    · intro hm
      -- the digits behind only add to the number, so no step before them overflows
      have hle : n.toNat * base.toNat + (digitValue c).toNat ≤ m.toNat := by
        calc n.toNat * base.toNat + (digitValue c).toNat
            ≤ (n.toNat * base.toNat + (digitValue c).toNat) * base.toNat ^ digits.length :=
              Nat.le_mul_of_pos_right _ hpow
          _ ≤ m.toNat := by omega
      obtain ⟨k, hk⟩ := exists_toNat_eq hle
      exact ⟨k, hk, by rw [← hk, hm]⟩

/-- Digits are read as the number that they write, and nothing is read where
that number does not fit into 32 bits. -/
theorem readNumber?_eq_some_iff {base : UInt32} (hbase : 0 < base.toNat) {digits : Text}
    {m : UInt32} : readNumber? base digits = some m ↔ valueOf base.toNat digits = m.toNat := by
  rw [readNumber?, readFrom_eq_some_iff hbase, UInt32.toNat_zero, Nat.zero_mul, Nat.zero_add]

/-! ## §4. References. -/

/-- A code is that of a character unless it is a surrogate or too large; the
character is then the one with this code. -/
theorem charOfCode?_eq_some_iff {code : UInt32} {c : Char} :
    charOfCode? code = some c ↔ code = c.val := by
  unfold charOfCode?
  split
  · rw [Option.some.injEq, Char.ext_iff]
  · next h =>
    simp only [reduceCtorEq, false_iff]
    rintro rfl
    exact h c.valid

/-- Digits refer to the character whose code they write, in the base that their
class stands for. -/
theorem numericReference?_eq_some_iff (base : UInt32) (hbase : 0 < base.toNat)
    {isDigit : Char → Bool} (hread : ReadsDigits base.toNat isDigit) {digits : Text} {c : Char} :
    numericReference? base isDigit digits = some c ↔ Writes base.toNat digits c.toNat := by
  have hnumber : (readNumber? base digits).bind charOfCode? = some c ↔
      valueOf base.toNat digits = c.toNat := by
    simp only [Option.bind_eq_some_iff, charOfCode?_eq_some_iff, readNumber?_eq_some_iff hbase,
      exists_eq_right]
    rfl
  have hdigits : (!digits.isEmpty && digits.all isDigit) = true ↔
      digits ≠ [] ∧ ∀ c ∈ digits, isDigit c = true := by
    rw [Bool.and_eq_true, Bool.not_eq_true', List.isEmpty_eq_false_iff, List.all_eq_true]
  rw [numericReference?, Option.ite_none_right_eq_some, hdigits, hnumber, and_assoc,
    writes_iff hread]

/-- A digit of the base ten is no mark of the base sixteen. -/
theorem not_writes_ten {x : Char} (hx : x = 'x' ∨ x = 'X') (digits : Text) (n : Nat) :
    ¬Writes 10 (x :: digits) n := by
  intro h
  have hdigit : isAsciiDigit x = true :=
    ((writes_iff readsDigits_decimal).1 h).2.1 x List.mem_cons_self
  rcases hx with rfl | rfl <;> exact absurd hdigit (by decide)

/-- Behind `#x` stands a number of base sixteen, and no other reading of the
body is possible. -/
theorem writesCode_hexadecimal_iff {x : Char} (hx : x = 'x' ∨ x = 'X') {digits : Text} {n : Nat} :
    WritesCode ('#' :: x :: digits) n ↔ Writes 16 digits n := by
  constructor
  · intro h
    cases h with
    | decimal h => exact absurd h (not_writes_ten hx digits n)
    | hexadecimal _ h => exact h
  · exact .hexadecimal hx

/-- Behind a `#` that no `x` follows stands a number of base ten. -/
theorem writesCode_decimal_iff {digits : Text} (hx : ∀ r, digits ≠ 'x' :: r ∧ digits ≠ 'X' :: r)
    {n : Nat} : WritesCode ('#' :: digits) n ↔ Writes 10 digits n := by
  constructor
  · intro h
    cases h with
    | decimal h => exact h
    | hexadecimal hmark _ =>
      rcases hmark with rfl | rfl
      · exact absurd rfl (hx _).1
      · exact absurd rfl (hx _).2
  · exact .decimal

/-- No body writes two numbers. -/
theorem WritesCode.unique {body : Text} {m n : Nat} (hm : WritesCode body m)
    (hn : WritesCode body n) : m = n := by
  cases hm with
  | decimal hm =>
    cases hn with
    | decimal hn => exact hm.unique readsDigits_decimal hn
    | hexadecimal hx _ => exact absurd hm (not_writes_ten hx _ _)
  | hexadecimal hx hm =>
    exact hm.unique readsDigits_hexadecimal ((writesCode_hexadecimal_iff hx).1 hn)

/-- Behind `#` stands a number and no name. -/
theorem denotes_number_iff {t : Text} {c : Char} :
    Denotes ('#' :: t) c ↔ WritesCode ('#' :: t) c.toNat := by
  constructor
  · intro h
    cases h
    assumption
  · exact .code

/-- A body that writes a number stands for no other code. -/
theorem writesCode_of_denotes {body : Text} {n : Nat} {c : Char} (hn : WritesCode body n)
    (hc : Denotes body c) : WritesCode body c.toNat := by
  cases hn <;> exact denotes_number_iff.1 hc

/-- Without `#` it is one of the names. -/
theorem denotes_name_iff {body : Text} (hbody : ∀ t, body ≠ '#' :: t) {c : Char} :
    Denotes body c ↔ (body, c) ∈ predefinedReferences := by
  constructor
  · intro h
    cases h with
    | code h => cases h <;> exact absurd rfl (hbody _)
    | _ => decide
  · intro h
    simp only [predefinedReferences, List.mem_cons, List.not_mem_nil, or_false, Prod.mk.injEq] at h
    obtain ⟨rfl, rfl⟩ | ⟨rfl, rfl⟩ | ⟨rfl, rfl⟩ | ⟨rfl, rfl⟩ | ⟨rfl, rfl⟩ := h
    · exact .amp
    · exact .lt
    · exact .gt
    · exact .quot
    · exact .apos

/-- The names differ, so the first entry found is the only one. -/
theorem find?_predefined_eq_some_iff {body : Text} {c : Char} :
    (predefinedReferences.find? fun p => p.1 = body).map Prod.snd = some c ↔
      (body, c) ∈ predefinedReferences := by
  constructor
  · intro h
    obtain ⟨p, hp, rfl⟩ := Option.map_eq_some_iff.1 h
    have hname : p.1 = body := by simpa using List.find?_some hp
    rw [← hname]
    exact List.mem_of_find?_eq_some hp
  · intro h
    have hall : ∀ q ∈ predefinedReferences,
        (predefinedReferences.find? fun p => p.1 = q.1).map Prod.snd = some q.2 := by decide
    exact hall _ h

/-- A body is decoded exactly to what it stands for: by its number, or by its
name if it starts with no `#`. -/
theorem decodeReference?_eq_some_iff {body : Text} {c : Char} :
    decodeReference? body = some c ↔ Denotes body c := by
  unfold decodeReference?
  split
  · rw [numericReference?_eq_some_iff 16 (by decide) readsDigits_hexadecimal, denotes_number_iff]
    exact (writesCode_hexadecimal_iff (.inl rfl)).symm
  · rw [numericReference?_eq_some_iff 16 (by decide) readsDigits_hexadecimal, denotes_number_iff]
    exact (writesCode_hexadecimal_iff (.inr rfl)).symm
  · next hx hX =>
    rw [numericReference?_eq_some_iff 10 (by decide) readsDigits_decimal, denotes_number_iff]
    exact (writesCode_decimal_iff fun r => ⟨hx r, hX r⟩).symm
  · next hbody => rw [find?_predefined_eq_some_iff, denotes_name_iff hbody]

/-- **A reference is decoded by its number, whatever its length.**  A body is
decoded to the character it stands for and to no other.  Where it writes a
number, nothing comes of it if and only if that number is a surrogate or lies
beyond U+10FFFF; so no number, however long, is taken for a smaller one. -/
theorem decodes_iff_denotes (body : Text) :
    (∀ c, decodeReference? body = some c ↔ Denotes body c) ∧
      ∀ n, WritesCode body n →
        (decodeReference? body = none ↔ (0xD800 ≤ n ∧ n ≤ 0xDFFF) ∨ 0x10FFFF < n) := by
  refine ⟨fun c => decodeReference?_eq_some_iff, ?_⟩
  intro n hn
  constructor
  · intro hnone
    by_contra hvalid
    -- any other number is the code of a character, and the body stands for it
    have hchar : n.isValidChar := by
      show n < 0xD800 ∨ 0xDFFF < n ∧ n < 0x110000
      omega
    have hcode : WritesCode body (Char.ofNatAux n hchar).toNat := hn
    have hsome : decodeReference? body = some (Char.ofNatAux n hchar) :=
      decodeReference?_eq_some_iff.2 (.code hcode)
    rw [hnone] at hsome
    cases hsome
  · intro hinvalid
    refine Option.eq_none_iff_forall_ne_some.2 fun c hc => ?_
    have hdenotes : Denotes body c := decodeReference?_eq_some_iff.1 hc
    have hcode : n = c.toNat := hn.unique (writesCode_of_denotes hn hdenotes)
    have hvalid : c.toNat < 0xD800 ∨ 0xDFFF < c.toNat ∧ c.toNat < 0x110000 := c.valid
    omega

/-- Forty zeros before a number, and a number that 32 bits would take for the
same letter. -/
theorem decodes_iff_denotes_sample :
    decodeReference? ('#' :: (List.replicate 40 '0' ++ "65".toList)) = some 'A' ∧
      WritesCode "#4294967361".toList (2 ^ 32 + 65) ∧
      decodeReference? "#4294967361".toList = none := by
  have hshort : Writes 10 "65".toList 'A'.toNat :=
    (writes_iff readsDigits_decimal).2 ⟨by decide, by decide, by decide⟩
  have hlong : WritesCode "#4294967361".toList (2 ^ 32 + 65) :=
    .decimal ((writes_iff readsDigits_decimal).2 ⟨by decide, by decide, by decide⟩)
  exact ⟨((decodes_iff_denotes _).1 'A').2 (.code (.decimal (hshort.zeros 40))), hlong,
    ((decodes_iff_denotes _).2 _ hlong).2 (.inr (by decide))⟩

end QwebReceiver.Markup
