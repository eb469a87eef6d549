import QwebReceiver.Json.Numeral
import QwebReceiver.Json.Quoted

/-!
  QwebReceiver.Json.Skip — passing over values that nobody asks for.

  The value must be sound JSON, however deep; the arrays and objects that are
  open around the place of reading stand on a stack.
-/

namespace QwebReceiver.Json

open QwebReceiver.Text (isAsciiDigit)

/-! ## §1. Scalars. -/

/-- Whether a character starts a numeral. -/
def startsNumeral (c : Char) : Bool := c == '-' || isAsciiDigit c

/-- The rest of the word that a character starts. -/
def wordRest? (c : Char) : Option Text :=
  match c with
  | 'n' => some "ull".toList
  | 't' => some "rue".toList
  | 'f' => some "alse".toList
  | _ => none

/-- Passes over a scalar, given its first character. -/
def skipScalar (c : Char) (r : Text) : Except JsonError Text :=
  match wordRest? c with
  | some w => word w r
  | none =>
    if startsNumeral c then (looseNumeral.read (c :: r)).map Prod.snd
    else if c = '"' then (looseQuoted.read r).map Prod.snd
    else .error .malformed

theorem length_skipScalar_le {c : Char} {r s : Text} (h : skipScalar c r = .ok s) :
    s.length ≤ r.length := by
  unfold skipScalar at h
  split at h
  · exact length_word_le h
  · split at h
    · obtain ⟨⟨u, v⟩, hp, rfl⟩ := map_eq_ok_iff.1 h
      exact Nat.le_of_lt_succ (looseNumeral.consumes hp)
    · split at h
      · obtain ⟨⟨u, v⟩, hp, rfl⟩ := map_eq_ok_iff.1 h
        exact Nat.le_of_lt (looseQuoted.consumes hp)
      · simp at h

/-! ## §2. Nesting. -/

/-- What may be open around a value. -/
inductive Bracket where
  | array
  | object
  deriving Repr, DecidableEq

/-- How a bracket closes. -/
def Bracket.close : Bracket → Char
  | .array => ']'
  | .object => '}'

/-- The bracket that a character opens. -/
def Bracket.opened? (c : Char) : Option Bracket :=
  if c = '[' then some .array else if c = '{' then some .object else none

/-- Passes over the name of a member and its colon. -/
def skipName (t : Text) : Except JsonError Text :=
  match mark '"' t with
  | .error e => .error e
  | .ok r =>
    match looseQuoted.read r with
    | .error e => .error e
    | .ok (_, s) => mark ':' s

theorem length_skipName_lt {t r : Text} (h : skipName t = .ok r) : r.length < t.length := by
  unfold skipName at h
  split at h
  · simp at h
  · next hm =>
    split at h
    · simp at h
    · next hq =>
      have := length_mark_lt hm
      have := looseQuoted.consumes hq
      have := length_mark_lt h
      omega

/-- What comes before the next value in a bracket: in an object, its name. -/
def Bracket.enter : Bracket → Text → Except JsonError Text
  | .array, t => .ok t
  | .object, t => skipName t

theorem Bracket.length_enter_le {b : Bracket} {t r : Text} (h : b.enter t = .ok r) :
    r.length ≤ t.length := by
  cases b with
  | array => cases h; exact Nat.le_refl _
  | object => exact Nat.le_of_lt (length_skipName_lt h)

/-- Where a reader stands: before a value, or after one. -/
inductive Place where
  | before
  | after
  deriving Repr, DecidableEq

/-- Passes over the rest of the outermost value. -/
def skipFrom (place : Place) (outer : List Bracket) (t : Text) : Except JsonError Text :=
  match place, outer with
  | .after, [] => .ok t
  | .after, b :: bs =>
    match hs : skipBlanks t with
    | [] => .error .truncated
    | c :: r =>
      have hr := length_lt_of_skipBlanks hs
      if c = b.close then skipFrom .after bs r
      else if c = ',' then
        match hn : b.enter r with
        | .error e => .error e
        | .ok s =>
          have := Nat.lt_of_le_of_lt (Bracket.length_enter_le hn) hr
          skipFrom .before (b :: bs) s
      else .error .malformed
  | .before, bs =>
    match hs : skipBlanks t with
    | [] => .error .truncated
    | c :: r =>
      have hr := length_lt_of_skipBlanks hs
      match Bracket.opened? c with
      | some b =>
        match hc : skipBlanks r with
        | [] => .error .truncated
        | d :: s =>
          have := Nat.lt_trans (length_lt_of_skipBlanks hc) hr
          if d = b.close then skipFrom .after bs s
          else
            match hn : b.enter r with
            | .error e => .error e
            | .ok u =>
              have := Nat.lt_of_le_of_lt (Bracket.length_enter_le hn) hr
              skipFrom .before (b :: bs) u
      | none =>
        match hn : skipScalar c r with
        | .error e => .error e
        | .ok s =>
          have := Nat.lt_of_le_of_lt (length_skipScalar_le hn) hr
          skipFrom .after bs s
termination_by t.length

theorem length_skipFrom {place : Place} {outer : List Bracket} {t r : Text}
    (h : skipFrom place outer t = .ok r) :
    r.length ≤ t.length ∧ (place = .before → r.length < t.length) := by
  fun_induction skipFrom place outer t <;> grind

/-- A value of any kind. -/
def skipValue : Reader Unit where
  read t := (skipFrom .before [] t).map fun r => ((), r)
  consumes h := by
    obtain ⟨s, hs, heq⟩ := map_eq_ok_iff.1 h
    cases heq
    exact (length_skipFrom hs).2 rfl

end QwebReceiver.Json
