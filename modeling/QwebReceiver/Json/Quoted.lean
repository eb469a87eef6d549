import QwebReceiver.Json.Reader
import QwebReceiver.Text.CharClass

/-!
  QwebReceiver.Json.Quoted — quoted strings.

    \" \\ \/ \b \f \n \r \t    one character
    \uXXXX                     a character of the basic plane
    \uXXXX\uXXXX               a character beyond it, as a leading and a
                               trailing surrogate

  Control characters below U+0020 must be escaped.  A string that nobody asks
  for is read loosely: its surrogates need not be paired.  Writing escapes
  only what must be escaped.
-/

namespace QwebReceiver.Json

/-! ## §1. Escapes. -/

/-- The character that a one-letter escape stands for. -/
def shortEscape? (c : Char) : Option Char :=
  match c with
  | '"' => some '"'
  | '\\' => some '\\'
  | '/' => some '/'
  | 'b' => some '\x08'
  | 'f' => some '\x0c'
  | 'n' => some '\n'
  | 'r' => some '\r'
  | 't' => some '\t'
  | _ => none

/-- The value of a hexadecimal digit. -/
def hexValue? (c : Char) : Option Nat :=
  if '0' ≤ c && c ≤ '9' then some (c.toNat - '0'.toNat)
  else if 'a' ≤ c && c ≤ 'f' then some (c.toNat - 'a'.toNat + 10)
  else if 'A' ≤ c && c ≤ 'F' then some (c.toNat - 'A'.toNat + 10)
  else none

/-- The value of four hexadecimal digits.  A text of less than four bytes ends
too early, whatever it holds. -/
def hexUnit : Text → Reading Nat
  | a :: b :: c :: d :: r =>
    match hexValue? a, hexValue? b, hexValue? c, hexValue? d with
    | some i, some j, some k, some l => .ok (((i * 16 + j) * 16 + k) * 16 + l, r)
    | _, _, _, _ => .error .malformed
  | t => .error (if Text.utf8Size t < 4 then .truncated else .malformed)

theorem length_hexUnit_lt {t r : Text} {n : Nat} (h : hexUnit t = .ok (n, r)) :
    r.length < t.length := by
  unfold hexUnit at h
  split at h
  · split at h
    · simp only [Except.ok.injEq, Prod.mk.injEq] at h
      rw [← h.2]
      simp only [List.length_cons]
      omega
    · simp at h
  · simp at h

/-- Whether a unit opens a surrogate pair. -/
def isLeading (u : Nat) : Bool := 0xD800 ≤ u && u ≤ 0xDBFF

/-- Whether a unit ends a surrogate pair. -/
def isTrailing (u : Nat) : Bool := 0xDC00 ≤ u && u ≤ 0xDFFF

/-- The character of a surrogate pair. -/
def paired (lead trail : Nat) : Char :=
  Char.ofNat (0x10000 + (lead - 0xD800) * 0x400 + (trail - 0xDC00))

/-- The trailing unit that must follow a leading one. -/
def trailingUnit : Text → Reading Nat
  | '\\' :: 'u' :: r =>
    match hexUnit r with
    | .error e => .error e
    | .ok (v, r') => if isTrailing v then .ok (v, r') else .error .malformed
  | [] => .error .truncated
  | ['\\'] => .error .truncated
  | _ => .error .malformed

theorem length_trailingUnit_lt {t r : Text} {n : Nat} (h : trailingUnit t = .ok (n, r)) :
    r.length < t.length := by
  unfold trailingUnit at h
  split at h
  · next s =>
    split at h
    · simp at h
    · next v r' hv =>
      split at h
      · simp only [Except.ok.injEq, Prod.mk.injEq] at h
        have := length_hexUnit_lt hv
        rw [← h.2]
        simp only [List.length_cons]
        omega
      · simp at h
  all_goals simp at h

/-- The character that hexadecimal units stand for. -/
def codePoint (t : Text) : Reading Char :=
  match hexUnit t with
  | .error e => .error e
  | .ok (u, r) =>
    -- a trailing surrogate by itself, or a leading one without its other half
    if isTrailing u then .error .malformed
    else if isLeading u then
      match trailingUnit r with
      | .error e => .error e
      | .ok (v, r') => .ok (paired u v, r')
    else .ok (Char.ofNat u, r)

theorem length_codePoint_lt {t r : Text} {c : Char} (h : codePoint t = .ok (c, r)) :
    r.length < t.length := by
  unfold codePoint at h
  split at h
  · simp at h
  · next u s hu =>
    have hs := length_hexUnit_lt hu
    split at h
    · simp at h
    · split at h
      · split at h
        · simp at h
        · next v s' hv =>
          simp only [Except.ok.injEq, Prod.mk.injEq] at h
          have := length_trailingUnit_lt hv
          rw [← h.2]
          omega
      · simp only [Except.ok.injEq, Prod.mk.injEq] at h
        rw [← h.2]
        exact hs

/-- Reads an escape, its backslash apart; `unit` reads what follows a `u`. -/
def escapeWith {α : Type} (unit : Text → Reading α) (short : Char → α) : Text → Reading α
  | [] => .error .truncated
  | 'u' :: r => unit r
  | c :: r =>
    match shortEscape? c with
    | none => .error .malformed
    | some d => .ok (short d, r)

theorem length_escapeWith_lt {α : Type} {unit : Text → Reading α} {short : Char → α}
    (hu : ∀ {t a r}, unit t = .ok (a, r) → r.length < t.length) {t r : Text} {a : α}
    (h : escapeWith unit short t = .ok (a, r)) : r.length < t.length := by
  unfold escapeWith at h
  split at h
  · simp at h
  · exact Nat.lt_succ_of_lt (hu h)
  · split at h
    · simp at h
    · simp only [Except.ok.injEq, Prod.mk.injEq] at h
      rw [← h.2]
      simp

/-- An escape and the character it stands for. -/
def escape : Reader Char where
  read := escapeWith codePoint id
  consumes := length_escapeWith_lt length_codePoint_lt

/-- An escape of which only the form counts. -/
def looseEscape : Reader Unit where
  read := escapeWith (fun t => (hexUnit t).map fun p => ((), p.2)) fun _ => ()
  consumes := length_escapeWith_lt (by
    intro t a r h
    obtain ⟨⟨n, s⟩, hp, heq⟩ := map_eq_ok_iff.1 h
    cases heq
    exact length_hexUnit_lt hp)

/-! ## §2. Strings. -/

/-- Reads a string whose opening quote has been read: `esc` reads its escapes,
`plain` takes its other characters. -/
def quotedBody {α : Type} (esc : Reader α) (plain : Char → α) (t : Text) : Reading (List α) :=
  match t with
  | [] => .error .truncated
  | c :: r =>
    if c = '"' then .ok ([], r)
    else if c = '\\' then
      match h : esc.read r with
      | .error e => .error e
      | .ok (a, r') =>
        have : r'.length < (c :: r).length := Nat.lt_succ_of_lt (esc.consumes h)
        (quotedBody esc plain r').map fun p => (a :: p.1, p.2)
    else if c < ' ' then .error .malformed
    else (quotedBody esc plain r).map fun p => (plain c :: p.1, p.2)
termination_by t.length
decreasing_by
  · assumption
  · exact Nat.lt_succ_self _

theorem length_quotedBody_lt {α : Type} {esc : Reader α} {plain : Char → α} {t r : Text}
    {s : List α} (h : quotedBody esc plain t = .ok (s, r)) : r.length < t.length := by
  fun_induction quotedBody esc plain t generalizing s with
  | case1 => simp at h
  | case2 => simp only [Except.ok.injEq, Prod.mk.injEq] at h; rw [← h.2]; simp
  | case3 => simp at h
  | case4 =>
    rename_i hlt ih
    obtain ⟨⟨n, s⟩, hp, heq⟩ := map_eq_ok_iff.1 h
    cases heq
    exact Nat.lt_trans (ih hp) hlt
  | case5 => simp at h
  | case6 =>
    rename_i ih
    obtain ⟨⟨n, s⟩, hp, heq⟩ := map_eq_ok_iff.1 h
    cases heq
    exact Nat.lt_succ_of_lt (ih hp)

/-- A string whose opening quote has been read. -/
def quoted : Reader Text where
  read := quotedBody escape id
  consumes := length_quotedBody_lt

/-- A string of which only the form counts, its opening quote apart. -/
def looseQuoted : Reader Unit :=
  Reader.map (fun _ => ()) { read := quotedBody looseEscape fun _ => (), consumes := length_quotedBody_lt }

/-! ## §3. Writing. -/

/-- A hexadecimal digit in lower case. -/
def hexDigit (n : Nat) : Char := if n < 10 then Char.ofNat (48 + n) else Char.ofNat (87 + n)

/-- One character of a string as it is written. -/
def writeChar (c : Char) : Text :=
  if c = '"' then ['\\', '"']
  else if c = '\\' then ['\\', '\\']
  else if c = '\x08' then ['\\', 'b']
  else if c = '\x0c' then ['\\', 'f']
  else if c = '\n' then ['\\', 'n']
  else if c = '\r' then ['\\', 'r']
  else if c = '\t' then ['\\', 't']
  else if c < ' ' then ['\\', 'u', '0', '0', hexDigit (c.toNat / 16), hexDigit (c.toNat % 16)]
  else [c]

/-- A string as it is written. -/
def writeQuoted (t : Text) : Text := '"' :: t.flatMap writeChar ++ ['"']

/-! ## §4. What is written is read. -/

theorem hexValue?_hexDigit : ∀ n < 16, hexValue? (hexDigit n) = some n := by decide

theorem codePoint_control {n : Nat} (h : n < 32) (r : Text) :
    codePoint ('0' :: '0' :: hexDigit (n / 16) :: hexDigit (n % 16) :: r) =
      .ok (Char.ofNat n, r) := by
  have hz : hexValue? '0' = some 0 := by decide
  have hu : hexUnit ('0' :: '0' :: hexDigit (n / 16) :: hexDigit (n % 16) :: r) = .ok (n, r) := by
    simp only [hexUnit, hz, hexValue?_hexDigit (n / 16) (by omega),
      hexValue?_hexDigit (n % 16) (by omega)]
    congr 2
    omega
  have ht : isTrailing n = false := by simp [isTrailing]; omega
  have hl : isLeading n = false := by simp [isLeading]; omega
  simp [codePoint, hu, ht, hl]

theorem quotedBody_backslash {t r : Text} {c : Char} (h : escape.read t = .ok (c, r)) :
    quotedBody escape id ('\\' :: t) = (quotedBody escape id r).map fun p => (c :: p.1, p.2) := by
  rw [quotedBody]
  simp only [Char.reduceEq, if_false, if_true]
  split
  · next e he => simp [h] at he
  · next a r' he =>
    rw [h] at he
    cases he
    rfl

theorem quotedBody_writeChar (c : Char) (t : Text) :
    quotedBody escape id (writeChar c ++ t) =
      (quotedBody escape id t).map fun p => (c :: p.1, p.2) := by
  unfold writeChar
  repeat' split
  all_goals first
    | (subst c; exact quotedBody_backslash rfl)
    | skip
  · next hc =>
    refine quotedBody_backslash ?_
    have hn : c.toNat < 32 := hc
    have := codePoint_control hn t
    rw [Char.ofNat_toNat] at this
    exact this
  · next h1 h2 _ _ _ _ _ hc =>
    simp [quotedBody, h1, h2, hc]

/-- A written string is read back, whatever follows it. -/
theorem quoted_read_writeQuoted (t r : Text) :
    quoted.read (t.flatMap writeChar ++ '"' :: r) = .ok (t, r) := by
  show quotedBody escape id _ = _
  induction t with
  | nil => simp [quotedBody]
  | cons c t ih =>
    rw [List.flatMap_cons, List.append_assoc, quotedBody_writeChar, ih]
    rfl

end QwebReceiver.Json
