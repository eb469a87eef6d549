/-!
  QwebReceiver.Text — text as a list of characters.

  Every scanner of the library is a recursion on characters, so text is a
  `List Char` throughout; `String` occurs only where a message is worded.
  Positions reported to a reader are byte offsets, hence the UTF-8 measures.

    utf8Size t         bytes that `t` occupies
    utf8 t             those bytes
    takeBytes n t      the characters of `t` that lie before byte `n`
    dropBytes n t      the characters of `t` from byte `n` on
    slice t n m        the characters of `t` from byte `n` up to byte `m`
    isBoundary t n     no character of `t` spans over byte `n`
    occursIn w t       `w` is a contiguous part of `t`
    upTo? w t          `t` split at the first occurrence of `w`
-/

namespace QwebReceiver

/-- Text is the list of its characters. -/
abbrev Text := List Char

namespace Text

/-! ## §1. Strings at the border. -/

/-- The text as a string, for messages. -/
def str (t : Text) : String := String.ofList t

/-! ## §2. Bytes. -/

/-- How many bytes the text occupies in UTF-8. -/
def utf8Size : Text → Nat
  | [] => 0
  | c :: r => c.utf8Size + utf8Size r

/-- The UTF-8 bytes of the text. -/
def utf8 (t : Text) : List UInt8 := t.flatMap String.utf8EncodeChar

/-- The leading characters that lie wholly before byte `n`. -/
def takeBytes (n : Nat) : Text → Text
  | [] => []
  | c :: r => if c.utf8Size ≤ n then c :: takeBytes (n - c.utf8Size) r else []

/-- What `takeBytes` leaves. -/
def dropBytes (n : Nat) : Text → Text
  | [] => []
  | c :: r => if c.utf8Size ≤ n then dropBytes (n - c.utf8Size) r else c :: r

/-- The characters from byte `start` up to byte `stop`. -/
def slice (t : Text) (start stop : Nat) : Text := (t.dropBytes start).takeBytes (stop - start)

/-- Whether a character starts at byte `n`, or the text ends there. -/
def isBoundary (t : Text) (n : Nat) : Bool := utf8Size (takeBytes n t) == n

theorem takeBytes_append_dropBytes (n : Nat) (t : Text) :
    takeBytes n t ++ dropBytes n t = t := by
  induction t generalizing n with
  | nil => rfl
  | cons c r ih =>
    by_cases h : c.utf8Size ≤ n <;> simp [takeBytes, dropBytes, h, ih]

theorem utf8Size_append (s t : Text) : utf8Size (s ++ t) = utf8Size s + utf8Size t := by
  induction s with
  | nil => simp [utf8Size]
  | cons c r ih => simp [utf8Size, ih, Nat.add_assoc]

/-! ## §3. Finding a word. -/

/-- Whether `word` is a contiguous part of the text. -/
def occursIn (word : Text) : Text → Bool
  | [] => word.isEmpty
  | c :: r => word.isPrefixOf (c :: r) || occursIn word r

/-- The text before the first occurrence of `mark`, and the text from that
occurrence on; `none` if the mark does not occur before the end. -/
def upTo? (mark : Text) : Text → Option (Text × Text)
  | [] => none
  | c :: r =>
    if mark.isPrefixOf (c :: r) then some ([], c :: r)
    else (upTo? mark r).map fun p => (c :: p.1, p.2)

theorem append_of_upTo? {mark t before rest : Text} (h : upTo? mark t = some (before, rest)) :
    before ++ rest = t := by
  induction t generalizing before with
  | nil => simp [upTo?] at h
  | cons c r ih =>
    simp only [upTo?] at h
    split at h
    · simp only [Option.some.injEq, Prod.mk.injEq] at h
      obtain ⟨rfl, rfl⟩ := h
      rfl
    · obtain ⟨⟨b, s⟩, hb, heq⟩ := Option.map_eq_some_iff.1 h
      simp only [Prod.mk.injEq] at heq
      obtain ⟨rfl, rfl⟩ := heq
      simp [ih hb]

end Text
end QwebReceiver
