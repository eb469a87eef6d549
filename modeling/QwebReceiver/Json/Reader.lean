import QwebReceiver.Text
import QwebReceiver.Outcome

/-!
  QwebReceiver.Json.Reader — readers of JSON, one value at a time.

  A reader takes a value off the front of a text.  Files are read in one pass
  without building a tree, so the first fault in text order is the one that is
  reported, and there are three kinds of fault:

    truncated   the text ends inside a value
    malformed   the text is not JSON here
    mistyped    a sound value of a kind that was not asked for

  Every reader leaves less than it found (`Reader.consumes`); loops over items
  end for that reason.
-/

namespace QwebReceiver.Json

/-! ## §1. Readers. -/

/-- Why a text cannot be read. -/
inductive JsonError where
  | malformed
  | mistyped
  | truncated
  deriving Repr, DecidableEq

/-- What was read, and the text after it. -/
abbrev Reading (α : Type) := Except JsonError (α × Text)

/-- A reader leaves less text than it found. -/
structure Reader (α : Type) where
  read : Text → Reading α
  consumes : ∀ {t : Text} {a : α} {r : Text}, read t = .ok (a, r) → r.length < t.length

namespace Reader

variable {α β : Type}

/-- Reads the same text into another type. -/
def map (f : α → β) (p : Reader α) : Reader β where
  read t :=
    match p.read t with
    | .error e => .error e
    | .ok (a, r) => .ok (f a, r)
  consumes {t b r} h := by
    split at h
    · simp at h
    · next a r' hp =>
      simp only [Except.ok.injEq, Prod.mk.injEq] at h
      exact h.2 ▸ p.consumes hp

end Reader

/-! ## §2. Blanks, words and marks. -/

/-- The four blanks that may stand between lexemes. -/
def isBlank (c : Char) : Bool := c == ' ' || c == '\n' || c == '\t' || c == '\r'

/-- The text from its first lexeme on. -/
def skipBlanks (t : Text) : Text := t.dropWhile isBlank

theorem length_skipBlanks_le (t : Text) : (skipBlanks t).length ≤ t.length :=
  (List.dropWhile_suffix _).length_le

/-- A text whose first lexeme is at hand is longer than what follows it. -/
theorem length_lt_of_skipBlanks {t r : Text} {c : Char} (h : skipBlanks t = c :: r) :
    r.length < t.length := by
  have := length_skipBlanks_le t
  rw [h, List.length_cons] at this
  omega

/-- Reads exactly these characters. -/
def word : Text → Text → Except JsonError Text
  | [], t => .ok t
  | _ :: _, [] => .error .truncated
  | w :: ws, c :: r => if c = w then word ws r else .error .malformed

theorem length_word_le {w t r : Text} (h : word w t = .ok r) : r.length ≤ t.length := by
  induction w generalizing t with
  | nil => cases h; exact Nat.le_refl _
  | cons a ws ih =>
    cases t with
    | nil => simp [word] at h
    | cons c t =>
      simp only [word] at h
      split at h
      · exact Nat.le_succ_of_le (ih h)
      · simp at h

/-- Reads a mark that must come next. -/
def mark (c : Char) (t : Text) : Except JsonError Text :=
  match skipBlanks t with
  | [] => .error .truncated
  | d :: r => if d = c then .ok r else .error .malformed

theorem length_mark_lt {c : Char} {t r : Text} (h : mark c t = .ok r) : r.length < t.length := by
  unfold mark at h
  split at h
  · simp at h
  · next d r' hs =>
    split at h
    · cases h; exact length_lt_of_skipBlanks hs
    · simp at h

end QwebReceiver.Json
