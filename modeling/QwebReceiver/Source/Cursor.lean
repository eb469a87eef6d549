import QwebReceiver.Source.Location

/-!
  QwebReceiver.Source.Cursor — reading a source from the front.

  A cursor is a place and the text from there on.  Its only move is `skip`,
  so every cursor a reader passes through is `start.skip n` for some `n`:
  moves compose (`skip_skip`), never go back (`Reaches`), and keep the place
  exact (`here_skip`).
-/

namespace QwebReceiver

/-- A place, and the text from there on. -/
structure Cursor where
  here : Location
  rest : Text
  deriving Repr, DecidableEq

namespace Cursor

/-! ## §1. Moves. -/

/-- At the start of a text. -/
def ofText (t : Text) : Cursor := ⟨.origin, t⟩

/-- Past `n` characters. -/
def skip (c : Cursor) (n : Nat) : Cursor := ⟨c.here.after (c.rest.take n), c.rest.drop n⟩

/-- Past the characters of a class. -/
def skipWhile (c : Cursor) (p : Char → Bool) : Cursor := c.skip (c.rest.takeWhile p).length

/-- At the end of the text. -/
def toEnd (c : Cursor) : Cursor := c.skip c.rest.length

/-- Whether the text goes on with this word. -/
def startsWith (c : Cursor) (word : String) : Bool := word.toList.isPrefixOf c.rest

/-- The next character. -/
def peek (c : Cursor) : Option Char := c.rest.head?

/-- The stretch from this cursor to a later one. -/
def spanTo (c d : Cursor) : Span := ⟨c.here, d.here⟩

/-! ## §2. The algebra of moves. -/

@[simp] theorem rest_skip (c : Cursor) (n : Nat) : (c.skip n).rest = c.rest.drop n := rfl

theorem here_skip (c : Cursor) (n : Nat) : (c.skip n).here = c.here.after (c.rest.take n) := rfl

theorem skip_skip (c : Cursor) (m n : Nat) : (c.skip m).skip n = c.skip (m + n) := by
  simp only [skip, List.drop_drop, Cursor.mk.injEq]
  refine ⟨?_, trivial⟩
  rw [← Location.after_append, List.take_add]

@[simp] theorem skip_zero (c : Cursor) : c.skip 0 = c := by
  cases c; simp [skip]

/-- `d` is `c` moved on. -/
def Reaches (c d : Cursor) : Prop := ∃ n, d = c.skip n

theorem Reaches.refl (c : Cursor) : c.Reaches c := ⟨0, (skip_zero c).symm⟩

theorem reaches_skip (c : Cursor) (n : Nat) : c.Reaches (c.skip n) := ⟨n, rfl⟩

theorem Reaches.trans {c d e : Cursor} (h : c.Reaches d) (h' : d.Reaches e) : c.Reaches e := by
  obtain ⟨m, rfl⟩ := h
  obtain ⟨n, rfl⟩ := h'
  exact ⟨m + n, skip_skip c m n⟩

theorem Reaches.skip {c d : Cursor} (h : c.Reaches d) (n : Nat) : c.Reaches (d.skip n) :=
  h.trans (reaches_skip d n)

theorem Reaches.skipWhile {c d : Cursor} (h : c.Reaches d) (p : Char → Bool) :
    c.Reaches (d.skipWhile p) := h.skip _

theorem Reaches.length_le {c d : Cursor} (h : c.Reaches d) : d.rest.length ≤ c.rest.length := by
  obtain ⟨n, rfl⟩ := h
  simp

/-- A cursor that moved past a character has less text before it. -/
theorem length_lt_of_reaches_skip {c d : Cursor} {n : Nat} (hn : 0 < n) (hc : c.rest ≠ [])
    (h : (c.skip n).Reaches d) : d.rest.length < c.rest.length := by
  have := h.length_le
  have hpos := List.length_pos_iff.2 hc
  simp only [rest_skip, List.length_drop] at this
  omega

end Cursor
end QwebReceiver
