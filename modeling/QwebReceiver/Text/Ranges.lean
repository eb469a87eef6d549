/-!
  QwebReceiver.Text.Ranges — sets of code points given by their ranges.

  A property of characters beyond ASCII is data: a list of ranges in
  ascending order.  The ASCII part is left to the predicates that use a
  table, so a statement about ASCII text never opens one.
-/

namespace QwebReceiver.Text

/-- A run of code points, both ends included. -/
abbrev CodeRange := Nat × Nat

/-- Whether the character lies in one of the ranges. -/
def inRanges (ranges : List CodeRange) (c : Char) : Bool :=
  ranges.any fun r => decide (r.1 ≤ c.toNat) && decide (c.toNat ≤ r.2)

/-- Code points from `first` to `last` in steps of `step`: capital letters
often alternate with small ones. -/
structure Stride where
  first : Nat
  last : Nat
  step : Nat

/-- Whether the character lies on one of the strides. -/
def onStrides (strides : List Stride) (c : Char) : Bool :=
  strides.any fun s =>
    decide (s.first ≤ c.toNat) && decide (c.toNat ≤ s.last) && (c.toNat - s.first) % s.step == 0

end QwebReceiver.Text
