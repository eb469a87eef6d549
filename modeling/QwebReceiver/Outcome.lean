/-!
  QwebReceiver.Outcome — results of steps that may fail.

  A step returns a value or the reason why there is none.  Steps in a row
  return a value exactly if each of them does, and then it is theirs.
-/

namespace QwebReceiver

variable {ε α β : Type}

/-- Two steps in a row return what the second one returns. -/
theorem bind_eq_ok_iff {x : Except ε α} {f : α → Except ε β} {b : β} :
    x.bind f = .ok b ↔ ∃ a, x = .ok a ∧ f a = .ok b := by
  cases x with
  | error e => simp [Except.bind]
  | ok a => simp [Except.bind]

/-- A step whose value is changed returns the changed value. -/
theorem map_eq_ok_iff {x : Except ε α} {f : α → β} {b : β} :
    x.map f = .ok b ↔ ∃ a, x = .ok a ∧ f a = b := by
  cases x with
  | error e => simp [Except.map]
  | ok a => simp [Except.map]

end QwebReceiver
