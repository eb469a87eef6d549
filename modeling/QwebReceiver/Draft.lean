import QwebReceiver.Trace

/-!
  QwebReceiver.Draft — edits that may stop half way.

  Editing a document visits one value after the other; when one of them cannot
  be edited, the edits made before it stay.  A draft is the thing as far as it
  was edited, with the failure that stopped the work, if one did, and the
  notes made on the way.
-/

namespace QwebReceiver

/-- A value as far as it was edited. -/
structure Draft (ε α : Type) where
  value : α
  failure : Option ε := none
  notes : List Note := []

namespace Draft

variable {ε α β : Type}

/-- Nothing to edit. -/
def done (a : α) : Draft ε α := { value := a }

/-- A step that only makes a note. -/
def noting (level : Level) (message : String) (a : α) : Draft ε α :=
  { value := a, notes := [⟨level, message⟩] }

/-- Goes on with the value, unless the work has stopped. -/
def andThen (d : Draft ε α) (f : α → Draft ε α) : Draft ε α :=
  match d.failure with
  | some _ => d
  | none =>
    let next := f d.value
    { next with notes := d.notes ++ next.notes }

/-- The draft seen as part of something larger. -/
def map (f : α → β) (d : Draft ε α) : Draft ε β :=
  { value := f d.value, failure := d.failure, notes := d.notes }

/-- Edits the members of a list from the first to the last; those after a
failure stay as they are. -/
def each (f : α → Draft ε α) : List α → Draft ε (List α)
  | [] => done []
  | a :: rest =>
    let d := f a
    match d.failure with
    | some _ => d.map (· :: rest)
    | none =>
      let ds := each f rest
      { value := d.value :: ds.value, failure := ds.failure, notes := d.notes ++ ds.notes }

end Draft
end QwebReceiver
