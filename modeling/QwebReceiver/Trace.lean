import QwebReceiver.Outcome

/-!
  QwebReceiver.Trace — notes on what a computation did.

  A run reports its progress as notes of five levels.  `Traced ε α` is a
  computation that may fail with `ε` and keeps the notes it made before the
  failure; `outcome` forgets the notes, and forgetting commutes with
  sequencing (`outcome_bind`), so a statement about results never sees them.
-/

namespace QwebReceiver

/-! ## §1. Notes. -/

/-- How important a note is, from the most detailed to the gravest. -/
inductive Level where
  | trace
  | debug
  | info
  | warn
  | error
  deriving Repr, DecidableEq

/-- The level's rank; a reader who asks for a rank sees it and all above. -/
def Level.rank : Level → Nat
  | .trace => 0
  | .debug => 1
  | .info => 2
  | .warn => 3
  | .error => 4

/-- A level as it is written in a log. -/
def Level.label : Level → String
  | .trace => "TRACE"
  | .debug => "DEBUG"
  | .info => "INFO"
  | .warn => "WARN"
  | .error => "ERROR"

/-- One line of a log. -/
structure Note where
  level : Level
  message : String
  deriving Repr, DecidableEq

/-- The notes a reader sees who asked for `least` and above. -/
def Note.visible (least : Level) (notes : List Note) : List Note :=
  notes.filter fun n => least.rank ≤ n.level.rank

/-! ## §2. Traced computations. -/

/-- A result or a failure, with the notes made on the way. -/
structure Traced (ε α : Type) where
  notes : List Note
  outcome : Except ε α

namespace Traced

variable {ε α β : Type}

/-- Makes one note. -/
def note (level : Level) (message : String) : Traced ε Unit :=
  ⟨[⟨level, message⟩], .ok ()⟩

/-- Fails without a note. -/
def fail (e : ε) : Traced ε α := ⟨[], .error e⟩

/-- A computation that makes no notes. -/
def ofExcept (r : Except ε α) : Traced ε α := ⟨[], r⟩

/-- Runs `f` on the result, if there is one; the notes of both follow each
other. -/
def bind (x : Traced ε α) (f : α → Traced ε β) : Traced ε β :=
  match x.outcome with
  | .error e => ⟨x.notes, .error e⟩
  | .ok a =>
    let y := f a
    ⟨x.notes ++ y.notes, y.outcome⟩

/-- Changes the result and makes no note of it. -/
def map (f : α → β) (x : Traced ε α) : Traced ε β := ⟨x.notes, x.outcome.map f⟩

/-- Changes the failure and makes no note of it. -/
def mapError {ε' : Type} (f : ε → ε') (x : Traced ε α) : Traced ε' α :=
  ⟨x.notes, x.outcome.mapError f⟩

instance : Monad (Traced ε) where
  pure a := ⟨[], .ok a⟩
  bind := bind

@[simp] theorem outcome_pure (a : α) : (pure a : Traced ε α).outcome = .ok a := rfl

@[simp] theorem outcome_fail (e : ε) : (fail e : Traced ε α).outcome = .error e := rfl

@[simp] theorem outcome_ofExcept (r : Except ε α) : (ofExcept r).outcome = r := rfl

@[simp] theorem outcome_note (l : Level) (m : String) :
    (note l m : Traced ε Unit).outcome = .ok () := rfl

@[simp] theorem outcome_map (f : α → β) (x : Traced ε α) :
    (x.map f).outcome = x.outcome.map f := rfl

/-- Forgetting the notes commutes with sequencing. -/
@[simp] theorem outcome_bind (x : Traced ε α) (f : α → Traced ε β) :
    (x >>= f).outcome = x.outcome.bind fun a => (f a).outcome := by
  show (bind x f).outcome = _
  unfold bind
  cases x.outcome <;> rfl

instance : LawfulMonad (Traced ε) :=
  .mk' (Traced ε)
    (fun x => by
      obtain ⟨notes, outcome⟩ := x
      cases outcome with
      | error e => rfl
      | ok a => exact congrArg (Traced.mk · (.ok a)) (List.append_nil notes))
    (fun _ _ => rfl)
    (fun x f g => by
      obtain ⟨notes, outcome⟩ := x
      cases outcome with
      | error e => rfl
      | ok a =>
        show bind (bind ⟨notes, .ok a⟩ f) g = bind ⟨notes, .ok a⟩ fun a => bind (f a) g
        simp only [bind]
        cases (f a).outcome with
        | error e => rfl
        | ok b => simp)

/-! ## §3. Changing results and failures. -/

section Map

variable {ε' γ : Type} (x : Traced ε α)

theorem ofExcept_ok_bind (a : α) (f : α → Traced ε β) : ofExcept (.ok a) >>= f = f a := rfl

@[simp] theorem mapError_pure (a : α) (g : ε → ε') :
    (pure a : Traced ε α).mapError g = pure a := rfl

@[simp] theorem mapError_fail (e : ε) (g : ε → ε') :
    (fail e : Traced ε α).mapError g = fail (g e) := rfl

@[simp] theorem mapError_ofExcept (r : Except ε α) (g : ε → ε') :
    (ofExcept r).mapError g = ofExcept (r.mapError g) := rfl

theorem map_id' : x.map (fun a => a) = x := by
  obtain ⟨notes, outcome⟩ := x
  cases outcome <;> rfl

theorem bind_pure_comp (f : α → β) : (x >>= fun a => pure (f a)) = x.map f := by
  obtain ⟨notes, outcome⟩ := x
  cases outcome with
  | error e => rfl
  | ok a => exact congrArg (Traced.mk · (.ok (f a))) (List.append_nil notes)

theorem map_map (f : α → β) (g : β → γ) : (x.map f).map g = x.map fun a => g (f a) := by
  obtain ⟨notes, outcome⟩ := x
  cases outcome <;> rfl

theorem map_bind (f : α → Traced ε β) (g : β → γ) :
    (x >>= f).map g = x >>= fun a => (f a).map g := by
  obtain ⟨notes, outcome⟩ := x
  cases outcome <;> rfl

theorem eq_of_mapError_eq {g : ε → ε'} (hg : ∀ a b, g a = g b → a = b) {y : Traced ε α}
    (h : x.mapError g = y.mapError g) : x = y := by
  obtain ⟨notes, outcome⟩ := x
  obtain ⟨notes', outcome'⟩ := y
  obtain ⟨rfl, h⟩ := (Traced.mk.injEq ..).mp h
  cases outcome with
  | error e =>
    cases outcome' with
    | error e' => rw [hg e e' (Except.error.inj h)]
    | ok a => cases h
  | ok a =>
    cases outcome' with
    | error e' => cases h
    | ok b => rw [Except.ok.inj h]

theorem mapError_map (f : α → β) (g : ε → ε') : (x.map f).mapError g = (x.mapError g).map f := by
  obtain ⟨notes, outcome⟩ := x
  cases outcome <;> rfl

theorem mapError_bind (f : α → Traced ε β) (g : ε → ε') :
    (x >>= f).mapError g = x.mapError g >>= fun a => (f a).mapError g := by
  obtain ⟨notes, outcome⟩ := x
  cases outcome <;> rfl

end Map

end Traced
end QwebReceiver
