import QwebReceiver.Batch.Error
import QwebReceiver.Files.Tree
import QwebReceiver.Trace

/-!
  QwebReceiver.Batch.Session — work on a tree of files.

  A session looks at the tree and writes to it, step after step.  It may end
  with an error; what was written before the error stays written.  `outcome`
  and `after` are what a session comes to and the tree that it leaves, without
  the notes.
-/

namespace QwebReceiver.Batch

open QwebReceiver.Files

/-- Work on a tree: the result or the error it ends with, and the tree that it
leaves. -/
def Session (α : Type) := FileTree → Traced BatchError α × FileTree

namespace Session

variable {α β : Type}

/-- Goes on with the result, if there is one, in the tree that was left. -/
def bind (x : Session α) (f : α → Session β) : Session β := fun t =>
  match (x t).1.outcome with
  | .error e => (⟨(x t).1.notes, .error e⟩, (x t).2)
  | .ok a =>
    let next := f a (x t).2
    (⟨(x t).1.notes ++ next.1.notes, next.1.outcome⟩, next.2)

instance : Monad Session where
  pure a t := (pure a, t)
  bind := bind

/-- Work that only looks at the tree. -/
def look (f : FileTree → Traced BatchError α) : Session α := fun t => (f t, t)

/-- Writes a file; the answer is whether it could be written. -/
def write (p : Path) (s : Text) : Session Bool := fun t =>
  match t.write? p s with
  | some next => (pure true, next)
  | none => (pure false, t)

/-! What a session comes to. -/

/-- The result of a session, or its error. -/
def outcome (x : Session α) (t : FileTree) : Except BatchError α := (x t).1.outcome

/-- The tree that a session leaves. -/
def after (x : Session α) (t : FileTree) : FileTree := (x t).2

@[simp] theorem outcome_pure (a : α) (t : FileTree) : outcome (pure a) t = .ok a := rfl

@[simp] theorem after_pure (a : α) (t : FileTree) : after (pure a) t = t := rfl

@[simp] theorem outcome_look (f : FileTree → Traced BatchError α) (t : FileTree) :
    outcome (look f) t = (f t).outcome := rfl

@[simp] theorem after_look (f : FileTree → Traced BatchError α) (t : FileTree) :
    after (look f) t = t := rfl

@[simp] theorem outcome_write (p : Path) (s : Text) (t : FileTree) :
    outcome (write p s) t = .ok (t.write? p s).isSome := by
  unfold outcome write
  cases t.write? p s with
  | none => rfl
  | some next => rfl

@[simp] theorem after_write (p : Path) (s : Text) (t : FileTree) :
    after (write p s) t = (t.write? p s).getD t := by
  unfold after write
  cases t.write? p s with
  | none => rfl
  | some next => rfl

@[simp] theorem outcome_bind (x : Session α) (f : α → Session β) (t : FileTree) :
    outcome (x >>= f) t = (x.outcome t).bind fun a => (f a).outcome (x.after t) := by
  show (bind x f t).1.outcome = _
  unfold bind outcome after
  cases (x t).1.outcome with
  | error e => rfl
  | ok a => rfl

/-- A session goes on in the tree that its first step left. -/
theorem after_bind_of_ok {x : Session α} {t : FileTree} {a : α} (h : x.outcome t = .ok a)
    (f : α → Session β) : after (x >>= f) t = (f a).after (x.after t) := by
  show (bind x f t).2 = _
  unfold outcome at h
  unfold bind after
  rw [h]

/-- A session that ends with an error leaves what it had come to. -/
theorem after_bind_of_error {x : Session α} {t : FileTree} {e : BatchError}
    (h : x.outcome t = .error e) (f : α → Session β) : after (x >>= f) t = x.after t := by
  show (bind x f t).2 = _
  unfold outcome at h
  unfold bind after
  rw [h]

instance : LawfulMonad Session :=
  .mk' Session
    (fun x => by
      funext t
      show bind x (fun a => pure a) t = x t
      unfold bind
      rcases x t with ⟨⟨notes, outcome⟩, next⟩
      cases outcome with
      | error e => rfl
      | ok a => exact congrArg (fun l => (Traced.mk l (.ok a), next)) (List.append_nil notes))
    (fun _ _ => rfl)
    (fun x f g => by
      funext t
      show bind (bind x f) g t = bind x (fun a => bind (f a) g) t
      unfold bind
      rcases x t with ⟨⟨notes, outcome⟩, next⟩
      cases outcome with
      | error e => rfl
      | ok a =>
        simp only
        cases (f a next).1.outcome with
        | error e => rfl
        | ok b => simp)

end Session
end QwebReceiver.Batch
