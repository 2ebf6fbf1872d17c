import Cutflow.Error

/-!
# Outcomes

What can be observed of one evaluation: its result, and the hand-written leaf functions that were
called on the way to it. Outcomes form a monad: what comes after a failure does not happen, so
its calls are not in the list.

## What is proved

* `LawfulMonad Outcome`: evaluation steps can be regrouped freely.
-/

namespace Cutflow

/-- The leaves called, in order, and a value or the error that ended the evaluation. -/
structure Outcome (α : Type) where
  /-- The identifiers of the leaf functions called, first call first. -/
  calls : List String
  /-- How the evaluation ended. -/
  result : Except Error α

namespace Outcome

variable {α β : Type}

@[ext]
theorem ext {a b : Outcome α} (calls : a.calls = b.calls) (result : a.result = b.result) :
    a = b := by
  cases a
  cases b
  cases calls
  cases result
  rfl

/-- What calls nothing and gives a value. -/
protected def pure (a : α) : Outcome α := ⟨[], .ok a⟩

/-- What calls nothing and fails. -/
def fail (e : Error) : Outcome α := ⟨[], .error e⟩

/-- What depends on no call: a value or an error that is known. -/
def ofExcept (result : Except Error α) : Outcome α := ⟨[], result⟩

/-- The second step after the first one, if that succeeds. -/
protected def bind (a : Outcome α) (f : α → Outcome β) : Outcome β :=
  match a.result with
  | .error e => ⟨a.calls, .error e⟩
  | .ok x =>
    let b := f x
    ⟨a.calls ++ b.calls, b.result⟩

instance : Monad Outcome where
  pure := Outcome.pure
  bind := Outcome.bind

theorem pure_def (a : α) : (pure a : Outcome α) = ⟨[], .ok a⟩ := rfl

@[simp]
theorem pure_bind (a : α) (f : α → Outcome β) : (pure a : Outcome α) >>= f = f a := rfl

@[simp]
theorem error_bind (calls : List String) (e : Error) (f : α → Outcome β) :
    (⟨calls, .error e⟩ : Outcome α) >>= f = ⟨calls, .error e⟩ := rfl

@[simp]
theorem ok_bind (calls : List String) (a : α) (f : α → Outcome β) :
    (⟨calls, .ok a⟩ : Outcome α) >>= f = ⟨calls ++ (f a).calls, (f a).result⟩ := rfl

instance : LawfulMonad Outcome :=
  LawfulMonad.mk' Outcome
    (fun a => by
      obtain ⟨calls, _ | _⟩ := a
      · rfl
      · exact ext (List.append_nil calls) rfl)
    (fun _ _ => rfl)
    (fun a f g => by
      obtain ⟨calls, _ | x⟩ := a
      · rfl
      · generalize h : f x = b
        obtain ⟨more, _ | y⟩ := b <;> simp [h])

end Outcome

end Cutflow
