import ClassLang.Failure

/-!
# Steps that leave something behind

A step that fails does not undo what it did: an environment keeps the scopes it opened, a tree
keeps the slots that were filled. So an `Outcome` carries, next to the value or the failure, the
state that was reached, and a `Step` is a function from a state to an outcome.
-/

namespace ClassLang

/-- A value or a failure, and in both cases the state reached. -/
inductive Outcome (σ α : Type) where
  | ok (value : α) (state : σ)
  | error (failure : Failure) (state : σ)

/-- A change of a state that may fail. -/
abbrev Step (σ α : Type) := σ → Outcome σ α

namespace Outcome

variable {σ τ α β : Type}

/-- A value or a failure, found without a change of the state. -/
def ofExcept (r : Except Failure α) (s : σ) : Outcome σ α :=
  match r with
  | .ok a => .ok a s
  | .error e => .error e s

/-- Goes on after a success. A failure ends the whole, and `wrap` says what it leaves of the whole. -/
def andThen (r : Outcome σ α) (wrap : σ → τ) (next : α → σ → Outcome τ β) : Outcome τ β :=
  match r with
  | .ok a s => next a s
  | .error e s => .error e (wrap s)

/-- The same outcome of a larger state. -/
def wrap (r : Outcome σ α) (f : σ → τ) : Outcome τ α :=
  match r with
  | .ok a s => .ok a (f s)
  | .error e s => .error e (f s)

/-- Offers a fault without a known place the place of the node it came out of. -/
def locate (place : Span) (r : Outcome σ α) : Outcome σ α :=
  match r with
  | .ok a s => .ok a s
  | .error e s => .error (e.locate place) s

/-- The state reached. -/
def state (r : Outcome σ α) : σ :=
  match r with
  | .ok _ s => s
  | .error _ s => s

/-- The value or the failure. -/
def toExcept (r : Outcome σ α) : Except Failure α :=
  match r with
  | .ok a _ => .ok a
  | .error e _ => .error e

@[simp] theorem andThen_ok (a : α) (s : σ) (wrap : σ → τ) (next : α → σ → Outcome τ β) :
    andThen (.ok a s) wrap next = next a s := rfl

@[simp] theorem andThen_error (e : Failure) (s : σ) (wrap : σ → τ) (next : α → σ → Outcome τ β) :
    andThen (.error e s : Outcome σ α) wrap next = .error e (wrap s) := rfl

@[simp] theorem ofExcept_ok (a : α) (s : σ) : ofExcept (.ok a) s = .ok a s := rfl

@[simp] theorem ofExcept_error (e : Failure) (s : σ) :
    ofExcept (.error e : Except Failure α) s = .error e s := rfl

@[simp] theorem locate_ok (place : Span) (a : α) (s : σ) :
    locate place (.ok a s : Outcome σ α) = .ok a s := rfl

@[simp] theorem locate_error (place : Span) (e : Failure) (s : σ) :
    locate place (.error e s : Outcome σ α) = .error (e.locate place) s := rfl

@[simp] theorem wrap_ok (a : α) (s : σ) (f : σ → τ) : wrap (.ok a s) f = .ok a (f s) := rfl

@[simp] theorem wrap_error (e : Failure) (s : σ) (f : σ → τ) :
    wrap (.error e s : Outcome σ α) f = .error e (f s) := rfl

theorem wrap_eq_andThen (r : Outcome σ α) (f : σ → τ) :
    r.wrap f = r.andThen f fun a s => .ok a (f s) := by
  cases r <;> rfl

end Outcome

end ClassLang
