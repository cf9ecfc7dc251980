import ClassLang.Outcome

/-!
# What an outcome leaves

The state that a step has reached is the same whatever becomes of its value or its failure. What
follows a step follows it only if it succeeds, also where it is a list of what happens
(`Outcome.onOk`).
-/

namespace ClassLang

namespace Outcome

variable {σ τ α β : Type}

/-- The outcome without its value. -/
def forget (r : Outcome σ α) : Outcome σ Unit := r.andThen id fun _ s => .ok () s

/-- What follows a step, if the step succeeds. -/
def onOk (r : Outcome σ α) (next : α → σ → List β) : List β :=
  match r with
  | .ok a s => next a s
  | .error .. => []

@[simp] theorem state_locate (place : Span) (r : Outcome σ α) :
    (r.locate place).state = r.state := by
  cases r <;> rfl

@[simp] theorem state_wrap (r : Outcome σ α) (f : σ → τ) : (r.wrap f).state = f r.state := by
  cases r <;> rfl

@[simp] theorem state_ofExcept (r : Except Failure α) (s : σ) :
    (Outcome.ofExcept r s).state = s := by
  cases r <;> rfl

@[simp] theorem state_forget (r : Outcome σ α) : r.forget.state = r.state := by
  cases r <;> rfl

theorem forget_wrap (r : Outcome σ α) (f : σ → τ) : (r.wrap f).forget = r.forget.wrap f := by
  cases r <;> rfl

@[simp] theorem onOk_locate (place : Span) (r : Outcome σ α) (next : α → σ → List β) :
    (r.locate place).onOk next = r.onOk next := by
  cases r <;> rfl

theorem onOk_nil (r : Outcome σ α) : (r.onOk fun _ _ => ([] : List β)) = [] := by
  cases r <;> rfl

/-! ### What a success tells -/

section

variable {r : Outcome σ α} {embed : σ → τ} {next : α → σ → Outcome τ β} {b : β} {t : τ}

theorem exists_of_andThen (h : r.andThen embed next = .ok b t) :
    ∃ a s, r = .ok a s ∧ next a s = .ok b t := by
  cases r with
  | ok a s => exact ⟨a, s, rfl, h⟩
  | error e s => cases h

theorem of_locate {place : Span} {a : α} {s : σ} (h : r.locate place = .ok a s) :
    r = .ok a s := by
  cases r with
  | ok a s => exact h
  | error e s => cases h

theorem exists_of_wrap {a : α} (h : r.wrap embed = .ok a t) : ∃ s, r = .ok a s ∧ embed s = t := by
  cases r with
  | ok a s =>
    cases h
    exact ⟨s, rfl, rfl⟩
  | error e s => cases h

theorem of_ask {x : Except Failure α} {s : σ}
    (h : (Outcome.ofExcept x s).andThen embed next = .ok b t) :
    ∃ a, x = .ok a ∧ next a s = .ok b t := by
  cases x with
  | ok a => exact ⟨a, rfl, h⟩
  | error e => cases h

end

end Outcome

end ClassLang
