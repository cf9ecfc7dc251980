import ClassLang.Outcome

/-!
# Steps that settle a question

A question is a predicate on the possible answers. A step settles it if it succeeds with the one
answer there is, or fails with a fault of the program when there is none; a misuse settles nothing.
So for a step that settles a question, to succeed, to have an answer and not to fail are the same.

The steps of a check are built with `andThen`, and so are their questions: if the first part
settles `J` and what follows settles `K a` for the answer `a` found, the whole settles "some `a`
answers `J` and `b` answers `K a`" (`Answers.andThen`, `Outcome.Settles.andThen`). On success a
step may promise something about the state it leaves as well.
-/

namespace ClassLang

variable {σ τ α β : Type}

/-! ### Without a state -/

/-- The result is the only answer to `J`, or a fault if there is none. -/
def Answers (r : Except Failure α) (J : α → Prop) : Prop :=
  match r with
  | .ok a => ∀ b, J b ↔ b = a
  | .error e => e.isFault = true ∧ ∀ b, ¬ J b

namespace Answers

variable {J : α → Prop} {K : α → β → Prop} {L : β → Prop} {r : Except Failure α}

theorem ok {a : α} (h : ∀ b, J b ↔ b = a) : Answers (.ok a) J := h

theorem raise {f : Fault} (h : ∀ b, ¬ J b) : Answers f.raise J := ⟨rfl, h⟩

/-- Where there is an answer, it is the result. -/
theorem eq_ok {a : α} (h : Answers r J) (ha : J a) : r = .ok a := by
  cases r with
  | error e => exact absurd ha (h.2 a)
  | ok b => rw [(h a).mp ha]

/-- A requirement: nothing is asked but whether `p` holds. -/
theorem require {p : Prop} {f : Fault} [Decidable p] :
    Answers (if p then .ok () else f.raise) fun _ => p := by
  split
  · exact ok fun _ => by simp [*]
  · exact raise fun _ => by assumption

theorem congr {J' : α → Prop} (h : Answers r J) (hJ : ∀ a, J' a ↔ J a) : Answers r J' := by
  have : J' = J := funext fun a => propext (hJ a)
  rw [this]
  exact h

/-- A result that fails where `r` fails, and goes on from what `r` found. -/
theorem andThen {r' : Except Failure β} (hr : Answers r J)
    (herror : ∀ e, r = .error e → r' = .error e)
    (hok : ∀ a, r = .ok a → J a → Answers r' (K a)) (hL : ∀ b, L b ↔ ∃ a, J a ∧ K a b) :
    Answers r' L := by
  cases r with
  | error e =>
    rw [herror e rfl]
    exact ⟨hr.1, fun b hb => let ⟨a, ha, _⟩ := (hL b).mp hb; hr.2 a ha⟩
  | ok a =>
    have ha : J a := (hr a).mpr rfl
    refine (hok a rfl ha).congr fun b => (hL b).trans ⟨?_, fun hb => ⟨a, ha, hb⟩⟩
    rintro ⟨a', ha', hb⟩
    rwa [← (hr a').mp ha']

/-- What follows a requirement is asked only if the requirement is met. -/
theorem after {r : Except Failure Unit} {p : Prop} {next : Except Failure β}
    (hr : Answers r fun _ => p) (hn : p → Answers next L) :
    Answers (match r with | .error e => .error e | .ok () => next) fun b => p ∧ L b := by
  cases r with
  | error e => exact ⟨hr.1, fun _ hb => hr.2 () hb.1⟩
  | ok u =>
    have hp : p := (hr u).mpr rfl
    exact (hn hp).congr fun b => and_iff_right hp

end Answers

/-! ### With a state -/

namespace Outcome

/-- The outcome is the only answer to `J`, leaving a state for which `P` holds, or a fault if there
is no answer. -/
def Settles (r : Outcome σ α) (J : α → Prop) (P : α → σ → Prop) : Prop :=
  match r with
  | .ok a s => (∀ b, J b ↔ b = a) ∧ P a s
  | .error e _ => e.isFault = true ∧ ∀ b, ¬ J b

namespace Settles

variable {J : α → Prop} {K : α → β → Prop} {L : β → Prop} {P : α → σ → Prop} {Q : β → τ → Prop}
  {r : Outcome σ α}

theorem ok {a : α} {s : σ} (h : ∀ b, J b ↔ b = a) (hs : P a s) : (Outcome.ok a s).Settles J P :=
  ⟨h, hs⟩

/-- A step that asks nothing and succeeds. -/
theorem done {p : Prop} {P : Unit → σ → Prop} {s : σ} (h : p) (hs : P () s) :
    (Outcome.ok () s).Settles (fun _ => p) P :=
  ok (fun _ => by simp [h]) hs

theorem fail {f : Fault} {s : σ} (h : ∀ b, ¬ J b) :
    (Outcome.error (.ofFault f) s).Settles J P :=
  ⟨rfl, h⟩

theorem congr {J' : α → Prop} (h : r.Settles J P) (hJ : ∀ a, J' a ↔ J a) : r.Settles J' P := by
  have : J' = J := funext fun a => propext (hJ a)
  rw [this]
  exact h

theorem mono {P' : α → σ → Prop} (h : r.Settles J P) (hP : ∀ a s, J a → P a s → P' a s) :
    r.Settles J P' := by
  cases r with
  | error e s => exact h
  | ok a s => exact ⟨h.1, hP a s ((h.1 a).mpr rfl) h.2⟩

/-- What holds of the state reached in any case holds of the one left on success. -/
theorem and_state {R : σ → Prop} (h : r.Settles J P) (hs : R r.state) :
    r.Settles J fun a s => P a s ∧ R s := by
  cases r with
  | error e s => exact h
  | ok a s => exact ⟨h.1, h.2, hs⟩

theorem ofExcept {r : Except Failure α} {s : σ} (h : Answers r J) (hs : ∀ a, J a → P a s) :
    (Outcome.ofExcept r s).Settles J P := by
  cases r with
  | error e => exact h
  | ok a => exact ⟨h, hs a ((h a).mpr rfl)⟩

theorem andThen {wrap : σ → τ} {next : α → σ → Outcome τ β} (hr : r.Settles J P)
    (hn : ∀ a s, J a → P a s → (next a s).Settles (K a) Q)
    (hL : ∀ b, L b ↔ ∃ a, J a ∧ K a b) : (r.andThen wrap next).Settles L Q := by
  cases r with
  | error e s => exact ⟨hr.1, fun b hb => let ⟨a, ha, _⟩ := (hL b).mp hb; hr.2 a ha⟩
  | ok a s =>
    have ha : J a := (hr.1 a).mpr rfl
    refine (hn a s ha hr.2).congr fun b => (hL b).trans ⟨?_, fun hb => ⟨a, ha, hb⟩⟩
    rintro ⟨a', ha', hb⟩
    rwa [← (hr.1 a').mp ha']

/-- A question about the state, and then one about its answer. -/
theorem ask {r : Except Failure α} {s : σ} {wrap : σ → τ} {next : α → σ → Outcome τ β}
    (hr : Answers r J) (hn : ∀ a, J a → (next a s).Settles (K a) Q)
    (hL : ∀ b, L b ↔ ∃ a, J a ∧ K a b) : ((Outcome.ofExcept r s).andThen wrap next).Settles L Q :=
  (ofExcept (P := fun _ t => t = s) hr fun _ _ => rfl).andThen
    (fun a _ ha hs => hs ▸ hn a ha) hL

/-- What follows a requirement is asked only if the requirement is met. -/
theorem after {r : Outcome σ Unit} {p : Prop} {P : Unit → σ → Prop} {wrap : σ → τ}
    {next : Unit → σ → Outcome τ β} (hr : r.Settles (fun _ => p) P)
    (hn : ∀ s, p → P () s → (next () s).Settles L Q) :
    (r.andThen wrap next).Settles (fun b => p ∧ L b) Q :=
  hr.andThen (K := fun _ b => L b) (fun _ s hp hs => hn s hp hs) fun _ =>
    ⟨fun hb => ⟨(), hb⟩, fun ⟨_, hb⟩ => hb⟩

theorem require {r : Except Failure Unit} {s : σ} {p : Prop} {wrap : σ → τ}
    {next : Unit → σ → Outcome τ β} (hr : Answers r fun _ => p)
    (hn : p → (next () s).Settles L Q) :
    ((Outcome.ofExcept r s).andThen wrap next).Settles (fun b => p ∧ L b) Q :=
  (ofExcept (P := fun _ t => t = s) hr fun _ _ => rfl).after fun _ hp hs => hs ▸ hn hp

/-- What follows succeeds with the answer that was found. -/
theorem finish {wrap : σ → τ} {next : α → σ → Outcome τ α} {Q : α → τ → Prop}
    (hr : r.Settles J P) (hn : ∀ a s, J a → P a s → ∃ t, next a s = .ok a t ∧ Q a t) :
    (r.andThen wrap next).Settles J Q := by
  cases r with
  | error e s => exact hr
  | ok a s =>
    obtain ⟨t, ht, hq⟩ := hn a s ((hr.1 a).mpr rfl) hr.2
    rw [andThen_ok, ht]
    exact ⟨hr.1, hq⟩

theorem wrap {Q : α → τ → Prop} {f : σ → τ} (hr : r.Settles J P)
    (hQ : ∀ a s, J a → P a s → Q a (f s)) : (r.wrap f).Settles J Q := by
  cases r with
  | error e s => exact hr
  | ok a s => exact ⟨hr.1, hQ a s ((hr.1 a).mpr rfl) hr.2⟩

theorem locate {place : Span} (hr : r.Settles J P) : (r.locate place).Settles J P := by
  cases r with
  | error e s => exact ⟨by simpa using hr.1, hr.2⟩
  | ok a s => exact hr

end Settles

end Outcome

end ClassLang
