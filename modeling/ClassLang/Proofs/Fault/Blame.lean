import ClassLang.Proofs.Fault.Raises
import ClassLang.Proofs.Fault.Unplaced

/-!
# What a step is to blame for

`r.Blames P` says of a step `r` which faults it can end in, and where they are reported: with the
fault `f` and the place `sp` exactly if some path with `P f path` has `sp` for its reported place. A
step that hands a fault on through a node makes its paths longer by that node
(`Outcome.Blames.locate`), because offering a place to a fault does to the reported place what one more
node does (`Node.locate_reported`). With the rules for the ways in which steps are put together, what a
check blames is found along its definition.
-/

namespace ClassLang

variable {σ τ α β : Type}

/-! ### The reported place -/

namespace Node

theorem reported_singleton (n : Node) : reported [n] = n.span := by
  unfold reported
  by_cases h : n.span.isUnknown <;> simp [h]

theorem reported_of_find {path : List Node} {sp : Span}
    (h : (path.map span).find? (!·.isUnknown) = some sp) : reported path = sp := by
  rw [reported, h, Option.getD_some]

/-- Without a known place on the path, the one that is reported is not known either. -/
theorem isUnknown_reported {path : List Node} (h : ∀ n ∈ path, n.span.isUnknown = true) :
    (reported path).isUnknown = true := by
  have hnone : (path.map span).find? (!·.isUnknown) = none := by simpa using h
  rw [reported, hnone, Option.getD_none]
  rcases List.eq_nil_or_concat path with rfl | ⟨rest, n, rfl⟩
  · rfl
  · simpa using h n (by simp)

/-- **The reported place is unknown only if every place on the path is.** -/
theorem isUnknown_reported_iff {path : List Node} :
    (reported path).isUnknown = true ↔ ∀ n ∈ path, n.span.isUnknown = true := by
  refine ⟨fun h => ?_, isUnknown_reported⟩
  cases hfind : (path.map span).find? (!·.isUnknown) with
  | none => simpa using hfind
  | some sp =>
    have hknown : sp.isUnknown = false := by simpa using List.find?_some hfind
    rw [reported_of_find hfind, hknown] at h
    cases h

/-- One more node on the path is one more offer of a place. -/
theorem locate_reported (f : Fault) (path : List Node) (n : Node) :
    (Failure.fault f (reported path)).locate n.span = .fault f (reported (path ++ [n])) := by
  cases hfind : (path.map span).find? (!·.isUnknown) with
  | some sp =>
    have hlonger : ((path ++ [n]).map span).find? (!·.isUnknown) = some sp := by
      rw [List.map_append, List.find?_append, hfind, Option.some_or]
    have hknown : sp.isUnknown = false := by simpa using List.find?_some hfind
    rw [reported_of_find hfind, reported_of_find hlonger, Failure.locate_of_known f hknown]
  | none =>
    have hunknown : ∀ n ∈ path, n.span.isUnknown = true := by simpa using hfind
    have hlonger : reported (path ++ [n]) = n.span := by
      unfold reported
      rw [List.map_append, List.find?_append, hfind, Option.none_or]
      by_cases h : n.span.isUnknown <;> simp [h]
    rw [hlonger, Failure.locate_of_unknown f (isUnknown_reported hunknown)]

end Node

open Node (reported)

/-! ### Steps -/

namespace Outcome

theorem ofExcept_eq_ok_iff {x : Except Failure α} {s s' : σ} {a : α} :
    ofExcept x s = .ok a s' ↔ x = .ok a ∧ s = s' := by
  cases x with
  | ok b => simp
  | error e => simp

/-- The faults that the step can end in are those of `P`, reported where `P` says. -/
def Blames (r : Outcome σ α) (P : Fault → List Node → Prop) : Prop :=
  ∀ f sp, (∃ s, r = .error (.fault f sp) s) ↔ ∃ path, P f path ∧ sp = reported path

/-- The step ends in no fault. -/
def Faultless (r : Outcome σ α) : Prop := r.Blames fun _ _ => False

namespace Blames

variable {P P' : Fault → List Node → Prop} {r : Outcome σ α} {embed : σ → τ}
  {next : α → σ → Outcome τ β}

theorem congr (h : r.Blames P) (hP : ∀ f path, P f path ↔ P' f path) : r.Blames P' := by
  have : P = P' := funext fun f => funext fun path => propext (hP f path)
  exact this ▸ h

theorem ok (a : α) (s : σ) : (Outcome.ok a s).Faultless := by
  intro f sp
  constructor
  · rintro ⟨_, h⟩
    cases h
  · rintro ⟨_, h, _⟩
    cases h

theorem misuse (m : Misuse) (s : σ) : (Outcome.error (.misuse m) s : Outcome σ α).Faultless := by
  intro f sp
  constructor
  · rintro ⟨_, h⟩
    cases h
  · rintro ⟨_, h, _⟩
    cases h

/-- A fault that is raised here. -/
theorem raise (f : Fault) (s : σ) :
    (Outcome.error (.ofFault f) s : Outcome σ α).Blames fun f' path => f' = f ∧ path = [] := by
  intro f' sp
  constructor
  · rintro ⟨_, h⟩
    cases h
    exact ⟨[], ⟨rfl, rfl⟩, rfl⟩
  · rintro ⟨_, ⟨rfl, rfl⟩, rfl⟩
    exact ⟨s, rfl⟩

/-- A fault that is raised unless `p` holds. -/
theorem require {p : Prop} [Decidable p] (a : α) (f : Fault) (s s' : σ) :
    (if p then Outcome.ok a s else .error (.ofFault f) s').Blames
      fun f' path => (¬ p ∧ f' = f) ∧ path = [] := by
  split
  · exact (ok a s).congr fun _ _ => by simp [*]
  · exact (raise f s').congr fun _ _ => by simp [*]

theorem ofExcept {x : Except Failure α} (hx : Unplaced x) (s : σ) :
    (Outcome.ofExcept x s).Blames fun f path => x = f.raise ∧ path = [] := by
  intro f sp
  constructor
  · rintro ⟨_, h⟩
    cases x with
    | ok a => cases h
    | error e =>
      cases h
      exact ⟨[], ⟨hx.eq_raise rfl, rfl⟩, hx f sp rfl⟩
  · rintro ⟨_, ⟨rfl, rfl⟩, rfl⟩
    exact ⟨s, rfl⟩

theorem wrap_iff {g : σ → τ} : (r.wrap g).Blames P ↔ r.Blames P := by
  refine forall_congr' fun f => forall_congr' fun sp => iff_congr ?_ Iff.rfl
  cases r with
  | ok a s => simp
  | error e s => simp

theorem wrap {g : σ → τ} (h : r.Blames P) : (r.wrap g).Blames P := wrap_iff.mpr h

/-- A fault comes out through the node `n`. -/
theorem locate (n : Node) (h : r.Blames P) :
    (r.locate n.span).Blames fun f path => ∃ rest, P f rest ∧ path = rest ++ [n] := by
  intro f sp
  constructor
  · rintro ⟨_, hr⟩
    cases r with
    | ok a s => cases hr
    | error e s =>
      cases e with
      | misuse m => cases hr
      | fault f' sp' =>
        obtain ⟨path, hP, rfl⟩ := (h f' sp').mp ⟨s, rfl⟩
        rw [locate_error, Node.locate_reported] at hr
        cases hr
        exact ⟨_, ⟨path, hP, rfl⟩, rfl⟩
  · rintro ⟨_, ⟨path, hP, rfl⟩, rfl⟩
    obtain ⟨s, rfl⟩ := (h f (reported path)).mpr ⟨path, hP, rfl⟩
    exact ⟨s, by rw [locate_error, Node.locate_reported]⟩

/-- What is raised at a node comes out through it alone. -/
theorem locate_own {Q : Fault → Prop} (n : Node) (h : r.Blames fun f path => Q f ∧ path = []) :
    (r.locate n.span).Blames fun f path => Q f ∧ path = [n] := by
  refine (h.locate n).congr fun f path => ⟨?_, ?_⟩
  · rintro ⟨_, ⟨hQ, rfl⟩, rfl⟩
    exact ⟨hQ, rfl⟩
  · rintro ⟨hQ, rfl⟩
    exact ⟨[], ⟨hQ, rfl⟩, rfl⟩

/-- A fault of the first step, or one of the second where it starts from. -/
theorem andThen {Q : α → σ → Fault → List Node → Prop} (hr : r.Blames P)
    (hn : ∀ a s, r = .ok a s → (next a s).Blames (Q a s)) :
    (r.andThen embed next).Blames fun f path =>
      P f path ∨ ∃ a s, r = .ok a s ∧ Q a s f path := by
  intro f sp
  cases r with
  | ok a s =>
    have hP : ∀ path, ¬ P f path := by
      intro path hP
      obtain ⟨_, h⟩ := (hr f (reported path)).mpr ⟨path, hP, rfl⟩
      cases h
    rw [andThen_ok, hn a s rfl f sp]
    refine exists_congr fun path => and_congr_left' ⟨fun hQ => .inr ⟨a, s, rfl, hQ⟩, ?_⟩
    rintro (h | ⟨_, _, h, hQ⟩)
    · exact absurd h (hP path)
    · cases h
      exact hQ
  | error e s =>
    have hsame : (∃ t, (Outcome.error e s : Outcome σ α).andThen embed next =
        .error (.fault f sp) t) ↔ ∃ t, (.error e s : Outcome σ α) = .error (.fault f sp) t := by
      simp
    rw [hsame, hr f sp]
    refine exists_congr fun path => and_congr_left' ⟨.inl, ?_⟩
    rintro (h | ⟨_, _, h, _⟩)
    · exact h
    · cases h

/-- What follows the step ends in no fault. -/
theorem finish (hr : r.Blames P) (hn : ∀ a s, r = .ok a s → (next a s).Faultless) :
    (r.andThen embed next).Blames P :=
  (hr.andThen hn).congr fun _ _ => by simp

/-- The step itself ends in no fault. -/
theorem after {Q : α → σ → Fault → List Node → Prop} (hr : r.Faultless)
    (hn : ∀ a s, r = .ok a s → (next a s).Blames (Q a s)) :
    (r.andThen embed next).Blames fun f path => ∃ a s, r = .ok a s ∧ Q a s f path :=
  (Blames.andThen hr hn).congr fun _ _ => by simp

/-- A question comes first. -/
theorem ask {x : Except Failure α} {s : σ} {Q : α → Fault → List Node → Prop} (hx : Unplaced x)
    (hn : ∀ a, x = .ok a → (next a s).Blames (Q a)) :
    ((Outcome.ofExcept x s).andThen embed next).Blames fun f path =>
      x = f.raise ∧ path = [] ∨ ∃ a, x = .ok a ∧ Q a f path := by
  have hsecond : ∀ a s', Outcome.ofExcept x s = .ok a s' → (next a s').Blames (Q a) := by
    intro a s' h
    obtain ⟨rfl, rfl⟩ := ofExcept_eq_ok_iff.mp h
    exact hn a rfl
  refine ((ofExcept hx s).andThen hsecond).congr fun f path => or_congr_right ?_
  exact ⟨fun ⟨a, _, h, hQ⟩ => ⟨a, (ofExcept_eq_ok_iff.mp h).1, hQ⟩,
    fun ⟨a, h, hQ⟩ => ⟨a, s, ofExcept_eq_ok_iff.mpr ⟨h, rfl⟩, hQ⟩⟩

end Blames

end Outcome

open Outcome

/-! ### Operations on the environment -/

theorem ClassTable.faultless_onCurrent (operation : String) (change : ClassInfo → α × ClassInfo)
    (t : ClassTable) : (ClassTable.onCurrent operation change t).Faultless := by
  unfold ClassTable.onCurrent
  split
  · exact .misuse _ _
  · split
    · exact .misuse _ _
    · exact .ok _ _

theorem Scopes.faultless_pop (s : Scopes) : s.pop.Faultless := by
  obtain ⟨_ | ⟨frame, rest⟩⟩ := s
  · exact .misuse _ _
  · exact .ok _ _

theorem Scopes.faultless_declare (name : String) (e : Entity) (s : Scopes) :
    (Scopes.declare name e s).Faultless := by
  obtain ⟨_ | ⟨frame, rest⟩⟩ := s
  · exact .misuse _ _
  · exact .ok _ _

namespace Env

variable (env : Env)

theorem faultless_setParent (parent : String) : (Env.setParent parent env).Faultless :=
  (ClassTable.faultless_onCurrent _ _ _).wrap

theorem faultless_addField (name : String) (ty : Ty) : (Env.addField name ty env).Faultless :=
  (ClassTable.faultless_onCurrent _ _ _).wrap

theorem faultless_addMethod (s : Signature) : (Env.addMethod s env).Faultless :=
  (ClassTable.faultless_onCurrent _ _ _).wrap

theorem faultless_inBody {operation : String} {step : Step Env α} (h : (step env).Faultless) :
    (Env.inBody operation step env).Faultless := by
  unfold Env.inBody
  split
  · exact h
  · exact .misuse _ _

theorem faultless_enterScope : (Env.enterScope env).Faultless :=
  env.faultless_inBody (.ok _ _)

theorem faultless_leaveScope : (Env.leaveScope env).Faultless :=
  env.faultless_inBody (Scopes.faultless_pop _).wrap

theorem faultless_declareLocal (name : String) (e : Entity) :
    (Env.declareLocal name e env).Faultless :=
  env.faultless_inBody ((Scopes.faultless_declare name e _).wrap.finish fun _ _ _ => .ok _ _)

theorem faultless_leaveMethod : (Env.leaveMethod env).Faultless :=
  env.faultless_inBody ((Scopes.faultless_pop _).wrap.finish fun _ _ _ => .ok _ _)

theorem faultless_leaveClass : (Env.leaveClass env).Faultless := by
  unfold Env.leaveClass
  split
  · exact .misuse _ _
  · split
    · exact .ok _ _
    · exact .misuse _ _

theorem faultless_currentClass : (Outcome.ofExcept env.currentClass env).Faultless := by
  unfold Env.currentClass
  split
  · exact .ok _ _
  · exact .misuse _ _

theorem faultless_enterMethod (s : Signature) : (Env.enterMethod s env).Faultless := by
  unfold Env.enterMethod
  split
  · exact .misuse _ _
  · refine env.faultless_currentClass.finish fun c env _ => ?_
    refine (env.faultless_addMethod s).finish fun _ env _ => ?_
    exact (Scopes.faultless_declare _ _ _).wrap.finish fun _ _ _ => .ok _ _

/-- Entering a class is the one operation that ends in a fault. -/
theorem blames_enterClass (name : String) : (Env.enterClass name env).Blames fun f path =>
    (env.table.current = none ∧ env.table.contains name = true ∧ f = .duplicateClass name) ∧
      path = [] := by
  refine .wrap ?_
  unfold ClassTable.enter
  split
  · rename_i opened hopen
    exact (Blames.misuse _ _).congr fun f path => by simp [hopen]
  · rename_i hclosed
    by_cases hname : env.table.contains name = true
    · rw [if_pos hname]
      exact (Blames.raise _ _).congr fun f path => by simp [hclosed, hname]
    · rw [if_neg hname]
      exact (Blames.ok _ _).congr fun f path => by simp [hname]

end Env

/-! ### Lists -/

/-- What is blamed on the way through a list is blamed at its first element, or after that has
passed. -/
theorem reached_cons_iff {passes : σ → τ → σ → Prop} {P : σ → τ → Prop} {s : σ} {x : τ}
    {rest : List τ} : (∃ s' y, Reached passes s (x :: rest) s' y ∧ P s' y) ↔
      P s x ∨ ∃ s₁, passes s x s₁ ∧ ∃ s' y, Reached passes s₁ rest s' y ∧ P s' y := by
  constructor
  · rintro ⟨s', y, h, hP⟩
    cases h with
    | first => exact .inl hP
    | next hx h => exact .inr ⟨_, hx, s', y, h, hP⟩
  · rintro (hP | ⟨s₁, hx, s', y, h, hP⟩)
    · exact ⟨s, x, .first, hP⟩
    · exact ⟨s', y, .next hx h, hP⟩

theorem reached_nil_iff {passes : σ → τ → σ → Prop} {P : σ → τ → Prop} {s : σ} :
    (∃ s' y, Reached passes s [] s' y ∧ P s' y) ↔ False := by
  refine ⟨?_, False.elim⟩
  rintro ⟨_, _, h, _⟩
  cases h

end ClassLang
