import ClassLang.Env
import ClassLang.Proofs.Table.Operations

/-!
# The operations on an environment

Ten operations move an environment: classes, methods and scopes are entered and left, and the open
class and the open scope are declared into. One that fails leaves the environment exactly as it was;
one that succeeds has an effect that its preconditions determine (`Env.Op.step_cases`). What it does
to the class table, if anything, is the effect of an operation on the table (`Env.Effect.on_table`).
-/

namespace ClassLang

open Outcome

namespace Env

/-- An operation on an environment. -/
inductive Op where
  | enterClass (name : String)
  | setParent (parent : String)
  | leaveClass
  | addField (name : String) (ty : Ty)
  | addMethod (s : Signature)
  | enterMethod (s : Signature)
  | leaveMethod
  | enterScope
  | leaveScope
  | declareLocal (name : String) (e : Entity)
deriving DecidableEq

namespace Op

def step : Op → Step Env Unit
  | enterClass name => Env.enterClass name
  | setParent parent => Env.setParent parent
  | leaveClass => Env.leaveClass
  | addField name ty => fun env => (Env.addField name ty env).forget
  | addMethod s => fun env => (Env.addMethod s env).forget
  | enterMethod s => Env.enterMethod s
  | leaveMethod => Env.leaveMethod
  | enterScope => Env.enterScope
  | leaveScope => Env.leaveScope
  | declareLocal name e => Env.declareLocal name e

/-- The operation on the class table that this one consists in. -/
def onTable? : Op → Option ClassTable.Op
  | enterClass name => some (.enter name)
  | setParent parent => some (.setParent parent)
  | addField name ty => some (.addField name ty)
  | addMethod s => some (.addMethod s)
  | _ => none

end Op

variable {env env' : Env} {op : Op}

/-! ### What an operation does -/

/-- What an operation that succeeds makes of the environment. -/
inductive Effect (env : Env) : Op → Env → Prop
  | table {op : Op} {o : ClassTable.Op} {t : ClassTable} (ho : op.onTable? = some o)
    (h : env.table.Effect o t) : Effect env op { env with table := t }
  | leaveClass (hmethod : env.method = none) :
    Effect env .leaveClass { env with table := env.table.leave }
  | enterMethod {s : Signature} {cls : String} {c : ClassInfo} (hmethod : env.method = none)
    (hopen : env.table.current = some cls) (hc : env.table.find? cls = some c) :
    Effect env (.enterMethod s)
      ⟨env.table.update cls fun c => (c.insertMethod s).2,
        ⟨NameMap.empty.insert receiverName (.value c.ty) :: env.scopes.frames⟩, some ⟨c.name, s⟩⟩
  | leaveMethod {m : OpenMethod} {frame : NameMap Entity} {rest : List (NameMap Entity)}
    (hmethod : env.method = some m) (hframes : env.scopes.frames = frame :: rest) :
    Effect env .leaveMethod { env with scopes := ⟨rest⟩, method := none }
  | enterScope {m : OpenMethod} (hmethod : env.method = some m) :
    Effect env .enterScope { env with scopes := ⟨.empty :: env.scopes.frames⟩ }
  | leaveScope {m : OpenMethod} {frame : NameMap Entity} {rest : List (NameMap Entity)}
    (hmethod : env.method = some m) (hframes : env.scopes.frames = frame :: rest) :
    Effect env .leaveScope { env with scopes := ⟨rest⟩ }
  | declareLocal {m : OpenMethod} {name : String} {e : Entity} {frame : NameMap Entity}
    {rest : List (NameMap Entity)} (hmethod : env.method = some m)
    (hframes : env.scopes.frames = frame :: rest) :
    Effect env (.declareLocal name e) { env with scopes := ⟨frame.insert name e :: rest⟩ }

theorem Op.step_of_onTable {o : ClassTable.Op} (h : op.onTable? = some o) (env : Env) :
    op.step env = (o.step env.table).wrap fun table => { env with table } := by
  cases op with
  | enterClass | setParent =>
    cases h
    rfl
  | addField | addMethod =>
    cases h
    exact forget_wrap ..
  | _ => cases h

/-- Entering a method succeeds just if a class is open and no method is. -/
theorem enterMethod_cases (s : Signature) (env : Env) :
    (∃ e, Env.enterMethod s env = .error e env) ∨ ∃ cls c, env.method = none ∧
      env.table.current = some cls ∧ env.table.find? cls = some c ∧ Env.enterMethod s env = .ok ()
        ⟨env.table.update cls fun c => (c.insertMethod s).2,
          ⟨NameMap.empty.insert receiverName (.value c.ty) :: env.scopes.frames⟩,
          some ⟨c.name, s⟩⟩ := by
  unfold Env.enterMethod currentClass
  cases hmethod : env.method with
  | some m => exact .inl ⟨_, rfl⟩
  | none =>
    cases hcurrent : env.table.current? with
    | none => exact .inl ⟨_, rfl⟩
    | some c =>
      obtain ⟨cls, hopen, hc⟩ := Option.bind_eq_some_iff.mp hcurrent
      have hadd : Env.addMethod s env = .ok (c.insertMethod s).1
          { env with table := env.table.update cls fun c => (c.insertMethod s).2 } := by
        unfold Env.addMethod Env.onTable ClassTable.addMethod
        rw [ClassTable.onCurrent_of_open hopen hc]
        rfl
      refine .inr ⟨cls, c, rfl, hopen, hc, ?_⟩
      simp only [hadd, ofExcept_ok, andThen_ok]
      rfl

/-- **An operation fails and changes nothing, or has one of the effects.** -/
theorem Op.step_cases (op : Op) (env : Env) :
    (∃ e, op.step env = .error e env) ∨ ∃ env', op.step env = .ok () env' ∧ env.Effect op env' := by
  -- the four operations on the class table alone
  have htable : ∀ o, op.onTable? = some o → (∃ e, op.step env = .error e env) ∨
      ∃ env', op.step env = .ok () env' ∧ env.Effect op env' := by
    intro o ho
    rw [Op.step_of_onTable ho]
    rcases o.step_cases env.table with ⟨e, he⟩ | ⟨t, ht, heff⟩
    · rw [he]
      exact .inl ⟨e, rfl⟩
    · rw [ht]
      exact .inr ⟨_, rfl, .table ho heff⟩
  have ⟨t, ⟨frames⟩, method⟩ := env
  cases op with
  | enterClass | setParent | addField | addMethod => exact htable _ rfl
  | leaveClass =>
    cases method with
    | some m => exact .inl ⟨_, rfl⟩
    | none =>
      by_cases hc : t.current?.isSome = true
      · exact .inr ⟨_, if_pos hc, .leaveClass rfl⟩
      · exact .inl ⟨_, if_neg hc⟩
  | enterMethod s =>
    rcases enterMethod_cases s ⟨t, ⟨frames⟩, method⟩ with h | ⟨cls, c, hm, hopen, hc, h⟩
    · exact .inl h
    · exact .inr ⟨_, h, .enterMethod hm hopen hc⟩
  | enterScope =>
    cases method with
    | none => exact .inl ⟨_, rfl⟩
    | some m => exact .inr ⟨_, rfl, .enterScope rfl⟩
  | leaveMethod =>
    cases method with
    | none => exact .inl ⟨_, rfl⟩
    | some m =>
      cases frames with
      | nil => exact .inl ⟨_, rfl⟩
      | cons frame rest => exact .inr ⟨_, rfl, .leaveMethod rfl rfl⟩
  | leaveScope =>
    cases method with
    | none => exact .inl ⟨_, rfl⟩
    | some m =>
      cases frames with
      | nil => exact .inl ⟨_, rfl⟩
      | cons frame rest => exact .inr ⟨_, rfl, .leaveScope rfl rfl⟩
  | declareLocal name e =>
    cases method with
    | none => exact .inl ⟨_, rfl⟩
    | some m =>
      cases frames with
      | nil => exact .inl ⟨_, rfl⟩
      | cons frame rest => exact .inr ⟨_, rfl, .declareLocal rfl rfl⟩

/-- **An operation that fails leaves the environment exactly as it was.** -/
theorem Op.eq_of_error {e : Failure} (h : op.step env = .error e env') : env' = env := by
  rcases op.step_cases env with ⟨e', he⟩ | ⟨env'', hok, -⟩
  · rw [he] at h
    cases h
    rfl
  · rw [hok] at h
    cases h

/-- What the effects keep, every operation keeps. -/
theorem Op.keeps {I : Env → Prop} (op : Op) (heffect : ∀ env', env.Effect op env' → I env')
    (h : I env) : I (op.step env).state := by
  rcases op.step_cases env with ⟨e, he⟩ | ⟨env', henv', heff⟩
  · rw [he]
    exact h
  · rw [henv']
    exact heffect env' heff

/-- The class table is left alone, or changed by an operation on it. -/
theorem Effect.on_table (h : env.Effect op env') : env'.table = env.table ∨
    ∃ o : ClassTable.Op, env.table.Effect o env'.table ∧
      (op.onTable? = some o ∨ o = .leave ∨ ∃ s, o = .addMethod s) := by
  cases h with
  | table ho heff => exact .inr ⟨_, heff, .inl ho⟩
  | leaveClass => exact .inr ⟨.leave, .leave, .inr (.inl rfl)⟩
  | @enterMethod s cls c hmethod hopen hc =>
    exact .inr ⟨.addMethod s, .change rfl hopen hc, .inr (.inr ⟨s, rfl⟩)⟩
  | leaveMethod | enterScope | leaveScope | declareLocal => exact .inl rfl

end Env

end ClassLang
