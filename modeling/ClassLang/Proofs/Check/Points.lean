import ClassLang.Proofs.Check.Log
import ClassLang.Proofs.Check.Signed
import ClassLang.Proofs.Declared
import ClassLang.Proofs.Table.Order

/-!
# The points of a check

A check moves its environment by one operation at a time, reads it in between, and fills in the types
it finds. Its log leads from the environment it starts with to the one it leaves, after a success as
after a failure, and from one point to the next by an operation that the check has made sure it may
take (`Env.Run`, `Program.run_log`): a parent is the one that the class names and is declared, and
fields, methods and locals have types that may stand there. The types filled in name classes that are
declared.

So what every such operation keeps holds at every point of every check (`Program.forall_points`), and
what all operations keep is kept by the checks of expressions, statements, classes and programs,
wherever these break off (`Env.Call.keeps`).
-/

namespace ClassLang

open Outcome

variable {p : Program} {env env' env₁ env₂ : Env} {s : Signature} {cls : String}

/-! ### Runs -/

namespace Env

/-- What a check of `p` sees to before it takes an operation. -/
def Op.Allowed (p : Program) (env : Env) : Op → Prop
  | setParent q => (ClassTable.Op.setParent q).Allowed p env.table
  | op => op.Guarded env.names

theorem Op.Allowed.guarded {op : Op} (h : op.Allowed p env) : op.Guarded env.names := by
  cases op with
  | setParent q =>
    obtain ⟨-, -, -, -, hdeclared⟩ := h
    exact mem_names_iff.mpr hdeclared
  | _ => exact h

theorem Op.Allowed.on_table {op : Op} {o : ClassTable.Op} (h : op.Allowed p env)
    (ho : op.onTable? = some o) : o.Allowed p env.table := by
  cases op with
  | setParent q =>
    cases ho
    exact h
  | _ => cases ho <;> trivial

/-- The log leads from one environment to another, by operations that are allowed. The types in it
are known where they are filled in. -/
inductive Run (p : Program) : Env → List Event → Env → Prop
  | done {env : Env} : Run p env [] env
  | moved {env env' : Env} {op : Op} {l : List Event} (hop : op.Allowed p env)
    (h : Run p (op.step env).state l env') : Run p env (.moved (op.step env).state :: l) env'
  | typed {env env' : Env} {τ : Ty} {l : List Event} (hτ : env.Declared → τ.Known env.names)
    (h : Run p env l env') : Run p env (.typed τ :: l) env'

namespace Run

variable {σ τ α β : Type} {l l' : List Event}

theorem one (op : Op) (hop : op.Allowed p env) (h : (op.step env).state = env') :
    Run p env [.moved env'] env' := by
  subst h
  exact .moved hop .done

theorem ofTypes : ∀ {l : List Ty}, (env.Declared → ∀ τ ∈ l, τ.Known env.names) →
    Run p env (l.map .typed) env
  | [], _ => .done
  | τ :: _, h => .typed (fun henv => h henv τ (List.mem_cons_self ..))
      (ofTypes fun henv τ hτ => h henv τ (List.mem_cons_of_mem _ hτ))

theorem append (h : Run p env l env₁) (h' : Run p env₁ l' env₂) : Run p env (l ++ l') env₂ := by
  induction h with
  | done => exact h'
  | moved hop _ ih => exact .moved hop (ih h')
  | typed hτ _ ih => exact .typed hτ (ih h')

/-- No class is forgotten along a run. -/
theorem names_subset (h : Run p env l env') : env.names ⊆ env'.names := by
  induction h with
  | done => exact List.Subset.refl _
  | moved _ _ ih => exact List.Subset.trans (Op.names_step _ _) ih
  | typed _ _ ih => exact ih

/-- What holds at the start and is kept by every operation that is allowed holds at every point. -/
theorem forall_mem {I : Env → Prop}
    (hstep : ∀ env (op : Op), op.Allowed p env → I env → I (op.step env).state)
    (h : Run p env l env') (henv : I env) : (∀ e ∈ env :: envsOf l, I e) ∧ I env' := by
  induction h with
  | done => exact ⟨List.forall_mem_singleton.mpr henv, henv⟩
  | moved hop _ ih =>
    obtain ⟨hall, hlast⟩ := ih (hstep _ _ hop henv)
    exact ⟨List.forall_mem_cons.mpr ⟨henv, hall⟩, hlast⟩
  | typed _ _ ih => exact ih henv

variable {r : Outcome σ α} {embed : σ → τ} {next : α → σ → Outcome τ β} {f : σ → Env} {g : τ → Env}
  {rest : α → σ → List Event}

/-- The run of a step and of what follows it. `f` finds the environment in the state of the step, `g`
in the state of the whole. -/
theorem andThen (hr : Run p env l (f r.state)) (hw : ∀ s, g (embed s) = f s)
    (hn : ∀ a s, r = .ok a s → env.names ⊆ (f s).names →
      Run p (f s) (rest a s) (g (next a s).state)) :
    Run p env (l ++ r.onOk rest) (g (r.andThen embed next).state) := by
  cases r with
  | ok a s => exact hr.append (hn a s rfl hr.names_subset)
  | error e s =>
    rw [onOk, List.append_nil, andThen_error, state, hw]
    exact hr

/-- A question to the environment comes first. -/
theorem ask {x : Except Failure α} {s : σ} {rest : α → List Event} (hw : g (embed s) = env)
    (hn : ∀ a, x = .ok a → Run p env (rest a) (g (next a s).state)) :
    Run p env ((Outcome.ofExcept x env).onOk fun a _ => rest a)
      (g ((Outcome.ofExcept x s).andThen embed next).state) := by
  cases x with
  | ok a => exact hn a rfl
  | error e =>
    show Run p env [] (g (embed s))
    rw [hw]
    exact .done

/-- What follows the step leaves the environment alone. -/
theorem finish (hr : Run p env l (f r.state)) (hw : ∀ s, g (embed s) = f s)
    (hn : ∀ a s, g (next a s).state = f s) : Run p env l (g (r.andThen embed next).state) := by
  have hstate : g (r.andThen embed next).state = f r.state := by
    cases r with
    | ok a s => exact hn a s
    | error e s => exact hw s
  rw [hstate]
  exact hr

end Run

end Env

/-! ### The types of expressions -/

section

variable {σ α β : Type} {P : β → Prop}

theorem Outcome.forall_mem_onOk {r : Outcome σ α} {next : α → σ → List β}
    (h : ∀ a s, r = .ok a s → ∀ b ∈ next a s, P b) : ∀ b ∈ r.onOk next, P b := by
  cases r with
  | ok a s => exact h a s rfl
  | error e s => exact List.forall_mem_nil _

theorem Outcome.forall_mem_ask {x : Except Failure α} {s : σ} {next : α → σ → List β}
    (h : ∀ a, x = .ok a → ∀ b ∈ next a s, P b) : ∀ b ∈ (Outcome.ofExcept x s).onOk next, P b := by
  cases x with
  | ok a => exact h a rfl
  | error e => exact List.forall_mem_nil _

end

mutual

/-- The types that the check of an expression fills in are known. -/
theorem Expr.known_log (h : env.Declared) : ∀ (e : Expr), ∀ τ ∈ e.log env, τ.Known env.names
  | .number .. => List.forall_mem_singleton.mpr fun _ => nofun
  | .bool .. => List.forall_mem_singleton.mpr fun _ => nofun
  | .this _ => by
    rw [Expr.log]
    refine forall_mem_ask fun τ hτ => List.forall_mem_singleton.mpr ?_
    unfold Env.receiver at hτ
    split at hτ
    · rename_i σ hreceiver
      cases hτ
      exact (h.storable_of_receiver? hreceiver).2
    · cases hτ
  | .var _ o x _ _ => by
    rw [Expr.log]
    refine forall_mem_ask fun found hfound => List.forall_mem_singleton.mpr ?_
    exact (h.storable_of_useVar hfound).2
  | .binary _ op l r => by
    rw [Expr.log]
    refine List.forall_mem_append.mpr ⟨Expr.known_log h l, forall_mem_onOk fun lty _ _ => ?_⟩
    refine List.forall_mem_append.mpr ⟨Expr.known_log h r, forall_mem_onOk fun rty _ _ => ?_⟩
    exact forall_mem_ask fun τ hτ => List.forall_mem_singleton.mpr (known_of_ruleType hτ)
  | .unary _ op x => by
    rw [Expr.log]
    refine List.forall_mem_append.mpr ⟨Expr.known_log h x, forall_mem_onOk fun xty _ _ => ?_⟩
    exact forall_mem_ask fun τ hτ => List.forall_mem_singleton.mpr (known_of_ruleType hτ)
  | .call _ o f args _ _ => by
    rw [Expr.log]
    refine forall_mem_ask fun found _ => ?_
    refine List.forall_mem_append.mpr ⟨Expr.known_logList h args, forall_mem_onOk fun tys _ _ => ?_⟩
    refine forall_mem_ask fun target ht => List.forall_mem_singleton.mpr ?_
    exact (h.declared_of_bindCall ht).1
  | .create _ cls args _ => by
    rw [Expr.log]
    refine forall_mem_ask fun name hname => ?_
    refine List.forall_mem_append.mpr ⟨Expr.known_logList h args, forall_mem_onOk fun tys _ _ => ?_⟩
    refine forall_mem_ask fun _ _ => List.forall_mem_singleton.mpr fun q hq => ?_
    exact Ty.cls.inj hq ▸ ClassTable.mem_of_requireInstantiable hname

theorem Expr.known_logList (h : env.Declared) : ∀ (es : List Expr), ∀ τ ∈ Expr.logList env es,
    τ.Known env.names
  | [] => List.forall_mem_nil _
  | e :: rest => by
    rw [Expr.logList]
    exact List.forall_mem_append.mpr
      ⟨Expr.known_log h e, forall_mem_onOk fun _ _ _ => Expr.known_logList h rest⟩

end

/-! ### Statements -/

open Env (Run)

theorem Expr.run_events (e : Expr) (env : Env) : Run p env (e.events env) env :=
  .ofTypes fun henv => e.known_log henv

theorem Expr.run_eventsOption (e : Option Expr) (env : Env) :
    Run p env (Expr.eventsOption env e) env := by
  cases e with
  | none => exact .done
  | some e =>
    rw [eventsOption, Option.toList_some, List.flatMap_cons, List.flatMap_nil, List.append_nil]
    exact e.run_events env

theorem run_logInScope {body : List Stmt} {run : Env → Checked (List Stmt)}
    {log : Env → List Event} (h : ∀ env, Run p env (log env) (run env).state.2) (env : Env) :
    Run p env (logInScope env run log) (checkInScope body env run).state.2 := by
  unfold checkInScope logInScope
  refine Run.andThen (f := id) (g := Prod.snd) (l := [_]) (.one .enterScope trivial rfl)
    (fun _ => rfl) fun _ env₁ _ _ => ?_
  refine Run.andThen (f := Prod.snd) (g := Prod.snd) (h env₁) (fun _ => rfl) fun _ r _ _ => ?_
  rw [state_wrap]
  exact .one .leaveScope trivial rfl

mutual

theorem Stmt.run_log : ∀ (s : Stmt) (env : Env), Run p env (s.log env) (s.check env).state.2
  | .block sp body, env => by
    rw [Stmt.check, state_locate, state_wrap, Stmt.log]
    exact run_logInScope (Stmt.run_logList body) env
  | .ifThen sp c t, env => by
    rw [Stmt.check, state_locate, Stmt.log]
    refine Run.andThen (f := fun _ => env) (g := Prod.snd) (c.run_events env) (fun _ => rfl)
      fun _ _ _ _ => ?_
    rw [state_wrap]
    exact run_logInScope (Stmt.run_logList t) env
  | .ifElse sp c t f, env => by
    rw [Stmt.check, state_locate, Stmt.log]
    refine Run.andThen (f := fun _ => env) (g := Prod.snd) (c.run_events env) (fun _ => rfl)
      fun _ _ _ _ => ?_
    refine Run.andThen (f := Prod.snd) (g := Prod.snd) (run_logInScope (Stmt.run_logList t) env)
      (fun _ => rfl) fun _ r _ _ => ?_
    rw [state_wrap]
    exact run_logInScope (Stmt.run_logList f) r.2
  | .loop sp c body, env => by
    rw [Stmt.check, state_locate, Stmt.log]
    refine Run.andThen (f := fun _ => env) (g := Prod.snd) (c.run_events env) (fun _ => rfl)
      fun _ _ _ _ => ?_
    rw [state_wrap]
    exact run_logInScope (Stmt.run_logList body) env
  | .assign sp target value, env => by
    rw [Stmt.check, state_locate, state_wrap, Stmt.log, logAssign]
    split
    · refine (target.run_events env).append ?_
      cases target.check env with
      | ok _ _ => exact value.run_events env
      | error _ _ => exact .done
    · exact .done
  | .declare sp ty x init, env => by
    rw [Stmt.check, state_locate, Stmt.log]
    refine Run.ask (g := Prod.snd) rfl fun _ hty => ?_
    refine Run.andThen (f := fun _ => env) (g := Prod.snd) (Expr.run_eventsOption init env)
      (fun _ => rfl) fun _ _ _ _ => ?_
    rw [state_wrap]
    have hstored : Entity.Stored env.names (.value ty) :=
      ⟨ty, rfl, ClassTable.storable_of_requireStorage hty⟩
    exact .one (.declareLocal x (.value ty)) hstored rfl
  | .ret sp value, env => by
    rw [Stmt.check, state_locate, Stmt.log]
    refine Run.ask (g := Prod.snd) rfl fun m _ => ?_
    rw [state_wrap, logReturn]
    split
    · exact .done
    · exact Expr.run_eventsOption value env
  | .print sp value, env => by
    rw [Stmt.check, state_locate, state_wrap]
    exact value.run_events env
  | .eval sp value, env => by
    rw [Stmt.check, state_locate]
    exact Run.finish (f := fun _ => env) (g := Prod.snd) (value.run_events env) (fun _ => rfl)
      fun _ _ => rfl

theorem Stmt.run_logList : ∀ (ss : List Stmt) (env : Env),
    Run p env (Stmt.logList ss env) (Stmt.checkList ss env).state.2
  | [], _ => .done
  | s :: rest, env => by
    rw [Stmt.checkList, Stmt.logList]
    refine Run.andThen (f := Prod.snd) (g := Prod.snd) (Stmt.run_log s env) (fun _ => rfl)
      fun _ r _ _ => ?_
    rw [state_wrap]
    exact Stmt.run_logList rest r.2

end

/-! ### Declaring the members -/

theorem Routine.run_declare (r : Routine) (cls : String) (mayReplace : Bool)
    (hs : s.Declared env.names) :
    Run p env [.moved (Env.addMethod s env).state] (r.declare cls s mayReplace env).state.2 := by
  unfold Routine.declare
  refine Run.finish (f := id) (g := Prod.snd) (.one (.addMethod s) hs (state_forget _))
    (fun _ => rfl) fun isNew env' => ?_
  split <;> rfl

theorem Member.run_declareLog (hcls : cls ∈ env.names) (replaced : Bool) (m : Member) :
    Run p env (m.declareLog cls env) (m.declare cls replaced env).state.2 := by
  cases m with
  | field sp ty x =>
    rw [Member.declare, Member.declareLog]
    refine Run.finish (f := id) (g := Prod.snd) ?_ (fun _ => rfl) fun _ _ => rfl
    unfold declareField
    rw [state_locate]
    refine Run.ask (g := id) rfl fun _ hty => ?_
    have hstep : Run p env [.moved (Env.addField x ty env).state] _ :=
      .one (.addField x ty) (ClassTable.storable_of_requireStorage hty) (state_forget _)
    refine Run.finish (f := id) (g := id) hstep (fun _ => rfl) fun replaced env' => ?_
    split <;> rfl
  | method ret f r =>
    rw [Member.declare, Member.declareLog, state_locate]
    refine Run.ask (g := Prod.snd) rfl fun _ hret => ?_
    refine Run.ask (g := Prod.snd) rfl fun _ hparams => ?_
    have hs : Signature.Declared env.names ⟨f, r.paramTypes, ret⟩ :=
      ⟨ClassTable.known_of_requireDeclared hret, Routine.storable_params hparams⟩
    exact Run.finish (f := Prod.snd) (g := Prod.snd) (r.run_declare cls _ hs) (fun _ => rfl)
      fun _ _ => rfl
  | constructor r =>
    rw [Member.declare, Member.declareLog, state_locate]
    refine Run.ask (g := Prod.snd) rfl fun _ hparams => ?_
    have hs : Signature.Declared env.names (.ofConstructor cls r.paramTypes) :=
      ⟨fun q hq => Ty.cls.inj hq ▸ hcls, Routine.storable_params hparams⟩
    exact Run.finish (f := Prod.snd) (g := Prod.snd) (r.run_declare cls _ hs) (fun _ => rfl)
      fun _ _ => rfl

theorem Member.run_declareListLog : ∀ (ms : List Member) (replaced : Bool) {env : Env},
    cls ∈ env.names → Run p env (Member.declareListLog cls replaced ms env)
      (Member.declareList cls replaced ms env).state.2
  | [], _, _, _ => .done
  | m :: rest, replaced, env, hcls => by
    rw [Member.declareList, Member.declareListLog]
    refine Run.andThen (f := Prod.snd) (g := Prod.snd) (m.run_declareLog hcls replaced)
      (fun _ => rfl) fun replaced r _ hsub => ?_
    rw [state_wrap]
    exact Member.run_declareListLog rest replaced (hsub hcls)

theorem Member.typed_of_declare {replaced b : Bool} {m : Member} {r : Member × Env}
    (h : m.declare cls replaced env = .ok b r) : r.1.Typed env.names := by
  cases m with
  | field sp ty x =>
    obtain ⟨_, env', hfield, h⟩ := exists_of_andThen h
    cases h
    obtain ⟨_, hty, -⟩ := of_ask (of_locate hfield)
    exact .field (ClassTable.storable_of_requireStorage hty)
  | method ret f r =>
    obtain ⟨_, hret, h⟩ := of_ask (of_locate h)
    obtain ⟨_, hparams, h⟩ := of_ask h
    obtain ⟨_, r', hr, h⟩ := exists_of_andThen h
    cases h
    refine .method (ClassTable.known_of_requireDeclared hret) ?_
    rw [(Routine.of_declare hr).1]
    exact Routine.storable_params hparams
  | constructor r =>
    obtain ⟨_, hparams, h⟩ := of_ask (of_locate h)
    obtain ⟨_, r', hr, h⟩ := exists_of_andThen h
    cases h
    refine .constructor ?_
    rw [(Routine.of_declare hr).1]
    exact Routine.storable_params hparams

/-- The members that have been declared have types that may stand there. -/
theorem Member.typed_of_declareList : ∀ {ms : List Member} {replaced : Bool} {env : Env} {u : Unit}
    {r : List Member × Env}, cls ∈ env.names → Member.declareList cls replaced ms env = .ok u r →
    ∀ m ∈ r.1, m.Typed r.2.names
  | [], _, _, _, _, _, h => by
    cases h
    exact List.forall_mem_nil _
  | m :: rest, replaced, env, _, _, hcls, h => by
    rw [Member.declareList] at h
    obtain ⟨replaced', ⟨m', env₁⟩, hm, h⟩ := exists_of_andThen h
    obtain ⟨⟨rest', env₂⟩, hrest, rfl⟩ := exists_of_wrap h
    have hfirst : Run ⟨[]⟩ env _ _ := m.run_declareLog hcls replaced
    rw [hm] at hfirst
    have hsub : env.names ⊆ env₁.names := hfirst.names_subset
    have hothers : Run ⟨[]⟩ env₁ _ _ := Member.run_declareListLog rest replaced' (hsub hcls)
    rw [hrest] at hothers
    refine List.forall_mem_cons.mpr ⟨?_, Member.typed_of_declareList (hsub hcls) hrest⟩
    exact (Member.typed_of_declare hm).mono (List.Subset.trans hsub hothers.names_subset)

/-! ### Bodies -/

theorem run_paramLog : ∀ (params : List Param) {env : Env},
    (∀ q ∈ params, q.ty.Storable env.names) →
    Run p env (paramLog params env) (declareParams params env).state
  | [], _, _ => .done
  | q :: rest, env, hparams => by
    obtain ⟨hq, hrest⟩ := List.forall_mem_cons.mp hparams
    rw [declareParams, paramLog]
    refine Run.andThen (f := id) (g := id) (l := [_])
      (.one (.declareLocal q.name (.value q.ty)) ⟨q.ty, rfl, hq⟩ rfl) (fun _ => rfl)
      fun _ env₁ _ hsub => ?_
    exact run_paramLog rest fun q hq => (hrest q hq).mono hsub

theorem Routine.run_bodyLog (r : Routine) (hs : s.Declared env.names)
    (hparams : ∀ τ ∈ r.paramTypes, τ.Storable env.names) :
    Run p env (r.bodyLog s env) (r.checkBody s env).state.2 := by
  unfold Routine.checkBody Routine.bodyLog
  refine Run.andThen (f := id) (g := Prod.snd) (l := [_]) (.one (.enterMethod s) hs rfl)
    (fun _ => rfl) fun _ env₁ _ hsub => ?_
  have hlocals : ∀ q ∈ r.params, q.ty.Storable env₁.names := fun q hq =>
    (hparams q.ty (List.mem_map_of_mem hq)).mono hsub
  refine Run.andThen (f := id) (g := Prod.snd) (run_paramLog r.params hlocals) (fun _ => rfl)
    fun _ env₂ _ _ => ?_
  have hbody := Stmt.run_logList (p := p) r.body env₂
  rw [← state_locate r.span] at hbody
  rw [← onOk_locate r.span]
  refine Run.andThen (f := Prod.snd) (g := Prod.snd) hbody (fun _ => rfl) fun _ b _ _ => ?_
  rw [state_wrap]
  exact .one .leaveMethod trivial rfl

theorem Routine.run_log (r : Routine) (name : String) (hr : r.signature = .filled s)
    (hs : s.Declared env.names) (hparams : ∀ τ ∈ r.paramTypes, τ.Storable env.names) :
    Run p env (r.log name env) (r.check name env).state.2 := by
  rw [Routine.check_filled hr]
  unfold Routine.log Routine.declaredSignature
  simp only [hr, ofExcept_ok, onOk]
  exact r.run_bodyLog hs hparams

/-- A member is checked in a run if it has its signature, with types that may stand there. -/
theorem Member.run_log {m : Member} (hsigned : m.Signed cls) (hcls : cls ∈ env.names)
    (hm : m.Typed env.names) : Run p env (m.log env) (m.checkBody env).state.2 := by
  rw [← hsigned] at hm ⊢
  cases m with
  | field => exact .done
  | method ret f r =>
    rw [Member.declared, Member.checkBody, state_wrap]
    cases hm with
    | method hret hparams => exact Routine.run_log _ f rfl ⟨hret, hparams⟩ hparams
  | constructor r =>
    rw [Member.declared, Member.checkBody, state_wrap]
    cases hm with
    | constructor hparams =>
      refine Routine.run_log _ constructorName rfl ⟨fun q hq => ?_, hparams⟩ hparams
      exact Ty.cls.inj hq ▸ hcls

/-- A list is checked in a run if its elements are; `P` is what they need, and more classes do no
harm. -/
theorem run_logEach {τ : Type} {check : τ → Env → Checked τ} {log : τ → Env → List Event}
    {P : List String → τ → Prop}
    (hmono : ∀ {names names' : List String} {x : τ}, P names x → names ⊆ names' → P names' x)
    (h : ∀ x {env : Env}, P env.names x → Run p env (log x env) (check x env).state.2) :
    ∀ (xs : List τ) {env : Env}, (∀ x ∈ xs, P env.names x) →
      Run p env (logEach check log xs env) (checkEach check xs env).state.2
  | [], _, _ => .done
  | x :: rest, env, hP => by
    obtain ⟨hx, hrest⟩ := List.forall_mem_cons.mp hP
    rw [checkEach, logEach]
    refine Run.andThen (f := Prod.snd) (g := Prod.snd) (h x hx) (fun _ => rfl)
      fun _ r _ hsub => ?_
    rw [state_wrap]
    exact run_logEach (P := P) hmono h rest fun x hx => hmono (hrest x hx) hsub

/-! ### Classes and programs -/

/-- A class that has just been entered is open, and declared. -/
theorem Env.opened_of_enterClass {name : String} (h : Env.enterClass name env = .ok () env') :
    env'.table.current = some name ∧ name ∈ env'.names := by
  rcases ClassTable.enter_cases name env.table with ⟨e, he⟩ | ⟨-, -, hok⟩
  · rw [Env.enterClass, Env.onTable, he] at h
    cases h
  · rw [Env.enterClass, Env.onTable, hok] at h
    cases h
    exact ⟨rfl, by simp [Env.mem_names_iff]⟩

theorem run_tieLog {c : ClassDecl} (hc : c ∈ p.classes) (hopen : env.table.current = some c.name) :
    Run p env (tieLog c.parent env) (tieParent c.parent env).state := by
  cases hq : c.parent with
  | none => exact .done
  | some q =>
    rw [tieParent, tieLog]
    by_cases hdeclared : env.table.contains q = true
    · rw [if_pos hdeclared, if_pos hdeclared]
      exact .one (.setParent q) ⟨c, hc, hq, hopen, hdeclared⟩ rfl
    · rw [if_neg hdeclared, if_neg hdeclared]
      exact .done

theorem ClassDecl.run_log {c : ClassDecl} (hc : c ∈ p.classes) (env : Env) :
    Run p env (c.log env) (c.check env).state.2 := by
  unfold ClassDecl.check ClassDecl.log
  rw [← onOk_locate c.span]
  refine Run.andThen (f := id) (g := Prod.snd) (l := [_]) ?_ (fun _ => rfl)
    fun _ env₁ hok _ => ?_
  · rw [state_locate]
    exact .one (.enterClass c.name) trivial rfl
  obtain ⟨hopen, hname⟩ := Env.opened_of_enterClass (of_locate hok)
  rw [← onOk_locate c.span]
  refine Run.andThen (f := id) (g := Prod.snd) ?_ (fun _ => rfl) fun _ env₂ _ hsub => ?_
  · rw [state_locate]
    exact run_tieLog hc hopen
  refine Run.andThen (f := Prod.snd) (g := Prod.snd)
    (Member.run_declareListLog c.members false (hsub hname)) (fun _ => rfl) fun _ r hr hsub' => ?_
  have hmembers : ∀ m ∈ r.1, m.Signed c.name ∧ c.name ∈ r.2.names ∧ m.Typed r.2.names := fun m hm =>
    ⟨Member.signed_of_declareList hr m hm, hsub' (hsub hname),
      Member.typed_of_declareList (hsub hname) hr m hm⟩
  have hbodies := run_logEach (p := p)
    (P := fun names m => m.Signed c.name ∧ c.name ∈ names ∧ m.Typed names)
    (fun hm hsub => ⟨hm.1, hsub hm.2.1, hm.2.2.mono hsub⟩)
    (fun m {_} hm => Member.run_log hm.1 hm.2.1 hm.2.2) r.1 hmembers
  refine Run.andThen (f := Prod.snd) (g := Prod.snd) hbodies (fun _ => rfl) fun _ _ _ _ => ?_
  rw [state_wrap]
  exact .one .leaveClass trivial rfl

theorem run_logClasses (cs : List ClassDecl) (hcs : ∀ c ∈ cs, c ∈ p.classes) (env : Env) :
    Run p env (logEach ClassDecl.check ClassDecl.log cs env)
      (checkEach ClassDecl.check cs env).state.2 :=
  run_logEach (P := fun _ c => c ∈ p.classes) (fun hc _ => hc)
    (fun _ env hc => ClassDecl.run_log hc env) cs hcs

/-- **The log of a check leads from the empty environment to where the check ends**, by operations
that the check has made sure it may take. -/
theorem Program.run_log (p : Program) : Run p .empty p.log (p.check .empty).state.2 := by
  rw [Program.check, state_wrap]
  exact run_logClasses p.classes (fun _ hc => hc) .empty

/-! ### What holds at every point -/

namespace Program

/-- What holds of the empty environment and is kept by every operation that is allowed holds at every
point of a check, and of the environment it leaves. -/
theorem forall_points {I : Env → Prop} (hempty : I .empty)
    (hstep : ∀ env (op : Env.Op), op.Allowed p env → I env → I (op.step env).state) :
    (∀ env ∈ p.points, I env) ∧ I (p.check .empty).state.2 :=
  p.run_log.forall_mem hstep hempty

/-- The same of what holds of the class table. -/
theorem forall_tables {I : ClassTable → Prop} (hempty : I .empty)
    (hstep : ∀ t t' (o : ClassTable.Op), o.Allowed p t → t.Effect o t' → I t → I t') :
    (∀ env ∈ p.points, I env.table) ∧ ∀ t q, p.analyze = .ok t q → I t := by
  have hkept : ∀ env (op : Env.Op), op.Allowed p env → I env.table → I (op.step env).state.table := by
    intro env op hop h
    refine op.keeps (I := fun env => I env.table) (fun env' heff => ?_) h
    rcases heff.on_table with htable | ⟨o, ho, hallowed⟩
    · rw [htable]
      exact h
    · refine hstep _ _ o ?_ ho h
      rcases hallowed with htable | rfl | ⟨s, rfl⟩
      · exact hop.on_table htable
      · trivial
      · trivial
  obtain ⟨hpoints, hend⟩ := p.forall_points (I := fun env => I env.table) hempty hkept
  refine ⟨hpoints, fun t q h => ?_⟩
  unfold analyze at h
  cases hc : p.check .empty with
  | error e r => simp [hc] at h
  | ok u r =>
    rw [hc] at h hend
    cases h
    exact hend

end Program

/-! ### Uses of an environment -/

namespace Env

/-- A check keeps what every operation keeps, up to where it ends. -/
theorem Run.keeps {I : Env → Prop} {l : List Event} (h : Run p env l env')
    (hop : ∀ (op : Op) env, I env → I (op.step env).state) (henv : I env) : I env' :=
  (h.forall_mem (fun env op _ => hop op env) henv).2

/-- A use of the environment: an operation, or a check that runs on it. -/
inductive Call where
  | operation (op : Op)
  | checkProgram (p : Program)
  | checkClass (c : ClassDecl)
  | checkBlock (body : List Stmt)
  | checkStmt (s : Stmt)
  | checkExpr (e : Expr)

/-- The environment that a use leaves, whether it succeeds or fails. An expression only reads it. -/
def Call.after (env : Env) : Call → Env
  | operation op => (op.step env).state
  | checkProgram p => (p.check env).state.2
  | checkClass c => (c.check env).state.2
  | checkBlock body => (Stmt.checkBlock body env).state.2
  | checkStmt s => (s.check env).state.2
  | checkExpr _ => env

/-- **What the operations keep, every use of the environment keeps.** -/
theorem Call.keeps {I : Env → Prop} (hop : ∀ (op : Op) env, I env → I (op.step env).state)
    (call : Call) (henv : I env) : I (call.after env) := by
  cases call with
  | operation op => exact hop op env henv
  | checkProgram p =>
    rw [Call.after, Program.check, state_wrap]
    exact (run_logClasses (p := p) p.classes (fun _ hc => hc) env).keeps hop henv
  | checkClass c =>
    have hrun : Run ⟨[c]⟩ env (c.log env) (c.check env).state.2 :=
      ClassDecl.run_log (List.mem_singleton_self c) env
    exact hrun.keeps hop henv
  | checkBlock body =>
    have hrun : Run ⟨[]⟩ env _ (Stmt.checkBlock body env).state.2 :=
      run_logInScope (Stmt.run_logList body) env
    exact hrun.keeps hop henv
  | checkStmt s =>
    have hrun : Run ⟨[]⟩ env (s.log env) (s.check env).state.2 := s.run_log env
    exact hrun.keeps hop henv
  | checkExpr e => exact henv

/-- The environment after some uses, failed ones among them. -/
def afterCalls (env : Env) (calls : List Call) : Env := calls.foldl Call.after env

theorem afterCalls_keeps {I : Env → Prop} (hop : ∀ (op : Op) env, I env → I (op.step env).state) :
    ∀ (calls : List Call) {env : Env}, I env → I (env.afterCalls calls)
  | [], _, h => h
  | call :: rest, _, h => afterCalls_keeps hop rest (call.keeps hop h)

end Env

end ClassLang
