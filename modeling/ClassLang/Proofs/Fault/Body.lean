import ClassLang.Proofs.Fault.Blame
import ClassLang.Proofs.Frame

/-!
# Where faults in bodies arise

The check of an expression blames the node at which its fault arises, and so does the check of a
statement (`Expr.blames_check`, `Stmt.blames_check`). The steps of a check blame what their definitions
say; here this is compared, rule by rule, with where the faults of the rule arise. In both cases the
node itself comes last: what is blamed up to it is `RaisesInside`, and offering the place of the node
adds the node to the path.
-/

namespace ClassLang

open Outcome

variable {env : Env} {σ α : Type}

/-! ### Expressions -/

theorem Expr.span_bare (e : Expr) : e.bare.span = e.span := by
  cases e <;> rfl

/-- An expression stays at its place. -/
theorem Expr.span_of_check {e e' : Expr} {ty : Ty} (h : e.check env = .ok ty e') :
    e'.span = e.span := by
  have hbare := e.bare_check env
  rw [h] at hbare
  calc e'.span = e'.bare.span := e'.span_bare.symm
    _ = e.bare.span := congrArg Expr.span hbare
    _ = e.span := e.span_bare

/-- Where a fault arises in an expression, up to the expression itself. -/
def Expr.RaisesInside (env : Env) (e : Expr) (f : Fault) (path : List Node) : Prop :=
  e.Fails env f ∧ path = [] ∨ ∃ x, e.Enters env x ∧ x.Raises env f path

theorem Expr.blames_of_inside {e : Expr} {r : Outcome σ α} (h : r.Blames (e.RaisesInside env)) :
    (r.locate e.span).Blames (e.Raises env) := by
  refine (h.locate (.expr e)).congr fun f path => ⟨?_, fun hraise => ?_⟩
  · rintro ⟨_, ⟨hfail, rfl⟩ | ⟨x, hx, hpart⟩, rfl⟩
    · exact .here hfail
    · exact .inner hx hpart
  · cases hraise with
    | here hfail => exact ⟨[], .inl ⟨hfail, rfl⟩, rfl⟩
    | @inner _ x _ path hx hpart => exact ⟨path, .inr ⟨x, hx, hpart⟩, rfl⟩

/-- The fault arises at an argument, or else when the arguments are used to find a method. -/
def Expr.RaisesInArgs (env : Env) (args : List Expr) (bind : List Ty → Except Failure α)
    (f : Fault) (path : List Node) : Prop :=
  (∃ x, Expr.ArgReached env args x ∧ x.Raises env f path) ∨
    ∃ tys, Expr.AllCheck env args tys ∧ bind tys = f.raise ∧ path = []

theorem Expr.blames_args {args : List Expr} {bind : List Ty → Except Failure MethodBinding}
    {embed : List Expr → Expr} {ty : MethodBinding → Ty}
    {bound : List Expr → MethodBinding → Expr}
    (hargs : (Expr.checkList env args).Blames
      fun f path => ∃ x, Expr.ArgReached env args x ∧ x.Raises env f path)
    (hbind : ∀ tys, Unplaced (bind tys)) :
    ((Expr.checkList env args).andThen embed fun tys args =>
      (Outcome.ofExcept (bind tys) (embed args)).andThen id fun target _ =>
      .ok (ty target) (bound args target)).Blames (Expr.RaisesInArgs env args bind) := by
  refine (hargs.andThen fun tys _ _ =>
    (Blames.ofExcept (hbind tys) _).finish fun _ _ _ => .ok _ _).congr fun f path => ?_
  refine or_congr_right ⟨?_, ?_⟩
  · rintro ⟨tys, args', h, hbind⟩
    exact ⟨tys, ⟨args', h⟩, hbind⟩
  · rintro ⟨tys, ⟨args', h⟩, hbind⟩
    exact ⟨tys, args', h, hbind⟩

mutual

/-- **A check of an expression blames the node where the fault arises.** -/
theorem Expr.blames_check (env : Env) : ∀ e : Expr, (e.check env).Blames (e.Raises env)
  | .number m n => (Blames.ok _ _).congr fun f path => by
    refine ⟨False.elim, fun h => ?_⟩
    cases h with
    | here h => cases h
    | inner hx => cases hx
  | .bool m b => (Blames.ok _ _).congr fun f path => by
    refine ⟨False.elim, fun h => ?_⟩
    cases h with
    | here h => cases h
    | inner hx => cases hx
  | .this m => by
    rw [Expr.check]
    refine Expr.blames_of_inside (e := .this m) ?_
    refine ((Blames.ofExcept env.unplaced_receiver _).finish fun _ _ _ => .ok _ _).congr
      fun f path => ⟨fun h => .inl ⟨.this h.1, h.2⟩, ?_⟩
    rintro (⟨⟨h⟩, rfl⟩ | ⟨_, hx, _⟩)
    · exact ⟨h, rfl⟩
    · cases hx
  | .var m o x b ob => by
    rw [Expr.check]
    refine Expr.blames_of_inside (e := .var m o x b ob) ?_
    refine ((Blames.ofExcept (env.unplaced_useVar o x) _).finish fun _ _ _ => .ok _ _).congr
      fun f path => ⟨fun h => .inl ⟨.var h.1, h.2⟩, ?_⟩
    rintro (⟨h, rfl⟩ | ⟨_, hx, _⟩)
    · cases h with
      | var h => exact ⟨h, rfl⟩
    · cases hx
  | .binary m op l r => by
    rw [Expr.check]
    refine Expr.blames_of_inside (e := .binary m op l r) ?_
    refine ((Expr.blames_check env l).andThen fun lty l' _ =>
      (Expr.blames_check env r).andThen fun rty r' _ =>
      (Blames.ofExcept (unplaced_ruleType _) _).finish fun _ _ _ => .ok _ _).congr fun f path => ⟨?_, ?_⟩
    · rintro (h | ⟨lty, l', hl, h | ⟨rty, r', hr, h, rfl⟩⟩)
      · exact .inr ⟨l, .left, h⟩
      · exact .inr ⟨r, .right ⟨l', hl⟩, h⟩
      · exact .inl ⟨.binary ⟨l', hl⟩ ⟨r', hr⟩ h, rfl⟩
    · rintro (⟨h, rfl⟩ | ⟨x, hx, h⟩)
      · cases h with
        | binary hl hr h =>
          obtain ⟨⟨l', hl⟩, ⟨r', hr⟩⟩ := And.intro hl hr
          exact .inr ⟨_, l', hl, .inr ⟨_, r', hr, h, rfl⟩⟩
      · cases hx with
        | left => exact .inl h
        | right hl =>
          obtain ⟨l', hl⟩ := hl
          exact .inr ⟨_, l', hl, .inl h⟩
  | .unary m op x => by
    rw [Expr.check]
    refine Expr.blames_of_inside (e := .unary m op x) ?_
    refine ((Expr.blames_check env x).andThen fun ty x' _ =>
      (Blames.ofExcept (unplaced_ruleType _) _).finish fun _ _ _ => .ok _ _).congr fun f path => ⟨?_, ?_⟩
    · rintro (h | ⟨ty, x', hx, h, rfl⟩)
      · exact .inr ⟨x, .operand, h⟩
      · exact .inl ⟨.unary ⟨x', hx⟩ h, rfl⟩
    · rintro (⟨h, rfl⟩ | ⟨x, hx, h⟩)
      · cases h with
        | unary hx h =>
          obtain ⟨x', hx⟩ := hx
          exact .inr ⟨_, x', hx, h, rfl⟩
      · cases hx with
        | operand => exact .inl h
  | .call m o name args b ob => by
    rw [Expr.check]
    refine Expr.blames_of_inside (e := .call m o name args b ob) ?_
    refine Blames.congr
      (Blames.ask (Q := fun found => Expr.RaisesInArgs env args (env.table.bindCall found.1 name))
        (env.unplaced_objectClass o) fun found _ => Expr.blames_args (Expr.blames_checkList env args)
          (env.table.unplaced_bindCall found.1 name)) fun f path => ⟨?_, ?_⟩
    · rintro (⟨h, rfl⟩ | ⟨found, ho, ⟨x, hx, h⟩ | ⟨tys, hargs, h, rfl⟩⟩)
      · exact .inl ⟨.object h, rfl⟩
      · exact .inr ⟨x, .call ho hx, h⟩
      · exact .inl ⟨.call ho hargs h, rfl⟩
    · rintro (⟨h, rfl⟩ | ⟨x, hx, h⟩)
      · cases h with
        | object h => exact .inl ⟨h, rfl⟩
        | call ho hargs h => exact .inr ⟨_, ho, .inr ⟨_, hargs, h, rfl⟩⟩
      · cases hx with
        | call ho hx => exact .inr ⟨_, ho, .inl ⟨x, hx, h⟩⟩
  | .create m c args b => by
    rw [Expr.check]
    refine Expr.blames_of_inside (e := .create m c args b) ?_
    refine Blames.congr
      (Blames.ask (Q := fun name => Expr.RaisesInArgs env args (env.table.bindConstructor name))
        (env.table.unplaced_requireInstantiable (.ofName c)) fun name _ =>
          Expr.blames_args (Expr.blames_checkList env args)
            (env.table.unplaced_bindConstructor name)) fun f path => ⟨?_, ?_⟩
    · rintro (⟨h, rfl⟩ | ⟨name, hc, ⟨x, hx, h⟩ | ⟨tys, hargs, h, rfl⟩⟩)
      · exact .inl ⟨.cls h, rfl⟩
      · exact .inr ⟨x, .create hc hx, h⟩
      · exact .inl ⟨.create hc hargs h, rfl⟩
    · rintro (⟨h, rfl⟩ | ⟨x, hx, h⟩)
      · cases h with
        | cls h => exact .inl ⟨h, rfl⟩
        | create hc hargs h => exact .inr ⟨_, hc, .inr ⟨_, hargs, h, rfl⟩⟩
      · cases hx with
        | create hc hx => exact .inr ⟨_, hc, .inl ⟨x, hx, h⟩⟩

theorem Expr.blames_checkList (env : Env) : ∀ es : List Expr, (Expr.checkList env es).Blames
    fun f path => ∃ x, Expr.ArgReached env es x ∧ x.Raises env f path
  | [] => (Blames.ok _ _).congr fun f path => by
    refine ⟨False.elim, ?_⟩
    rintro ⟨_, h, _⟩
    cases h
  | e :: rest => by
    rw [Expr.checkList]
    refine ((Expr.blames_check env e).andThen fun ty e' _ =>
      (Expr.blames_checkList env rest).finish fun _ _ _ => .ok _ _).congr fun f path => ⟨?_, ?_⟩
    · rintro (h | ⟨ty, e', he, x, hx, h⟩)
      · exact ⟨e, .first, h⟩
      · exact ⟨x, .next ⟨ty, e', he⟩ hx, h⟩
    · rintro ⟨x, hx, h⟩
      cases hx with
      | first => exact .inl h
      | next he hx =>
        obtain ⟨ty, e', he⟩ := he
        exact .inr ⟨ty, e', he, x, hx, h⟩

end

/-! ### What statements ask of their expressions -/

theorem Expr.blames_checkThat {require : Ty → Except Failure Unit}
    (hrequire : ∀ ty, Unplaced (require ty)) (e : Expr) :
    (e.checkThat env require).Blames (e.Refused env require) := by
  have hunmet : ∀ ty e', e.check env = .ok ty e' →
      (Outcome.locate e'.span (.ofExcept (require ty) e')).Blames
        fun f path => require ty = f.raise ∧ path = [.expr e] := by
    intro ty e' h
    have hspan : e'.span = (Node.expr e).span := Expr.span_of_check h
    rw [hspan]
    exact (Blames.ofExcept (hrequire ty) e').locate_own (.expr e)
  refine Blames.congr (Blames.andThen (Expr.blames_check env e) hunmet) fun f path => ⟨?_, ?_⟩
  · rintro (h | ⟨ty, e', hty, h, rfl⟩)
    · exact .raised h
    · exact .unmet ⟨e', hty⟩ h
  · intro h
    cases h with
    | raised h => exact .inl h
    | unmet hty h =>
      obtain ⟨e', hty⟩ := hty
      exact .inr ⟨_, e', hty, h, rfl⟩

/-- Where nothing is required, a fault arises in the expression. -/
theorem Expr.refused_anything_iff {e : Expr} {f : Fault} {path : List Node} :
    e.Refused env (fun _ => .ok ()) f path ↔ e.Raises env f path := by
  refine ⟨fun h => ?_, .raised⟩
  cases h with
  | raised h => exact h
  | unmet _ h => cases h

theorem Expr.blames_checkCondition (c : Expr) :
    (c.checkCondition env).Blames (c.Refused env fun ty => requireSame ty .bool) :=
  Expr.blames_checkThat (fun ty => unplaced_requireSame ty .bool) c

theorem Expr.blames_checkFits (expected : Ty) (e : Expr) :
    (e.checkFits env expected).Blames (e.Refused env fun ty => env.table.requireFits ty expected) :=
  Expr.blames_checkThat (fun ty => env.table.unplaced_requireFits ty expected) e

theorem Expr.blames_checkPrintable (e : Expr) :
    (e.checkPrintable env).Blames (e.Refused env requirePrintable) := by
  have hrequire : ∀ ty, Unplaced (requirePrintable ty) := by
    intro ty
    cases ty with
    | int | bool => exact .ok ()
    | void | cls => exact .raise _
  exact Expr.blames_checkThat hrequire e

theorem Expr.checks_bool_iff {c : Expr} :
    (∃ u c', c.checkCondition env = .ok u c') ↔ c.Checks env .bool := by
  constructor
  · rintro ⟨_, c', h⟩
    obtain ⟨ty, c'', hc, h⟩ := exists_of_andThen h
    obtain ⟨hty, rfl⟩ := ofExcept_eq_ok_iff.mp (of_locate h)
    change requireSame ty .bool = .ok () at hty
    unfold requireSame at hty
    split at hty
    · rename_i hbool
      exact ⟨c'', hbool ▸ hc⟩
    · cases hty
  · rintro ⟨c', hc⟩
    refine ⟨(), c', ?_⟩
    rw [Expr.checkCondition, Expr.checkThat, hc]
    rfl

/-! ### Statements -/

namespace Stmt

/-- The fault arises in the block. -/
def BlockRaises (env : Env) (body : List Stmt) (f : Fault) (path : List Node) : Prop :=
  ∃ env₁, Env.enterScope env = .ok () env₁ ∧ SomeRaises env₁ body f path

/-- Where a fault arises in a statement, up to the statement itself. -/
def RaisesInside (env : Env) (s : Stmt) (f : Fault) (path : List Node) : Prop :=
  s.Fails env f ∧ path = [] ∨ (∃ e require, s.Reads env e require ∧ e.Refused env require f path) ∨
    ∃ body, s.Opens env body ∧ BlockRaises env body f path

theorem blames_of_inside {s : Stmt} {r : Outcome σ α} (h : r.Blames (s.RaisesInside env)) :
    (r.locate s.span).Blames (s.Raises env) := by
  refine (h.locate (.stmt s)).congr fun f path => ⟨?_, fun hraise => ?_⟩
  · rintro ⟨_, ⟨hfail, rfl⟩ | ⟨e, require, he, hrefused⟩ |
      ⟨body, hbody, env₁, hopen, env', x, hx, hraise⟩, rfl⟩
    · exact .here hfail
    · exact .value he hrefused
    · exact .inner hbody hopen hx hraise
  · cases hraise with
    | here hfail => exact ⟨[], .inl ⟨hfail, rfl⟩, rfl⟩
    | value he hrefused => exact ⟨_, .inr (.inl ⟨_, _, he, hrefused⟩), rfl⟩
    | inner hbody hopen hx hraise =>
      exact ⟨_, .inr (.inr ⟨_, hbody, _, hopen, _, _, hx, hraise⟩), rfl⟩

end Stmt

theorem blames_checkInScope {body : List Stmt} {run : Env → Checked (List Stmt)}
    {P : Env → Fault → List Node → Prop} (h : ∀ env, (run env).Blames (P env)) :
    (checkInScope body env run).Blames
      fun f path => ∃ env₁, Env.enterScope env = .ok () env₁ ∧ P env₁ f path := by
  refine Blames.congr (Blames.after env.faultless_enterScope fun _ env₁ _ =>
    (h env₁).finish fun _ _ _ => (Env.faultless_leaveScope _).wrap) fun f path => ?_
  exact ⟨fun ⟨_, env₁, hopen, hP⟩ => ⟨env₁, hopen, hP⟩,
    fun ⟨env₁, hopen, hP⟩ => ⟨(), env₁, hopen, hP⟩⟩

theorem blames_checkAssign (sp : Span) (target value : Expr) :
    (checkAssign env target value).Blames ((Stmt.assign sp target value).RaisesInside env) := by
  unfold checkAssign
  by_cases hvar : target.isVar = true
  · rw [if_pos hvar]
    refine Blames.congr (Blames.andThen (Expr.blames_check env target) fun expected target' _ =>
      (Expr.blames_checkFits expected value).wrap) fun f path => ⟨?_, ?_⟩
    · rintro (h | ⟨expected, target', ht, h⟩)
      · exact .inr (.inl ⟨_, _, .target hvar, .raised h⟩)
      · exact .inr (.inl ⟨_, _, .assign hvar ⟨target', ht⟩, h⟩)
    · rintro (⟨h, -⟩ | ⟨e, require, he, h⟩ | ⟨_, hbody, -⟩)
      · cases h with
        | target hnot =>
          rw [hvar] at hnot
          cases hnot
      · cases he with
        | target => exact .inl (Expr.refused_anything_iff.mp h)
        | assign _ ht =>
          obtain ⟨target', ht⟩ := ht
          exact .inr ⟨_, target', ht, h⟩
      · cases hbody
  · rw [if_neg hvar]
    have hnot : target.isVar = false := by simpa using hvar
    refine (Blames.raise _ _).congr fun f path => ⟨?_, ?_⟩
    · rintro ⟨rfl, rfl⟩
      exact .inl ⟨.target hnot, rfl⟩
    · rintro (⟨h, rfl⟩ | ⟨e, require, he, -⟩ | ⟨_, hbody, -⟩)
      · cases h with
        | target => exact ⟨rfl, rfl⟩
      · cases he with
        | target hvar' => exact absurd hvar' hvar
        | assign hvar' => exact absurd hvar' hvar
      · cases hbody

/-- The initial value is asked for only if the declared type can be stored. -/
theorem blames_checkInit (expected : Ty) (init : Option Expr) :
    (checkInit env expected init).Blames fun f path => ∃ value, init = some value ∧
      value.Refused env (fun ty => env.table.requireFits ty expected) f path := by
  cases init with
  | none => exact (Blames.ok _ _).congr fun f path => by simp
  | some value =>
    refine (Expr.blames_checkFits expected value).wrap.congr fun f path => ?_
    exact ⟨fun h => ⟨value, rfl, h⟩, fun ⟨_, hvalue, h⟩ => Option.some.inj hvalue ▸ h⟩

/-- A return has a value exactly if the method returns one. -/
theorem blames_checkReturn (sp : Span) {m : OpenMethod} (hm : env.currentMethod = .ok m)
    (value : Option Expr) : (checkReturn env m.signature.ret value).Blames
      ((Stmt.ret sp value).RaisesInside env) := by
  have hsame : ∀ {m' : OpenMethod}, env.currentMethod = .ok m' → m' = m := fun hm' =>
    Except.ok.inj (hm'.symm.trans hm)
  cases value with
  | none =>
    rw [checkReturn]
    by_cases hvoid : m.signature.ret.isVoid = true
    · rw [if_pos hvoid]
      refine (Blames.ok _ _).congr fun f path => ⟨False.elim, ?_⟩
      rintro (⟨h, -⟩ | ⟨_, _, he, -⟩ | ⟨_, hbody, -⟩)
      · cases h with
        | missing hm' hret =>
          rw [hsame hm', hvoid] at hret
          cases hret
      · cases he
      · cases hbody
    · rw [if_neg hvoid]
      have hret : m.signature.ret.isVoid = false := by simpa using hvoid
      refine (Blames.raise _ _).congr fun f path => ⟨?_, ?_⟩
      · rintro ⟨rfl, rfl⟩
        exact .inl ⟨.missing hm hret, rfl⟩
      · rintro (⟨h, rfl⟩ | ⟨_, _, he, -⟩ | ⟨_, hbody, -⟩)
        · cases h with
          | missing hm' => exact ⟨by rw [hsame hm'], rfl⟩
        · cases he
        · cases hbody
  | some value =>
    rw [checkReturn]
    by_cases hvoid : m.signature.ret.isVoid = true
    · rw [if_pos hvoid]
      refine (Blames.raise _ _).congr fun f path => ⟨?_, ?_⟩
      · rintro ⟨rfl, rfl⟩
        exact .inl ⟨.void hm hvoid, rfl⟩
      · rintro (⟨h, rfl⟩ | ⟨_, _, he, -⟩ | ⟨_, hbody, -⟩)
        · cases h with
          | void => exact ⟨rfl, rfl⟩
        · cases he with
          | ret hm' hret =>
            rw [hsame hm', hvoid] at hret
            cases hret
        · cases hbody
    · rw [if_neg hvoid]
      have hret : m.signature.ret.isVoid = false := by simpa using hvoid
      refine (Expr.blames_checkFits _ value).wrap.congr fun f path => ⟨?_, ?_⟩
      · exact fun h => .inr (.inl ⟨_, _, .ret hm hret, h⟩)
      · rintro (⟨h, -⟩ | ⟨_, _, he, h⟩ | ⟨_, hbody, -⟩)
        · cases h with
          | void hm' hvoid' =>
            rw [hsame hm'] at hvoid'
            exact absurd hvoid' hvoid
        · cases he with
          | ret hm' => rwa [hsame hm'] at h
        · cases hbody

/-- What follows a condition is checked only if that is a `bool`. -/
theorem blames_guarded {τ : Type} {c : Expr} {embed : Expr → τ × Env} {next : Unit → Expr → Checked τ}
    {P : Fault → List Node → Prop} (h : ∀ c', (next () c').Blames P) :
    ((c.checkCondition env).andThen embed next).Blames fun f path =>
      c.Refused env (fun ty => requireSame ty .bool) f path ∨ c.Checks env .bool ∧ P f path := by
  refine Blames.congr (Blames.andThen (Expr.blames_checkCondition c) fun _ c' _ => h c')
    fun f path => or_congr_right ?_
  rw [← Expr.checks_bool_iff]
  exact ⟨fun ⟨u, c', hc, hP⟩ => ⟨⟨u, c', hc⟩, hP⟩, fun ⟨⟨u, c', hc⟩, hP⟩ => ⟨u, c', hc, hP⟩⟩

/-! ### Statements, form by form -/

namespace Stmt

variable {sp : Span} {c value : Expr} {body t e : List Stmt} {f : Fault} {path : List Node}

/-- The check of a list of statements blames the node where the fault arises. -/
def ListBlames (ss : List Stmt) : Prop := ∀ env, (checkList ss env).Blames (SomeRaises env ss)

theorem raisesInside_block_iff :
    (Stmt.block sp body).RaisesInside env f path ↔ BlockRaises env body f path := by
  constructor
  · rintro (⟨h, -⟩ | ⟨_, _, he, -⟩ | ⟨_, hbody, h⟩)
    · cases h
    · cases he
    · cases hbody
      exact h
  · exact fun h => .inr (.inr ⟨body, .block, h⟩)

theorem blames_block (sp : Span) (hbody : ListBlames body) :
    ((Stmt.block sp body).check env).Blames ((Stmt.block sp body).Raises env) := by
  rw [Stmt.check]
  refine blames_of_inside (s := .block sp body) ?_
  exact (blames_checkInScope hbody).wrap.congr fun _ _ => raisesInside_block_iff.symm

theorem raisesInside_ifThen_iff : (Stmt.ifThen sp c t).RaisesInside env f path ↔
    c.Refused env (fun ty => requireSame ty .bool) f path ∨
      c.Checks env .bool ∧ BlockRaises env t f path := by
  constructor
  · rintro (⟨h, -⟩ | ⟨_, _, he, h⟩ | ⟨_, hbody, h⟩)
    · cases h
    · cases he
      exact .inl h
    · cases hbody with
      | ifThen hc => exact .inr ⟨hc, h⟩
  · rintro (h | ⟨hc, h⟩)
    · exact .inr (.inl ⟨c, _, .ifThen, h⟩)
    · exact .inr (.inr ⟨t, .ifThen hc, h⟩)

theorem blames_ifThen (sp : Span) (c : Expr) (ht : ListBlames t) :
    ((Stmt.ifThen sp c t).check env).Blames ((Stmt.ifThen sp c t).Raises env) := by
  rw [Stmt.check]
  refine blames_of_inside (s := .ifThen sp c t) ?_
  exact (blames_guarded fun _ => (blames_checkInScope ht).wrap).congr
    fun _ _ => raisesInside_ifThen_iff.symm

theorem raisesInside_loop_iff : (Stmt.loop sp c body).RaisesInside env f path ↔
    c.Refused env (fun ty => requireSame ty .bool) f path ∨
      c.Checks env .bool ∧ BlockRaises env body f path := by
  constructor
  · rintro (⟨h, -⟩ | ⟨_, _, he, h⟩ | ⟨_, hbody, h⟩)
    · cases h
    · cases he
      exact .inl h
    · cases hbody with
      | loop hc => exact .inr ⟨hc, h⟩
  · rintro (h | ⟨hc, h⟩)
    · exact .inr (.inl ⟨c, _, .loop, h⟩)
    · exact .inr (.inr ⟨body, .loop hc, h⟩)

theorem blames_loop (sp : Span) (c : Expr) (hbody : ListBlames body) :
    ((Stmt.loop sp c body).check env).Blames ((Stmt.loop sp c body).Raises env) := by
  rw [Stmt.check]
  refine blames_of_inside (s := .loop sp c body) ?_
  exact (blames_guarded fun _ => (blames_checkInScope hbody).wrap).congr
    fun _ _ => raisesInside_loop_iff.symm

/-- Where a fault arises in one of two blocks: in the second only if the first is accepted. -/
def BranchRaises (env : Env) (t e : List Stmt) (f : Fault) (path : List Node) : Prop :=
  BlockRaises env t f path ∨
    (∃ t', Stmt.checkBlock t env = .ok () (t', env)) ∧ BlockRaises env e f path

theorem blames_branches (sp : Span) (c : Expr) (ht : ListBlames t) (he : ListBlames e) :
    ((checkInScope t env (checkList t)).andThen
      (fun (t, env) => (Stmt.ifElse sp c t e, env)) fun _ (t, env) =>
      (checkInScope e env (checkList e)).wrap fun (e, env) =>
        (Stmt.ifElse sp c t e, env)).Blames (BranchRaises env t e) := by
  refine Blames.congr (Blames.andThen (Q := fun _ r => BlockRaises r.2 e)
    (blames_checkInScope ht) fun _ r _ => (blames_checkInScope he).wrap)
    fun f path => or_congr_right ⟨?_, ?_⟩
  · rintro ⟨_, ⟨t', env₁⟩, ht, h⟩
    -- the first block has left the environment as it was
    obtain rfl : env₁ = env := Stmt.env_of_checkBlock ht
    exact ⟨⟨t', ht⟩, h⟩
  · rintro ⟨⟨t', ht⟩, h⟩
    exact ⟨(), (t', env), ht, h⟩

theorem raisesInside_ifElse_iff : (Stmt.ifElse sp c t e).RaisesInside env f path ↔
    c.Refused env (fun ty => requireSame ty .bool) f path ∨
      c.Checks env .bool ∧ BranchRaises env t e f path := by
  constructor
  · rintro (⟨h, -⟩ | ⟨_, _, he, h⟩ | ⟨_, hbody, h⟩)
    · cases h
    · cases he
      exact .inl h
    · cases hbody with
      | body hc => exact .inr ⟨hc, .inl h⟩
      | alternative hc ht => exact .inr ⟨hc, .inr ⟨⟨_, ht⟩, h⟩⟩
  · rintro (h | ⟨hc, h | ⟨⟨t', ht⟩, h⟩⟩)
    · exact .inr (.inl ⟨c, _, .ifElse, h⟩)
    · exact .inr (.inr ⟨t, .body hc, h⟩)
    · exact .inr (.inr ⟨e, .alternative hc ht, h⟩)

theorem blames_ifElse (sp : Span) (c : Expr) (ht : ListBlames t) (he : ListBlames e) :
    ((Stmt.ifElse sp c t e).check env).Blames ((Stmt.ifElse sp c t e).Raises env) := by
  rw [Stmt.check]
  refine blames_of_inside (s := .ifElse sp c t e) ?_
  exact (blames_guarded fun c' => blames_branches sp c' ht he).congr
    fun _ _ => raisesInside_ifElse_iff.symm

theorem blames_declare (sp : Span) (ty : Ty) (x : String) (init : Option Expr) :
    ((Stmt.declare sp ty x init).check env).Blames ((Stmt.declare sp ty x init).Raises env) := by
  rw [Stmt.check]
  refine blames_of_inside (s := .declare sp ty x init) ?_
  refine Blames.congr (Blames.ask (env.table.unplaced_requireStorage x ty) fun _ _ =>
    (blames_checkInit ty init).finish fun _ _ _ => (Env.faultless_declareLocal _ _ _).wrap)
    fun f path => ⟨?_, ?_⟩
  · rintro (⟨h, rfl⟩ | ⟨_, hty, value, rfl, h⟩)
    · exact .inl ⟨.storage h, rfl⟩
    · exact .inr (.inl ⟨value, _, .init hty, h⟩)
  · rintro (⟨h, rfl⟩ | ⟨_, _, he, h⟩ | ⟨_, hbody, -⟩)
    · cases h with
      | storage h => exact .inl ⟨h, rfl⟩
    · cases he with
      | init hty => exact .inr ⟨(), hty, _, rfl, h⟩
    · cases hbody

/-- A fault in a return arises in a method. -/
theorem exists_method_of_ret {value : Option Expr}
    (h : (Stmt.ret sp value).RaisesInside env f path) : ∃ m, env.currentMethod = .ok m := by
  rcases h with ⟨h, -⟩ | ⟨_, _, he, -⟩ | ⟨_, hbody, -⟩
  · cases h with
    | missing hm => exact ⟨_, hm⟩
    | void hm => exact ⟨_, hm⟩
  · cases he with
    | ret hm => exact ⟨_, hm⟩
  · cases hbody

theorem blames_ret (sp : Span) (value : Option Expr) :
    ((Stmt.ret sp value).check env).Blames ((Stmt.ret sp value).Raises env) := by
  rw [Stmt.check]
  refine blames_of_inside (s := .ret sp value) ?_
  refine Blames.congr (Blames.ask env.unplaced_currentMethod fun m hm =>
    (blames_checkReturn sp hm value).wrap) fun f path => ⟨?_, fun h => .inr ?_⟩
  · rintro (⟨h, -⟩ | ⟨_, _, h⟩)
    · unfold Env.currentMethod at h
      split at h <;> cases h
    · exact h
  · obtain ⟨m, hm⟩ := exists_method_of_ret h
    exact ⟨m, hm, h⟩

theorem blames_print (sp : Span) (value : Expr) :
    ((Stmt.print sp value).check env).Blames ((Stmt.print sp value).Raises env) := by
  rw [Stmt.check]
  refine blames_of_inside (s := .print sp value) ?_
  refine Blames.congr (Expr.blames_checkPrintable value).wrap fun f path => ⟨?_, ?_⟩
  · exact fun h => .inr (.inl ⟨value, _, .print, h⟩)
  · rintro (⟨h, -⟩ | ⟨_, _, he, h⟩ | ⟨_, hbody, -⟩)
    · cases h
    · cases he
      exact h
    · cases hbody

theorem blames_eval (sp : Span) (value : Expr) :
    ((Stmt.eval sp value).check env).Blames ((Stmt.eval sp value).Raises env) := by
  rw [Stmt.check]
  refine blames_of_inside (s := .eval sp value) ?_
  refine Blames.congr (Blames.finish (Expr.blames_check env value) fun _ _ _ => .ok _ _)
    fun f path => ⟨?_, ?_⟩
  · exact fun h => .inr (.inl ⟨value, _, .eval, .raised h⟩)
  · rintro (⟨h, -⟩ | ⟨_, _, he, h⟩ | ⟨_, hbody, -⟩)
    · cases h
    · cases he
      exact Expr.refused_anything_iff.mp h
    · cases hbody

end Stmt

mutual

/-- **A check of a statement blames the node where the fault arises.** -/
theorem Stmt.blames_check : ∀ (s : Stmt) (env : Env), (s.check env).Blames (s.Raises env)
  | .block sp body, _ => Stmt.blames_block sp (Stmt.blames_checkList body)
  | .ifThen sp c t, _ => Stmt.blames_ifThen sp c (Stmt.blames_checkList t)
  | .ifElse sp c t e, _ =>
    Stmt.blames_ifElse sp c (Stmt.blames_checkList t) (Stmt.blames_checkList e)
  | .loop sp c body, _ => Stmt.blames_loop sp c (Stmt.blames_checkList body)
  | .assign sp target value, _ => by
    rw [Stmt.check]
    exact Stmt.blames_of_inside (s := .assign sp target value) (blames_checkAssign sp target value).wrap
  | .declare sp ty x init, _ => Stmt.blames_declare sp ty x init
  | .ret sp value, _ => Stmt.blames_ret sp value
  | .print sp value, _ => Stmt.blames_print sp value
  | .eval sp value, _ => Stmt.blames_eval sp value

theorem Stmt.blames_checkList : ∀ ss : List Stmt, Stmt.ListBlames ss
  | [], env => (Blames.ok _ _).congr fun _ _ => reached_nil_iff.symm
  | s :: rest, env => by
    rw [Stmt.checkList]
    refine Blames.congr (Blames.andThen (Q := fun _ r => Stmt.SomeRaises r.2 rest)
      (Stmt.blames_check s env) fun _ r _ => (Stmt.blames_checkList rest r.2).wrap) fun f path => ?_
    rw [Stmt.SomeRaises, reached_cons_iff]
    refine or_congr_right ⟨?_, ?_⟩
    · rintro ⟨_, ⟨s', env₁⟩, hs, h⟩
      exact ⟨env₁, ⟨s', hs⟩, h⟩
    · rintro ⟨env₁, ⟨s', hs⟩, h⟩
      exact ⟨(), (s', env₁), hs, h⟩

end

end ClassLang
