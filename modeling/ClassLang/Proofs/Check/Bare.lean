import ClassLang.Compile
import ClassLang.Proofs.Outcome
import ClassLang.Proofs.Tree.Blank

/-!
# A check fills slots and nothing else

Whatever its outcome, a check leaves the tree it was given, but for the slots it fills: it moves no
node, takes none away and adds none, and keeps what the other slots hold (`Program.blank_analyze`).
So the tree that an analysis leaves says the same as the one that was analyzed
(`Program.bare_analyze`).
-/

namespace ClassLang

/-! ### What a step keeps -/

namespace Outcome

variable {σ τ α β γ δ : Type} {f : σ → γ} {g : τ → δ} {b : γ} {c : δ} {r : Outcome σ α}
  {wrap : σ → τ} {next : α → σ → Outcome τ β}

/-- A part that keeps `f` keeps `g` of the whole, if what follows does. -/
theorem keeps_andThen (hr : f r.state = b) (hw : ∀ s, f s = b → g (wrap s) = c)
    (hn : ∀ a s, f s = b → g (next a s).state = c) : g (r.andThen wrap next).state = c := by
  cases r with
  | ok a s => exact hn a s hr
  | error e s => exact hw s hr

theorem keeps_ask {x : Except Failure α} {s : σ} (hw : g (wrap s) = c)
    (hn : ∀ a, g (next a s).state = c) :
    g ((Outcome.ofExcept x s).andThen wrap next).state = c := by
  cases x with
  | ok a => exact hn a
  | error e => exact hw

/-! Where the state is a tree next to an environment, `g` looks at the tree. -/

section Tree

variable {tree : Type} {h : tree → δ} {wrap : σ → tree × Env}
  {next : α → σ → Outcome (tree × Env) β}

/-- After the check of a part that leaves the environment alone. -/
theorem keeps_tree (hr : f r.state = b) (hw : ∀ s, f s = b → h (wrap s).1 = c)
    (hn : ∀ a s, f s = b → h (next a s).state.1 = c) : h (r.andThen wrap next).state.1 = c :=
  keeps_andThen (g := fun s : tree × Env => h s.1) hr hw hn

theorem keeps_tree_ask {x : Except Failure α} {s : σ} (hw : h (wrap s).1 = c)
    (hn : ∀ a, h (next a s).state.1 = c) :
    h ((Outcome.ofExcept x s).andThen wrap next).state.1 = c :=
  keeps_ask (g := fun s : tree × Env => h s.1) hw hn

/-- After a step of the environment alone. -/
theorem keeps_tree_step (hw : ∀ s, h (wrap s).1 = c) (hn : ∀ a s, h (next a s).state.1 = c) :
    h (r.andThen wrap next).state.1 = c :=
  keeps_tree (f := fun _ => ()) rfl (fun s _ => hw s) fun a s _ => hn a s

/-- After the check of a part that changes the environment too. -/
theorem keeps_tree_part {r : Outcome (σ × Env) α} {wrap : σ × Env → tree × Env}
    {next : α → σ × Env → Outcome (tree × Env) β} (hr : f r.state.1 = b)
    (hw : ∀ s, f s.1 = b → h (wrap s).1 = c) (hn : ∀ a s, f s.1 = b → h (next a s).state.1 = c) :
    h (r.andThen wrap next).state.1 = c :=
  keeps_tree (f := fun s => f s.1) hr hw hn

end Tree

end Outcome

open Outcome

/-! ### Expressions -/

mutual

theorem Expr.blank_check (env : Env) : ∀ e : Expr, (e.check env).state.blank = e.blank
  | .number m n => rfl
  | .bool m b => rfl
  | .this m => by
    rw [Expr.check, state_locate]
    exact keeps_ask rfl fun _ => rfl
  | .var m none x b ob => by
    -- without an object nothing is found to fill its slot with
    rw [Expr.check, state_locate, Env.useVar]
    cases env.lookupVar x with
    | error e => rfl
    | ok found => rfl
  | .var m (some o) x b ob => by
    rw [Expr.check, state_locate]
    exact keeps_ask rfl fun _ => rfl
  | .binary m op l r => by
    rw [Expr.check, state_locate]
    refine keeps_andThen (Expr.blank_check env l) (fun l' hl => ?_) fun _ l' hl => ?_
    · rw [Expr.blank, hl, Expr.blank]
    · refine keeps_andThen (Expr.blank_check env r) (fun r' hr => ?_) fun _ r' hr => ?_
      · rw [Expr.blank, hl, hr, Expr.blank]
      · have hparts : (Expr.binary m op l' r').blank = (Expr.binary m op l r).blank := by
          rw [Expr.blank, hl, hr, Expr.blank]
        exact keeps_ask hparts fun _ => hparts
  | .unary m op x => by
    rw [Expr.check, state_locate]
    refine keeps_andThen (Expr.blank_check env x) (fun x' hx => ?_) fun _ x' hx => ?_
    · rw [Expr.blank, hx, Expr.blank]
    · have hparts : (Expr.unary m op x').blank = (Expr.unary m op x).blank := by
        rw [Expr.blank, hx, Expr.blank]
      exact keeps_ask hparts fun _ => hparts
  | .call m o f args b ob => by
    rw [Expr.check, state_locate]
    refine keeps_ask rfl fun _ => ?_
    refine keeps_andThen (Expr.blank_checkList env args) (fun args' hargs => ?_)
      fun _ args' hargs => ?_
    · rw [Expr.blank, hargs, Expr.blank]
    · have hparts : (Expr.call m o f args' b ob).blank = (Expr.call m o f args b ob).blank := by
        rw [Expr.blank, hargs, Expr.blank]
      refine keeps_ask hparts fun _ => ?_
      cases o with
      | none => exact hparts
      | some o => exact hparts
  | .create m cls args b => by
    rw [Expr.check, state_locate]
    refine keeps_ask rfl fun _ => ?_
    refine keeps_andThen (Expr.blank_checkList env args) (fun args' hargs => ?_)
      fun _ args' hargs => ?_
    · rw [Expr.blank, hargs, Expr.blank]
    · have hparts : (Expr.create m cls args' b).blank = (Expr.create m cls args b).blank := by
        rw [Expr.blank, hargs, Expr.blank]
      exact keeps_ask hparts fun _ => hparts

theorem Expr.blank_checkList (env : Env) : ∀ es : List Expr,
    Expr.blankList (Expr.checkList env es).state = Expr.blankList es
  | [] => rfl
  | e :: es => by
    rw [Expr.checkList]
    refine keeps_andThen (Expr.blank_check env e) (fun e' he => ?_) fun _ e' he => ?_
    · rw [Expr.blankList, he, Expr.blankList]
    · have hparts : ∀ es', Expr.blankList es' = Expr.blankList es →
          Expr.blankList (e' :: es') = Expr.blankList (e :: es) := by
        intro es' hes
        rw [Expr.blankList, he, hes, Expr.blankList]
      exact keeps_andThen (Expr.blank_checkList env es) hparts fun _ => hparts

end

/-! ### Statements -/

theorem Expr.blank_checkThat (env : Env) (e : Expr) (require : Ty → Except Failure Unit) :
    (e.checkThat env require).state.blank = e.blank := by
  unfold Expr.checkThat
  refine keeps_andThen (Expr.blank_check env e) (fun e' he => he) fun _ e' he => ?_
  rw [state_locate, state_ofExcept, he]

theorem blank_checkAssign (env : Env) (target value : Expr) :
    Prod.map Expr.blank Expr.blank (checkAssign env target value).state =
      (target.blank, value.blank) := by
  unfold checkAssign
  split
  · refine keeps_andThen (Expr.blank_check env target) (fun t ht => ?_) fun _ t ht => ?_
    · rw [Prod.map_apply, ht]
    · rw [state_wrap, Prod.map_apply, ht, Expr.checkFits, Expr.blank_checkThat]
  · rfl

theorem blank_checkInit (env : Env) (ty : Ty) : ∀ init : Option Expr,
    (checkInit env ty init).state.map Expr.blank = init.map Expr.blank
  | none => rfl
  | some e => by
    rw [checkInit, state_wrap, Expr.checkFits, Option.map_some, Expr.blank_checkThat,
      Option.map_some]

theorem blank_checkReturn (env : Env) (ty : Ty) : ∀ value : Option Expr,
    (checkReturn env ty value).state.map Expr.blank = value.map Expr.blank
  | none => by
    rw [checkReturn]
    split <;> rfl
  | some e => by
    rw [checkReturn]
    split
    · rfl
    · rw [state_wrap, Expr.checkFits, Option.map_some, Expr.blank_checkThat, Option.map_some]

theorem blank_checkInScope {body : List Stmt} (env : Env) {run : Env → Checked (List Stmt)}
    (hrun : ∀ env, Stmt.blankList (run env).state.1 = Stmt.blankList body) :
    Stmt.blankList (checkInScope body env run).state.1 = Stmt.blankList body := by
  unfold checkInScope
  refine keeps_tree_step (fun _ => rfl) fun _ env => ?_
  refine keeps_tree_part (hrun env) (fun _ hr => hr) fun _ r hr => ?_
  rw [state_wrap]
  exact hr

mutual

theorem Stmt.blank_check : ∀ (s : Stmt) (env : Env), (s.check env).state.1.blank = s.blank
  | .block sp body, env => by
    rw [Stmt.check, state_locate, state_wrap]
    have hbody := blank_checkInScope env (Stmt.blank_checkList body)
    rw [Stmt.blank, hbody, Stmt.blank]
  | .ifThen sp c t, env => by
    rw [Stmt.check, state_locate]
    refine keeps_tree (Expr.blank_checkThat env c _)
      (fun c' hc => ?_) fun _ c' hc => ?_
    · rw [Stmt.blank, hc, Stmt.blank]
    · have ht := blank_checkInScope env (Stmt.blank_checkList t)
      rw [state_wrap, Stmt.blank, hc, ht, Stmt.blank]
  | .ifElse sp c t f, env => by
    rw [Stmt.check, state_locate]
    refine keeps_tree (Expr.blank_checkThat env c _)
      (fun c' hc => ?_) fun _ c' hc => ?_
    · rw [Stmt.blank, hc, Stmt.blank]
    · refine keeps_tree_part (blank_checkInScope env (Stmt.blank_checkList t)) (fun r ht => ?_)
        fun _ r ht => ?_
      · rw [Stmt.blank, hc, ht, Stmt.blank]
      · have hf := blank_checkInScope r.2 (Stmt.blank_checkList f)
        rw [state_wrap, Stmt.blank, hc, ht, hf, Stmt.blank]
  | .loop sp c body, env => by
    rw [Stmt.check, state_locate]
    refine keeps_tree (Expr.blank_checkThat env c _)
      (fun c' hc => ?_) fun _ c' hc => ?_
    · rw [Stmt.blank, hc, Stmt.blank]
    · have hbody := blank_checkInScope env (Stmt.blank_checkList body)
      rw [state_wrap, Stmt.blank, hc, hbody, Stmt.blank]
  | .assign sp target value, env => by
    have hparts := blank_checkAssign env target value
    rw [Prod.map, Prod.mk.injEq] at hparts
    rw [Stmt.check, state_locate, state_wrap, Stmt.blank, hparts.1, hparts.2, Stmt.blank]
  | .declare sp ty x init, env => by
    rw [Stmt.check, state_locate]
    refine keeps_tree_ask rfl fun _ => ?_
    refine keeps_tree (blank_checkInit env ty init)
      (fun init' hi => ?_) fun _ init' hi => ?_
    · rw [Stmt.blank, hi, Stmt.blank]
    · rw [state_wrap, Stmt.blank, hi, Stmt.blank]
  | .ret sp value, env => by
    rw [Stmt.check, state_locate]
    refine keeps_tree_ask rfl fun m => ?_
    rw [state_wrap, Stmt.blank, blank_checkReturn, Stmt.blank]
  | .print sp value, env => by
    rw [Stmt.check, state_locate, state_wrap, Stmt.blank, Expr.checkPrintable, Expr.blank_checkThat,
      Stmt.blank]
  | .eval sp value, env => by
    rw [Stmt.check, state_locate]
    have hparts : ∀ value', value'.blank = value.blank →
        (Stmt.eval sp value').blank = (Stmt.eval sp value).blank := by
      intro value' hv
      rw [Stmt.blank, hv, Stmt.blank]
    exact keeps_tree (Expr.blank_check env value) hparts fun _ => hparts

theorem Stmt.blank_checkList : ∀ (ss : List Stmt) (env : Env),
    Stmt.blankList (Stmt.checkList ss env).state.1 = Stmt.blankList ss
  | [], _ => rfl
  | s :: rest, env => by
    rw [Stmt.checkList]
    refine keeps_tree_part (Stmt.blank_check s env) (fun r hs => ?_) fun _ r hs => ?_
    · rw [Stmt.blankList, hs, Stmt.blankList]
    · have hrest := Stmt.blank_checkList rest r.2
      rw [state_wrap, Stmt.blankList, hs, hrest, Stmt.blankList]

end

/-! ### Classes -/

theorem blank_checkEach {τ τ' : Type} {check : τ → Env → Checked τ} {blank : τ → τ'}
    (h : ∀ x env, blank (check x env).state.1 = blank x) : ∀ (xs : List τ) (env : Env),
    (checkEach check xs env).state.1.map blank = xs.map blank
  | [], _ => rfl
  | x :: rest, env => by
    rw [checkEach]
    refine keeps_tree_part (h x env) (fun r hx => ?_) fun _ r hx => ?_
    · rw [List.map_cons, hx, List.map_cons]
    · have hrest := blank_checkEach h rest r.2
      rw [state_wrap, List.map_cons, hx, hrest, List.map_cons]

theorem Routine.blank_declare (r : Routine) (cls : String) (s : Signature) (mayReplace : Bool)
    (env : Env) : (r.declare cls s mayReplace env).state.1.blank = r.blank := by
  unfold Routine.declare
  refine keeps_tree_step (fun _ => rfl) fun _ env => ?_
  split <;> rfl

theorem Member.blank_declare (cls : String) (replaced : Bool) (m : Member) (env : Env) :
    (m.declare cls replaced env).state.1.blank = m.blank := by
  cases m with
  | field sp ty x =>
    exact keeps_tree_step (fun _ => rfl) fun _ _ => rfl
  | method ret f r =>
    rw [Member.declare, state_locate]
    refine keeps_tree_ask rfl fun _ => ?_
    refine keeps_tree_ask rfl fun _ => ?_
    have hparts : ∀ r' : Routine × Env, r'.1.blank = r.blank →
        (Member.method ret f r'.1).blank = (Member.method ret f r).blank := by
      intro r' hr
      rw [Member.blank, hr, Member.blank]
    exact keeps_tree_part (Routine.blank_declare ..) hparts fun _ => hparts
  | constructor r =>
    rw [Member.declare, state_locate]
    refine keeps_tree_ask rfl fun _ => ?_
    have hparts : ∀ r' : Routine × Env, r'.1.blank = r.blank →
        (Member.constructor r'.1).blank = (Member.constructor r).blank := by
      intro r' hr
      rw [Member.blank, hr, Member.blank]
    exact keeps_tree_part (Routine.blank_declare ..) hparts fun _ => hparts

theorem Member.blank_declareList (cls : String) : ∀ (ms : List Member) (replaced : Bool) (env : Env),
    (Member.declareList cls replaced ms env).state.1.map Member.blank = ms.map Member.blank
  | [], _, _ => rfl
  | m :: rest, replaced, env => by
    rw [Member.declareList]
    refine keeps_tree_part (Member.blank_declare cls replaced m env) (fun r hm => ?_)
      fun replaced r hm => ?_
    · rw [List.map_cons, hm, List.map_cons]
    · have hrest := Member.blank_declareList cls rest replaced r.2
      rw [state_wrap, List.map_cons, hm, hrest, List.map_cons]

theorem Routine.blank_checkBody (r : Routine) (s : Signature) (env : Env) :
    (r.checkBody s env).state.1.blank = r.blank := by
  unfold Routine.checkBody
  refine keeps_tree_step (fun _ => rfl) fun _ env => ?_
  refine keeps_tree_step (fun _ => rfl) fun _ env => ?_
  have hbody := Stmt.blank_checkList r.body env
  rw [← state_locate r.span] at hbody
  refine keeps_tree_part hbody (fun b hb => ?_) fun _ b hb => ?_
  · rw [Routine.blank, hb, Routine.blank]
  · rw [state_wrap, Routine.blank, hb, Routine.blank]

theorem Routine.blank_check (r : Routine) (name : String) (env : Env) :
    (r.check name env).state.1.blank = r.blank :=
  keeps_tree_ask rfl fun s => r.blank_checkBody s env

theorem Member.blank_checkBody (m : Member) (env : Env) :
    (m.checkBody env).state.1.blank = m.blank := by
  cases m with
  | field sp ty x => rfl
  | method ret f r =>
    rw [Member.checkBody, state_wrap, Member.blank, Routine.blank_check, Member.blank]
  | constructor r =>
    rw [Member.checkBody, state_wrap, Member.blank, Routine.blank_check, Member.blank]

theorem ClassDecl.blank_check (c : ClassDecl) (env : Env) : (c.check env).state.1.blank = c.blank := by
  unfold ClassDecl.check
  refine keeps_tree_step (fun _ => rfl) fun _ env => ?_
  refine keeps_tree_step (fun _ => rfl) fun _ env => ?_
  refine keeps_tree_part (Member.blank_declareList ..) (fun ms hms => ?_)
    fun _ ms hms => ?_
  · rw [ClassDecl.blank, hms, ClassDecl.blank]
  have hbodies := (blank_checkEach Member.blank_checkBody ms.1 ms.2).trans hms
  refine keeps_tree_part hbodies (fun ms hms => ?_) fun _ ms hms => ?_
  · rw [ClassDecl.blank, hms, ClassDecl.blank]
  · rw [state_wrap, ClassDecl.blank, hms, ClassDecl.blank]

theorem Program.blank_check (p : Program) (env : Env) : (p.check env).state.1.blank = p.blank := by
  rw [Program.check, state_wrap, Program.blank, blank_checkEach ClassDecl.blank_check, Program.blank]

/-- **An analysis leaves the program as it was, but for the slots it fills.** -/
theorem Program.blank_analyze (p : Program) : p.analyze.state.blank = p.blank := by
  unfold Program.analyze
  exact keeps_andThen (f := fun r : Program × Env => r.1.blank) (Program.blank_check p .empty)
    (fun _ hp => hp) fun _ _ hp => hp

theorem Program.blank_of_analyze {p q : Program} {t : ClassTable} (h : p.analyze = .ok t q) :
    q.blank = p.blank := by
  have hstate := p.blank_analyze
  rwa [h] at hstate

/-! ### What a check leaves says the same -/

theorem Expr.bare_check (env : Env) (e : Expr) : (e.check env).state.bare = e.bare := by
  rw [← Expr.bare_blank, e.blank_check env, Expr.bare_blank]

theorem ClassDecl.bare_check (c : ClassDecl) (env : Env) : (c.check env).state.1.bare = c.bare := by
  rw [← ClassDecl.bare_blank, c.blank_check env, ClassDecl.bare_blank]

theorem Program.bare_analyze (p : Program) : p.analyze.state.bare = p.bare := by
  rw [← Program.bare_blank, p.blank_analyze, Program.bare_blank]

end ClassLang
