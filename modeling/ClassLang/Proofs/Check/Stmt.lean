import ClassLang.Proofs.Check.Bare
import ClassLang.Proofs.Check.Expr

/-!
# The checker accepts the statements that keep to the rules

At a point where `Γ` is known, `Stmt.check` succeeds just on the statements that keep to the rules
there, and leaves them annotated (`Env.At.settles_stmt`). It also leaves an environment in which
what is known after the statement is known. Of the frames it found it changes the innermost one at
most (`Env.Inner`), so a block, which pops the frame it pushed, gives back the environment it was
entered in, and the statements after a block do not see what it declared.
-/

namespace ClassLang

/-- The second environment is the first, but for the names in the innermost frame. -/
structure Env.Inner (env env' : Env) : Prop where
  table : env'.table = env.table
  method : env'.method = env.method
  outer : env'.scopes.frames.tail = env.scopes.frames.tail
  depth : env'.scopes.depth = env.scopes.depth

theorem Env.Inner.refl (env : Env) : env.Inner env := ⟨rfl, rfl, rfl, rfl⟩

theorem Env.Inner.trans {env₁ env₂ env₃ : Env} (h₁ : env₁.Inner env₂) (h₂ : env₂.Inner env₃) :
    env₁.Inner env₃ :=
  ⟨h₂.table.trans h₁.table, h₂.method.trans h₁.method, h₂.outer.trans h₁.outer,
    h₂.depth.trans h₁.depth⟩

variable {env env' : Env} {Γ : Context} {sp : Span} {c target value : Expr} {τ σ : Ty} {x : String}
  {t f body rest : List Stmt}

/-! ### The rules, read from the node to its parts -/

namespace Stmt

theorem ok_block_iff : (block sp body).Ok .plain Γ ↔ AllOk .plain Γ body :=
  ⟨fun h => by cases h; assumption, .block⟩

theorem ok_ifThen_iff : (ifThen sp c t).Ok .plain Γ ↔ HasType .plain Γ c .bool ∧ AllOk .plain Γ t :=
  ⟨fun h => by cases h with | ifThen hc ht => exact ⟨hc, ht⟩, fun ⟨hc, ht⟩ => .ifThen hc ht⟩

theorem ok_ifElse_iff : (ifElse sp c t f).Ok .plain Γ ↔
    HasType .plain Γ c .bool ∧ AllOk .plain Γ t ∧ AllOk .plain Γ f :=
  ⟨fun h => by cases h with | ifElse hc ht hf => exact ⟨hc, ht, hf⟩,
    fun ⟨hc, ht, hf⟩ => .ifElse hc ht hf⟩

theorem ok_loop_iff :
    (loop sp c body).Ok .plain Γ ↔ HasType .plain Γ c .bool ∧ AllOk .plain Γ body :=
  ⟨fun h => by cases h with | loop hc h => exact ⟨hc, h⟩, fun ⟨hc, h⟩ => .loop hc h⟩

theorem ok_assign_iff : (assign sp target value).Ok .plain Γ ↔ target.isVar = true ∧
    ∃ τ, HasType .plain Γ target τ ∧ ∃ σ, HasType .plain Γ value σ ∧ σ.Fits Γ.classes τ :=
  ⟨fun h => by cases h with | assign hvar ht hv h => exact ⟨hvar, _, ht, _, hv, h⟩,
    fun ⟨hvar, _, ht, _, hv, h⟩ => .assign hvar ht hv h⟩

theorem ok_init_iff : (declare sp τ x (some value)).Ok .plain Γ ↔
    τ.Storable Γ.names ∧ ∃ σ, HasType .plain Γ value σ ∧ σ.Fits Γ.classes τ :=
  ⟨fun h => by cases h with | init hτ hv h => exact ⟨hτ, _, hv, h⟩,
    fun ⟨hτ, _, hv, h⟩ => .init hτ hv h⟩

theorem ok_leave_iff : (ret sp none).Ok .plain Γ ↔ Γ.ret = .void :=
  ⟨fun h => by cases h; assumption, .leave⟩

theorem ok_ret_iff : (ret sp (some value)).Ok .plain Γ ↔
    Γ.ret ≠ .void ∧ ∃ σ, HasType .plain Γ value σ ∧ σ.Fits Γ.classes Γ.ret :=
  ⟨fun h => by cases h with | ret hret hv h => exact ⟨hret, _, hv, h⟩,
    fun ⟨hret, _, hv, h⟩ => .ret hret hv h⟩

theorem ok_print_iff : (print sp value).Ok .plain Γ ↔
    ∃ τ, HasType .plain Γ value τ ∧ (τ = .int ∨ τ = .bool) :=
  ⟨fun h => by cases h with | print hv h => exact ⟨_, hv, h⟩, fun ⟨_, hv, h⟩ => .print hv h⟩

theorem ok_eval_iff : (eval sp value).Ok .plain Γ ↔ ∃ τ, HasType .plain Γ value τ :=
  ⟨fun h => by cases h with | eval hv => exact ⟨_, hv⟩, fun ⟨_, hv⟩ => .eval hv⟩

theorem allOk_cons_iff {s : Stmt} :
    AllOk .plain Γ (s :: rest) ↔ s.Ok .plain Γ ∧ AllOk .plain (s.after Γ) rest :=
  ⟨fun h => by cases h with | cons hs hrest => exact ⟨hs, hrest⟩, fun ⟨hs, hrest⟩ => .cons hs hrest⟩

end Stmt

namespace Env.At

open Outcome

/-! ### Frames -/

theorem inMethod (h : env.At Γ) : env.inMethod = true := by
  obtain ⟨m, hm, -⟩ := h.method
  rw [Env.inMethod, hm]
  rfl

theorem push (h : env.At Γ) : ({ env with scopes := env.scopes.push } : Env).At Γ where
  table := h.table
  hierarchy := h.hierarchy
  scopes := h.scopes
  known := h.known
  framed := by simp [Scopes.push]
  method := h.method

/-- A frame that was pushed onto those of `env` can be popped, and gives back `env`. -/
theorem leaveScope_eq (h : env.At Γ) (hi : Inner { env with scopes := env.scopes.push } env') :
    Env.leaveScope env' = .ok () env := by
  have hframes : env'.scopes.frames.tail = env.scopes.frames := hi.outer
  have htable : env'.table = env.table := hi.table
  have hmethod : env'.method = env.method := hi.method
  have hin : env'.inMethod = true := by
    rw [Env.inMethod, hmethod]
    exact h.inMethod
  obtain ⟨table, ⟨frames⟩, method⟩ := env'
  -- `env` has a frame, so `env'` has one to pop
  cases frames with
  | nil => exact absurd hframes.symm h.framed
  | cons frame rest =>
    obtain ⟨_, ⟨_⟩, _⟩ := env
    cases hframes
    cases htable
    cases hmethod
    rw [Env.leaveScope, Env.inBody, if_pos hin]
    rfl

/-- Declaring a name adds it to what is known. -/
theorem declareLocal_eq (h : env.At Γ) (hτ : τ.Known Γ.names) : ∃ env',
    Env.declareLocal x (.value τ) env = .ok () env' ∧ env'.At (Γ.bind x τ) ∧ env.Inner env' := by
  have hin := h.inMethod
  have hscopes := h.scopes
  have hframed := h.framed
  obtain ⟨table, ⟨frames⟩, method⟩ := env
  cases frames with
  | nil => exact absurd rfl hframed
  | cons frame outer =>
    refine ⟨⟨table, ⟨frame.insert x (.value τ) :: outer⟩, method⟩, ?_, ?_, rfl, rfl, rfl, rfl⟩
    · rw [Env.declareLocal, Env.inBody, if_pos hin]
      rfl
    · refine ⟨h.table, h.hierarchy, fun y => ?_, ?_, List.cons_ne_nil _ _, h.method⟩
      · have hy : (frame.get? y).or (outer.findSome? (·.get? y)) =
            (Γ.locals.lookup y).map Entity.value := by
          rw [← hscopes y, Scopes.lookup, List.findSome?_cons]
          cases frame.get? y <;> rfl
        by_cases hxy : y = x
        · simp [Scopes.lookup, Context.bind, hxy]
        · have hne : (y == x) = false := beq_eq_false_iff_ne.mpr hxy
          simp only [Scopes.lookup, List.findSome?_cons, NameMap.get?_insert, if_neg hxy,
            Context.bind, List.lookup_cons, hne, ← hy]
          cases frame.get? y <;> rfl
      · intro e he
        rcases List.mem_cons.mp he with rfl | he
        · exact hτ
        · exact h.known e he

/-! ### Values of which something is required -/

theorem settles_that (h : env.At Γ) {require : Ty → Except Failure Unit} {R : Ty → Prop}
    (hr : ∀ τ, Answers (require τ) fun _ => R τ) (e : Expr) :
    (e.checkThat env require).Settles (fun _ => ∃ τ, HasType .plain Γ e τ ∧ R τ)
      fun _ e' => ∃ τ, HasType .annotated Γ e' τ ∧ R τ := by
  unfold Expr.checkThat
  refine (h.settles_expr e).andThen (K := fun τ _ => R τ) (fun τ e' _ he => ?_) fun _ => Iff.rfl
  exact Settles.locate (Settles.ofExcept (hr τ) fun _ hτ => ⟨τ, he, hτ⟩)

theorem settles_condition (h : env.At Γ) (e : Expr) :
    (e.checkCondition env).Settles (fun _ => HasType .plain Γ e .bool)
      fun _ e' => HasType .annotated Γ e' .bool := by
  refine ((h.settles_that (R := fun τ => τ = .bool) (fun _ => answers_requireSame) e).congr
    fun _ => ?_).mono fun _ e' _ he => ?_
  · exact ⟨fun he => ⟨_, he, rfl⟩, fun ⟨_, he, hτ⟩ => hτ ▸ he⟩
  · obtain ⟨_, he, rfl⟩ := he
    exact he

theorem settles_fits (h : env.At Γ) (expected : Ty) (e : Expr) :
    (e.checkFits env expected).Settles
      (fun _ => ∃ σ, HasType .plain Γ e σ ∧ σ.Fits Γ.classes expected)
      fun _ e' => ∃ σ, HasType .annotated Γ e' σ ∧ σ.Fits Γ.classes expected :=
  h.settles_that (R := fun σ => σ.Fits Γ.classes expected)
    (fun _ => ClassTable.answers_requireFits h.table h.hierarchy) e

theorem settles_printable (h : env.At Γ) (e : Expr) :
    (e.checkPrintable env).Settles
      (fun _ => ∃ τ, HasType .plain Γ e τ ∧ (τ = .int ∨ τ = .bool))
      fun _ e' => ∃ τ, HasType .annotated Γ e' τ ∧ (τ = .int ∨ τ = .bool) := by
  refine h.settles_that (R := fun τ => τ = .int ∨ τ = .bool) (fun τ => ?_) e
  cases τ with
  | int => exact Answers.ok fun _ => by simp
  | bool => exact Answers.ok fun _ => by simp
  | void => exact Answers.raise fun _ => by simp
  | cls _ => exact Answers.raise fun _ => by simp

/-! ### Statements without a block -/

theorem settles_assign (h : env.At Γ) (target value : Expr) :
    (checkAssign env target value).Settles (fun _ => (Stmt.assign sp target value).Ok .plain Γ)
      fun _ r => (Stmt.assign sp r.1 r.2).Ok .annotated Γ := by
  unfold checkAssign
  by_cases hvar : target.isVar = true
  · rw [if_pos hvar]
    have hvar' : (target.check env).state.isVar = true := by
      rw [← Expr.isVar_bare, Expr.bare_check, Expr.isVar_bare, hvar]
    refine ((h.settles_expr target).and_state (R := fun e => e.isVar = true) hvar').andThen
      (fun τ target' _ ht => ?_) fun _ => Stmt.ok_assign_iff.trans (and_iff_right hvar)
    refine (h.settles_fits τ value).wrap fun _ value' _ hv => ?_
    obtain ⟨σ, hσ, hfits⟩ := hv
    exact .assign ht.2 ht.1 hσ hfits
  · rw [if_neg hvar]
    exact Settles.fail fun _ hok => hvar (Stmt.ok_assign_iff.mp hok).1

theorem settles_init (h : env.At Γ) (hτ : τ.Storable Γ.names) : ∀ init : Option Expr,
    (checkInit env τ init).Settles (fun _ => (Stmt.declare sp τ x init).Ok .plain Γ)
      fun _ init' => (Stmt.declare sp τ x init').Ok .annotated Γ
  | none => Settles.done (.declare hτ) (.declare hτ)
  | some value => by
    rw [checkInit]
    refine ((h.settles_fits τ value).congr fun _ => ?_).wrap fun _ value' _ hv => ?_
    · exact Stmt.ok_init_iff.trans (and_iff_right hτ)
    · obtain ⟨σ, hσ, hfits⟩ := hv
      exact .init hτ hσ hfits

theorem settles_return (h : env.At Γ) (value : Option Expr) :
    (checkReturn env Γ.ret value).Settles (fun _ => (Stmt.ret sp value).Ok .plain Γ)
      fun _ value' => (Stmt.ret sp value').Ok .annotated Γ := by
  have hvoid : Γ.ret.isVoid = true ↔ Γ.ret = .void := by simp [Ty.isVoid]
  cases value with
  | none =>
    rw [checkReturn]
    by_cases hr : Γ.ret = .void
    · rw [if_pos (hvoid.mpr hr)]
      exact Settles.done (.leave hr) (.leave hr)
    · rw [if_neg (hvoid.not.mpr hr)]
      exact Settles.fail fun _ hok => hr (Stmt.ok_leave_iff.mp hok)
  | some value =>
    rw [checkReturn]
    by_cases hr : Γ.ret = .void
    · rw [if_pos (hvoid.mpr hr)]
      exact Settles.fail fun _ hok => (Stmt.ok_ret_iff.mp hok).1 hr
    · rw [if_neg (hvoid.not.mpr hr)]
      refine ((h.settles_fits Γ.ret value).congr fun _ => ?_).wrap fun _ value' _ hv => ?_
      · exact Stmt.ok_ret_iff.trans (and_iff_right hr)
      · obtain ⟨σ, hσ, hfits⟩ := hv
        exact .ret hr hσ hfits

/-! ### All statements -/

theorem settles_scope (h : env.At Γ)
    (hbody : ∀ {env : Env}, env.At Γ → (Stmt.checkList body env).Settles
      (fun _ => Stmt.AllOk .plain Γ body) fun _ r => Stmt.AllOk .annotated Γ r.1 ∧ env.Inner r.2) :
    (checkInScope body env fun env => Stmt.checkList body env).Settles
      (fun _ => Stmt.AllOk .plain Γ body) fun _ r => Stmt.AllOk .annotated Γ r.1 ∧ r.2 = env := by
  unfold checkInScope
  rw [Env.enterScope, Env.inBody, if_pos h.inMethod, andThen_ok]
  refine (hbody h.push).finish fun _ r _ hr => ?_
  refine ⟨(r.1, env), ?_, hr.1, rfl⟩
  simp only [h.leaveScope_eq hr.2, wrap_ok]

mutual

/-- **The checker accepts just the statements that keep to the rules**, and leaves what is known
after them. -/
theorem settles_stmt {env : Env} {Γ : Context} (h : env.At Γ) : ∀ s : Stmt,
    (s.check env).Settles (fun _ => s.Ok .plain Γ) fun _ r =>
      r.1.Ok .annotated Γ ∧ r.1.after Γ = s.after Γ ∧ r.2.At (s.after Γ) ∧ env.Inner r.2
  | .block sp body => by
    rw [Stmt.check]
    refine Settles.locate ?_
    refine ((h.settles_scope fun h => settles_stmts h body).congr fun _ => Stmt.ok_block_iff).wrap
      fun _ r _ hr => ?_
    obtain ⟨body', env'⟩ := r
    obtain ⟨hbody, rfl⟩ := hr
    exact ⟨.block hbody, rfl, h, .refl _⟩
  | .ifThen sp c t => by
    rw [Stmt.check]
    refine Settles.locate (Settles.congr ?_ fun _ => Stmt.ok_ifThen_iff)
    refine (h.settles_condition c).after fun c' _ hc => ?_
    refine (h.settles_scope fun h => settles_stmts h t).wrap fun _ r _ hr => ?_
    obtain ⟨t', env'⟩ := r
    obtain ⟨ht, rfl⟩ := hr
    exact ⟨.ifThen hc ht, rfl, h, .refl _⟩
  | .ifElse sp c t f => by
    rw [Stmt.check]
    refine Settles.locate (Settles.congr ?_ fun _ => Stmt.ok_ifElse_iff)
    refine (h.settles_condition c).after fun c' _ hc => ?_
    refine (h.settles_scope fun h => settles_stmts h t).after fun r _ hr => ?_
    obtain ⟨t', env'⟩ := r
    obtain ⟨ht, rfl⟩ := hr
    refine (h.settles_scope fun h => settles_stmts h f).wrap fun _ r _ hr => ?_
    obtain ⟨f', env'⟩ := r
    obtain ⟨hf, rfl⟩ := hr
    exact ⟨.ifElse hc ht hf, rfl, h, .refl _⟩
  | .loop sp c body => by
    rw [Stmt.check]
    refine Settles.locate (Settles.congr ?_ fun _ => Stmt.ok_loop_iff)
    refine (h.settles_condition c).after fun c' _ hc => ?_
    refine (h.settles_scope fun h => settles_stmts h body).wrap fun _ r _ hr => ?_
    obtain ⟨body', env'⟩ := r
    obtain ⟨hbody, rfl⟩ := hr
    exact ⟨.loop hc hbody, rfl, h, .refl _⟩
  | .assign sp target value => by
    rw [Stmt.check]
    refine Settles.locate ?_
    exact (h.settles_assign target value).wrap fun _ _ _ hok => ⟨hok, rfl, h, .refl _⟩
  | .declare sp τ x init => by
    rw [Stmt.check]
    refine Settles.locate ?_
    refine Settles.ask (ClassTable.answers_requireStorage h.table)
      (K := fun _ _ => (Stmt.declare sp τ x init).Ok .plain Γ) (fun _ hτ => ?_) fun _ => ?_
    · refine (h.settles_init hτ init).finish fun _ init' _ hok => ?_
      obtain ⟨env', he, hat, hi⟩ := h.declareLocal_eq (x := x) hτ.2
      exact ⟨(.declare sp τ x init', env'), by rw [he]; rfl, hok, rfl, hat, hi⟩
    · exact ⟨fun hok => ⟨(), by cases hok <;> assumption, hok⟩, fun ⟨_, _, hok⟩ => hok⟩
  | .ret sp value => by
    obtain ⟨m, hm, hret⟩ := h.method
    rw [Stmt.check, Env.currentMethod, hm, ofExcept_ok, andThen_ok, hret]
    refine Settles.locate ?_
    exact (h.settles_return value).wrap fun _ _ _ hok => ⟨hok, rfl, h, .refl _⟩
  | .print sp value => by
    rw [Stmt.check]
    refine Settles.locate (Settles.congr ?_ fun _ => Stmt.ok_print_iff)
    refine (h.settles_printable value).wrap fun _ value' _ hv => ?_
    obtain ⟨τ, hv, hτ⟩ := hv
    exact ⟨.print hv hτ, rfl, h, .refl _⟩
  | .eval sp value => by
    rw [Stmt.check]
    refine Settles.locate ?_
    refine (h.settles_expr value).andThen (K := fun _ _ => True) (fun τ value' _ hv => ?_)
      fun _ => ?_
    · exact Settles.done trivial ⟨.eval hv, rfl, h, .refl _⟩
    · rw [Stmt.ok_eval_iff]
      simp

theorem settles_stmts {env : Env} {Γ : Context} (h : env.At Γ) : ∀ ss : List Stmt,
    (Stmt.checkList ss env).Settles (fun _ => Stmt.AllOk .plain Γ ss) fun _ r =>
      Stmt.AllOk .annotated Γ r.1 ∧ env.Inner r.2
  | [] => Settles.done .nil ⟨.nil, .refl _⟩
  | s :: rest => by
    rw [Stmt.checkList]
    refine Settles.congr ?_ fun _ => Stmt.allOk_cons_iff
    refine (settles_stmt h s).after fun r _ hr => ?_
    obtain ⟨s', env'⟩ := r
    obtain ⟨hs, hafter, hat, hi⟩ := hr
    refine (settles_stmts hat rest).wrap fun _ r _ hr => ?_
    obtain ⟨rest', env''⟩ := r
    obtain ⟨hrest, hi'⟩ := hr
    exact ⟨.cons hs (by rw [hafter]; exact hrest), hi.trans hi'⟩

end

end Env.At

end ClassLang
