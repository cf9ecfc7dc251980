import ClassLang.Compile
import ClassLang.Proofs.Tree.Trim

/-!
# A check does not read slots

What slots hold before a check has no part in it: every slot that a check reads it has filled itself.
So a check of a tree and a check of the bare tree fail alike, or give the same value, the same
environment and, but for the slots that a check leaves alone, the same tree
(`Program.view_analyze_bare`).
-/

namespace ClassLang

/-! ### What shows of an outcome -/

namespace Outcome

variable {σ τ α β γ δ : Type}

/-- What can be told of an outcome from the value and from `f` of the state; after a failure the
state does not show. -/
def view (f : σ → γ) (r : Outcome σ α) : Except Failure (α × γ) :=
  match r with
  | .ok a s => .ok (a, f s)
  | .error e _ => .error e

variable {f : σ → γ} {g : τ → δ} {r r' : Outcome σ α} {w w' : σ → τ}
  {next next' : α → σ → Outcome τ β}

theorem toExcept_eq_view (f : σ → γ) (r : Outcome σ α) : r.toExcept = (r.view f).map Prod.fst := by
  cases r <;> rfl

/-- Outcomes that cannot be told apart: both give the same value, or fail alike. -/
theorem view_cases (h : r.view f = r'.view f) :
    (∃ a s s', r = .ok a s ∧ r' = .ok a s' ∧ f s = f s') ∨
      ∃ e s s', r = .error e s ∧ r' = .error e s' := by
  cases r with
  | ok a s =>
    cases r' with
    | ok a' s' =>
      obtain ⟨rfl, hs⟩ := Prod.mk.inj (Except.ok.inj h)
      exact .inl ⟨a, s, s', rfl, rfl, hs⟩
    | error e' s' => cases h
  | error e s =>
    cases r' with
    | ok a' s' => cases h
    | error e' s' =>
      obtain rfl := Except.error.inj h
      exact .inr ⟨e, s, s', rfl, rfl⟩

theorem view_locate (place : Span) (h : r.view f = r'.view f) :
    (r.locate place).view f = (r'.locate place).view f := by
  obtain ⟨a, s, s', rfl, rfl, -⟩ | ⟨e, s, s', rfl, rfl⟩ := view_cases h
  · exact h
  · rfl

/-- Steps that cannot be told apart stay so, if what follows them cannot tell either. -/
theorem view_andThen (h : r.view f = r'.view f)
    (hn : ∀ a s s', f s = f s' → (next a s).view g = (next' a s').view g) :
    (r.andThen w next).view g = (r'.andThen w' next').view g := by
  obtain ⟨a, s, s', rfl, rfl, hs⟩ | ⟨e, s, s', rfl, rfl⟩ := view_cases h
  · exact hn a s s' hs
  · rfl

theorem view_wrap (h : r.view f = r'.view f) (hw : ∀ s s', f s = f s' → g (w s) = g (w' s')) :
    (r.wrap w).view g = (r'.wrap w').view g := by
  rw [wrap_eq_andThen, wrap_eq_andThen]
  refine view_andThen h fun a s s' hs => ?_
  rw [view, view, hw s s' hs]

theorem view_ask {x : Except Failure α} {s s' : σ}
    (hn : ∀ a, (next a s).view g = (next' a s').view g) :
    ((ofExcept x s).andThen w next).view g = ((ofExcept x s').andThen w' next').view g := by
  cases x with
  | ok a => exact hn a
  | error e => rfl

/-- After a step that is the same for both. -/
theorem view_step (r : Outcome σ α) (hn : ∀ a s, (next a s).view g = (next' a s).view g) :
    (r.andThen w next).view g = (r.andThen w' next').view g := by
  refine view_andThen (f := id) rfl fun a s s' hs => ?_
  obtain rfl : s = s' := hs
  exact hn a s

theorem view_wrap_step (r : Outcome σ α) (hw : ∀ s, g (w s) = g (w' s)) :
    (r.wrap w).view g = (r.wrap w').view g := by
  rw [wrap_eq_andThen, wrap_eq_andThen]
  refine view_step r fun a s => ?_
  rw [view, view, hw s]

/-! Where the state is a tree next to an environment, the environment shows and `f` of the tree. -/

section Tree

variable {r r' : Outcome (σ × Env) α} {w w' : σ × Env → τ} {next next' : α → σ × Env → Outcome τ β}

theorem view_part (h : r.view (Prod.map f id) = r'.view (Prod.map f id))
    (hn : ∀ a x x' env, f x = f x' → (next a (x, env)).view g = (next' a (x', env)).view g) :
    (r.andThen w next).view g = (r'.andThen w' next').view g := by
  refine view_andThen h fun a (x, env) (x', env') hs => ?_
  obtain ⟨hx, henv⟩ := Prod.mk.inj hs
  obtain rfl : env = env' := henv
  exact hn a x x' env hx

theorem view_wrap_part (h : r.view (Prod.map f id) = r'.view (Prod.map f id))
    (hw : ∀ x x' env, f x = f x' → g (w (x, env)) = g (w' (x', env))) :
    (r.wrap w).view g = (r'.wrap w').view g := by
  rw [wrap_eq_andThen, wrap_eq_andThen]
  refine view_part h fun a x x' env hx => ?_
  rw [view, view, hw x x' env hx]

end Tree

end Outcome

open Outcome

/-! ### Expressions -/

@[simp] theorem Mark.bare_typed (m : Mark) (ty : Ty) : m.bare.typed ty = m.typed ty := rfl

mutual

@[simp] theorem Expr.source_bare : ∀ e : Expr, e.bare.source = e.source
  | .number .. | .bool .. | .this _ | .var .. => rfl
  | .binary m op l r => by
    rw [Expr.bare, Expr.source, Expr.source, Expr.source_bare l, Expr.source_bare r]
  | .unary m op x => by rw [Expr.bare, Expr.source, Expr.source, Expr.source_bare x]
  | .call m o f args b ob => by
    rw [Expr.bare, Expr.source, Expr.source, Expr.sources_bareList args]
  | .create m c args b => by rw [Expr.bare, Expr.source, Expr.source, Expr.sources_bareList args]

theorem Expr.sources_bareList : ∀ es : List Expr, Expr.sources (Expr.bareList es) = Expr.sources es
  | [] => rfl
  | e :: es => by
    rw [Expr.bareList, Expr.sources, Expr.sources, Expr.source_bare e, Expr.sources_bareList es]

end

/-- The slot of an object is filled if there is one, and otherwise trimmed. -/
theorem Slot.trimFor_refill {α : Type} (s : Slot α) (object : Option String) (a : α) :
    (s.refill (object.map fun _ => a)).trimFor object =
      (Slot.empty.refill (object.map fun _ => a)).trimFor object := by
  cases object <;> rfl

/-- The binding of an object is found if there is one. -/
theorem Env.useVar_object {env : Env} {object : Option String} {x : String} {ty : Ty}
    {b : VarBinding} {ob : Option VarBinding} (h : env.useVar object x = .ok (ty, b, ob)) :
    ∃ a, ob = object.map fun _ => a := by
  unfold Env.useVar at h
  split at h
  · split at h
    · cases h
    · cases h
      exact ⟨b, rfl⟩
  · split at h
    · cases h
    · split at h
      · cases h
      · cases h
        exact ⟨_, rfl⟩

mutual

theorem Expr.view_check_bare (env : Env) : ∀ e : Expr,
    (e.bare.check env).view Expr.trim = (e.check env).view Expr.trim
  | .number .. | .bool .. => rfl
  | .this m => by
    rw [Expr.bare, Expr.check, Expr.check]
    exact view_locate m.span (view_ask fun ty => rfl)
  | .var m o x b ob => by
    rw [Expr.bare, Expr.check, Expr.check]
    refine view_locate m.span ?_
    cases huse : env.useVar o x with
    | error e => rfl
    | ok found =>
      obtain ⟨ty, binding, objectBinding⟩ := found
      obtain ⟨a, rfl⟩ := Env.useVar_object huse
      simp only [ofExcept_ok, andThen_ok, view, Expr.trim, Mark.bare_typed]
      rw [Slot.trimFor_refill ob]
  | .binary m op l r => by
    rw [Expr.bare, Expr.check, Expr.check]
    refine view_locate m.span (view_andThen (Expr.view_check_bare env l) fun lty l₁ l₂ hl => ?_)
    refine view_andThen (Expr.view_check_bare env r) fun rty r₁ r₂ hr => ?_
    refine view_ask fun ty => ?_
    simp only [view, Expr.trim, Mark.bare_typed, hl, hr]
  | .unary m op x => by
    rw [Expr.bare, Expr.check, Expr.check]
    refine view_locate m.span (view_andThen (Expr.view_check_bare env x) fun xty x₁ x₂ hx => ?_)
    refine view_ask fun ty => ?_
    simp only [view, Expr.trim, Mark.bare_typed, hx]
  | .call m o f args b ob => by
    rw [Expr.bare, Expr.check, Expr.check]
    refine view_locate m.span (view_ask fun (cls, objectBinding) => ?_)
    refine view_andThen (Expr.view_checkList_bare env args) fun tys args₁ args₂ hargs => ?_
    refine view_ask fun target => ?_
    simp only [view, Expr.trim, Mark.bare_typed, hargs]
    rw [Slot.trimFor_refill ob]
  | .create m cls args b => by
    rw [Expr.bare, Expr.check, Expr.check]
    refine view_locate m.span (view_ask fun name => ?_)
    refine view_andThen (Expr.view_checkList_bare env args) fun tys args₁ args₂ hargs => ?_
    refine view_ask fun target => ?_
    simp only [view, Expr.trim, Mark.bare_typed, hargs]

theorem Expr.view_checkList_bare (env : Env) : ∀ es : List Expr,
    (Expr.checkList env (Expr.bareList es)).view Expr.trimList =
      (Expr.checkList env es).view Expr.trimList
  | [] => rfl
  | e :: es => by
    rw [Expr.bareList, Expr.checkList, Expr.checkList]
    refine view_andThen (Expr.view_check_bare env e) fun ty e₁ e₂ he => ?_
    refine view_andThen (Expr.view_checkList_bare env es) fun tys es₁ es₂ hes => ?_
    simp only [view, Expr.trimList, he, hes]

end

/-! ### Statements -/

theorem Expr.view_checkThat_bare (env : Env) (e : Expr) (require : Ty → Except Failure Unit) :
    (e.bare.checkThat env require).view Expr.trim = (e.checkThat env require).view Expr.trim := by
  unfold Expr.checkThat
  refine view_andThen (Expr.view_check_bare env e) fun ty e₁ e₂ he => ?_
  rw [Expr.span_eq_of_trim he]
  refine view_locate e₂.span ?_
  cases require ty with
  | error f => rfl
  | ok u => rw [ofExcept_ok, ofExcept_ok, view, view, he]

theorem view_checkAssign_bare (env : Env) (target value : Expr) :
    (checkAssign env target.bare value.bare).view (Prod.map Expr.trim Expr.trim) =
      (checkAssign env target value).view (Prod.map Expr.trim Expr.trim) := by
  unfold checkAssign
  rw [Expr.isVar_bare, Expr.source_bare]
  split
  · refine view_andThen (Expr.view_check_bare env target) fun ty t₁ t₂ ht => ?_
    refine view_wrap (Expr.view_checkThat_bare env value _) fun v₁ v₂ hv => ?_
    rw [Prod.map_apply, Prod.map_apply, ht, hv]
  · rfl

theorem view_checkInit_bare (env : Env) (ty : Ty) : ∀ init : Option Expr,
    (checkInit env ty (init.map Expr.bare)).view (Option.map Expr.trim) =
      (checkInit env ty init).view (Option.map Expr.trim)
  | none => rfl
  | some e => by
    refine view_wrap (Expr.view_checkThat_bare env e _) fun e₁ e₂ he => ?_
    rw [Option.map_some, Option.map_some, he]

theorem view_checkReturn_bare (env : Env) (ty : Ty) : ∀ value : Option Expr,
    (checkReturn env ty (value.map Expr.bare)).view (Option.map Expr.trim) =
      (checkReturn env ty value).view (Option.map Expr.trim)
  | none => rfl
  | some e => by
    rw [Option.map_some, checkReturn, checkReturn, Expr.source_bare]
    split
    · rfl
    · refine view_wrap (Expr.view_checkThat_bare env e _) fun e₁ e₂ he => ?_
      rw [Option.map_some, Option.map_some, he]

theorem Stmt.view_checkBlock_bare {body : List Stmt} (env : Env)
    (h : ∀ env, (Stmt.checkList (Stmt.bareList body) env).view (Prod.map Stmt.trimList id) =
      (Stmt.checkList body env).view (Prod.map Stmt.trimList id)) :
    (Stmt.checkBlock (Stmt.bareList body) env).view (Prod.map Stmt.trimList id) =
      (Stmt.checkBlock body env).view (Prod.map Stmt.trimList id) := by
  unfold Stmt.checkBlock checkInScope
  refine view_step _ fun _ env => ?_
  refine view_part (h env) fun _ b₁ b₂ env hb => ?_
  refine view_wrap_step _ fun env => ?_
  rw [Prod.map_apply, Prod.map_apply, hb]

mutual

theorem Stmt.view_check_bare : ∀ (s : Stmt) (env : Env),
    (s.bare.check env).view (Prod.map Stmt.trim id) = (s.check env).view (Prod.map Stmt.trim id)
  | .block sp body, env => by
    rw [Stmt.bare, Stmt.check, Stmt.check]
    have hbody := Stmt.view_checkBlock_bare env (Stmt.view_checkList_bare body)
    refine view_locate sp (view_wrap_part hbody fun b₁ b₂ env hb => ?_)
    rw [Prod.map_apply, Prod.map_apply, Stmt.trim, Stmt.trim, hb]
  | .ifThen sp c t, env => by
    rw [Stmt.bare, Stmt.check, Stmt.check]
    refine view_locate sp (view_andThen (Expr.view_checkThat_bare env c _) fun _ c₁ c₂ hc => ?_)
    have ht := Stmt.view_checkBlock_bare env (Stmt.view_checkList_bare t)
    refine view_wrap_part ht fun t₁ t₂ env ht => ?_
    rw [Prod.map_apply, Prod.map_apply, Stmt.trim, Stmt.trim, hc, ht]
  | .ifElse sp c t f, env => by
    rw [Stmt.bare, Stmt.check, Stmt.check]
    refine view_locate sp (view_andThen (Expr.view_checkThat_bare env c _) fun _ c₁ c₂ hc => ?_)
    have ht := Stmt.view_checkBlock_bare env (Stmt.view_checkList_bare t)
    refine view_part ht fun _ t₁ t₂ env ht => ?_
    have hf := Stmt.view_checkBlock_bare env (Stmt.view_checkList_bare f)
    refine view_wrap_part hf fun f₁ f₂ env hf => ?_
    rw [Prod.map_apply, Prod.map_apply, Stmt.trim, Stmt.trim, hc, ht, hf]
  | .loop sp c body, env => by
    rw [Stmt.bare, Stmt.check, Stmt.check]
    refine view_locate sp (view_andThen (Expr.view_checkThat_bare env c _) fun _ c₁ c₂ hc => ?_)
    have hbody := Stmt.view_checkBlock_bare env (Stmt.view_checkList_bare body)
    refine view_wrap_part hbody fun b₁ b₂ env hb => ?_
    rw [Prod.map_apply, Prod.map_apply, Stmt.trim, Stmt.trim, hc, hb]
  | .assign sp target value, env => by
    rw [Stmt.bare, Stmt.check, Stmt.check]
    refine view_locate sp (view_wrap (view_checkAssign_bare env target value) fun s₁ s₂ hs => ?_)
    obtain ⟨ht, hv⟩ := Prod.mk.inj hs
    rw [Prod.map_apply, Prod.map_apply, Stmt.trim, Stmt.trim, ht, hv]
  | .declare sp ty x init, env => by
    rw [Stmt.bare, Stmt.check, Stmt.check]
    refine view_locate sp (view_ask fun _ => ?_)
    refine view_andThen (view_checkInit_bare env ty init) fun _ i₁ i₂ hi => ?_
    refine view_wrap_step _ fun env => ?_
    rw [Prod.map_apply, Prod.map_apply, Stmt.trim, Stmt.trim, hi]
  | .ret sp value, env => by
    rw [Stmt.bare, Stmt.check, Stmt.check]
    refine view_locate sp (view_ask fun m => ?_)
    refine view_wrap (view_checkReturn_bare env m.signature.ret value) fun v₁ v₂ hv => ?_
    rw [Prod.map_apply, Prod.map_apply, Stmt.trim, Stmt.trim, hv]
  | .print sp value, env => by
    rw [Stmt.bare, Stmt.check, Stmt.check]
    refine view_locate sp (view_wrap (Expr.view_checkThat_bare env value _) fun v₁ v₂ hv => ?_)
    rw [Prod.map_apply, Prod.map_apply, Stmt.trim, Stmt.trim, hv]
  | .eval sp value, env => by
    rw [Stmt.bare, Stmt.check, Stmt.check]
    refine view_locate sp (view_andThen (Expr.view_check_bare env value) fun _ v₁ v₂ hv => ?_)
    rw [view, view, Prod.map_apply, Prod.map_apply, Stmt.trim, Stmt.trim, hv]

theorem Stmt.view_checkList_bare : ∀ (ss : List Stmt) (env : Env),
    (Stmt.checkList (Stmt.bareList ss) env).view (Prod.map Stmt.trimList id) =
      (Stmt.checkList ss env).view (Prod.map Stmt.trimList id)
  | [], _ => rfl
  | s :: ss, env => by
    rw [Stmt.bareList, Stmt.checkList, Stmt.checkList]
    refine view_part (Stmt.view_check_bare s env) fun _ s₁ s₂ env hs => ?_
    refine view_wrap_part (Stmt.view_checkList_bare ss env) fun ss₁ ss₂ env hss => ?_
    rw [Prod.map_apply, Prod.map_apply, Stmt.trimList, Stmt.trimList, hs, hss]

end

/-! ### Members

Between the passes over a class its signatures are filled, and its statements as they were. -/

/-- A method or constructor with bare statements, but with its signature. -/
def Routine.bareBody (r : Routine) : Routine := { r with body := Stmt.bareList r.body }

def Member.bareBody : Member → Member
  | .field s ty x => .field s ty x
  | .method ret f r => .method ret f r.bareBody
  | .constructor r => .constructor r.bareBody

theorem Routine.view_declare_bare (r : Routine) (cls : String) (s : Signature) (mayReplace : Bool)
    (env : Env) :
    (r.bare.declare cls s mayReplace env).view (Prod.map Routine.bareBody id) =
      (r.declare cls s mayReplace env).view (Prod.map Routine.bareBody id) := by
  unfold Routine.declare
  refine view_step _ fun isNew env => ?_
  split
  · simp only [view, Prod.map_apply, Routine.bareBody, Routine.bare, Stmt.bareList_bareList]
  · rfl

/-- Routines that differ only in their statements have the same parameters. -/
theorem Routine.params_eq_of_bareBody {r r' : Routine} (h : r.bareBody = r'.bareBody) :
    r.params = r'.params :=
  (Routine.mk.inj h).2.1

theorem Member.view_declare_bare (cls : String) (replaced : Bool) (env : Env) (m : Member) :
    (m.bare.declare cls replaced env).view (Prod.map Member.bareBody id) =
      (m.declare cls replaced env).view (Prod.map Member.bareBody id) := by
  cases m with
  | field sp ty x => rfl
  | method ret f r =>
    rw [Member.bare, Member.declare, Member.declare]
    refine view_locate r.span (view_ask fun _ => view_ask fun _ => ?_)
    refine view_part (Routine.view_declare_bare r cls _ _ env) fun _ r₁ r₂ env hr => ?_
    rw [view, view, Prod.map_apply, Prod.map_apply, Member.bareBody, Member.bareBody, hr]
  | constructor r =>
    rw [Member.bare, Member.declare, Member.declare]
    refine view_locate r.span (view_ask fun _ => ?_)
    refine view_part (Routine.view_declare_bare r cls _ _ env) fun _ r₁ r₂ env hr => ?_
    rw [view, view, Prod.map_apply, Prod.map_apply, Member.bareBody, Member.bareBody, hr,
      Routine.params_eq_of_bareBody hr]

theorem Member.view_declareList_bare (cls : String) : ∀ (ms : List Member) (replaced : Bool)
    (env : Env),
    (Member.declareList cls replaced (ms.map Member.bare) env).view
        (Prod.map (List.map Member.bareBody) id) =
      (Member.declareList cls replaced ms env).view (Prod.map (List.map Member.bareBody) id)
  | [], _, _ => rfl
  | m :: ms, replaced, env => by
    rw [List.map_cons, Member.declareList, Member.declareList]
    refine view_part (Member.view_declare_bare cls replaced env m) fun replaced m₁ m₂ env hm => ?_
    refine view_wrap_part (Member.view_declareList_bare cls ms replaced env)
      fun ms₁ ms₂ env hms => ?_
    rw [Prod.map_apply, Prod.map_apply, List.map_cons, List.map_cons, hm, hms]

theorem Routine.view_checkBody_bareBody (r : Routine) (s : Signature) (env : Env) :
    (r.bareBody.checkBody s env).view (Prod.map Routine.trim id) =
      (r.checkBody s env).view (Prod.map Routine.trim id) := by
  unfold Routine.checkBody
  refine view_step _ fun _ env => view_step _ fun _ env => ?_
  refine view_part (view_locate r.span (Stmt.view_checkList_bare r.body env))
    fun _ b₁ b₂ env hb => ?_
  refine view_wrap_step _ fun env => ?_
  rw [Prod.map_apply, Prod.map_apply, Routine.trim, Routine.trim, hb]
  rfl

/-- The slot that holds the signature is kept, and so what is read from it. -/
theorem Routine.view_check_bareBody (r : Routine) (name : String) (env : Env) :
    (r.bareBody.check name env).view (Prod.map Routine.trim id) =
      (r.check name env).view (Prod.map Routine.trim id) :=
  view_ask fun s => r.view_checkBody_bareBody s env

theorem Member.view_checkBody_bareBody (m : Member) (env : Env) :
    (m.bareBody.checkBody env).view (Prod.map Member.trim id) =
      (m.checkBody env).view (Prod.map Member.trim id) := by
  cases m with
  | field sp ty x => rfl
  | method ret f r =>
    refine view_wrap_part (r.view_check_bareBody f env) fun r₁ r₂ env hr => ?_
    rw [Prod.map_apply, Prod.map_apply, Member.trim, Member.trim, hr]
  | constructor r =>
    refine view_wrap_part (r.view_check_bareBody constructorName env) fun r₁ r₂ env hr => ?_
    rw [Prod.map_apply, Prod.map_apply, Member.trim, Member.trim, hr]

/-! ### Classes -/

/-- What each check does not read of its tree, the check of a list does not read. -/
theorem view_checkEach {τ τ' : Type} {check : τ → Env → Checked τ} {strip : τ → τ} {f : τ → τ'}
    (h : ∀ x env, (check (strip x) env).view (Prod.map f id) = (check x env).view (Prod.map f id)) :
    ∀ (xs : List τ) (env : Env),
      (checkEach check (xs.map strip) env).view (Prod.map (List.map f) id) =
        (checkEach check xs env).view (Prod.map (List.map f) id)
  | [], _ => rfl
  | x :: xs, env => by
    rw [List.map_cons, checkEach, checkEach]
    refine view_part (h x env) fun _ x₁ x₂ env hx => ?_
    refine view_wrap_part (view_checkEach h xs env) fun xs₁ xs₂ env hxs => ?_
    rw [Prod.map_apply, Prod.map_apply, List.map_cons, List.map_cons, hx, hxs]

theorem ClassDecl.view_check_bare (c : ClassDecl) (env : Env) :
    (c.bare.check env).view (Prod.map ClassDecl.trim id) =
      (c.check env).view (Prod.map ClassDecl.trim id) := by
  unfold ClassDecl.check
  refine view_step _ fun _ env => view_step _ fun _ env => ?_
  refine view_part (Member.view_declareList_bare c.name c.members false env)
    fun _ ms₁ ms₂ env hms => ?_
  -- the first pass has filled the slots for signatures, so that the members it leaves differ in
  -- their statements only
  have hbodies : (checkEach Member.checkBody ms₁ env).view (Prod.map (List.map Member.trim) id) =
      (checkEach Member.checkBody ms₂ env).view (Prod.map (List.map Member.trim) id) := by
    rw [← view_checkEach Member.view_checkBody_bareBody ms₁, hms,
      view_checkEach Member.view_checkBody_bareBody ms₂]
  refine view_part hbodies fun _ ms₁ ms₂ env hms => ?_
  refine view_wrap_step _ fun env => ?_
  rw [Prod.map_apply, Prod.map_apply, ClassDecl.trim, ClassDecl.trim, hms]
  rfl

theorem Program.view_check_bare (p : Program) (env : Env) :
    (p.bare.check env).view (Prod.map Program.trim id) =
      (p.check env).view (Prod.map Program.trim id) := by
  refine view_wrap_part (view_checkEach ClassDecl.view_check_bare p.classes env)
    fun cs₁ cs₂ env hcs => ?_
  rw [Prod.map_apply, Prod.map_apply, Program.trim, Program.trim, hcs]

/-- **An analysis does not read what slots held before it.** -/
theorem Program.view_analyze_bare (p : Program) :
    p.bare.analyze.view Program.trim = p.analyze.view Program.trim := by
  unfold Program.analyze
  refine view_part (Program.view_check_bare p .empty) fun _ p₁ p₂ env hp => ?_
  rw [view, view, hp]

theorem Program.view_analyze_eq {p q : Program} (h : p.bare = q.bare) :
    p.analyze.view Program.trim = q.analyze.view Program.trim := by
  rw [← view_analyze_bare, h, view_analyze_bare]

end ClassLang
