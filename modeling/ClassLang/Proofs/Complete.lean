import ClassLang.Proofs.Check.Points
import ClassLang.Proofs.Check.Stale
import ClassLang.Proofs.Compile

/-!
# A check fills slots, and all of them if it succeeds

Whatever the program, the environment and the outcome, a check leaves the tree as it was but for the
slots it fills. If it succeeds, it has come to every node, and so no slot is left that it would fill:
every method and constructor has its signature, every expression its type, and every name what it is
bound to (`Program.check_fills_slots`). A success is read backwards: each part was checked with
success before the node was rebuilt around it.
-/

namespace ClassLang

open Outcome

variable {env env' : Env}

/-! ### Trees without empty slots -/

/-- The slot for the binding of an object is filled, where there is an object. -/
def Slot.filledFor {α : Type} (s : Slot α) (object : Option String) : Bool :=
  object.isNone || s.isFilled

mutual

/-- Every slot of the expression is filled, but for that of an object it does not have. -/
def Expr.complete : Expr → Bool
  | .number m _ => m.ty.isFilled
  | .bool m _ => m.ty.isFilled
  | .this m => m.ty.isFilled
  | .var m o _ b ob => m.ty.isFilled && b.isFilled && ob.filledFor o
  | .binary m _ l r => m.ty.isFilled && l.complete && r.complete
  | .unary m _ x => m.ty.isFilled && x.complete
  | .call m o _ args b ob =>
    m.ty.isFilled && Expr.completeList args && b.isFilled && ob.filledFor o
  | .create m _ args b => m.ty.isFilled && Expr.completeList args && b.isFilled

def Expr.completeList : List Expr → Bool
  | [] => true
  | e :: rest => e.complete && Expr.completeList rest

end

mutual

def Stmt.complete : Stmt → Bool
  | .block _ body => Stmt.completeList body
  | .ifThen _ c t => c.complete && Stmt.completeList t
  | .ifElse _ c t f => c.complete && Stmt.completeList t && Stmt.completeList f
  | .loop _ c body => c.complete && Stmt.completeList body
  | .assign _ target value => target.complete && value.complete
  | .declare _ _ _ init => init.all Expr.complete
  | .ret _ value => value.all Expr.complete
  | .print _ value => value.complete
  | .eval _ value => value.complete

def Stmt.completeList : List Stmt → Bool
  | [] => true
  | s :: rest => s.complete && Stmt.completeList rest

end

def Routine.complete (r : Routine) : Bool := r.signature.isFilled && Stmt.completeList r.body

def Member.complete : Member → Bool
  | .field .. => true
  | .method _ _ r => r.complete
  | .constructor r => r.complete

def ClassDecl.complete (c : ClassDecl) : Bool := c.members.all Member.complete

/-- Every signature, type and binding of the program is filled in, and the binding of every object
that is named. -/
def Program.complete (p : Program) : Bool := p.classes.all ClassDecl.complete

/-! ### Expressions -/

@[simp] theorem Slot.isFilled_filled {α : Type} (a : α) : (Slot.filled a).isFilled = true := rfl

/-- The slot of an object is filled if there is one. -/
theorem Slot.filledFor_refill {α : Type} (s : Slot α) (object : Option String) (a : α) :
    (s.refill (object.map fun _ => a)).filledFor object = true := by
  cases object <;> rfl

mutual

theorem Expr.complete_of_check : ∀ {e e' : Expr} {ty : Ty}, e.check env = .ok ty e' →
    e'.complete = true
  | .number .., _, _, h => by
    cases h
    rfl
  | .bool .., _, _, h => by
    cases h
    rfl
  | .this m, _, _, h => by
    rw [Expr.check] at h
    obtain ⟨ty, -, h⟩ := of_ask (of_locate h)
    cases h
    rfl
  | .var m o x b ob, _, _, h => by
    rw [Expr.check] at h
    obtain ⟨⟨ty, binding, found⟩, huse, h⟩ := of_ask (of_locate h)
    obtain ⟨a, rfl⟩ := Env.useVar_object huse
    cases h
    simp [Expr.complete, Slot.filledFor_refill]
  | .binary m op l r, _, _, h => by
    rw [Expr.check] at h
    obtain ⟨lty, l', hl, h⟩ := exists_of_andThen (of_locate h)
    obtain ⟨rty, r', hr, h⟩ := exists_of_andThen h
    obtain ⟨ty, -, h⟩ := of_ask h
    cases h
    simp [Expr.complete, Expr.complete_of_check hl, Expr.complete_of_check hr]
  | .unary m op x, _, _, h => by
    rw [Expr.check] at h
    obtain ⟨xty, x', hx, h⟩ := exists_of_andThen (of_locate h)
    obtain ⟨ty, -, h⟩ := of_ask h
    cases h
    simp [Expr.complete, Expr.complete_of_check hx]
  | .call m o f args b ob, _, _, h => by
    rw [Expr.check] at h
    obtain ⟨found, -, h⟩ := of_ask (of_locate h)
    obtain ⟨tys, args', hargs, h⟩ := exists_of_andThen h
    obtain ⟨target, -, h⟩ := of_ask h
    cases h
    simp [Expr.complete, Expr.completeList_of_checkList hargs, Slot.filledFor_refill]
  | .create m cls args b, _, _, h => by
    rw [Expr.check] at h
    obtain ⟨name, -, h⟩ := of_ask (of_locate h)
    obtain ⟨tys, args', hargs, h⟩ := exists_of_andThen h
    obtain ⟨target, -, h⟩ := of_ask h
    cases h
    simp [Expr.complete, Expr.completeList_of_checkList hargs]

theorem Expr.completeList_of_checkList : ∀ {es es' : List Expr} {tys : List Ty},
    Expr.checkList env es = .ok tys es' → Expr.completeList es' = true
  | [], _, _, h => by
    cases h
    rfl
  | e :: es, _, _, h => by
    rw [Expr.checkList] at h
    obtain ⟨ty, e', he, h⟩ := exists_of_andThen h
    obtain ⟨tys, es', hes, h⟩ := exists_of_andThen h
    cases h
    rw [Expr.completeList, Expr.complete_of_check he, Expr.completeList_of_checkList hes,
      Bool.and_self]

end

/-! ### Statements -/

theorem Expr.complete_of_checkThat {e e' : Expr} {require : Ty → Except Failure Unit} {u : Unit}
    (h : e.checkThat env require = .ok u e') : e'.complete = true := by
  obtain ⟨ty, e₁, he, h⟩ := exists_of_andThen h
  -- what is required of the type does not touch the tree
  obtain rfl : e₁ = e' := by
    have hstate := congrArg Outcome.state h
    rwa [state_locate, state_ofExcept] at hstate
  exact Expr.complete_of_check he

theorem complete_of_checkAssign {target value : Expr} {r : Expr × Expr} {u : Unit}
    (h : checkAssign env target value = .ok u r) : (r.1.complete && r.2.complete) = true := by
  unfold checkAssign at h
  split at h
  · obtain ⟨expected, target', htarget, h⟩ := exists_of_andThen h
    obtain ⟨value', hvalue, rfl⟩ := exists_of_wrap h
    rw [Expr.complete_of_check htarget, Expr.complete_of_checkThat hvalue, Bool.and_self]
  · cases h

theorem complete_of_checkInit {ty : Ty} {init init' : Option Expr} {u : Unit}
    (h : checkInit env ty init = .ok u init') : init'.all Expr.complete = true := by
  cases init with
  | none =>
    cases h
    rfl
  | some e =>
    obtain ⟨e', he, rfl⟩ := exists_of_wrap h
    exact Expr.complete_of_checkThat he

theorem complete_of_checkReturn {ty : Ty} {value value' : Option Expr} {u : Unit}
    (h : checkReturn env ty value = .ok u value') : value'.all Expr.complete = true := by
  cases value with
  | none =>
    rw [checkReturn] at h
    split at h
    · cases h
      rfl
    · cases h
  | some e =>
    rw [checkReturn] at h
    split at h
    · cases h
    · obtain ⟨e', he, rfl⟩ := exists_of_wrap h
      exact Expr.complete_of_checkThat he

theorem complete_of_checkInScope {body : List Stmt} {run : Env → Checked (List Stmt)} {u : Unit}
    {r : List Stmt × Env} (hrun : ∀ env u r, run env = .ok u r → Stmt.completeList r.1 = true)
    (h : checkInScope body env run = .ok u r) : Stmt.completeList r.1 = true := by
  obtain ⟨_, env₁, -, h⟩ := exists_of_andThen h
  obtain ⟨_, r₁, hbody, h⟩ := exists_of_andThen h
  obtain ⟨env₂, -, rfl⟩ := exists_of_wrap h
  exact hrun env₁ _ r₁ hbody

mutual

theorem Stmt.complete_of_check : ∀ (s : Stmt) {env : Env} {u : Unit} {r : Stmt × Env},
    s.check env = .ok u r → r.1.complete = true
  | .block sp body, _, _, _, h => by
    rw [Stmt.check] at h
    obtain ⟨b, hbody, rfl⟩ := exists_of_wrap (of_locate h)
    exact complete_of_checkInScope (fun _ _ _ => Stmt.completeList_of_checkList body) hbody
  | .ifThen sp c t, _, _, _, h => by
    rw [Stmt.check] at h
    obtain ⟨_, c', hc, h⟩ := exists_of_andThen (of_locate h)
    obtain ⟨b, ht, rfl⟩ := exists_of_wrap h
    have ht := complete_of_checkInScope (fun _ _ _ => Stmt.completeList_of_checkList t) ht
    rw [Stmt.complete, Expr.complete_of_checkThat hc, ht, Bool.and_self]
  | .ifElse sp c t f, _, _, _, h => by
    rw [Stmt.check] at h
    obtain ⟨_, c', hc, h⟩ := exists_of_andThen (of_locate h)
    obtain ⟨_, b, ht, h⟩ := exists_of_andThen h
    obtain ⟨b', hf, rfl⟩ := exists_of_wrap h
    have ht := complete_of_checkInScope (fun _ _ _ => Stmt.completeList_of_checkList t) ht
    have hf := complete_of_checkInScope (fun _ _ _ => Stmt.completeList_of_checkList f) hf
    rw [Stmt.complete, Expr.complete_of_checkThat hc, ht, hf, Bool.and_self, Bool.and_self]
  | .loop sp c body, _, _, _, h => by
    rw [Stmt.check] at h
    obtain ⟨_, c', hc, h⟩ := exists_of_andThen (of_locate h)
    obtain ⟨b, hbody, rfl⟩ := exists_of_wrap h
    have hbody := complete_of_checkInScope (fun _ _ _ => Stmt.completeList_of_checkList body) hbody
    rw [Stmt.complete, Expr.complete_of_checkThat hc, hbody, Bool.and_self]
  | .assign sp target value, _, _, _, h => by
    rw [Stmt.check] at h
    obtain ⟨r, hr, rfl⟩ := exists_of_wrap (of_locate h)
    exact complete_of_checkAssign hr
  | .declare sp ty x init, _, _, _, h => by
    rw [Stmt.check] at h
    obtain ⟨_, -, h⟩ := of_ask (of_locate h)
    obtain ⟨_, init', hinit, h⟩ := exists_of_andThen h
    obtain ⟨env', -, rfl⟩ := exists_of_wrap h
    exact complete_of_checkInit hinit
  | .ret sp value, _, _, _, h => by
    rw [Stmt.check] at h
    obtain ⟨m, -, h⟩ := of_ask (of_locate h)
    obtain ⟨value', hvalue, rfl⟩ := exists_of_wrap h
    exact complete_of_checkReturn hvalue
  | .print sp value, _, _, _, h => by
    rw [Stmt.check] at h
    obtain ⟨value', hvalue, rfl⟩ := exists_of_wrap (of_locate h)
    exact Expr.complete_of_checkThat hvalue
  | .eval sp value, _, _, _, h => by
    rw [Stmt.check] at h
    obtain ⟨ty, value', hvalue, h⟩ := exists_of_andThen (of_locate h)
    cases h
    exact Expr.complete_of_check hvalue

theorem Stmt.completeList_of_checkList : ∀ (ss : List Stmt) {env : Env} {u : Unit}
    {r : List Stmt × Env}, Stmt.checkList ss env = .ok u r → Stmt.completeList r.1 = true
  | [], _, _, _, h => by
    cases h
    rfl
  | s :: ss, _, _, _, h => by
    rw [Stmt.checkList] at h
    obtain ⟨_, b, hs, h⟩ := exists_of_andThen h
    obtain ⟨b', hss, rfl⟩ := exists_of_wrap h
    rw [Stmt.completeList, Stmt.complete_of_check s hs, Stmt.completeList_of_checkList ss hss,
      Bool.and_self]

end

/-! ### Classes -/

/-- What holds of each tree that is checked holds of all. -/
theorem forall_of_checkEach {τ : Type} {check : τ → Env → Checked τ} {P : τ → Prop}
    (h : ∀ x env u r, check x env = .ok u r → P r.1) : ∀ {xs : List τ} {env : Env} {u : Unit}
    {r : List τ × Env}, checkEach check xs env = .ok u r → ∀ x ∈ r.1, P x
  | [], _, _, _, hr => by
    cases hr
    exact List.forall_mem_nil _
  | x :: xs, env, _, _, hr => by
    rw [checkEach] at hr
    obtain ⟨_, b, hfirst, hr⟩ := exists_of_andThen hr
    obtain ⟨b', hrest, rfl⟩ := exists_of_wrap hr
    exact List.forall_mem_cons.mpr ⟨h x env _ b hfirst, forall_of_checkEach h hrest⟩

theorem Routine.complete_of_checkBody {r : Routine} {s : Signature} {u : Unit} {b : Routine × Env}
    (hsigned : r.signature.isFilled = true) (h : r.checkBody s env = .ok u b) :
    b.1.complete = true := by
  obtain ⟨_, env₁, -, h⟩ := exists_of_andThen h
  obtain ⟨_, env₂, -, h⟩ := exists_of_andThen h
  obtain ⟨_, body, hbody, h⟩ := exists_of_andThen h
  obtain ⟨env₃, -, rfl⟩ := exists_of_wrap h
  rw [Routine.complete, hsigned, Stmt.completeList_of_checkList r.body (of_locate hbody),
    Bool.and_self]

/-- A body is checked only if its signature is there, and completes the rest. -/
theorem Routine.complete_of_check {r : Routine} {name : String} {u : Unit} {b : Routine × Env}
    (h : r.check name env = .ok u b) : b.1.complete = true := by
  obtain ⟨s, hs, h⟩ := of_ask h
  have hsigned : r.signature.isFilled = true := by
    unfold Routine.declaredSignature at hs
    split at hs
    · rename_i hfilled
      rw [hfilled]
      rfl
    · split at hs <;> cases hs
  exact Routine.complete_of_checkBody hsigned h

theorem Member.complete_of_checkBody {m : Member} {u : Unit} {b : Member × Env}
    (h : m.checkBody env = .ok u b) : b.1.complete = true := by
  cases m with
  | field sp ty x =>
    cases h
    rfl
  | method ret f r =>
    obtain ⟨b, hr, rfl⟩ := exists_of_wrap h
    exact Routine.complete_of_check hr
  | constructor r =>
    obtain ⟨b, hr, rfl⟩ := exists_of_wrap h
    exact Routine.complete_of_check hr

theorem ClassDecl.complete_of_check {c : ClassDecl} {u : Unit} {b : ClassDecl × Env}
    (h : c.check env = .ok u b) : b.1.complete = true := by
  obtain ⟨_, env₁, -, h⟩ := exists_of_andThen h
  obtain ⟨_, env₂, -, h⟩ := exists_of_andThen h
  obtain ⟨_, ms, -, h⟩ := exists_of_andThen h
  obtain ⟨_, ms', hbodies, h⟩ := exists_of_andThen h
  obtain ⟨env₃, -, rfl⟩ := exists_of_wrap h
  have hcomplete : ∀ m ∈ ms'.1, m.complete = true :=
    forall_of_checkEach (fun m env _ _ => Member.complete_of_checkBody) hbodies
  rw [ClassDecl.complete, List.all_eq_true]
  exact hcomplete

/-! ### Programs -/

namespace Program

theorem complete_of_check {p : Program} {u : Unit} {b : Program × Env}
    (h : p.check env = .ok u b) : b.1.complete = true := by
  obtain ⟨b, hclasses, rfl⟩ := exists_of_wrap h
  have hcomplete : ∀ c ∈ b.1, c.complete = true :=
    forall_of_checkEach (fun c env _ _ => ClassDecl.complete_of_check) hclasses
  rw [complete, List.all_eq_true]
  exact hcomplete

/-- **A check fills slots, and all of them if it succeeds.** From every environment, and whether it
succeeds or fails, it leaves the tree it was given, places included, with slots filled that a check
may fill. If it succeeds, every signature, every type and every binding is filled in. -/
theorem check_fills_slots (p : Program) (env : Env) :
    (p.check env).state.1.bare = p.bare ∧ (p.check env).state.1.blank = p.blank ∧
      ∀ q env', p.check env = .ok () (q, env') → q.complete = true := by
  have hblank := p.blank_check env
  refine ⟨?_, hblank, fun q env' h => complete_of_check h⟩
  rw [← bare_blank, hblank, bare_blank]

/-- Where a class `Z` has been declared before, `overloading` is checked with success. It had empty
slots, and has none any more. -/
theorem overloading_completed : ∃ q env',
    overloading.check (check ⟨[⟨.unknown, "Z", none, []⟩]⟩ .empty).state.2 = .ok () (q, env') ∧
      overloading.complete = false ∧ q.complete = true ∧ q.bare = overloading.bare := by
  obtain ⟨q, env', h⟩ := Outcome.exists_of_isOk
    (r := overloading.check (check ⟨[⟨.unknown, "Z", none, []⟩]⟩ .empty).state.2)
    (by decide +kernel)
  obtain ⟨hbare, -, hcomplete⟩ := check_fills_slots overloading
    (check ⟨[⟨.unknown, "Z", none, []⟩]⟩ .empty).state.2
  rw [h] at hbare
  exact ⟨q, env', h, by decide +kernel, hcomplete q env' h, hbare⟩

end Program

end ClassLang
