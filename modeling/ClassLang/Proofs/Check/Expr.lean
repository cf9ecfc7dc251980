import ClassLang.Proofs.Check.Lookup
import ClassLang.Proofs.OperatorRule

/-!
# The checker types expressions as the rules do

At a point where `Γ` is known, `Expr.check` succeeds with the one type the rules give the
expression and leaves the expression annotated; if the rules give none, it fails with a fault
(`Env.At.settles_expr`). The proof goes along the expression: each node of a check asks its
questions in the order in which its rule is read below (`hasType_binary_iff` and its like).
-/

namespace ClassLang

variable {env : Env} {Γ : Context} {m : Mark} {τ : Ty}

/-! ### The rules, read from the node to its parts -/

theorem hasType_number_iff {n : Int64} : HasType .plain Γ (.number m n) τ ↔ τ = .int :=
  ⟨fun h => by cases h; rfl, fun h => h ▸ .number trivial⟩

theorem hasType_bool_iff {b : Bool} : HasType .plain Γ (.bool m b) τ ↔ τ = .bool :=
  ⟨fun h => by cases h; rfl, fun h => h ▸ .bool trivial⟩

theorem hasType_this_iff : HasType .plain Γ (.this m) τ ↔ Γ.Declares receiverName τ :=
  ⟨fun h => by cases h; assumption, fun h => .this h trivial⟩

theorem hasType_var_iff {x : String} {b ob : Slot VarBinding} :
    HasType .plain Γ (.var m none x b ob) τ ↔ ∃ vb, Γ.Var x τ vb :=
  ⟨fun h => by cases h with | var h => exact ⟨_, h⟩, fun ⟨_, h⟩ => .var h trivial trivial⟩

theorem hasType_field_iff {o x : String} {b ob : Slot VarBinding} :
    HasType .plain Γ (.var m (some o) x b ob) τ ↔
      ∃ cls vb c, Γ.Object (some o) cls vb ∧ FieldOf Γ.classes cls x c τ :=
  ⟨fun h => by cases h with | field ho h => exact ⟨_, _, _, ho, h⟩,
    fun ⟨_, _, _, ho, h⟩ => .field ho h trivial trivial trivial⟩

theorem hasType_binary_iff {op : BinOp} {l r : Expr} : HasType .plain Γ (.binary m op l r) τ ↔
    ∃ τ₁, HasType .plain Γ l τ₁ ∧ ∃ τ₂, HasType .plain Γ r τ₂ ∧ op.Takes τ₁ τ₂ τ :=
  ⟨fun h => by cases h with | binary hl hr h => exact ⟨_, hl, _, hr, h⟩,
    fun ⟨_, hl, _, hr, h⟩ => .binary hl hr h trivial⟩

theorem hasType_unary_iff {op : UnOp} {x : Expr} : HasType .plain Γ (.unary m op x) τ ↔
    ∃ τ₁, HasType .plain Γ x τ₁ ∧ op.Takes τ₁ τ :=
  ⟨fun h => by cases h with | unary hx h => exact ⟨_, hx, h⟩,
    fun ⟨_, hx, h⟩ => .unary hx h trivial⟩

theorem hasType_call_iff {o : Option String} {f : String} {args : List Expr}
    {b : Slot MethodBinding} {ob : Slot VarBinding} :
    HasType .plain Γ (.call m o f args b ob) τ ↔
      ∃ a : String × VarBinding, Γ.Object o a.1 a.2 ∧ ∃ τs, HasTypes .plain Γ args τs ∧
        ∃ target, Calls Γ.classes a.1 f τs target ∧ τ = target.method.ret :=
  ⟨fun h => by cases h with | call ho hargs h => exact ⟨(_, _), ho, _, hargs, _, h, rfl⟩,
    fun ⟨_, ho, _, hargs, _, h, hτ⟩ => hτ ▸ .call ho hargs h trivial trivial fun _ => trivial⟩

theorem hasType_create_iff {cls : String} {args : List Expr} {b : Slot MethodBinding} :
    HasType .plain Γ (.create m cls args b) τ ↔
      ∃ name, (name = cls ∧ cls ∉ builtinNames ∧ cls ∈ Γ.names) ∧
        ∃ τs, HasTypes .plain Γ args τs ∧ ∃ target, Creates Γ.classes name τs target ∧
          τ = .cls name := by
  constructor
  · intro h
    cases h with
    | create hcls hargs h =>
      have hmem : cls ∈ Γ.names := by
        obtain ⟨c, hc, rfl, -⟩ := h
        exact List.mem_map.mpr ⟨c, hc, rfl⟩
      exact ⟨cls, ⟨rfl, hcls, hmem⟩, _, hargs, _, h, rfl⟩
  · rintro ⟨_, ⟨rfl, hcls, -⟩, _, hargs, _, h, rfl⟩
    exact .create hcls hargs h trivial trivial

theorem hasTypes_nil_iff {τs : List Ty} : HasTypes .plain Γ [] τs ↔ τs = [] :=
  ⟨fun h => by cases h; rfl, fun h => h ▸ .nil⟩

theorem hasTypes_cons_iff {e : Expr} {es : List Expr} {τs : List Ty} :
    HasTypes .plain Γ (e :: es) τs ↔
      ∃ τ, HasType .plain Γ e τ ∧ ∃ rest, HasTypes .plain Γ es rest ∧ τs = τ :: rest :=
  ⟨fun h => by cases h with | cons he hes => exact ⟨_, he, _, hes, rfl⟩,
    fun ⟨_, he, _, hes, h⟩ => h ▸ .cons he hes⟩

/-! ### Variables -/

namespace Env.At

theorem answers_useVar (h : env.At Γ) {x : String} :
    Answers (env.useVar none x) fun a => Γ.Var x a.1 a.2.1 ∧ a.2.2 = none := by
  unfold Env.useVar
  refine (h.answers_lookupVar x).andThen (K := fun p a => a = (p.1, p.2, none))
    (fun e he => by simp only [he]) (fun p hp _ => ?_) fun a => ⟨?_, ?_⟩
  · simp only [hp]
    exact Answers.ok fun _ => Iff.rfl
  · rintro ⟨hv, hnone⟩
    exact ⟨(a.1, a.2.1), hv, Prod.ext rfl (Prod.ext rfl hnone)⟩
  · rintro ⟨p, hv, rfl⟩
    exact ⟨hv, rfl⟩

theorem answers_useField (h : env.At Γ) {o x : String} :
    Answers (env.useVar (some o) x) fun a => ∃ cls vb c, Γ.Object (some o) cls vb ∧
      FieldOf Γ.classes cls x c a.1 ∧ a.2 = (.member c.name, some vb) := by
  unfold Env.useVar
  refine (h.answers_objectClass (some o)).andThen
    (K := fun p a => ∃ c, FieldOf Γ.classes p.1 x c a.1 ∧ a.2 = (.member c.name, some p.2))
    (fun e he => by simp only [he]) (fun p hp _ => ?_) fun a => ⟨?_, ?_⟩
  · obtain ⟨cls, vb⟩ := p
    simp only [hp]
    have hf : Answers (env.table.fieldTy cls x) fun a =>
        ∃ c, FieldOf Γ.classes cls x c a.1 ∧ c.name = a.2 :=
      ClassTable.answers_fieldTy h.table h.hierarchy
    refine hf.andThen (K := fun f a => a = (f.1, .member f.2, some vb))
      (fun e he => by simp only [he]) (fun f hf _ => ?_) fun a => ⟨?_, ?_⟩
    · simp only [hf]
      exact Answers.ok fun _ => Iff.rfl
    · rintro ⟨c, hfield, ha⟩
      exact ⟨(a.1, c.name), ⟨c, hfield, rfl⟩, Prod.ext rfl ha⟩
    · rintro ⟨f, ⟨c, hfield, hc⟩, rfl⟩
      exact ⟨c, hfield, by rw [hc]⟩
  · rintro ⟨cls, vb, c, ho, hfield, ha⟩
    exact ⟨(cls, vb), ho, c, hfield, ha⟩
  · rintro ⟨p, ho, c, hfield, ha⟩
    exact ⟨p.1, p.2, c, ho, hfield, ha⟩

/-! ### Expressions -/

open Outcome

mutual

/-- **The checker and the rules agree on every expression.** -/
theorem settles_expr (h : env.At Γ) : ∀ e : Expr,
    (e.check env).Settles (HasType .plain Γ e) fun τ e' => HasType .annotated Γ e' τ
  | .number m n => Settles.ok (fun _ => hasType_number_iff) (.number rfl)
  | .bool m b => Settles.ok (fun _ => hasType_bool_iff) (.bool rfl)
  | .this m => by
    rw [Expr.check]
    refine Settles.locate ?_
    refine Settles.ask h.answers_receiver (K := fun τ σ => σ = τ) (fun τ hτ => ?_) fun σ => ?_
    · exact Settles.ok (fun _ => Iff.rfl) (.this hτ rfl)
    · rw [hasType_this_iff]
      exact ⟨fun hd => ⟨σ, hd, rfl⟩, fun ⟨_, hd, he⟩ => he ▸ hd⟩
  | .var m none x b ob => by
    rw [Expr.check]
    refine Settles.locate ?_
    refine Settles.ask h.answers_useVar (K := fun a σ => σ = a.1) (fun a ha => ?_) fun σ => ?_
    · exact Settles.ok (fun _ => Iff.rfl) (.var ha.1 rfl rfl)
    · rw [hasType_var_iff]
      constructor
      · rintro ⟨vb, hv⟩
        exact ⟨(σ, vb, none), ⟨hv, rfl⟩, rfl⟩
      · rintro ⟨a, ⟨hv, -⟩, rfl⟩
        exact ⟨_, hv⟩
  | .var m (some o) x b ob => by
    rw [Expr.check]
    refine Settles.locate ?_
    refine Settles.ask h.answers_useField (K := fun a σ => σ = a.1) (fun a ha => ?_) fun σ => ?_
    · obtain ⟨cls, vb, c, ho, hf, ha⟩ := ha
      obtain ⟨τ, _, _⟩ := a
      cases ha
      exact Settles.ok (fun _ => Iff.rfl) (.field ho hf rfl rfl rfl)
    · rw [hasType_field_iff]
      constructor
      · rintro ⟨cls, vb, c, ho, hf⟩
        exact ⟨(σ, .member c.name, some vb), ⟨cls, vb, c, ho, hf, rfl⟩, rfl⟩
      · rintro ⟨a, ⟨cls, vb, c, ho, hf, -⟩, rfl⟩
        exact ⟨cls, vb, c, ho, hf⟩
  | .binary m op l r => by
    rw [Expr.check]
    refine Settles.locate ?_
    refine (settles_expr h l).andThen (fun τ₁ l' _ hl => ?_) fun σ => hasType_binary_iff
    refine (settles_expr h r).andThen (fun τ₂ r' _ hr => ?_) fun σ => Iff.rfl
    refine Settles.ask answers_binary (K := fun τ σ => σ = τ) (fun τ hτ => ?_) fun σ => ?_
    · exact Settles.ok (fun _ => Iff.rfl) (.binary hl hr hτ rfl)
    · exact ⟨fun ht => ⟨σ, ht, rfl⟩, fun ⟨_, ht, he⟩ => he ▸ ht⟩
  | .unary m op x => by
    rw [Expr.check]
    refine Settles.locate ?_
    refine (settles_expr h x).andThen (fun τ₁ x' _ hx => ?_) fun σ => hasType_unary_iff
    refine Settles.ask answers_unary (K := fun τ σ => σ = τ) (fun τ hτ => ?_) fun σ => ?_
    · exact Settles.ok (fun _ => Iff.rfl) (.unary hx hτ rfl)
    · exact ⟨fun ht => ⟨σ, ht, rfl⟩, fun ⟨_, ht, he⟩ => he ▸ ht⟩
  | .call m o f args b ob => by
    rw [Expr.check]
    refine Settles.locate ?_
    refine Settles.ask (h.answers_objectClass o) (fun a ho => ?_) fun σ => hasType_call_iff
    obtain ⟨cls, vb⟩ := a
    refine (settles_exprs h args).andThen (fun τs args' _ hargs => ?_) fun σ => Iff.rfl
    have hcall : Answers (env.table.bindCall cls f τs) (Calls Γ.classes cls f τs) :=
      ClassTable.answers_bindCall h.table h.hierarchy (h.object_known ho)
    refine Settles.ask hcall (fun target ht => ?_) fun σ => Iff.rfl
    refine Settles.ok (fun _ => Iff.rfl) (.call ho hargs ht rfl rfl fun hsome => ?_)
    obtain ⟨x, rfl⟩ := Option.isSome_iff_exists.mp hsome
    rfl
  | .create m cls args b => by
    rw [Expr.check]
    refine Settles.locate ?_
    refine Settles.ask (ClassTable.answers_requireInstantiable h.table) (fun name hn => ?_)
      fun σ => hasType_create_iff
    obtain ⟨rfl, hcls, hmem⟩ := hn
    refine (settles_exprs h args).andThen (fun τs args' _ hargs => ?_) fun σ => Iff.rfl
    have hcons : Answers (env.table.bindConstructor name τs) (Creates Γ.classes name τs) :=
      ClassTable.answers_bindConstructor h.table h.hierarchy hmem
    refine Settles.ask hcons (fun target ht => ?_) fun σ => Iff.rfl
    exact Settles.ok (fun _ => Iff.rfl) (.create hcls hargs ht rfl rfl)

theorem settles_exprs (h : env.At Γ) : ∀ es : List Expr,
    (Expr.checkList env es).Settles (HasTypes .plain Γ es) fun τs es' =>
      HasTypes .annotated Γ es' τs
  | [] => Settles.ok (fun _ => hasTypes_nil_iff) .nil
  | e :: es => by
    rw [Expr.checkList]
    refine (settles_expr h e).andThen (fun τ e' _ he => ?_) fun τs => hasTypes_cons_iff
    refine (settles_exprs h es).andThen (fun rest es' _ hes => ?_) fun τs => Iff.rfl
    exact Settles.ok (fun _ => Iff.rfl) (.cons he hes)

end

end Env.At

end ClassLang
