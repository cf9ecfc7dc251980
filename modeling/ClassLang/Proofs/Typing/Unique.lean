import ClassLang.Proofs.Typing.Classes

/-!
# An expression has one type

In classes that stand together the rules give an expression at most one type, and every name in it
at most one meaning (`HasType.unique`): the search up from a class is deterministic, and so is the
choice among overloads. How the slots are read makes no difference to the type, so the type that an
annotated expression holds is the one type that the rules give it when it is read plainly.
-/

namespace ClassLang

variable {Γ Δ : Context} {x cls cls' : String} {o : Option String} {τ σ : Ty} {b b' : VarBinding}
  {ρ ρ' : Reading} {e : Expr} {args : List Ty} {target target' : MethodBinding}

/-! ### Names and operators -/

/-- Two lists of classes have the same fields, as far as both have them. -/
def FieldsMeet (cs ds : List Outline) : Prop := ∀ {cls x : String} {c d : Outline} {τ σ : Ty},
  FieldOf cs cls x c τ → FieldOf ds cls x d σ → c = d ∧ τ = σ

namespace Context

/-- A name means one thing where the same names are in scope and the fields are the same. -/
theorem Var.unique_of_meet (hlocals : Γ.locals = Δ.locals) (hf : FieldsMeet Γ.classes Δ.classes)
    (h : Γ.Var x τ b) (h' : Δ.Var x σ b') : τ = σ ∧ b = b' := by
  have hboth : ∀ {ty : Ty}, x ≠ receiverName → Γ.Declares x ty →
      ¬ (x = receiverName ∨ Γ.locals.lookup x = none) := by
    rintro ty hne hd (rfl | hnone)
    · exact hne rfl
    · rw [Declares, hnone] at hd
      cases hd
  have hdeclares : ∀ {y : String} {ty : Ty}, Δ.Declares y ty → Γ.Declares y ty := fun hd => by
    rw [Declares, hlocals]
    exact hd
  cases h with
  | scope hne hd =>
    cases h' with
    | scope _ hd' => exact ⟨hd.unique (hdeclares hd'), rfl⟩
    | member hnone _ _ => exact absurd (hlocals ▸ hnone) (hboth hne hd)
  | member hnone hthis hfield =>
    cases h' with
    | scope hne hd => exact absurd hnone (hboth hne (hdeclares hd))
    | member _ hthis' hfield' =>
      cases hthis.unique (hdeclares hthis')
      obtain ⟨rfl, rfl⟩ := hf hfield hfield'
      exact ⟨rfl, rfl⟩

theorem Object.unique_of_meet (hlocals : Γ.locals = Δ.locals)
    (hf : FieldsMeet Γ.classes Δ.classes) (h : Γ.Object o cls b) (h' : Δ.Object o cls' b') :
    cls = cls' ∧ b = b' := by
  have hreceiver : ∀ {cls cls' : String}, Γ.Declares receiverName (.cls cls) →
      Δ.Declares receiverName (.cls cls') → cls = cls' := fun hd hd' => by
    rw [Declares, ← hlocals] at hd'
    exact Ty.cls.inj (hd.unique hd')
  cases h with
  | implicit hd =>
    cases h' with
    | implicit hd' => exact ⟨hreceiver hd hd', rfl⟩
  | receiver hd =>
    cases h' with
    | receiver hd' => exact ⟨hreceiver hd hd', rfl⟩
    | named hne _ => exact absurd rfl hne
  | named hne hv =>
    cases h' with
    | receiver _ => exact absurd rfl hne
    | named _ hv' =>
      obtain ⟨hτ, hb⟩ := hv.unique_of_meet hlocals hf hv'
      exact ⟨Ty.cls.inj hτ, hb⟩

theorem Var.unique (hΓ : Hierarchy Γ.classes) (h : Γ.Var x τ b) (h' : Γ.Var x σ b') :
    τ = σ ∧ b = b' :=
  h.unique_of_meet rfl (fun hf hf' => hf.unique hΓ hf') h'

theorem Object.unique (hΓ : Hierarchy Γ.classes) (h : Γ.Object o cls b) (h' : Γ.Object o cls' b') :
    cls = cls' ∧ b = b' :=
  h.unique_of_meet rfl (fun hf hf' => hf.unique hΓ hf') h'

end Context

theorem Calls.unique {cs : List Outline} (hcs : Hierarchy cs) (h : Calls cs cls x args target)
    (h' : Calls cs cls x args target') : target = target' := by
  obtain ⟨owner, hr, ho⟩ := h
  obtain ⟨owner', hr', ho'⟩ := h'
  obtain ⟨rfl, hs⟩ := hr.unique hcs hr'
  obtain ⟨_, _⟩ := target
  obtain ⟨_, _⟩ := target'
  cases ho
  cases ho'
  cases hs
  rfl

theorem BinOp.Takes.unique {op : BinOp} {l r : Ty} (h : op.Takes l r τ) (h' : op.Takes l r σ) :
    τ = σ := by
  -- an operator of arithmetic is none of comparison or logic
  cases h with
  | arithmetic hop =>
    cases h' with
    | arithmetic => rfl
    | ofInt hop' => cases op <;> simp at hop hop'
  | ofInt hop =>
    cases h' with
    | arithmetic hop' => cases op <;> simp at hop hop'
    | ofInt => rfl
  | ofBool => cases h' with | ofBool => rfl

theorem UnOp.Takes.unique {op : UnOp} {x : Ty} (h : op.Takes x τ) (h' : op.Takes x σ) : τ = σ := by
  cases h with
  | neg => cases h' with | neg => rfl
  | not => cases h' with | not => rfl

/-! ### Expressions -/

mutual

/-- **An expression has at most one type.** -/
theorem HasType.unique (hΓ : Hierarchy Γ.classes) : ∀ {e : Expr} {τ σ : Ty},
    HasType ρ Γ e τ → HasType ρ' Γ e σ → τ = σ
  | .number .., _, _, .number _, .number _ => rfl
  | .bool .., _, _, .bool _, .bool _ => rfl
  | .this _, _, _, .this h _, .this h' _ => h.unique h'
  | .var _ none .., _, _, .var h _ _, .var h' _ _ => (h.unique hΓ h').1
  | .var _ (some _) .., _, _, .field ho h _ _ _, .field ho' h' _ _ _ => by
    obtain ⟨rfl, -⟩ := ho.unique hΓ ho'
    exact (h.unique hΓ h').2
  | .binary .., _, _, .binary hl hr h _, .binary hl' hr' h' _ => by
    cases HasType.unique hΓ hl hl'
    cases HasType.unique hΓ hr hr'
    exact h.unique h'
  | .unary .., _, _, .unary hx h _, .unary hx' h' _ => by
    cases HasType.unique hΓ hx hx'
    exact h.unique h'
  | .call .., _, _, .call ho hargs h _ _ _, .call ho' hargs' h' _ _ _ => by
    obtain ⟨rfl, -⟩ := ho.unique hΓ ho'
    cases HasTypes.unique hΓ hargs hargs'
    rw [h.unique hΓ h']
  | .create .., _, _, .create _ _ _ _ _, .create _ _ _ _ _ => rfl

theorem HasTypes.unique (hΓ : Hierarchy Γ.classes) : ∀ {es : List Expr} {τs σs : List Ty},
    HasTypes ρ Γ es τs → HasTypes ρ' Γ es σs → τs = σs
  | [], _, _, .nil, .nil => rfl
  | _ :: _, _, _, .cons he hes, .cons he' hes' => by
    rw [HasType.unique hΓ he he', HasTypes.unique hΓ hes hes']

end

mutual

/-- What an annotated expression holds is of no account when it is read plainly. -/
theorem HasType.plain : ∀ {e : Expr} {τ : Ty}, HasType ρ Γ e τ → HasType .plain Γ e τ
  | .number .., _, .number _ => .number trivial
  | .bool .., _, .bool _ => .bool trivial
  | .this _, _, .this h _ => .this h trivial
  | .var _ none .., _, .var h _ _ => .var h trivial trivial
  | .var _ (some _) .., _, .field ho h _ _ _ => .field ho h trivial trivial trivial
  | .binary .., _, .binary hl hr h _ => .binary hl.plain hr.plain h trivial
  | .unary .., _, .unary hx h _ => .unary hx.plain h trivial
  | .call .., _, .call ho hargs h _ _ _ => .call ho hargs.plain h trivial trivial fun _ => trivial
  | .create .., _, .create hcls hargs h _ _ => .create hcls hargs.plain h trivial trivial

theorem HasTypes.plain : ∀ {es : List Expr} {τs : List Ty}, HasTypes ρ Γ es τs →
    HasTypes .plain Γ es τs
  | [], _, .nil => .nil
  | _ :: _, _, .cons he hes => .cons he.plain hes.plain

end

/-- An annotated expression holds its type. -/
theorem HasType.ty?_eq (h : HasType .annotated Γ e τ) : e.ty? = some τ := by
  have hmark : e.mark.ty = .filled τ := by
    cases h <;> assumption
  rw [Expr.ty?, hmark]
  rfl

/-- The type an annotated expression holds is the only one that the rules give it. -/
theorem HasType.plain_iff (hΓ : Hierarchy Γ.classes) (h : HasType .annotated Γ e τ) :
    HasType .plain Γ e σ ↔ σ = τ :=
  ⟨fun h' => h'.unique hΓ h, fun he => he ▸ h.plain⟩

end ClassLang
