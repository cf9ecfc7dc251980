import ClassLang.Check.Expr
import ClassLang.Proofs.Table.Use

/-!
# What names mean to the checker, and to the rules

During the check of a body the environment stands for a context (`Env.At`): its table records the
classes of the context, and a name means in its frames what it means in the context's list. How the
names are spread over frames makes no difference to the rules. At such a point the checker finds
for a bare name, and for the object of a call or a field, what the rules say it means
(`Env.At.answers_lookupVar`, `Env.At.answers_objectClass`).
-/

namespace ClassLang

/-- The environment at a point of a body where `Γ` is known. -/
structure Env.At (env : Env) (Γ : Context) : Prop where
  table : env.table.Records Γ.classes
  hierarchy : Hierarchy Γ.classes
  scopes : ∀ x, env.scopes.lookup x = (Γ.locals.lookup x).map Entity.value
  known : ∀ e ∈ Γ.locals, e.2.Known Γ.names
  framed : env.scopes.frames ≠ []
  method : ∃ m, env.method = some m ∧ m.signature.ret = Γ.ret

variable {env : Env} {Γ : Context} {name cls : String} {τ : Ty} {b : VarBinding}
  {object : Option String}

namespace Env.At

theorem known_of_declares (h : env.At Γ) (hx : Γ.Declares name τ) : τ.Known Γ.names :=
  h.known _ (mem_of_lookup hx)

theorem receiver?_eq (h : env.At Γ) : env.receiver? = Γ.locals.lookup receiverName := by
  unfold Env.receiver?
  rw [h.scopes]
  cases Γ.locals.lookup receiverName <;> rfl

theorem answers_receiver (h : env.At Γ) : Answers env.receiver (Γ.Declares receiverName) := by
  unfold Env.receiver
  rw [h.receiver?_eq]
  cases hr : Γ.locals.lookup receiverName with
  | none =>
    refine Answers.raise fun τ hτ => ?_
    rw [Context.Declares, hr] at hτ
    cases hτ
  | some τ => exact Answers.ok fun σ => ⟨fun hσ => hσ.unique hr, fun hσ => hσ ▸ hr⟩

/-! ### Bare names -/

/-- A name that is no local is looked for in the receiver's class. -/
theorem answers_member (h : env.At Γ) (hname : env.findLocal? name = none)
    (hlocal : name = receiverName ∨ Γ.locals.lookup name = none) :
    Answers (env.lookupVar name) fun a => Γ.Var name a.1 a.2 := by
  have hvar : ∀ {σ : Ty} {vb : VarBinding}, Γ.Var name σ vb →
      ∃ cls c, Γ.Declares receiverName (.cls cls) ∧ FieldOf Γ.classes cls name c σ ∧
        vb = .member c.name := by
    intro σ vb hv
    cases hv with
    | scope hne hd =>
      rcases hlocal with he | hl
      · exact absurd he hne
      · rw [Context.Declares, hl] at hd
        cases hd
    | member _ hthis hf => exact ⟨_, _, hthis, hf, rfl⟩
  unfold Env.lookupVar
  simp only [hname]
  cases hr : env.receiver?.bind Ty.className? with
  | none =>
    refine Answers.raise fun a ha => ?_
    obtain ⟨cls, c, hthis, -⟩ := hvar ha
    rw [h.receiver?_eq, hthis] at hr
    cases hr
  | some cls =>
    obtain ⟨τ, hτ, hcls⟩ := Option.bind_eq_some_iff.mp hr
    obtain rfl := Ty.className?_eq_some.mp hcls
    rw [h.receiver?_eq] at hτ
    have hf : Answers (env.table.fieldTy cls name) fun a =>
        ∃ c, FieldOf Γ.classes cls name c a.1 ∧ c.name = a.2 :=
      ClassTable.answers_fieldTy h.table h.hierarchy
    refine hf.andThen (K := fun f a => a = (f.1, .member f.2))
      (fun e he => by simp only [he]) (fun f hf _ => ?_) fun a => ⟨?_, ?_⟩
    · simp only [hf]
      exact Answers.ok fun _ => Iff.rfl
    · intro ha
      obtain ⟨cls', c, hthis, hfield, hb⟩ := hvar ha
      cases hthis.unique hτ
      exact ⟨(a.1, c.name), ⟨c, hfield, rfl⟩, Prod.ext rfl hb⟩
    · rintro ⟨f, ⟨c, hfield, hc⟩, rfl⟩
      rw [← hc]
      exact .member hlocal hτ hfield

theorem answers_lookupVar (h : env.At Γ) (name : String) :
    Answers (env.lookupVar name) fun a => Γ.Var name a.1 a.2 := by
  by_cases hthis : name = receiverName
  · exact h.answers_member (by simp [Env.findLocal?, hthis]) (.inl hthis)
  · have hlocal : env.findLocal? name = (Γ.locals.lookup name).map Entity.value := by
      rw [Env.findLocal?, if_neg hthis, h.scopes]
    cases hl : Γ.locals.lookup name with
    | none => exact h.answers_member (by rw [hlocal, hl]; rfl) (.inr hl)
    | some τ =>
      rw [hl, Option.map_some] at hlocal
      unfold Env.lookupVar
      simp only [hlocal]
      refine Answers.ok fun a => ⟨fun ha => ?_, ?_⟩
      · obtain ⟨σ, vb⟩ := a
        cases ha with
        | scope _ hd => exact Prod.ext (hd.unique hl) rfl
        | member hnone _ _ =>
          rcases hnone with he | hnone
          · exact absurd he hthis
          · rw [hl] at hnone
            cases hnone
      · rintro rfl
        exact .scope hthis hl

/-! ### Objects -/

theorem object_iff {cls : String} : Γ.Object object cls b ↔
    (object.getD receiverName = receiverName ∧ Γ.Declares receiverName (.cls cls) ∧ b = .scope) ∨
    (object.getD receiverName ≠ receiverName ∧ Γ.Var (object.getD receiverName) (.cls cls) b) := by
  constructor
  · intro ho
    cases ho with
    | implicit hd => exact .inl ⟨rfl, hd, rfl⟩
    | receiver hd => exact .inl ⟨rfl, hd, rfl⟩
    | named hne hv => exact .inr ⟨hne, hv⟩
  · rintro (⟨hname, hd, rfl⟩ | ⟨hne, hv⟩)
    · cases object with
      | none => exact .implicit hd
      | some x =>
        obtain rfl : x = receiverName := hname
        exact .receiver hd
    · cases object with
      | none => exact absurd rfl hne
      | some x => exact .named hne hv

theorem answers_objectTy (h : env.At Γ) (object : Option String) :
    Answers (env.objectTy object) fun a =>
    (object.getD receiverName = receiverName ∧ Γ.Declares receiverName a.1 ∧ a.2 = .scope) ∨
    (object.getD receiverName ≠ receiverName ∧ Γ.Var (object.getD receiverName) a.1 a.2) := by
  unfold Env.objectTy
  by_cases hname : object.getD receiverName = receiverName
  · simp only [hname, if_true]
    refine h.answers_receiver.andThen (K := fun τ a => a = (τ, .scope))
      (fun e he => by simp only [he]) (fun τ hτ _ => ?_) fun a => ⟨?_, ?_⟩
    · simp only [hτ]
      exact Answers.ok fun _ => Iff.rfl
    · rintro (⟨-, hd, hb⟩ | ⟨hne, -⟩)
      · exact ⟨a.1, hd, Prod.ext rfl hb⟩
      · exact absurd rfl hne
    · rintro ⟨τ, hd, rfl⟩
      exact .inl ⟨trivial, hd, rfl⟩
  · simp only [hname, if_false]
    exact (h.answers_lookupVar _).congr fun a => by simp [hname]

theorem answers_objectClass (h : env.At Γ) (object : Option String) :
    Answers (env.objectClass object) fun a => Γ.Object object a.1 a.2 := by
  unfold Env.objectClass
  refine (h.answers_objectTy object).andThen (K := fun p a => p = (.cls a.1, a.2))
    (fun e he => by rw [he]) (fun p hp _ => ?_) fun a => ?_
  · obtain ⟨τ, vb⟩ := p
    simp only [hp]
    cases τ with
    | cls name =>
      refine Answers.ok fun a => ⟨fun ha => ?_, ?_⟩
      · obtain ⟨hn, hb⟩ := Prod.mk.inj ha
        exact Prod.ext (Ty.cls.inj hn).symm hb.symm
      · rintro rfl
        rfl
    | void => exact Answers.raise fun a => nofun
    | int => exact Answers.raise fun a => nofun
    | bool => exact Answers.raise fun a => nofun
  · rw [object_iff]
    exact ⟨fun ha => ⟨_, ha, rfl⟩, fun ⟨p, hp, he⟩ => by rw [he] at hp; exact hp⟩

/-- The object of a call or a field is of a class that is declared. -/
theorem object_known (h : env.At Γ) (ho : Γ.Object object cls b) : cls ∈ Γ.names := by
  have hvar : ∀ {x : String} {τ : Ty} {vb : VarBinding}, Γ.Var x τ vb → τ.Known Γ.names := by
    intro x τ vb hv
    cases hv with
    | scope _ hd => exact h.known_of_declares hd
    | member _ _ hf => exact hf.known h.hierarchy
  cases ho with
  | implicit hd => exact h.known_of_declares hd cls rfl
  | receiver hd => exact h.known_of_declares hd cls rfl
  | named _ hv => exact hvar hv cls rfl

end Env.At

end ClassLang
