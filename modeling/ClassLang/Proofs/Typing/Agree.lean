import ClassLang.Proofs.Typing.Unique

/-!
# A class among different classes

Two lists of classes agree if no name stands for different classes in them (`Agree`); each may have
classes that the other has not. What the rules find from a class that is in both lists they find in
both, because the way up from it goes through classes that are in both again (`Agree.nearest`). And
if the rules find something in either list, they find one thing (`Agree.eq_of_calls`).

Contexts agree if their classes do and the same names are in scope. That the types in a context are
known (`Context.Closed`) is what makes the type of an expression one of both lists
(`HasType.known`).
-/

namespace ClassLang

variable {cs ds : List Outline} {c d : Outline} {cls f x : String} {args : List Ty}
  {s : Signature} {a b : Ty}

/-- A name of both lists stands for one class. -/
structure Agree (cs ds : List Outline) : Prop where
  same : ∀ c ∈ cs, ∀ d ∈ ds, c.name = d.name → c = d
  left : Hierarchy cs
  right : Hierarchy ds

/-- A type of both lists. -/
def Ty.Shared (cs ds : List Outline) (ty : Ty) : Prop :=
  ty.Known (cs.map Outline.name) ∧ ty.Known (ds.map Outline.name)

theorem Nearest.name_mem {P : Outline → Prop} (h : Nearest cs P cls c) :
    cls ∈ cs.map Outline.name := by
  cases h with
  | here hc hname => exact hname ▸ List.mem_map_of_mem hc
  | up hc hname => exact hname ▸ List.mem_map_of_mem hc

namespace Agree

theorem symm (h : Agree cs ds) : Agree ds cs :=
  ⟨fun d hd c hc hname => (h.same c hc d hd hname.symm).symm, h.right, h.left⟩

theorem mem_right (h : Agree cs ds) (hc : c ∈ cs) (hname : c.name ∈ ds.map Outline.name) :
    c ∈ ds := by
  obtain ⟨d, hd, hn⟩ := List.mem_map.mp hname
  rw [h.same c hc d hd hn.symm]
  exact hd

/-! ### From one list to the other -/

/-- The way up from a class of both lists is the same in both. -/
theorem nearest {P Q : Outline → Prop} (h : Agree cs ds) (hPQ : ∀ c ∈ cs, P c ↔ Q c)
    (hcls : cls ∈ ds.map Outline.name) (hc : Nearest cs P cls c) : Nearest ds Q cls c := by
  induction hc with
  | here hc hname hP =>
    exact .here (h.mem_right hc (hname ▸ hcls)) hname ((hPQ _ hc).mp hP)
  | @up cls q c d hc hname hP hq _ ih =>
    have hds : c ∈ ds := h.mem_right hc (hname ▸ hcls)
    exact .up hds hname (mt (hPQ c hc).mpr hP) hq (ih (h.right.parents c hds q hq))

theorem fits (h : Agree cs ds) (ha : a.Known (ds.map Outline.name)) (hab : a.Fits cs b) :
    a.Fits ds b := by
  induction hab using Relation.ReflTransGen.head_induction_on with
  | refl => exact .refl
  | head hstep _ ih =>
    cases hstep with
    | @mk c q hc hq =>
      have hds : c ∈ ds := h.mem_right hc (ha c.name rfl)
      refine .head ⟨hds, hq⟩ (ih fun name hname => ?_)
      cases hname
      exact h.right.parents c hds q hq

theorem fits_all (h : Agree cs ds) : ∀ {args params : List Ty},
    (∀ a ∈ args, a.Known (ds.map Outline.name)) → List.Forall₂ (Ty.Fits cs) args params →
      List.Forall₂ (Ty.Fits ds) args params
  | [], [], _, .nil => .nil
  | _ :: _, _ :: _, hargs, .cons hfit hfits => by
    obtain ⟨ha, hargs⟩ := List.forall_mem_cons.mp hargs
    exact .cons (h.fits ha hfit) (h.fits_all hargs hfits)

theorem candidate_iff (h : Agree cs ds) (hargs : ∀ a ∈ args, a.Shared cs ds) :
    c.Candidate cs f args s ↔ c.Candidate ds f args s :=
  and_congr_right fun _ => and_congr_right fun _ =>
    ⟨h.fits_all fun a ha => (hargs a ha).2, h.symm.fits_all fun a ha => (hargs a ha).1⟩

theorem selects (h : Agree cs ds) (hargs : ∀ a ∈ args, a.Shared cs ds)
    (hs : c.Selects cs f args s) : c.Selects ds f args s := by
  cases hs with
  | exact ho hname hparams => exact .exact ho hname hparams
  | only hc honly =>
    exact .only ((h.candidate_iff hargs).mp hc) fun t ht => honly t ((h.candidate_iff hargs).mpr ht)

theorem resolves (h : Agree cs ds) (hargs : ∀ a ∈ args, a.Shared cs ds)
    (hcls : cls ∈ ds.map Outline.name) (hr : Resolves cs cls f args c s) :
    Resolves ds cls f args c s :=
  ⟨h.nearest (fun _ _ => exists_congr fun _ => h.candidate_iff hargs) hcls hr.nearest,
    h.selects hargs hr.selects⟩

theorem fieldOf (h : Agree cs ds) (hcls : cls ∈ ds.map Outline.name)
    (hf : FieldOf cs cls x c a) : FieldOf ds cls x c a :=
  ⟨h.nearest (fun _ _ => Iff.rfl) hcls hf.nearest, hf.field⟩

theorem calls {target : MethodBinding} (h : Agree cs ds) (hargs : ∀ a ∈ args, a.Shared cs ds)
    (hcls : cls ∈ ds.map Outline.name) (hc : Calls cs cls f args target) :
    Calls ds cls f args target := by
  obtain ⟨owner, hr, ho⟩ := hc
  exact ⟨owner, h.resolves hargs hcls hr, ho⟩

/-! ### What both lists find is one thing -/

theorem eq_of_fieldOf (h : Agree cs ds) : FieldsMeet cs ds :=
  fun hf hf' => (h.fieldOf hf'.nearest.name_mem hf).unique h.right hf'

theorem eq_of_calls {target target' : MethodBinding} (h : Agree cs ds)
    (hargs : ∀ a ∈ args, a.Shared cs ds) (hc : Calls cs cls f args target)
    (hc' : Calls ds cls f args target') : target = target' := by
  have hcls : cls ∈ ds.map Outline.name := by
    obtain ⟨owner, hr, -⟩ := hc'
    exact hr.nearest.name_mem
  exact (h.calls hargs hcls hc).unique h.right hc'

theorem eq_of_creates {target target' : MethodBinding} (h : Agree cs ds)
    (hargs : ∀ a ∈ args, a.Shared cs ds) (hc : Creates cs cls args target)
    (hc' : Creates ds cls args target') : target = target' := by
  obtain ⟨owner, method⟩ := target
  obtain ⟨owner', method'⟩ := target'
  obtain ⟨c, hc, hname, hsel, howner⟩ := hc
  obtain ⟨d, hd, hname', hsel', howner'⟩ := hc'
  obtain rfl := h.same c hc d hd (hname.trans hname'.symm)
  have hmethod : method = method' := (h.selects hargs hsel).unique h.right hd hsel'
  rw [hmethod, show owner = owner' from howner.trans howner'.symm]

end Agree

/-! ### Known types -/

/-- What methods return is known. -/
def Returns (cs : List Outline) : Prop :=
  ∀ c ∈ cs, ∀ s, c.Offers s → s.ret.Known (cs.map Outline.name)

theorem ClassDecl.known_self {earlier : List Outline} (c : ClassDecl) :
    (Ty.cls c.name).Known ((earlier ++ [c.outline]).map Outline.name) := by
  intro name hname
  cases hname
  rw [List.map_append]
  exact List.mem_append_right _ (List.mem_singleton_self _)

theorem ClassDecl.Formed.returns {earlier : List Outline} {c : ClassDecl} (h : c.Formed earlier)
    (hearlier : Returns earlier) : Returns (earlier ++ [c.outline]) := by
  intro d hd s hs
  rcases List.mem_append.mp hd with hd | hd
  · exact (hearlier d hd s hs).mono (by simp)
  rw [List.mem_singleton.mp hd] at hs
  cases hs with
  | initial => exact c.known_self
  | declared hs =>
    obtain ⟨m, hm, hms⟩ := List.mem_filterMap.mp hs
    cases m with
    | field => cases hms
    | method ret f r =>
      cases hms
      cases h.typed _ hm with
      | method hret _ => exact hret
    | constructor r =>
      cases hms
      exact c.known_self

/-- The types in a context are known. -/
structure Context.Closed (Γ : Context) : Prop where
  hierarchy : Hierarchy Γ.classes
  returns : Returns Γ.classes
  locals : ∀ e ∈ Γ.locals, e.2.Known Γ.names

section

variable {ρ : Reading} {Γ Δ : Context} {τ σ : Ty} {vb vb' : VarBinding}

theorem Context.Closed.known_of_declares (h : Γ.Closed) (hx : Γ.Declares x τ) :
    τ.Known Γ.names :=
  h.locals _ (mem_of_lookup hx)

theorem Context.Closed.known_of_var (h : Γ.Closed) (hx : Γ.Var x τ vb) : τ.Known Γ.names := by
  cases hx with
  | scope _ hd => exact h.known_of_declares hd
  | member _ _ hf => exact hf.known h.hierarchy

/-- An expression of the rules has a known type. -/
theorem HasType.known (h : Γ.Closed) {e : Expr} (he : HasType ρ Γ e τ) : τ.Known Γ.names := by
  cases he with
  | number => exact fun _ => nofun
  | bool => exact fun _ => nofun
  | this hd => exact h.known_of_declares hd
  | var hx => exact h.known_of_var hx
  | field _ hf => exact hf.known h.hierarchy
  | binary _ _ hop =>
    cases hop with
    | arithmetic => exact fun _ => nofun
    | ofInt => exact fun _ => nofun
    | ofBool => exact fun _ => nofun
  | unary _ hop =>
    cases hop with
    | neg => exact fun _ => nofun
    | not => exact fun _ => nofun
  | call _ _ hc =>
    obtain ⟨owner, hr, -⟩ := hc
    exact h.returns owner hr.nearest.mem _ hr.selects.candidate.1
  | create _ _ hc =>
    intro name hname
    obtain ⟨c, hc, hcls, -⟩ := hc
    cases hname
    exact hcls ▸ List.mem_map_of_mem hc

theorem HasTypes.known (h : Γ.Closed) : ∀ {es : List Expr} {τs : List Ty}, HasTypes ρ Γ es τs →
    ∀ a ∈ τs, a.Known Γ.names
  | [], _, .nil => List.forall_mem_nil _
  | _ :: _, _, .cons he hes => List.forall_mem_cons.mpr ⟨he.known h, hes.known h⟩

/-! ### Contexts -/

/-- The same names are in scope, and the classes agree. -/
structure Context.Agree (Γ Δ : Context) : Prop where
  classes : ClassLang.Agree Γ.classes Δ.classes
  locals : Γ.locals = Δ.locals
  left : Γ.Closed
  right : Δ.Closed

namespace Context.Agree

theorem declares (h : Γ.Agree Δ) (hx : Γ.Declares x τ) : Δ.Declares x τ := by
  rw [Declares, ← h.locals]
  exact hx

theorem eq_of_var (h : Γ.Agree Δ) (hx : Γ.Var x τ vb) (hx' : Δ.Var x σ vb') : τ = σ ∧ vb = vb' :=
  hx.unique_of_meet h.locals h.classes.eq_of_fieldOf hx'

theorem eq_of_object {o : Option String} {cls' : String} (h : Γ.Agree Δ) (ho : Γ.Object o cls vb)
    (ho' : Δ.Object o cls' vb') : cls = cls' ∧ vb = vb' :=
  ho.unique_of_meet h.locals h.classes.eq_of_fieldOf ho'

theorem shared (h : Γ.Agree Δ) {es es' : List Expr} {τs : List Ty} (hes : HasTypes ρ Γ es τs)
    (hes' : HasTypes ρ Δ es' τs) : ∀ a ∈ τs, a.Shared Γ.classes Δ.classes :=
  fun a ha => ⟨hes.known h.left a ha, hes'.known h.right a ha⟩

end Context.Agree

end

end ClassLang
