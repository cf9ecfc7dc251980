import ClassLang.Proofs.Compile
import ClassLang.Proofs.Typing.Determined
import ClassLang.Proofs.Typing.Sites

/-!
# The receiver of a body

The receiver of a method is kept in the same frames as its parameters and locals, under a name that
nothing keeps them from taking. So what `this` means at a place of a body is the innermost entry of
that name: the object the method is called on, unless a parameter or a local of that name is in
scope. What names no object is asked of whatever `this` means there, and the answer is the class
table's (`Program.asked_of_receiver`).
-/

namespace ClassLang

variable {ρ : Reading} {Γ Δ : Context} {cs : List Outline} {cls x : String} {τ : Ty}

/-! ### The names of a body -/

mutual

/-- The names that a statement declares, at any depth. -/
def Stmt.locals : Stmt → List String
  | .block _ body => Stmt.localsList body
  | .ifThen _ _ t => Stmt.localsList t
  | .ifElse _ _ t f => Stmt.localsList t ++ Stmt.localsList f
  | .loop _ _ body => Stmt.localsList body
  | .declare _ _ name _ => [name]
  | .assign .. | .ret .. | .print .. | .eval .. => []

def Stmt.localsList : List Stmt → List String
  | [] => []
  | s :: rest => s.locals ++ Stmt.localsList rest

end

/-- The parameters of a member and all names that its body declares. -/
def Member.locals : Member → List String
  | .field .. => []
  | .method _ _ r | .constructor r => r.params.map Param.name ++ Stmt.localsList r.body

/-- `Δ` is `Γ` with some of the names in scope besides, for types that are known. -/
structure Context.Within (Γ : Context) (names : List String) (Δ : Context) : Prop where
  classes : Δ.classes = Γ.classes
  locals : ∃ l, Δ.locals = l ++ Γ.locals ∧ ∀ e ∈ l, e.1 ∈ names ∧ e.2.Known Γ.names

namespace Context.Within

variable {names names' : List String}

theorem refl (Γ : Context) : Γ.Within names Γ := ⟨rfl, [], rfl, List.forall_mem_nil _⟩

theorem mono (h : Γ.Within names Δ) (hsub : names ⊆ names') : Γ.Within names' Δ := by
  obtain ⟨l, hl, hall⟩ := h.locals
  exact ⟨h.classes, l, hl, fun e he => ⟨hsub (hall e he).1, (hall e he).2⟩⟩

theorem of_bind (h : (Γ.bind x τ).Within names Δ) (hx : x ∈ names) (hτ : τ.Known Γ.names) :
    Γ.Within names Δ := by
  obtain ⟨l, hl, hall⟩ := h.locals
  refine ⟨h.classes, l ++ [(x, τ)], ?_, ?_⟩
  · rw [hl, List.append_assoc]
    rfl
  · exact List.forall_mem_append.mpr ⟨hall, List.forall_mem_singleton.mpr ⟨hx, hτ⟩⟩

theorem closed (h : Γ.Within names Δ) (hΓ : Γ.Closed) : Δ.Closed := by
  obtain ⟨l, hl, hall⟩ := h.locals
  have hnames : Δ.names = Γ.names := by rw [Context.names, h.classes, Context.names]
  refine ⟨h.classes ▸ hΓ.hierarchy, h.classes ▸ hΓ.returns, ?_⟩
  rw [hl, hnames]
  exact List.forall_mem_append.mpr ⟨fun e he => (hall e he).2, hΓ.locals⟩

/-- A name that is declared stays so, and keeps its type if it is none of the names. -/
theorem exists_declares (h : Γ.Within names Δ) (hx : Γ.Declares x τ) :
    ∃ σ, Δ.Declares x σ ∧ (x ∉ names → σ = τ) := by
  obtain ⟨l, hl, hall⟩ := h.locals
  rw [Declares] at hx
  simp only [Declares, hl, List.lookup_append, hx]
  cases hlookup : l.lookup x with
  | none => exact ⟨τ, rfl, fun _ => rfl⟩
  | some σ =>
    exact ⟨σ, rfl, fun hnot => absurd (hall _ (mem_of_lookup hlookup)).1 hnot⟩

end Context.Within

/-! ### The contexts of a body -/

theorem Expr.within_sites (Γ : Context) (e : Expr) {names : List String} :
    ∀ site ∈ e.sites Γ, Γ.Within names site.1 := by
  intro site hs
  obtain ⟨n, -, rfl⟩ := List.mem_map.mp hs
  exact .refl Γ

theorem Expr.within_sitesOption (Γ : Context) (e : Option Expr) {names : List String} :
    ∀ site ∈ Expr.sitesOption Γ e, Γ.Within names site.1 := by
  intro site hs
  obtain ⟨e, -, hs⟩ := List.mem_flatMap.mp hs
  exact e.within_sites Γ site hs

mutual

/-- At every place of a statement the names in scope are those before it, and some that it
declares. -/
theorem Stmt.Ok.within_sites : ∀ {s : Stmt} {Γ : Context}, s.Ok ρ Γ →
    ∀ site ∈ s.sites Γ, Γ.Within s.locals site.1
  | .block .., _, .block h => Stmt.AllOk.within_sites h
  | .ifThen _ c _, Γ, .ifThen _ ht =>
    List.forall_mem_append.mpr ⟨c.within_sites Γ, Stmt.AllOk.within_sites ht⟩
  | .ifElse _ c t f, Γ, .ifElse _ ht hf => by
    refine List.forall_mem_append.mpr ⟨c.within_sites Γ, List.forall_mem_append.mpr ⟨?_, ?_⟩⟩
    · exact fun site hs => (Stmt.AllOk.within_sites ht site hs).mono (List.subset_append_left ..)
    · exact fun site hs => (Stmt.AllOk.within_sites hf site hs).mono (List.subset_append_right ..)
  | .loop _ c _, Γ, .loop _ h =>
    List.forall_mem_append.mpr ⟨c.within_sites Γ, Stmt.AllOk.within_sites h⟩
  | .assign _ target value, Γ, _ =>
    List.forall_mem_append.mpr ⟨target.within_sites Γ, value.within_sites Γ⟩
  | .declare _ _ _ init, Γ, _ => Expr.within_sitesOption Γ init
  | .ret _ value, Γ, _ => Expr.within_sitesOption Γ value
  | .print _ value, Γ, _ => value.within_sites Γ
  | .eval _ value, Γ, _ => value.within_sites Γ

theorem Stmt.AllOk.within_sites : ∀ {ss : List Stmt} {Γ : Context}, Stmt.AllOk ρ Γ ss →
    ∀ site ∈ Stmt.sitesList Γ ss, Γ.Within (Stmt.localsList ss) site.1
  | [], _, _ => List.forall_mem_nil _
  | s :: rest, Γ, .cons hs hrest => by
    refine List.forall_mem_append.mpr ⟨fun site hsite => ?_, fun site hsite => ?_⟩
    · exact (Stmt.Ok.within_sites hs site hsite).mono (List.subset_append_left ..)
    have hwithin := (Stmt.AllOk.within_sites hrest site hsite).mono
      (List.subset_append_right s.locals (Stmt.localsList rest))
    -- only a declaration leaves more names in scope than there were
    cases hs with
    | declare hτ => exact hwithin.of_bind (List.mem_cons_self ..) hτ.2
    | init hτ => exact hwithin.of_bind (List.mem_cons_self ..) hτ.2
    | block => exact hwithin
    | ifThen => exact hwithin
    | ifElse => exact hwithin
    | loop => exact hwithin
    | assign => exact hwithin
    | leave => exact hwithin
    | ret => exact hwithin
    | print => exact hwithin
    | eval => exact hwithin

end

/-- Where nothing but the receiver is in scope. -/
def Context.ofReceiver (classes : List Outline) (cls : String) : Context where
  classes
  ret := .void
  locals := [(receiverName, .cls cls)]

theorem Context.within_ofBody {ret : Ty} {r : Routine} {names : List String}
    (hparams : ∀ τ ∈ r.paramTypes, τ.Storable (cs.map Outline.name))
    (h : (Context.ofBody cs cls ret r.params).Within names Δ) :
    (Context.ofReceiver cs cls).Within (r.params.map Param.name ++ names) Δ := by
  obtain ⟨l, hl, hall⟩ := h.locals
  refine ⟨h.classes, l ++ (r.params.map fun q => (q.name, q.ty)).reverse, ?_, ?_⟩
  · rw [hl, List.append_assoc]
    rfl
  refine List.forall_mem_append.mpr ⟨fun e he => ?_, fun e he => ?_⟩
  · exact ⟨List.mem_append_right _ (hall e he).1, (hall e he).2⟩
  · obtain ⟨q, hq, rfl⟩ := List.mem_map.mp (List.mem_reverse.mp he)
    refine ⟨List.mem_append_left _ (List.mem_map_of_mem hq), ?_⟩
    exact (hparams q.ty (List.mem_map_of_mem hq)).2

theorem Member.Ok.within_sites {m : Member} (h : m.Ok ρ cs cls)
    (ht : m.Typed (cs.map Outline.name)) : ∀ site ∈ m.sites cs cls,
      (Context.ofReceiver cs cls).Within m.locals site.1 := by
  cases h with
  | field => exact List.forall_mem_nil _
  | method _ hbody =>
    cases ht with
    | method _ hparams =>
      exact fun site hs => Context.within_ofBody hparams (hbody.within_sites site hs)
  | constructor _ hbody =>
    cases ht with
    | constructor hparams =>
      exact fun site hs => Context.within_ofBody hparams (hbody.within_sites site hs)

/-! ### What is asked of the receiver -/

/-- What names no object in the expression has been asked of an object of type `receiver`: `this` is
of that type, and a field or method that is not asked of a named object is the one that the table
finds from that class. -/
def Expr.Asks (t : ClassTable) (receiver : Ty) : Expr → Prop
  | .this m => m.ty = .filled receiver
  | .var m none x b _ => ∀ owner, b = .filled (.member owner) → ∃ cls τ, receiver = .cls cls ∧
      t.fieldTy cls x = .ok (τ, owner) ∧ m.ty = .filled τ
  | .call m none f args b _ => ∃ cls tys target, receiver = .cls cls ∧
      args.map Expr.ty? = tys.map some ∧ t.bindCall cls f tys = .ok target ∧
      b = .filled target ∧ m.ty = .filled target.method.ret
  | .var _ (some o) _ _ ob | .call _ (some o) _ _ _ ob =>
    ∀ owner, ob = .filled (.member owner) → ∃ cls objectClass, receiver = .cls cls ∧
      t.fieldTy cls o = .ok (.cls objectClass, owner)
  | _ => True

theorem HasTypes.map_ty? : ∀ {es : List Expr} {τs : List Ty}, HasTypes .annotated Γ es τs →
    es.map Expr.ty? = τs.map some
  | [], _, .nil => rfl
  | _ :: _, _, .cons he hes => by rw [List.map_cons, he.ty?_eq, hes.map_ty?, List.map_cons]

section

variable {t : ClassTable} {ds : List Outline} {R : Ty} {vb : VarBinding} {owner : String}

/-- A name that was found as a member is a field that the table finds from the receiver's class. -/
theorem Context.Var.fieldTy_eq (hrecords : t.Records ds)
    (hagree : ClassLang.Agree Γ.classes ds) (hsub : Γ.names ⊆ ds.map Outline.name)
    (hR : Γ.Declares receiverName R)
    (hx : Γ.Var x τ (.member owner)) :
    ∃ cls, R = .cls cls ∧ t.fieldTy cls x = .ok (τ, owner) := by
  cases hx with
  | @member cls c _ hnone hthis hf =>
    refine ⟨cls, hR.unique hthis, ?_⟩
    have hfield := hagree.fieldOf (hsub hf.nearest.name_mem) hf
    exact (ClassTable.answers_fieldTy hrecords hagree.right).eq_ok ⟨c, hfield, rfl⟩

theorem Context.Object.fieldTy_eq {o : String} (hrecords : t.Records ds)
    (hagree : ClassLang.Agree Γ.classes ds) (hsub : Γ.names ⊆ ds.map Outline.name)
    (hR : Γ.Declares receiverName R) (ho : Γ.Object (some o) cls (.member owner)) :
    ∃ cls' objectClass, R = .cls cls' ∧ t.fieldTy cls' o = .ok (.cls objectClass, owner) := by
  cases ho with
  | named _ hv =>
    obtain ⟨cls', hcls, hfield⟩ := hv.fieldTy_eq hrecords hagree hsub hR
    exact ⟨cls', cls, hcls, hfield⟩

/-- An annotated expression has asked the receiver of its context. -/
theorem HasType.asks {e : Expr} (hrecords : t.Records ds) (hagree : ClassLang.Agree Γ.classes ds)
    (hsub : Γ.names ⊆ ds.map Outline.name) (hΓ : Γ.Closed) (hR : Γ.Declares receiverName R)
    (he : HasType .annotated Γ e τ) : e.Asks t R := by
  cases he with
  | number => trivial
  | bool => trivial
  | binary => trivial
  | unary => trivial
  | create => trivial
  | this hd hm =>
    obtain rfl := hd.unique hR
    exact hm
  | var hx hm hb =>
    intro owner howner
    obtain rfl : _ = VarBinding.member owner := Slot.filled.inj (hb.symm.trans howner)
    obtain ⟨cls, hcls, hfield⟩ := hx.fieldTy_eq hrecords hagree hsub hR
    exact ⟨cls, _, hcls, hfield, hm⟩
  | field ho _ _ _ hob =>
    intro owner howner
    obtain rfl : _ = VarBinding.member owner := Slot.filled.inj (hob.symm.trans howner)
    exact ho.fieldTy_eq hrecords hagree hsub hR
  | @call m o f cls args b ob vb tys target ho hargs hc hm hb hob =>
    cases o with
    | some o =>
      intro owner howner
      obtain rfl : vb = VarBinding.member owner := Slot.filled.inj ((hob rfl).symm.trans howner)
      exact ho.fieldTy_eq hrecords hagree hsub hR
    | none =>
      cases ho with
      | implicit hd =>
        have hshared : ∀ a ∈ tys, a.Shared Γ.classes ds := fun a ha =>
          ⟨hargs.known hΓ a ha, (hargs.known hΓ a ha).mono hsub⟩
        have hcls : cls ∈ ds.map Outline.name := by
          obtain ⟨owner, hr, -⟩ := hc
          exact hsub hr.nearest.name_mem
        have hbind := (ClassTable.answers_bindCall hrecords hagree.right hcls).eq_ok
          (hagree.calls hshared hcls hc)
        exact ⟨cls, tys, target, hR.unique hd, hargs.map_ty?, hbind, hb, hm⟩

end

/-- The slots of an expression that could name an object and names none: for its type, and for what
the variable or the call means. -/
def Expr.unnamed? : Expr → Option (Slot Ty × Slot VarBinding × Slot MethodBinding)
  | .this m => some (m.ty, .empty, .empty)
  | .var m none _ b _ => some (m.ty, b, .empty)
  | .call m none _ _ b _ => some (m.ty, .empty, b)
  | _ => none

def Expr.isThis : Expr → Bool
  | .this _ => true
  | _ => false

/-! ### Programs -/

namespace Program

variable {p q : Program} {t : ClassTable} {l r : List ClassDecl} {c : ClassDecl} {m : Member}
  {e : Expr}

/-- **What names no object is asked of what `this` means there.** At every place of a body of an
accepted program `this` has a type, `this` expressions hold it, and a call or a field that names no
object is what the table finds from that class. The type is the class of the body, unless a
parameter or a local is called `this`. -/
theorem asked_of_receiver (h : p.analyze = .ok t q) (hq : q.classes = l ++ c :: r)
    (hm : m ∈ c.members)
    (hs : (Γ, e) ∈ m.sites (l.map ClassDecl.outline ++ [c.outline]) c.name) :
    ∃ R, Γ.Declares receiverName R ∧ e.Asks t R ∧ (receiverName ∉ m.locals → R = .cls c.name) := by
  obtain ⟨-, hok, -, hrecords, hhier⟩ := of_analyze_ok h
  obtain ⟨hc, hcs, hret⟩ := hok.split hq
  have hwithin := (hc.bodies m hm).within_sites (hc.typed m hm) _ hs
  obtain ⟨hclasses, τ, he⟩ := (hc.bodies m hm).typed_sites _ hs
  have hclosed : Γ.Closed := hwithin.closed
    ⟨hcs, hret, List.forall_mem_singleton.mpr c.known_self⟩
  have hsub : Γ.classes ⊆ q.outlines := by
    rw [show Γ.classes = _ from hclasses]
    exact outlines_of_split hq
  have hagree : Agree Γ.classes q.outlines :=
    ⟨fun d hd e he => hhier.eq_of_name (hsub hd) he, hclosed.hierarchy, hhier⟩
  obtain ⟨R, hR, hclass⟩ := hwithin.exists_declares (x := receiverName) (τ := .cls c.name) rfl
  exact ⟨R, hR, he.asks hrecords hagree (List.map_subset _ hsub) hclosed hR, hclass⟩

/-- Whether a program has two classes that pass a test. -/
def hasPair (p : Program) (test : ClassDecl → ClassDecl → Bool) : Bool :=
  match p.classes with
  | [a, c] => test a c
  | _ => false

theorem exists_of_hasPair {test : ClassDecl → ClassDecl → Bool} (h : p.hasPair test = true) :
    ∃ a c, p.classes = [a, c] ∧ test a c = true := by
  unfold hasPair at h
  split at h
  next a c hclasses => exact ⟨a, c, hclasses, h⟩
  next => cases h

/-- In `overloading` the `this` of class `B` has type `B`. -/
theorem overloading_receiver : ∃ t q a c m Γ mark, overloading.analyze = .ok t q ∧
    q.classes = [a, c] ∧ c.name = "B" ∧ m ∈ c.members ∧ receiverName ∉ m.locals ∧
      (Γ, .this mark) ∈ m.sites [a.outline, c.outline] c.name ∧ mark.ty = .filled (.cls "B") := by
  obtain ⟨t, h⟩ : ∃ t, overloading.analyze = .ok t overloading.analyze.state :=
    Outcome.eq_ok_of_isOk (by decide +kernel)
  obtain ⟨a, c, hq, hcheck⟩ := exists_of_hasPair
    (show overloading.analyze.state.hasPair (fun a c => c.name == "B" &&
      c.members.any fun m => !m.locals.contains receiverName &&
        (m.sites [a.outline, c.outline] c.name).any fun site => site.2.isThis) by decide +kernel)
  simp only [Bool.and_eq_true, beq_iff_eq, List.any_eq_true, Bool.not_eq_true',
    List.contains_eq_mem, decide_eq_false_iff_not] at hcheck
  obtain ⟨hname, m, hm, hlocals, ⟨Γ, e⟩, hs, he⟩ := hcheck
  cases e with
  | this mark =>
    obtain ⟨R, -, hasks, hclass⟩ := asked_of_receiver (l := [a]) (r := []) h hq hm hs
    refine ⟨t, _, a, c, m, Γ, mark, h, hq, hname, hm, hlocals, hs, ?_⟩
    rw [← hname, ← hclass hlocals]
    exact hasks
  | _ => cases he

/-- A class whose method has a parameter called `this`, of another class. -/
def shadowing : Program := ⟨[
  ⟨.unknown, "A", none, [
    .field .unknown .int "x",
    .method .int "g" ⟨.unknown, [], [.ret .unknown (some (.number .unset 1))], .empty⟩]⟩,
  ⟨.unknown, "C", none, [
    .field .unknown .bool "x",
    .method .bool "g" ⟨.unknown, [], [.ret .unknown (some (.bool .unset true))], .empty⟩,
    .method .void "f" ⟨.unknown, [⟨.cls "A", "this"⟩], [
      .eval .unknown (.this .unset),
      .eval .unknown (.call .unset none "g" [] .empty .empty),
      .eval .unknown (.var .unset none "x" .empty .empty)], .empty⟩]⟩]⟩

/-- A parameter called `this` takes the receiver's place: in class `C` the expression `this` is of
class `A`, and the call of `g` and the field `x` are those of `A`, although `C` has its own. -/
theorem shadowing_asks_parameter : ∃ t q a c, shadowing.analyze = .ok t q ∧ q.classes = [a, c] ∧
    c.name = "C" ∧ (c.sites [a.outline]).filterMap (·.2.unnamed?) =
      [(.filled (.cls "A"), .empty, .empty),
        (.filled .int, .empty, .filled ⟨"A", ⟨"g", [], .int⟩⟩),
        (.filled .int, .filled (.member "A"), .empty)] ∧
      t.bindCall "C" "g" [] = .ok ⟨"C", ⟨"g", [], .bool⟩⟩ ∧
      t.fieldTy "C" "x" = .ok (.bool, "C") := by
  obtain ⟨t, h⟩ : ∃ t, shadowing.analyze = .ok t shadowing.analyze.state :=
    Outcome.eq_ok_of_isOk (by decide +kernel)
  obtain ⟨a, c, hq, hcheck⟩ := exists_of_hasPair
    (show shadowing.analyze.state.hasPair (fun a c => c.name == "C" &&
      (c.sites [a.outline]).filterMap (·.2.unnamed?) ==
        [(.filled (.cls "A"), .empty, .empty),
          (.filled .int, .empty, .filled ⟨"A", ⟨"g", [], .int⟩⟩),
          (.filled .int, .filled (.member "A"), .empty)]) by decide +kernel)
  simp only [Bool.and_eq_true, beq_iff_eq] at hcheck
  have htable : shadowing.analyze.toExcept.toOption.any (fun t =>
      decide (t.bindCall "C" "g" [] = .ok ⟨"C", ⟨"g", [], .bool⟩⟩ ∧
        t.fieldTy "C" "x" = .ok (.bool, "C"))) = true := by decide +kernel
  rw [h] at htable
  obtain ⟨hcall, hfield⟩ := of_decide_eq_true htable
  exact ⟨t, _, a, c, h, hq, hcheck.1, hcheck.2, hcall, hfield⟩

end Program

end ClassLang
