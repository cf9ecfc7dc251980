import ClassLang.Proofs.Check.Filled
import ClassLang.Proofs.Check.Points
import ClassLang.Proofs.Compile
import ClassLang.Proofs.Typing.Determined

/-!
# The classes that a class mentions

A class mentions classes as its parent, in the types of its fields, methods, parameters and locals,
and where it creates objects; once it is checked, also in the types of its expressions and in what
their names are bound to. In an accepted program these are classes declared before it, or itself
(`ClassDecl.Ok.mentions_mem`). That is what is left, at the end of a check that succeeds, of what
holds at each of its points: every class that is named there is declared (`Program.named_is_declared`).
-/

namespace ClassLang

variable {Γ : Context} {e : Expr} {s : Stmt} {τ : Ty} {m : Member} {c : ClassDecl}
  {cs earlier : List Outline} {cls : String}

/-! ### What a tree mentions -/

def VarBinding.owner? : VarBinding → Option String
  | .scope => none
  | .member owner => some owner

/-- The classes of what the names in an expression are bound to, and of what it creates; those of its
parts do not count. -/
def Expr.uses : Expr → List String
  | .var _ _ _ b _ => (b.get?.bind VarBinding.owner?).toList
  | .call _ _ _ _ b _ => (b.get?.map MethodBinding.owner).toList
  | .create _ cls _ b => cls :: (b.get?.map MethodBinding.owner).toList
  | _ => []

def Expr.mentions (e : Expr) : List String :=
  e.nodes.flatMap fun n => (n.ty?.bind Ty.className?).toList ++ n.uses

def Expr.mentionsOption (e : Option Expr) : List String := e.toList.flatMap Expr.mentions

mutual

def Stmt.mentions : Stmt → List String
  | .block _ body => Stmt.mentionsList body
  | .ifThen _ c t => c.mentions ++ Stmt.mentionsList t
  | .ifElse _ c t f => c.mentions ++ (Stmt.mentionsList t ++ Stmt.mentionsList f)
  | .loop _ c body => c.mentions ++ Stmt.mentionsList body
  | .assign _ target value => target.mentions ++ value.mentions
  | .declare _ ty _ init => ty.className?.toList ++ Expr.mentionsOption init
  | .ret _ value => Expr.mentionsOption value
  | .print _ value => value.mentions
  | .eval _ value => value.mentions

def Stmt.mentionsList : List Stmt → List String
  | [] => []
  | s :: rest => s.mentions ++ Stmt.mentionsList rest

end

def Member.mentions : Member → List String
  | .field _ ty _ => ty.className?.toList
  | .method ret _ r => (ret :: r.paramTypes).filterMap Ty.className? ++ Stmt.mentionsList r.body
  | .constructor r => r.paramTypes.filterMap Ty.className? ++ Stmt.mentionsList r.body

/-- The classes that a class mentions. -/
def ClassDecl.mentions (c : ClassDecl) : List String :=
  c.parent.toList ++ c.members.flatMap Member.mentions

/-! ### Expressions -/

theorem Ty.Known.of_className {names : List String} (h : τ.Known names) :
    ∀ name ∈ τ.className?.toList, name ∈ names := by
  intro name hname
  rw [Option.mem_toList, className?_eq_some] at hname
  exact h name hname

theorem Ty.known_of_classNames {names : List String} {τs : List Ty} (h : ∀ τ ∈ τs, τ.Known names) :
    ∀ name ∈ τs.filterMap Ty.className?, name ∈ names := by
  intro name hname
  obtain ⟨τ, hτ, hcls⟩ := List.mem_filterMap.mp hname
  exact h τ hτ name (className?_eq_some.mp hcls)

theorem Context.Var.owner_mem {x : String} {vb : VarBinding} (h : Γ.Var x τ vb) :
    ∀ name ∈ vb.owner?.toList, name ∈ Γ.names := by
  cases h with
  | scope => exact List.forall_mem_nil _
  | member _ _ hf => exact List.forall_mem_singleton.mpr (List.mem_map_of_mem hf.nearest.mem)

theorem HasType.uses_mem (h : HasType .annotated Γ e τ) : ∀ name ∈ e.uses, name ∈ Γ.names := by
  cases h with
  | number | bool | this | binary | unary => exact List.forall_mem_nil _
  | var hx _ hb =>
    rw [Expr.uses, show _ = Slot.filled _ from hb]
    exact hx.owner_mem
  | field _ hf _ hb =>
    rw [Expr.uses, show _ = Slot.filled _ from hb]
    exact List.forall_mem_singleton.mpr (List.mem_map_of_mem hf.nearest.mem)
  | call _ _ hc _ hb =>
    rw [Expr.uses, show _ = Slot.filled _ from hb]
    obtain ⟨owner, hr, ho⟩ := hc
    refine List.forall_mem_singleton.mpr ?_
    rw [← ho]
    exact List.mem_map_of_mem hr.nearest.mem
  | create _ _ hc _ hb =>
    rw [Expr.uses, show _ = Slot.filled _ from hb]
    obtain ⟨c, hc, rfl, -, ho⟩ := hc
    have hname : c.name ∈ Γ.names := List.mem_map_of_mem hc
    refine List.forall_mem_cons.mpr ⟨hname, List.forall_mem_singleton.mpr ?_⟩
    rw [ho]
    exact hname

theorem HasType.mentions_mem (h : HasType .annotated Γ e τ) (hΓ : Γ.Closed) :
    ∀ name ∈ e.mentions, name ∈ Γ.names := by
  intro name hname
  obtain ⟨n, hn, hname⟩ := List.mem_flatMap.mp hname
  obtain ⟨σ, hσ⟩ := h.of_mem_nodes hn
  rw [hσ.ty?_eq] at hname
  rcases List.mem_append.mp hname with hname | hname
  · exact (hσ.known hΓ).of_className name hname
  · exact hσ.uses_mem name hname

theorem HasType.mentionsOption_mem (h : HasType .annotated Γ e τ) (hΓ : Γ.Closed) :
    ∀ name ∈ Expr.mentionsOption (some e), name ∈ Γ.names := by
  rw [Expr.mentionsOption, Option.toList_some, List.flatMap_singleton]
  exact h.mentions_mem hΓ

/-! ### Statements and classes -/

theorem Context.Closed.bind {x : String} (h : Γ.Closed) (hτ : τ.Known Γ.names) :
    (Γ.bind x τ).Closed :=
  ⟨h.hierarchy, h.returns, List.forall_mem_cons.mpr ⟨hτ, h.locals⟩⟩

theorem Stmt.Ok.closed_after {ρ : Reading} (h : s.Ok ρ Γ) (hΓ : Γ.Closed) : (s.after Γ).Closed := by
  cases h with
  | declare hτ => exact hΓ.bind hτ.2
  | init hτ => exact hΓ.bind hτ.2
  | _ => exact hΓ

theorem Stmt.names_after (Γ : Context) (s : Stmt) : (s.after Γ).names = Γ.names := by
  rw [Context.names, Stmt.classes_after, Context.names]

mutual

theorem Stmt.Ok.mentions_mem : ∀ {s : Stmt} {Γ : Context}, s.Ok .annotated Γ → Γ.Closed →
    ∀ name ∈ s.mentions, name ∈ Γ.names
  | .block .., _, .block h, hΓ => Stmt.AllOk.mentions_mem h hΓ
  | .ifThen .., _, .ifThen hc ht, hΓ =>
    List.forall_mem_append.mpr ⟨hc.mentions_mem hΓ, Stmt.AllOk.mentions_mem ht hΓ⟩
  | .ifElse .., _, .ifElse hc ht hf, hΓ =>
    List.forall_mem_append.mpr ⟨hc.mentions_mem hΓ, List.forall_mem_append.mpr
      ⟨Stmt.AllOk.mentions_mem ht hΓ, Stmt.AllOk.mentions_mem hf hΓ⟩⟩
  | .loop .., _, .loop hc h, hΓ =>
    List.forall_mem_append.mpr ⟨hc.mentions_mem hΓ, Stmt.AllOk.mentions_mem h hΓ⟩
  | .assign .., _, .assign _ ht hv _, hΓ =>
    List.forall_mem_append.mpr ⟨ht.mentions_mem hΓ, hv.mentions_mem hΓ⟩
  | .declare _ _ _ none, _, .declare hτ, _ =>
    List.forall_mem_append.mpr ⟨hτ.2.of_className, List.forall_mem_nil _⟩
  | .declare _ _ _ (some _), _, .init hτ hv _, hΓ =>
    List.forall_mem_append.mpr ⟨hτ.2.of_className, hv.mentionsOption_mem hΓ⟩
  | .ret _ none, _, .leave _, _ => List.forall_mem_nil _
  | .ret _ (some _), _, .ret _ hv _, hΓ => hv.mentionsOption_mem hΓ
  | .print .., _, .print hv _, hΓ => hv.mentions_mem hΓ
  | .eval .., _, .eval hv, hΓ => hv.mentions_mem hΓ

theorem Stmt.AllOk.mentions_mem : ∀ {ss : List Stmt} {Γ : Context}, Stmt.AllOk .annotated Γ ss →
    Γ.Closed → ∀ name ∈ Stmt.mentionsList ss, name ∈ Γ.names
  | [], _, .nil, _ => List.forall_mem_nil _
  | s :: _, Γ, .cons hs hrest, hΓ => by
    have hafter := Stmt.AllOk.mentions_mem hrest (hs.closed_after hΓ)
    rw [Stmt.names_after] at hafter
    exact List.forall_mem_append.mpr ⟨Stmt.Ok.mentions_mem hs hΓ, hafter⟩

end

theorem Context.closed_ofBody {ret : Ty} {params : List Param} (hcs : Hierarchy cs)
    (hret : Returns cs) (hcls : cls ∈ cs.map Outline.name)
    (hparams : ∀ q ∈ params, q.ty.Known (cs.map Outline.name)) :
    (Context.ofBody cs cls ret params).Closed := by
  refine ⟨hcs, hret, List.forall_mem_append.mpr ⟨fun e he => ?_, ?_⟩⟩
  · obtain ⟨q, hq, rfl⟩ := List.mem_map.mp (List.mem_reverse.mp he)
    exact hparams q hq
  · exact List.forall_mem_singleton.mpr fun q hq => Ty.cls.inj hq ▸ hcls

theorem Member.Ok.mentions_mem (h : m.Ok .annotated cs cls) (ht : m.Typed (cs.map Outline.name))
    (hcs : Hierarchy cs) (hret : Returns cs) (hcls : cls ∈ cs.map Outline.name) :
    ∀ name ∈ m.mentions, name ∈ cs.map Outline.name := by
  have hbody : ∀ {ret : Ty} {r : Routine}, (∀ τ ∈ r.paramTypes, τ.Storable (cs.map Outline.name)) →
      Stmt.AllOk .annotated (.ofBody cs cls ret r.params) r.body →
      ∀ name ∈ Stmt.mentionsList r.body, name ∈ cs.map Outline.name := fun hparams h =>
    h.mentions_mem (Context.closed_ofBody hcs hret hcls fun q hq =>
      (hparams q.ty (List.mem_map_of_mem hq)).2)
  cases h with
  | field =>
    cases ht with
    | field hτ => exact hτ.2.of_className
  | method _ h =>
    cases ht with
    | method hret hparams =>
      refine List.forall_mem_append.mpr ⟨Ty.known_of_classNames ?_, hbody hparams h⟩
      exact List.forall_mem_cons.mpr ⟨hret, fun τ hτ => (hparams τ hτ).2⟩
  | constructor _ h =>
    cases ht with
    | constructor hparams =>
      refine List.forall_mem_append.mpr ⟨Ty.known_of_classNames ?_, hbody hparams h⟩
      exact fun τ hτ => (hparams τ hτ).2

/-- **A class of an annotated program mentions classes before it, and itself.** -/
theorem ClassDecl.Ok.mentions_mem (h : c.Ok .annotated earlier)
    (hcs : Hierarchy (earlier ++ [c.outline])) (hret : Returns (earlier ++ [c.outline])) :
    ∀ name ∈ c.mentions, name ∈ (earlier ++ [c.outline]).map Outline.name := by
  refine List.forall_mem_append.mpr ⟨fun name hname => ?_, fun name hname => ?_⟩
  · exact h.parent name (Option.mem_toList.mp hname)
  · obtain ⟨m, hm, hname⟩ := List.mem_flatMap.mp hname
    exact (h.bodies m hm).mentions_mem (h.typed m hm) hcs hret (c.known_self c.name rfl) name hname

/-! ### Every point of a check -/

/-- The environment at a point of a check, and the types that have been filled in so far. -/
structure Moment where
  env : Env
  types : List Ty

/-- The points that a log leads to from a point on. -/
def Moment.along (m : Moment) : List Event → List Moment
  | [] => [m]
  | .moved env :: rest => m :: along ⟨env, m.types⟩ rest
  | .typed ty :: rest => m :: along ⟨m.env, m.types ++ [ty]⟩ rest

/-- All points of the check of a program. -/
def Program.moments (p : Program) : List Moment := Moment.along ⟨.empty, []⟩ p.log

/-- What is named at a point is declared there. -/
structure Moment.Declared (m : Moment) : Prop where
  env : m.env.Declared
  types : ∀ τ ∈ m.types, τ.Known m.env.names

theorem Env.Run.declared_along {p : Program} {env env' : Env} {l : List Event}
    (h : Run p env l env') : ∀ {types : List Ty}, Moment.Declared ⟨env, types⟩ →
      ∀ m ∈ Moment.along ⟨env, types⟩ l, m.Declared := by
  induction h with
  | done => exact fun hm => List.forall_mem_singleton.mpr hm
  | @moved env env' op l hop _ ih =>
    intro types hm
    have hnext : Moment.Declared ⟨(op.step env).state, types⟩ :=
      ⟨Op.declared_step hop.guarded hm.env, fun τ hτ => (hm.types τ hτ).mono (op.names_step env)⟩
    exact List.forall_mem_cons.mpr ⟨hm, ih hnext⟩
  | typed hτ _ ih =>
    intro types hm
    refine List.forall_mem_cons.mpr ⟨hm, ih ⟨hm.env, ?_⟩⟩
    exact List.forall_mem_append.mpr ⟨hm.types, List.forall_mem_singleton.mpr (hτ hm.env)⟩

theorem Env.declared_empty : Env.empty.Declared := ⟨fun _ _ => nofun, List.forall_mem_nil _⟩

namespace Program

/-- **What is named is declared.** At every point of a check, whether it succeeds or fails, the
classes that the table, the locals and the types filled in so far name are declared, and nothing is
stored under type `void`. The points are those of the log, which leads by one operation after the
other to where the check ends, and the types filled in are those that the check adds to the tree. In
an accepted program each class mentions itself and classes before it only. -/
theorem named_is_declared (p : Program) :
    (∀ m ∈ p.moments, m.Declared) ∧
    (Env.Run p .empty p.log (p.check .empty).state.2 ∧ (p.check .empty).state.1.slots =
      (typesOf p.log).map .filled ++ p.slots.drop (typesOf p.log).length) ∧
    ∀ t q, p.analyze = .ok t q → ∀ l c r, q.classes = l ++ c :: r →
      ∀ name ∈ c.mentions, name ∈ l.map ClassDecl.name ∨ name = c.name := by
  refine ⟨p.run_log.declared_along ⟨Env.declared_empty, List.forall_mem_nil _⟩,
    ⟨p.run_log, p.slots_check⟩, fun t q h l c r hq name hname => ?_⟩
  obtain ⟨-, hok, -, -, -⟩ := of_analyze_ok h
  obtain ⟨hc, hcs, hret⟩ := hok.split hq
  have hmem := hc.mentions_mem hcs hret name hname
  rw [List.map_append, List.map_map, List.mem_append] at hmem
  exact hmem.imp_right List.mem_singleton.mp

/-- A class whose check breaks off at the last statement, where a name is not declared:

    class A { A next; A f(A a) { A b = new A(); b = a.f(b); return c; } } -/
def unfinished : Program := ⟨[
  ⟨.unknown, "A", none, [
    .field .unknown (.cls "A") "next",
    .method (.cls "A") "f" ⟨.unknown, [⟨.cls "A", "a"⟩], [
      .declare .unknown (.cls "A") "b" (some (.create .unset "A" [] .empty)),
      .assign .unknown (.var .unset none "b" .empty .empty)
        (.call .unset (some "a") "f" [.var .unset none "b" .empty .empty] .empty .empty),
      .ret .unknown (some (.var .unset none "c" .empty .empty))], .empty⟩]⟩]⟩

/-- Where the check of `unfinished` breaks off, four types are filled in and `b` is in scope. In
`overloading` the second class mentions the first. -/
theorem unfinished_declared :
    (unfinished.analyze.toExcept.isOk = false ∧ ∃ m ∈ unfinished.moments,
      m.types = [.cls "A", .cls "A", .cls "A", .cls "A"] ∧
      m.env.scopes.lookup "b" = some (.value (.cls "A")) ∧ "A" ∈ m.env.names ∧
      ∀ cls i, m.env.table.find? cls = some i → i.Declared m.env.names) ∧
    ∃ t q a b, overloading.analyze = .ok t q ∧ q.classes = [a, b] ∧ "A" ∈ b.mentions ∧
      ∀ name ∈ b.mentions, name = a.name ∨ name = b.name := by
  have hlast : (unfinished.moments.any fun m =>
      m.types = [.cls "A", .cls "A", .cls "A", .cls "A"] ∧
        m.env.scopes.lookup "b" = some (.value (.cls "A"))) = true := by
    decide +kernel
  obtain ⟨m, hm, hpoint⟩ := List.any_eq_true.mp hlast
  obtain ⟨htypes, hb⟩ := of_decide_eq_true hpoint
  have hdeclared := (named_is_declared unfinished).1 m hm
  have hA : "A" ∈ m.env.names :=
    hdeclared.types (.cls "A") (htypes ▸ List.mem_cons_self ..) "A" rfl
  refine ⟨⟨by decide +kernel, m, hm, htypes, hb, hA, hdeclared.env.classes⟩, ?_⟩
  obtain ⟨t, h⟩ : ∃ t, overloading.analyze = .ok t overloading.analyze.state :=
    Outcome.eq_ok_of_isOk (by decide +kernel)
  obtain ⟨a, b, hq⟩ : ∃ a b, overloading.analyze.state.classes = [a, b] :=
    List.length_eq_two.mp (by decide +kernel)
  have hmentions : overloading.analyze.state.classes.all fun c => c.mentions.contains "A" := by
    decide +kernel
  rw [hq] at hmentions
  have hb : "A" ∈ b.mentions := by simpa using List.all_eq_true.mp hmentions b (by simp)
  refine ⟨t, _, a, b, h, hq, hb, fun name hname => ?_⟩
  have hmem := (named_is_declared overloading).2.2 t _ h [a] b [] hq name hname
  simpa using hmem

end Program

end ClassLang
