import ClassLang.Proofs.Fault.Body

/-!
# The place that a fault is reported at

A check of a program ends in a fault exactly if the fault arises somewhere in it, and it is reported at
the innermost known place from there outward (`Program.analyze_reports_innermost`). What the bodies
contribute is known (`Stmt.blames_check`); what remains is the way to them, through the members of a
class, which are declared before any body is checked, and through the classes.
-/

namespace ClassLang

open Outcome

variable {env : Env}

/-! ### Declaring the members -/

theorem blames_declareField (cls : String) (sp : Span) (ty : Ty) (x : String) (replaced : Bool) :
    (declareField cls sp ty x env).Blames fun f path =>
      (Member.field sp ty x).Fails cls (replaced, env) f ∧ path = [.member (.field sp ty x)] := by
  have hadd : ∀ (old : Option Entity) (env' : Env), (if old.isSome then
      Outcome.error (.ofFault (.duplicateMember cls x)) env' else .ok () env').Blames fun f path =>
        (old.isSome = true ∧ f = .duplicateMember cls x) ∧ path = [] := by
    intro old env'
    cases old with
    | none => exact (Blames.ok _ _).congr fun f path => by simp
    | some e => exact (Blames.raise _ _).congr fun f path => by simp
  refine Blames.locate_own (.member (.field sp ty x)) ?_
  refine Blames.congr (Blames.ask (env.table.unplaced_requireStorage x ty) fun _ _ =>
    Blames.after (env.faultless_addField x ty) fun old env' _ => hadd old env') fun f path => ⟨?_, ?_⟩
  · rintro (⟨h, rfl⟩ | ⟨_, hty, old, env', h, ⟨hold, rfl⟩, rfl⟩)
    · exact ⟨.fieldType h, rfl⟩
    · obtain ⟨e, rfl⟩ := Option.isSome_iff_exists.mp hold
      exact ⟨.field hty h, rfl⟩
  · rintro ⟨h, rfl⟩
    cases h with
    | fieldType h => exact .inl ⟨h, rfl⟩
    | field hty h => exact .inr ⟨(), hty, _, _, h, ⟨rfl, rfl⟩, rfl⟩

theorem Routine.blames_declare (r : Routine) (cls : String) (s : Signature) (mayReplace : Bool) :
    (r.declare cls s mayReplace env).Blames fun f path =>
      ((∃ env', Env.addMethod s env = .ok false env') ∧ mayReplace = false ∧
        f = .duplicateMethod cls s.text) ∧ path = [] := by
  refine Blames.congr (Blames.after (env.faultless_addMethod s) fun isNew env' _ =>
    Blames.require _ _ _ _) fun f path => ⟨?_, ?_⟩
  · rintro ⟨isNew, env', h, ⟨hnot, rfl⟩, rfl⟩
    rw [Bool.not_eq_true, Bool.or_eq_false_iff] at hnot
    obtain ⟨rfl, hlate⟩ := hnot
    exact ⟨⟨⟨env', h⟩, hlate, rfl⟩, rfl⟩
  · rintro ⟨⟨⟨env', h⟩, rfl, rfl⟩, rfl⟩
    exact ⟨false, env', h, ⟨Bool.false_ne_true, rfl⟩, rfl⟩

/-- **The declaration of a member blames the member.** -/
theorem Member.blames_declare (cls : String) (replaced : Bool) (m : Member) :
    (m.declare cls replaced env).Blames fun f path =>
      m.Fails cls (replaced, env) f ∧ path = [.member m] := by
  cases m with
  | field sp ty x =>
    exact Blames.finish (blames_declareField cls sp ty x replaced) fun _ _ _ => .ok _ _
  | method ret name r =>
    refine Blames.locate_own (.member (.method ret name r)) ?_
    refine Blames.congr (Blames.ask (env.table.unplaced_requireDeclared ret) fun _ _ =>
      Blames.ask (env.table.unplaced_requireParams _) fun _ _ =>
      Blames.finish (r.blames_declare cls ⟨name, r.paramTypes, ret⟩ false) fun _ _ _ => .ok _ _)
      fun f path => ⟨?_, ?_⟩
    · rintro (⟨h, rfl⟩ | ⟨_, hret, ⟨h, rfl⟩ | ⟨_, hparams, ⟨⟨env', h⟩, -, rfl⟩, rfl⟩⟩)
      · exact ⟨.ret h, rfl⟩
      · exact ⟨.methodParams hret h, rfl⟩
      · exact ⟨.method hret hparams h, rfl⟩
    · rintro ⟨h, rfl⟩
      cases h with
      | ret h => exact .inl ⟨h, rfl⟩
      | methodParams hret h => exact .inr ⟨(), hret, .inl ⟨h, rfl⟩⟩
      | method hret hparams h =>
        exact .inr ⟨(), hret, .inr ⟨(), hparams, ⟨⟨_, h⟩, rfl, rfl⟩, rfl⟩⟩
  | constructor r =>
    refine Blames.locate_own (.member (.constructor r)) ?_
    refine Blames.congr (Blames.ask (env.table.unplaced_requireParams _) fun _ _ =>
      Blames.finish (r.blames_declare cls (.ofConstructor cls r.paramTypes) _) fun _ _ _ => .ok _ _)
      fun f path => ⟨?_, ?_⟩
    · rintro (⟨h, rfl⟩ | ⟨_, hparams, ⟨⟨env', h⟩, hlate, rfl⟩, rfl⟩)
      · exact ⟨.params h, rfl⟩
      · exact ⟨.constructor hparams h hlate, rfl⟩
    · rintro ⟨h, rfl⟩
      cases h with
      | params h => exact .inl ⟨h, rfl⟩
      | constructor hparams h hlate => exact .inr ⟨(), hparams, ⟨⟨_, h⟩, hlate, rfl⟩, rfl⟩

theorem Member.blames_declareList (cls : String) : ∀ (ms : List Member) (s : Bool × Env),
    (Member.declareList cls s.1 ms s.2).Blames fun f path => ∃ s' m,
      Reached (Member.Declares cls) s ms s' m ∧ m.Fails cls s' f ∧ path = [.member m]
  | [], _ => (Blames.ok _ _).congr fun _ _ => reached_nil_iff.symm
  | m :: rest, (replaced, env) => by
    rw [Member.declareList]
    refine Blames.congr (Blames.andThen (Q := fun replaced' r f path => ∃ s' m,
      Reached (Member.Declares cls) (replaced', r.2) rest s' m ∧ m.Fails cls s' f ∧
        path = [.member m]) (m.blames_declare cls replaced) fun replaced' r _ =>
      (Member.blames_declareList cls rest (replaced', r.2)).wrap) fun f path => ?_
    rw [reached_cons_iff]
    refine or_congr_right ⟨?_, ?_⟩
    · rintro ⟨replaced', ⟨m', env₁⟩, hm, h⟩
      exact ⟨(replaced', env₁), ⟨m', hm⟩, h⟩
    · rintro ⟨⟨replaced', env₁⟩, ⟨m', hm⟩, h⟩
      exact ⟨replaced', (m', env₁), hm, h⟩

/-! ### Checking the bodies -/

theorem faultless_declareParams : ∀ (params : List Param) (env : Env),
    (declareParams params env).Faultless
  | [], _ => .ok _ _
  | p :: rest, env => by
    rw [declareParams]
    exact Blames.finish (env.faultless_declareLocal _ _) fun _ env₁ _ => faultless_declareParams rest env₁

theorem Routine.blames_checkBody (r : Routine) (s : Signature) {n : Node} (hn : n.span = r.span) :
    (r.checkBody s env).Blames fun f path => ∃ rest, r.Raises env s f rest ∧ path = rest ++ [n] := by
  have hbody : ∀ env', (Outcome.locate r.span (Stmt.checkList r.body env')).Blames fun f path =>
      ∃ rest, Stmt.SomeRaises env' r.body f rest ∧ path = rest ++ [n] := by
    intro env'
    rw [← hn]
    exact (Stmt.blames_checkList r.body env').locate n
  refine Blames.congr (Blames.after (env.faultless_enterMethod s) fun _ env₁ _ =>
    Blames.after (faultless_declareParams r.params env₁) fun _ env₂ _ =>
    Blames.finish (hbody env₂) fun _ _ _ => (Env.faultless_leaveMethod _).wrap) fun f path => ⟨?_, ?_⟩
  · rintro ⟨_, env₁, henter, _, env₂, hparams, rest, h, rfl⟩
    exact ⟨rest, ⟨env₁, env₂, henter, hparams, h⟩, rfl⟩
  · rintro ⟨rest, ⟨env₁, env₂, henter, hparams, h⟩, rfl⟩
    exact ⟨(), env₁, henter, (), env₂, hparams, rest, h, rfl⟩

/-- The body of a member is checked once its signature has been recorded, but what is blamed is the
member that was given. -/
theorem Member.blames_checkBody (cls : String) (m : Member) :
    ((m.declared cls).checkBody env).Blames (m.Raises cls env) := by
  cases m with
  | field sp ty x =>
    refine (Blames.ok _ _).congr fun f path => ⟨False.elim, fun h => ?_⟩
    cases h
  | method ret name r =>
    rw [Member.declared, Member.checkBody, Routine.check_filled rfl]
    refine Blames.congr (Blames.wrap (Routine.blames_checkBody
      { r with signature := .filled ⟨name, r.paramTypes, ret⟩ } _ (n := .member (.method ret name r))
      rfl)) fun f path => ⟨?_, fun h => ?_⟩
    · rintro ⟨rest, h, rfl⟩
      exact .method h
    · cases h with
      | method h => exact ⟨_, h, rfl⟩
  | constructor r =>
    rw [Member.declared, Member.checkBody, Routine.check_filled rfl]
    refine Blames.congr (Blames.wrap (Routine.blames_checkBody
      { r with signature := .filled (.ofConstructor cls r.paramTypes) } _
      (n := .member (.constructor r)) rfl)) fun f path => ⟨?_, fun h => ?_⟩
    · rintro ⟨rest, h, rfl⟩
      exact .constructor h
    · cases h with
      | constructor h => exact ⟨_, h, rfl⟩

/-- The elements of a list are checked as they have been made by `given`. -/
theorem blames_checkEach {τ : Type} {check : τ → Env → Checked τ} {given : τ → τ}
    {passes : Env → τ → Env → Prop} {P : Env → τ → Fault → List Node → Prop}
    (h : ∀ x env, (check (given x) env).Blames (P env x))
    (hpass : ∀ x env env', passes env x env' ↔ ∃ x', check (given x) env = .ok () (x', env')) :
    ∀ (xs : List τ) (env : Env), (checkEach check (xs.map given) env).Blames fun f path =>
      ∃ env' x, Reached passes env xs env' x ∧ P env' x f path
  | [], _ => (Blames.ok _ _).congr fun _ _ => reached_nil_iff.symm
  | x :: rest, env => by
    rw [List.map_cons, checkEach]
    refine Blames.congr (Blames.andThen (Q := fun _ r f path => ∃ env' x,
      Reached passes r.2 rest env' x ∧ P env' x f path) (h x env) fun _ r _ =>
      (blames_checkEach h hpass rest r.2).wrap) fun f path => ?_
    rw [reached_cons_iff]
    refine or_congr_right ⟨?_, ?_⟩
    · rintro ⟨_, ⟨x', env₁⟩, hx, hrest⟩
      exact ⟨env₁, (hpass x env env₁).mpr ⟨x', hx⟩, hrest⟩
    · rintro ⟨env₁, hx, hrest⟩
      obtain ⟨x', hx⟩ := (hpass x env env₁).mp hx
      exact ⟨(), (x', env₁), hx, hrest⟩

theorem Member.blames_checkBodies (cls : String) (ms : List Member) :
    (checkEach Member.checkBody (ms.map (Member.declared cls)) env).Blames fun f path =>
      ∃ env' m, Reached (Member.Passes cls) env ms env' m ∧ m.Raises cls env' f path :=
  blames_checkEach (fun m _ => m.blames_checkBody cls) (fun _ _ _ => Iff.rfl) ms env

/-! ### Classes and programs -/

theorem blames_tieParent (parent : Option String) :
    (tieParent parent env).Blames fun f path =>
      (∃ q, parent = some q ∧ env.table.contains q = false ∧ f = .unknownType q) ∧ path = [] := by
  cases parent with
  | none => exact (Blames.ok _ _).congr fun f path => by simp
  | some q =>
    rw [tieParent]
    by_cases hq : env.table.contains q = true
    · rw [if_pos hq]
      exact (env.faultless_setParent q).congr fun f path => by simp [hq]
    · rw [if_neg hq]
      exact (Blames.raise _ _).congr fun f path => by simp [hq]

/-- **A check of a class blames the class, a member of it, or what is in a member.** -/
theorem ClassDecl.blames_check (c : ClassDecl) : (c.check env).Blames (c.Raises env) := by
  have hbodies : ∀ env₂ (r : List Member × Env),
      Member.declareList c.name false c.members env₂ = .ok () r →
      (checkEach Member.checkBody r.1 r.2).Blames fun f path => ∃ env' m,
        Reached (Member.Passes c.name) r.2 c.members env' m ∧ m.Raises c.name env' f path := by
    intro env₂ r h
    rw [Member.eq_of_declareList h]
    exact Member.blames_checkBodies c.name c.members
  refine Blames.congr
    (Blames.andThen ((env.blames_enterClass c.name).locate_own (.decl c)) fun _ env₁ _ =>
    Blames.andThen ((blames_tieParent c.parent).locate_own (.decl c)) fun _ env₂ _ =>
    Blames.andThen (Member.blames_declareList c.name c.members (false, env₂)) fun _ r hr =>
    Blames.finish (hbodies env₂ r hr) fun _ _ _ => (Env.faultless_leaveClass _).wrap)
    fun f path => ⟨?_, fun h => ?_⟩
  · rintro (⟨⟨hclosed, h, rfl⟩, rfl⟩ | ⟨_, env₁, henter, h⟩)
    · exact .duplicate hclosed h
    obtain ⟨⟨q, hq, h, rfl⟩, rfl⟩ | ⟨_, env₂, htie, h⟩ := h
    · exact .parent (of_locate henter) hq h
    obtain ⟨s, m, hm, h, rfl⟩ | ⟨_, ⟨ms, env₃⟩, hms, env₄, m, hm, h⟩ := h
    · exact .member (of_locate henter) (of_locate htie) hm h
    · exact .body (of_locate henter) (of_locate htie) hms hm h
  · have hlocated : ∀ {r : Outcome Env Unit} {env' : Env}, r = .ok () env' →
        r.locate c.span = .ok () env' := by
      rintro _ _ rfl
      rfl
    cases h with
    | duplicate hclosed h => exact .inl ⟨⟨hclosed, h, rfl⟩, rfl⟩
    | parent henter hq h =>
      exact .inr ⟨(), _, hlocated henter, .inl ⟨⟨_, hq, h, rfl⟩, rfl⟩⟩
    | member henter htie hm h =>
      exact .inr ⟨(), _, hlocated henter, .inr ⟨(), _, hlocated htie, .inl ⟨_, _, hm, h, rfl⟩⟩⟩
    | body henter htie hms hm h =>
      exact .inr ⟨(), _, hlocated henter, .inr ⟨(), _, hlocated htie, .inr ⟨(), _, hms, _, _, hm, h⟩⟩⟩

theorem Program.blames_analyze (p : Program) : p.analyze.Blames p.Raises := by
  have hclasses : (checkEach ClassDecl.check (p.classes.map id) .empty).Blames p.Raises :=
    blames_checkEach (fun c _ => c.blames_check) (fun _ _ _ => Iff.rfl) p.classes .empty
  rw [List.map_id] at hclasses
  exact Blames.finish hclasses.wrap fun _ _ _ => .ok _ _

/-- **An analysis that ends in a fault reports the place of the node where it arises**, or, where that is
not known, of the nearest one around it that is. A fault of a class or of the declaration of a member is
reported there and nowhere else; the place of a fault in a body is unknown only if none on the way from
the node to the method or constructor is known. -/
theorem Program.analyze_reports_innermost (p : Program) (f : Fault) (sp : Span) :
    ((∃ q, p.analyze = .error (.fault f sp) q) ↔
      ∃ path, p.Raises f path ∧ sp = Node.reported path) ∧
    (∀ n : Node, Node.reported [n] = n.span) ∧
    ∀ path, (Node.reported path).isUnknown = true ↔ ∀ n ∈ path, n.span.isUnknown = true :=
  ⟨p.blames_analyze f sp, Node.reported_singleton, fun _ => Node.isUnknown_reported_iff⟩

/-- A name that is not declared, in a condition without a place: the loop around it has one. -/
example : (Program.analyze ⟨[⟨.point 1 1, "A", none, [.method .void "f" ⟨.point 2 3, [],
    [.block (.point 2 12) [.loop (.point 3 5)
      (.unary ⟨.unknown, .empty⟩ .not (.var ⟨.unknown, .empty⟩ none "x" .empty .empty)) []]],
    .empty⟩]⟩]⟩).toExcept = .error (.fault (.undeclaredMember "A" "x") (.point 3 5)) := by
  decide +kernel

end ClassLang
