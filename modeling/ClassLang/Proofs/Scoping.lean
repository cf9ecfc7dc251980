import ClassLang.Proofs.Compile
import ClassLang.Proofs.Typing.Determined

/-!
# Names are written by where they are declared

The code of a name is chosen by the slot that the checker filled, and the checker filled it from the
frames that were open at that moment. Here is the rule without slots and frames.

An expression stands in a body after some statements of the same block and of the blocks around it
(`Stmt.Stands`). A name that one of these statements declares, or that is a parameter, is a variable
and is written as one. Any other name is a field of the receiver, found in the nearest class on the
way up from the receiver's class, and is written as a member of the receiver. This holds for bare
names and for the objects of accesses and calls alike (`Program.written_by_scope`).

A declaration counts for the statements after it: not for its own initial value, not before it, and
not after the end of its block.
-/

namespace ClassLang

variable {Γ Δ : Context} {n e : Expr} {s : Stmt} {x : String} {τ : Ty} {vb : VarBinding}
  {cs ds : List Outline}

/-! ### Places in a body -/

namespace Stmt

/-- The name that a statement declares for the statements after it. -/
def declared? : Stmt → Option (String × Ty)
  | .declare _ ty name _ => some (name, ty)
  | _ => none

/-- The names that statements declare for what follows them, the last one first. -/
def declaredBy (ss : List Stmt) : List (String × Ty) := (ss.filterMap declared?).reverse

/-- The expressions of a statement that stand in no block of it. -/
def exprs : Stmt → List Expr
  | .block .. => []
  | .ifThen _ c _ | .ifElse _ c _ _ | .loop _ c _ => [c]
  | .assign _ target value => [target, value]
  | .declare _ _ _ init => init.toList
  | .ret _ value => value.toList
  | .print _ value | .eval _ value => [value]

/-- The blocks of a statement. -/
def blocks : Stmt → List (List Stmt)
  | .block _ body | .ifThen _ _ body | .loop _ _ body => [body]
  | .ifElse _ _ body alternative => [body, alternative]
  | _ => []

/-- The expression stands in a block of statements. The names are those that statements before it
declare, in its own block and in the blocks around it, innermost first. -/
inductive Stands : List Stmt → List (String × Ty) → Expr → Prop
  | own {before after : List Stmt} {s : Stmt} {e n : Expr} (he : e ∈ s.exprs) (hn : n ∈ e.nodes) :
    Stands (before ++ s :: after) (declaredBy before) n
  | inner {before after block : List Stmt} {s : Stmt} {l : List (String × Ty)} {n : Expr}
    (hb : block ∈ s.blocks) (h : Stands block l n) :
    Stands (before ++ s :: after) (l ++ declaredBy before) n

end Stmt

/-- The context with further names in scope. -/
def Context.bindAll (Γ : Context) (l : List (String × Ty)) : Context :=
  { Γ with locals := l ++ Γ.locals }

theorem Context.bindAll_append (Γ : Context) (l l' : List (String × Ty)) :
    (Γ.bindAll l').bindAll l = Γ.bindAll (l ++ l') := by
  rw [bindAll, bindAll, bindAll, List.append_assoc]

namespace Stmt

theorem after_eq (Γ : Context) (s : Stmt) : s.after Γ = Γ.bindAll s.declared?.toList := by
  cases s <;> rfl

theorem declaredBy_append (ss ss' : List Stmt) :
    declaredBy (ss ++ ss') = declaredBy ss' ++ declaredBy ss := by
  simp [declaredBy]

theorem declaredBy_singleton (s : Stmt) : declaredBy [s] = s.declared?.toList := by
  cases h : s.declared? with
  | none => simp [declaredBy, h]
  | some d => simp [declaredBy, h]

theorem after_bindAll (Γ : Context) (before : List Stmt) (s : Stmt) :
    s.after (Γ.bindAll (declaredBy before)) = Γ.bindAll (declaredBy (before ++ [s])) := by
  rw [after_eq, Context.bindAll_append, declaredBy_append, declaredBy_singleton]

/-- Statements leave the names they declare in scope. -/
theorem sitesList_append : ∀ (before rest : List Stmt) (Γ : Context),
    sitesList Γ (before ++ rest) =
      sitesList Γ before ++ sitesList (Γ.bindAll (declaredBy before)) rest
  | [], _, _ => rfl
  | s :: before, rest, Γ => by
    have hfirst : (s.after Γ).bindAll (declaredBy before) =
        Γ.bindAll (declaredBy (s :: before)) := by
      rw [after_eq, Context.bindAll_append, ← declaredBy_singleton, ← declaredBy_append]
      rfl
    rw [List.cons_append, sitesList, sitesList, sitesList_append before rest (s.after Γ), hfirst,
      List.append_assoc]

/-- An expression of a statement is one of its own, or stands in one of its blocks. -/
theorem mem_sites_iff : (Δ, n) ∈ s.sites Γ ↔ (Δ = Γ ∧ ∃ e ∈ s.exprs, n ∈ e.nodes) ∨
    ∃ block ∈ s.blocks, (Δ, n) ∈ sitesList Γ block := by
  have hexpr : ∀ e : Expr, (Δ, n) ∈ e.sites Γ ↔ Δ = Γ ∧ n ∈ e.nodes := by
    intro e
    rw [Expr.sites, List.mem_map]
    constructor
    · rintro ⟨_, hn, heq⟩
      cases heq
      exact ⟨rfl, hn⟩
    · rintro ⟨rfl, hn⟩
      exact ⟨n, hn, rfl⟩
  have hoption : ∀ e : Option Expr, (Δ, n) ∈ Expr.sitesOption Γ e ↔
      Δ = Γ ∧ ∃ e' ∈ e.toList, n ∈ e'.nodes := by
    intro e
    cases e with
    | none => simp [Expr.sitesOption]
    | some e => simp [Expr.sitesOption, hexpr]
  cases s <;> simp only [sites, exprs, blocks, List.mem_append, hexpr, hoption, List.mem_cons,
    List.not_mem_nil, or_false, false_or, exists_eq_or_imp, exists_eq_left, and_or_left, false_and,
    exists_false, and_false]

/-- The place of an expression is among the sites. -/
theorem mem_sitesList_of_stands {body : List Stmt} {l : List (String × Ty)} (h : Stands body l n) :
    ∀ Γ, (Γ.bindAll l, n) ∈ sitesList Γ body := by
  induction h with
  | own he hn =>
    intro Γ
    rw [sitesList_append, sitesList]
    exact List.mem_append_right _ (List.mem_append_left _
      (mem_sites_iff.mpr (.inl ⟨rfl, _, he, hn⟩)))
  | @inner before _ block s l _ hb _ ih =>
    intro Γ
    have hin := ih (Γ.bindAll (declaredBy before))
    rw [Context.bindAll_append] at hin
    rw [sitesList_append, sitesList]
    exact List.mem_append_right _ (List.mem_append_left _
      (mem_sites_iff.mpr (.inr ⟨block, hb, hin⟩)))

theorem sizeOf_lt_of_mem_blocks {block : List Stmt} (h : block ∈ s.blocks) :
    sizeOf block < sizeOf s := by
  cases s <;> simp only [blocks, List.mem_cons, List.not_mem_nil, or_false] at h
  case ifElse =>
    rcases h with rfl | rfl
    · simp +arith
    · simp +arith
  all_goals
    subst h
    simp +arith

/-- Every site of a block is a place in it, after the statements `before`. -/
theorem stands_of_mem_sitesList : ∀ (Γ : Context) (before ss : List Stmt),
    (Δ, n) ∈ sitesList (Γ.bindAll (declaredBy before)) ss →
      ∃ l, Stands (before ++ ss) l n ∧ Δ = Γ.bindAll l
  | _, _, [], h => by cases h
  | Γ, before, s :: rest, h => by
    rw [sitesList, List.mem_append] at h
    rcases h with h | h
    · rcases mem_sites_iff.mp h with ⟨rfl, e, he, hn⟩ | ⟨block, hb, hin⟩
      · exact ⟨_, .own he hn, rfl⟩
      · have hsmaller := sizeOf_lt_of_mem_blocks hb
        obtain ⟨l, hl, hΔ⟩ :=
          stands_of_mem_sitesList (Γ.bindAll (declaredBy before)) [] block hin
        rw [Context.bindAll_append] at hΔ
        exact ⟨_, .inner hb hl, hΔ⟩
    · rw [after_bindAll] at h
      have hrest := stands_of_mem_sitesList Γ (before ++ [s]) rest h
      rwa [List.append_assoc, List.singleton_append] at hrest
termination_by _ _ ss => sizeOf ss
decreasing_by
  all_goals
    rw [List.cons.sizeOf_spec]
    omega

end Stmt

/-! ### Names and their code -/

/-- What is found in some classes is found in more of them. -/
theorem Nearest.mono {P : Outline → Prop} {cls : String} {d : Outline} (hsub : cs ⊆ ds)
    (h : Nearest cs P cls d) : Nearest ds P cls d := by
  induction h with
  | here hc hname hP => exact .here (hsub hc) hname hP
  | up hc hname hP hq _ ih => exact .up (hsub hc) hname hP hq ih

namespace Expr

/-- The name that an expression looks up by itself, with the slot for its meaning: a bare variable,
or the object of an access or a call. -/
def name? : Expr → Option (String × Slot VarBinding)
  | .var _ none x b _ => some (x, b)
  | .var _ (some o) _ _ ob => some (o, ob)
  | .call _ (some o) _ _ _ ob => some (o, ob)
  | _ => none

/-- The expression is written with `code` for the name it looks up: as the name itself, as a member
of it, or as a call on it. -/
inductive WrittenOver (code : String) : Expr → Prop
  | var {m : Mark} {x : String} {b ob : Slot VarBinding}
    (h : (Expr.var m none x b ob).code = .ok code) : WrittenOver code (.var m none x b ob)
  | field {m : Mark} {o x : String} {b ob : Slot VarBinding}
    (h : (Expr.var m (some o) x b ob).code = .ok s!"{code}->$MEMBER({x})") :
    WrittenOver code (.var m (some o) x b ob)
  | call {m : Mark} {o f : String} {args : List Expr} {target : MethodBinding}
    {ob : Slot VarBinding} {codes : List String} (hargs : Expr.codeList args = .ok codes)
    (h : (Expr.call m (some o) f args (.filled target) ob).code =
      .ok (s!"$METHOD({target.owner}, {target.method.symbol})(" ++
        ", ".intercalate (code :: codes) ++ ")")) :
    WrittenOver code (.call m (some o) f args (.filled target) ob)

end Expr

/-- A name other than the receiver's means the local there is, or the nearest field of that name on
the way up from the receiver's class. -/
theorem Context.Var.of_ne_receiver (h : Γ.Var x τ vb) (hx : x ≠ receiverName) :
    (x ∈ Γ.locals.map Prod.fst → vb = .scope) ∧ (x ∉ Γ.locals.map Prod.fst →
      ∃ R owner, Γ.Declares receiverName (.cls R) ∧
        Nearest Γ.classes (fun d => x ∈ d.fields.map Prod.fst) R owner ∧
        vb = .member owner.name) := by
  cases h with
  | scope _ hdecl =>
    have hin : x ∈ Γ.locals.map Prod.fst := List.mem_map_of_mem (mem_of_lookup hdecl)
    exact ⟨fun _ => rfl, fun hout => absurd hin hout⟩
  | member hname hthis hfield =>
    have hnone : Γ.locals.lookup x = none := hname.resolve_left hx
    refine ⟨fun hin => ?_, fun _ => ⟨_, _, hthis, hfield.nearest, rfl⟩⟩
    obtain ⟨⟨y, σ⟩, hmem, rfl⟩ := List.mem_map.mp hin
    have hdiff := List.lookup_eq_none_iff.mp hnone _ hmem
    simp at hdiff

/-- The name of an annotated expression is looked up where the expression stands, and written by
what was found. -/
theorem HasType.name_eq {b : Slot VarBinding} (h : HasType .annotated Γ e τ)
    (hname : e.name? = some (x, b)) (hx : x ≠ receiverName) :
    ∃ σ vb, Γ.Var x σ vb ∧ b = .filled vb ∧ e.WrittenOver (objectCode x b) := by
  have hobject : ∀ {o cls vb}, Γ.Object (some o) cls vb → o ≠ receiverName →
      Γ.Var o (.cls cls) vb := by
    intro o cls vb ho hne
    cases ho with
    | receiver => exact absurd rfl hne
    | named _ hvar => exact hvar
  cases h with
  | var hvar _ hb =>
    cases hname
    exact ⟨_, _, hvar, hb, .var rfl⟩
  | field ho _ _ _ hob =>
    cases hname
    exact ⟨_, _, hobject ho hx, hob, .field rfl⟩
  | @call m o f cls args b ob vb tys target ho hargs _ _ hb hob =>
    cases o with
    | none => cases hname
    | some o =>
      cases hname
      obtain ⟨codes, hcodes⟩ := hargs.codeList_eq_ok
      obtain rfl : b = .filled target := hb
      refine ⟨_, _, hobject ho hx, hob rfl, .call hcodes ?_⟩
      rw [Expr.code, hcodes]
      rfl
  | _ => cases hname

/-! ### Programs -/

/-- The parameters and the body of a member that has them. -/
def Member.routine? : Member → Option Routine
  | .field .. => none
  | .method _ _ r | .constructor r => some r

/-- The names in scope in a body of class `cls`, innermost first: those that statements declare, the
parameters, and the receiver. -/
def Routine.scope (cls : String) (r : Routine) (declared : List (String × Ty)) :
    List (String × Ty) :=
  declared ++ ((r.params.map fun p => (p.name, p.ty)).reverse ++ [(receiverName, .cls cls)])

theorem Routine.mem_scope_iff {cls : String} {r : Routine} {l : List (String × Ty)}
    (hx : x ≠ receiverName) : x ∈ (r.scope cls l).map Prod.fst ↔
      x ∈ l.map Prod.fst ∨ x ∈ r.params.map Param.name := by
  simp [scope, hx]

/-- The receiver is of the class of the body, unless its name is given to something else. -/
theorem Routine.lookup_receiver {cls : String} {r : Routine} {l : List (String × Ty)}
    (h : ¬ (receiverName ∈ l.map Prod.fst ∨ receiverName ∈ r.params.map Param.name)) :
    (r.scope cls l).lookup receiverName = some (.cls cls) := by
  refine List.lookup_eq_some_iff.mpr
    ⟨l ++ (r.params.map fun p => (p.name, p.ty)).reverse, [], by simp [scope], fun d hd => ?_⟩
  rw [bne_iff_ne]
  rintro heq
  refine h ?_
  rcases List.mem_append.mp hd with hd | hd
  · exact .inl (heq ▸ List.mem_map_of_mem hd)
  · obtain ⟨p, hp, rfl⟩ := List.mem_map.mp (List.mem_reverse.mp hd)
    exact .inr (heq ▸ List.mem_map_of_mem hp)

/-- A place in a body is a site, with the names in scope there. -/
theorem Member.mem_sites_of_stands {m : Member} {r : Routine} {l : List (String × Ty)}
    (hr : m.routine? = some r) (h : Stmt.Stands r.body l e) (cs : List Outline) (cls : String) :
    ∃ Γ, (Γ, e) ∈ m.sites cs cls ∧ Γ.locals = r.scope cls l := by
  cases m with
  | field => cases hr
  | method ret f r' =>
    cases hr
    exact ⟨_, Stmt.mem_sitesList_of_stands h (.ofBody cs cls ret r.params), rfl⟩
  | constructor r' =>
    cases hr
    exact ⟨_, Stmt.mem_sitesList_of_stands h (.ofBody cs cls (.cls cls) r.params), rfl⟩

/-- Every site of a body is a place in it. -/
theorem Member.stands_of_mem_sites {m : Member} {cls : String} (h : (Γ, e) ∈ m.sites cs cls) :
    ∃ r l, m.routine? = some r ∧ Stmt.Stands r.body l e ∧ Γ.locals = r.scope cls l := by
  cases m with
  | field => cases h
  | method ret f r =>
    obtain ⟨l, hl, rfl⟩ := Stmt.stands_of_mem_sitesList (.ofBody cs cls ret r.params) [] r.body h
    exact ⟨r, l, rfl, hl, rfl⟩
  | constructor r =>
    obtain ⟨l, hl, rfl⟩ :=
      Stmt.stands_of_mem_sitesList (.ofBody cs cls (.cls cls) r.params) [] r.body h
    exact ⟨r, l, rfl, hl, rfl⟩

namespace Program

/-- **Names are written by where they are declared.** In a body of an accepted program, take a name
other than `this` that stands alone, or is the object of an access or a call. If it is a parameter
or declared by a statement before it in its block or in a block around it, it is written as a
variable. Otherwise it is written as a member of the receiver, and its slot names the nearest class
that declares the field, on the way up from the class that `this` has there. That is the class of
the body, unless a parameter or a local is called `this`. -/
theorem written_by_scope {p q : Program} {t : ClassTable} {c : ClassDecl} {m : Member} {r : Routine}
    {l : List (String × Ty)} {b : Slot VarBinding} (h : p.analyze = .ok t q) (hc : c ∈ q.classes)
    (hm : m ∈ c.members) (hr : m.routine? = some r) (hs : Stmt.Stands r.body l e)
    (hname : e.name? = some (x, b)) (hx : x ≠ receiverName) :
    (x ∈ l.map Prod.fst ∨ x ∈ r.params.map Param.name →
      b = .filled .scope ∧ e.WrittenOver s!"$VAR({x})") ∧
    (¬ (x ∈ l.map Prod.fst ∨ x ∈ r.params.map Param.name) →
      ∃ R owner, (r.scope c.name l).lookup receiverName = some (.cls R) ∧
        (¬ (receiverName ∈ l.map Prod.fst ∨ receiverName ∈ r.params.map Param.name) →
          R = c.name) ∧
        Nearest q.outlines (fun d => x ∈ d.fields.map Prod.fst) R owner ∧
        b = .filled (.member owner.name) ∧ e.WrittenOver s!"$VAR(this)->$MEMBER({x})") := by
  obtain ⟨-, hok, -, -, -⟩ := of_analyze_ok h
  obtain ⟨before, after, hq⟩ := List.append_of_mem hc
  obtain ⟨hcok, -, -⟩ := hok.split hq
  obtain ⟨Γ, hsite, hlocals⟩ :=
    Member.mem_sites_of_stands hr hs (before.map ClassDecl.outline ++ [c.outline]) c.name
  obtain ⟨hclasses, τ, he⟩ := (hcok.bodies m hm).typed_sites _ hsite
  have hsub : Γ.classes ⊆ q.outlines := by
    rw [show Γ.classes = _ from hclasses]
    exact outlines_of_split hq
  obtain ⟨σ, vb, hvar, rfl, hcode⟩ := he.name_eq hname hx
  obtain ⟨hin, hout⟩ := hvar.of_ne_receiver hx
  rw [hlocals, Routine.mem_scope_iff hx] at hin hout
  constructor
  · intro hvisible
    obtain rfl := hin hvisible
    exact ⟨rfl, hcode⟩
  · intro hhidden
    obtain ⟨R, owner, hthis, hnearest, rfl⟩ := hout hhidden
    rw [Context.Declares, hlocals] at hthis
    refine ⟨R, owner, hthis, fun hown => ?_, hnearest.mono hsub, rfl, hcode⟩
    rw [Routine.lookup_receiver hown] at hthis
    cases hthis
    rfl

/-- A field that is hidden for a while, in a block and then to the end of the body:

    class A { int x; A next; int g() { return 1; } }
    class B extends A {
      void f(int y) { { int x = x; print x; } print x; int x = y; print x; print next.x; next.g(); }
    } -/
def veiled : Program :=
  let name (x : String) : Expr := .var .unset none x .empty .empty
  ⟨[
  ⟨.unknown, "A", none, [
    .field .unknown .int "x",
    .field .unknown (.cls "A") "next",
    .method .int "g" ⟨.unknown, [], [.ret .unknown (some (.number .unset 1))], .empty⟩]⟩,
  ⟨.unknown, "B", some "A", [
    .method .void "f" ⟨.unknown, [⟨.int, "y"⟩], [
      .block .unknown [.declare .unknown .int "x" (some (name "x")), .print .unknown (name "x")],
      .print .unknown (name "x"),
      .declare .unknown .int "x" (some (name "y")),
      .print .unknown (name "x"),
      .print .unknown (.var .unset (some "next") "x" .empty .empty),
      .eval .unknown (.call .unset (some "next") "g" [] .empty .empty)], .empty⟩]⟩]⟩

/-- In class `B` of `veiled` the name `x` is written as a variable where a local hides the field,
and as the field elsewhere. The object of `next.x` and `next.g()` is a field, found in `A`. -/
theorem veiled_written : ∃ t q c, veiled.analyze = .ok t q ∧ c ∈ q.classes ∧ c.name = "B" ∧
    (∃ m ∈ c.members, ∃ r l e b, m.routine? = some r ∧ Stmt.Stands r.body l e ∧
      e.name? = some ("x", b) ∧ b = .filled .scope ∧ e.WrittenOver "$VAR(x)") ∧
    (∃ m ∈ c.members, ∃ r l e b, m.routine? = some r ∧ Stmt.Stands r.body l e ∧
      e.name? = some ("x", b) ∧ e.WrittenOver "$VAR(this)->$MEMBER(x)") ∧
    ∀ code ∈ ["$VAR(this)->$MEMBER(next)->$MEMBER(x)",
        "$METHOD(A, g_03f41204e12e26ae)($VAR(this)->$MEMBER(next))"],
      ∃ m ∈ c.members, ∃ r l e, m.routine? = some r ∧ Stmt.Stands r.body l e ∧
        e.name? = some ("next", .filled (.member "A")) ∧
        e.WrittenOver "$VAR(this)->$MEMBER(next)" ∧ e.code.toOption = some code := by
  obtain ⟨t, h⟩ : ∃ t, veiled.analyze = .ok t veiled.analyze.state :=
    Outcome.eq_ok_of_isOk (by decide +kernel)
  -- a place of each kind, with the names in scope there
  have hsites : veiled.analyze.state.classes.any (fun c => c.name == "B" &&
      (([true, false].all fun hidden => c.members.any fun m =>
        (m.sites [] c.name).any fun site =>
          (site.2.name?.map Prod.fst == some "x") &&
            (site.1.locals.map Prod.fst).contains "x" == hidden) &&
      ["$VAR(this)->$MEMBER(next)->$MEMBER(x)",
        "$METHOD(A, g_03f41204e12e26ae)($VAR(this)->$MEMBER(next))"].all fun code =>
          c.members.any fun m => (m.sites [] c.name).any fun site =>
            (site.2.name? == some ("next", .filled (.member "A"))) &&
              ((site.1.locals.map Prod.fst).contains "next" == false &&
                site.2.code.toOption == some code))) = true := by decide +kernel
  simp only [List.any_eq_true, Bool.and_eq_true, beq_iff_eq, List.all_eq_true, List.mem_cons,
    List.not_mem_nil, or_false, forall_eq_or_imp, forall_eq, List.contains_eq_mem,
    Option.map_eq_some_iff, Prod.exists, decide_eq_true_eq, decide_eq_false_iff_not] at hsites
  obtain ⟨c, hc, hname, ⟨⟨m, hm, Γ, e, hs, ⟨x, b, hb, rfl⟩, hin⟩,
    ⟨m', hm', Γ', e', hs', ⟨x, b', hb', rfl⟩, hout⟩⟩, haccess, hcall⟩ := hsites
  have hne : "x" ≠ receiverName := by decide
  obtain ⟨r, l, hr, hl, hlocals⟩ := Member.stands_of_mem_sites hs
  obtain ⟨r', l', hr', hl', hlocals'⟩ := Member.stands_of_mem_sites hs'
  rw [hlocals, Routine.mem_scope_iff hne] at hin
  rw [hlocals', Routine.mem_scope_iff hne] at hout
  obtain ⟨hslot, hcode⟩ := (written_by_scope h hc hm hr hl hb hne).1 hin
  obtain ⟨-, -, -, -, -, -, hcode'⟩ := (written_by_scope h hc hm' hr' hl' hb' hne).2 hout
  -- an object called `next` is written as the field where no local has the name
  have hnext : ∀ {m Γ e}, m ∈ c.members → (Γ, e) ∈ m.sites [] c.name →
      e.name? = some ("next", .filled (.member "A")) → "next" ∉ Γ.locals.map Prod.fst →
      ∃ r l, m.routine? = some r ∧ Stmt.Stands r.body l e ∧
        e.WrittenOver "$VAR(this)->$MEMBER(next)" := by
    intro m Γ e hm hs hb hout
    have hne : "next" ≠ receiverName := by decide
    obtain ⟨r, l, hr, hl, hlocals⟩ := Member.stands_of_mem_sites hs
    rw [hlocals, Routine.mem_scope_iff hne] at hout
    obtain ⟨-, -, -, -, -, -, hcode⟩ := (written_by_scope h hc hm hr hl hb hne).2 hout
    exact ⟨r, l, hr, hl, hcode⟩
  refine ⟨t, _, c, h, hc, hname, ⟨m, hm, r, l, e, b, hr, hl, hb, hslot, hcode⟩,
    ⟨m', hm', r', l', e', b', hr', hl', hb', hcode'⟩, ?_⟩
  rw [List.forall_mem_cons, List.forall_mem_singleton]
  obtain ⟨n, hn, Δ, a, hsa, ha, houta, hcodea⟩ := haccess
  obtain ⟨n', hn', Δ', a', hsa', ha', houta', hcodea'⟩ := hcall
  obtain ⟨s, k, hsn, hk, hover⟩ := hnext hn hsa ha houta
  obtain ⟨s', k', hsn', hk', hover'⟩ := hnext hn' hsa' ha' houta'
  exact ⟨⟨n, hn, s, k, a, hsn, hk, ha, hover, hcodea⟩,
    n', hn', s', k', a', hsn', hk', ha', hover', hcodea'⟩

end Program

end ClassLang
