import ClassLang.Proofs.Check.Points
import ClassLang.Proofs.Compile

/-!
# Parents, and the ways up from a class

A class counts as declared where its parent is looked for, so a class may be its own parent. That is
the only ring there can be: in the table of an accepted program the parent of a class is declared
before it, or is the class itself (`Program.parent_before_or_self`).

Where no class names itself, every way up from a class has an end at every point of the check, and
so has every search along it. So the check ends too, although nothing limits its searches
(`Program.searches_end`).
-/

namespace ClassLang

variable {p q : Program} {t : ClassTable} {c d : ClassInfo} {cls : String}

/-! ### Rings of parents -/

namespace ClassTable

/-- From a class that has a record to its parent. -/
def Link (t : ClassTable) (c d : ClassInfo) : Prop :=
  (∃ cls, t.find? cls = some c) ∧ t.parent? c = some d

namespace Ordered

theorem mem_of_link (h : t.Ordered) (hl : t.Link c d) : c ∈ t.classes := by
  obtain ⟨⟨cls, hc⟩, -⟩ := hl
  exact (h.sound.inStep.find?_eq_some_iff.mp hc).1

theorem index_le_of_link (h : t.Ordered) (hl : t.Link c d) : t.index d.name ≤ t.index c.name := by
  rcases (h.parent?_cases (h.mem_of_link hl) hl.2).2.2 with hlt | rfl
  · exact hlt.le
  · exact le_rfl

theorem index_le_of_reflTransGen (h : t.Ordered) (hl : Relation.ReflTransGen t.Link c d) :
    t.index d.name ≤ t.index c.name := by
  induction hl with
  | refl => exact le_rfl
  | tail _ hlast ih => exact (h.index_le_of_link hlast).trans ih

/-- A class that is reached from itself is its own parent. -/
theorem ring_iff (h : t.Ordered) (hc : c ∈ t.classes) :
    Relation.TransGen t.Link c c ↔ c.parent = some c.name := by
  constructor
  · intro hring
    -- the ring goes by the parent `d` of `c`, so `d` is not declared before `c`
    obtain ⟨d, hd, hback⟩ := Relation.TransGen.head'_iff.mp hring
    obtain ⟨-, hparent, hbefore⟩ := h.parent?_cases hc hd.2
    have hle := h.index_le_of_reflTransGen hback
    rcases hbefore with hlt | rfl
    · omega
    · exact hparent
  · intro hself
    refine .single ⟨⟨c.name, h.find?_of_mem hc⟩, ?_⟩
    rw [parent?, hself, Option.bind_some]
    exact h.find?_of_mem hc

theorem no_ring_iff (h : t.Ordered) : (∀ c, ¬ Relation.TransGen t.Link c c) ↔ t.NoneSelf := by
  rw [h.sound.inStep.noneSelf_iff]
  constructor
  · exact fun hno c hc hself => hno c ((h.ring_iff hc).mpr hself)
  · intro hnone c hring
    obtain ⟨d, hd, -⟩ := Relation.TransGen.head'_iff.mp hring
    have hc := h.mem_of_link hd
    exact hnone c hc ((h.ring_iff hc).mp hring)

end Ordered

end ClassTable

namespace Program

theorem ordered_points (p : Program) :
    (∀ env ∈ p.points, env.table.Ordered) ∧ ∀ t q, p.analyze = .ok t q → t.Ordered :=
  p.forall_tables ClassTable.ordered_empty fun _ _ _ hop heff h => heff.ordered hop h

/-- The table of an accepted program has its classes and their parents. -/
theorem parents_of_analyze (h : p.analyze = .ok t q) :
    t.classes.map (fun i => (i.name, i.parent)) = p.classes.map fun c => (c.name, c.parent) := by
  obtain ⟨-, -, hbare, hrecords, -⟩ := of_analyze_ok h
  rw [outlines_eq_of_bare hbare] at hrecords
  rw [← List.forall₂_eq_eq_eq, List.forall₂_map_left_iff, List.forall₂_map_right_iff]
  have houtlines := List.forall₂_map_right_iff.mp hrecords.classes
  exact houtlines.imp fun i c hi => Prod.ext hi.name hi.parent

theorem noneSelf_iff (h : p.analyze = .ok t q) :
    t.NoneSelf ↔ ∀ c ∈ p.classes, c.parent ≠ some c.name := by
  have hmap : (∀ e ∈ t.classes.map fun i => (i.name, i.parent), e.2 ≠ some e.1) ↔
      ∀ e ∈ p.classes.map fun c => (c.name, c.parent), e.2 ≠ some e.1 := by
    rw [parents_of_analyze h]
  rw [List.forall_mem_map, List.forall_mem_map] at hmap
  exact (p.ordered_points.2 t q h).sound.inStep.noneSelf_iff.trans hmap

/-- **In an accepted program a parent is declared before the class, or is the class itself.** So a
class is reached from itself only if it is its own parent, and there is no ring just if no class
names itself. -/
theorem parent_before_or_self (h : p.analyze = .ok t q) :
    t.classes.map (fun i => (i.name, i.parent)) = p.classes.map (fun c => (c.name, c.parent)) ∧
      (∀ c ∈ t.classes, ∀ r, c.parent = some r → ∃ d, t.parent? c = some d ∧ d.name = r ∧
        (t.index d.name < t.index c.name ∨ d = c)) ∧
      (∀ c ∈ t.classes, Relation.TransGen t.Link c c ↔ c.parent = some c.name) ∧
      ((∀ c, ¬ Relation.TransGen t.Link c c) ↔ ∀ c ∈ p.classes, c.parent ≠ some c.name) := by
  have hordered := p.ordered_points.2 t q h
  refine ⟨parents_of_analyze h, fun c hc r hr => ?_, fun c hc => hordered.ring_iff hc, ?_⟩
  · obtain ⟨d, -, hd⟩ := hordered.exists_parent hc hr
    exact ⟨d, hd⟩
  · exact hordered.no_ring_iff.trans (noneSelf_iff h)

/-- In `overloading` no class is reached from itself. -/
theorem overloading_without_ring : ∃ t q, overloading.analyze = .ok t q ∧
    t.classes.map (fun i => (i.name, i.parent)) = [("A", none), ("B", some "A")] ∧
      ∀ c, ¬ Relation.TransGen t.Link c c := by
  obtain ⟨t, h⟩ : ∃ t, overloading.analyze = .ok t overloading.analyze.state :=
    Outcome.eq_ok_of_isOk (by decide +kernel)
  obtain ⟨hparents, -, -, hring⟩ := parent_before_or_self h
  exact ⟨t, _, h, hparents, hring.mpr (by decide)⟩

/-- One class, which is its own parent. -/
def ownParent : Program := ⟨[⟨.unknown, "A", some "A", []⟩]⟩

/-- A class that is its own parent is accepted, and is reached from itself. -/
theorem ownParent_accepted : ∃ t q, ownParent.analyze = .ok t q ∧
    ∃ c ∈ t.classes, c.parent = some c.name ∧ Relation.TransGen t.Link c c := by
  obtain ⟨t, h⟩ : ∃ t, ownParent.analyze = .ok t ownParent.analyze.state :=
    Outcome.eq_ok_of_isOk (by decide +kernel)
  have hmem : ("A", some "A") ∈ t.classes.map fun i => (i.name, i.parent) := by
    rw [parents_of_analyze h]
    exact List.mem_singleton_self _
  obtain ⟨c, hc, heq⟩ := List.mem_map.mp hmem
  obtain ⟨hname, hparent⟩ := Prod.mk.inj heq
  have hself : c.parent = some c.name := by rw [hparent, hname]
  exact ⟨t, _, h, c, hc, hself, ((ordered_points _).2 t _ h |>.ring_iff hc).mpr hself⟩

end Program

/-! ### Searches -/

namespace ClassTable

theorem accepts_iff_forall₂ (t : ClassTable) : ∀ params args : List Ty,
    t.accepts params args = true ↔ List.Forall₂ (fun q a => t.isOrBase q a = true) params args
  | [], [] => by simp [accepts]
  | [], _ :: _ => by simp [accepts]
  | _ :: _, [] => by simp [accepts]
  | q :: params, a :: args => by
    rw [accepts, Bool.and_eq_true, List.forall₂_cons, accepts_iff_forall₂ t params args]

/-- A search up from `start` without a limit ends, and with that answer only. -/
def Finds {α : Type} (t : ClassTable) (look : ClassInfo → Option α) (start : Option ClassInfo)
    (answer : Option (Located α)) : Prop :=
  ∀ r, t.Search look 0 start r ↔ r = answer

/-- Every question to a class and its ancestors is answered by a search that ends. -/
structure SearchesEnd (t : ClassTable) (cls : String) : Prop where
  member : ∀ x, t.Finds (·.members.get? x) (t.find? cls) (t.findMember? cls x)
  method : ∀ s, t.Finds (·.methods.find? s) (t.find? cls) (t.findMethod? cls s)
  named : ∀ f, ∃ r, t.Finds (Option.guard (·.methods.hasName f)) (t.find? cls) r ∧
    t.hasMethodNamed cls f = r.isSome
  base : ∀ b, ∃ r, t.Finds (Option.guard (·.name == b)) (t.up (t.find? cls)) r ∧
    t.isOrBase (.cls b) (.cls cls) = (b == cls || r.isSome)
  overload : ∀ f args, ∃ r, t.Finds (t.offer f args) (t.find? cls) r ∧
    (t.contains cls = true → t.resolveMethod cls f args =
      match r with
      | none => noOverload cls f args
      | some found => found.what)

theorem isSome_findSome?_guard (look : ClassInfo → Bool) : ∀ (l : List ClassInfo) (k : ℕ),
    ((l.zipIdx k).findSome? fun (c, depth) => (Option.guard look c).map fun what =>
      (⟨depth, c.name, what⟩ : Located ClassInfo)).isSome = l.any look
  | [], _ => rfl
  | c :: l, k => by
    have ih := isSome_findSome?_guard look l (k + 1)
    rw [List.zipIdx_cons, List.findSome?_cons, List.any_cons]
    by_cases hc : look c = true
    · simp [Option.guard, hc]
    · simpa [Option.guard, hc] using ih

/-- Where the way up from a class ends, so does every search along it. -/
theorem Walk.searchesEnd (h : t.Walk (t.find? cls) (t.lineage cls)) : t.SearchesEnd cls where
  member x r := h.search_iff
  method s r := h.search_iff
  named f := by
    refine ⟨_, fun r => h.search_iff, ?_⟩
    rw [isSome_findSome?_guard, hasMethodNamed]
  base b := by
    have hlength : (t.lineage cls).tail.length ≤ t.size :=
      (List.tail_sublist _).length_le.trans (length_climb_le ..)
    have habove : t.above cls = (t.lineage cls).tail := h.tail.climb_eq hlength
    refine ⟨_, fun r => h.tail.search_iff, ?_⟩
    rw [isSome_findSome?_guard, isOrBase_cls, habove]
  overload f args := by
    refine ⟨_, fun r => h.search_iff, fun hc => ?_⟩
    exact t.resolveMethod_eq_nearest hc

/-- Whether one type is another or a base of it, found by a search without a limit. -/
inductive Compared (t : ClassTable) : Ty → Ty → Bool → Prop
  | same {τ : Ty} : Compared t τ τ true
  | searched {b cls : String} {r : Option (Located ClassInfo)} (hne : b ≠ cls)
    (h : t.Search (Option.guard (·.name == b)) 0 (t.up (t.find? cls)) r) :
    Compared t (.cls b) (.cls cls) r.isSome
  | unlike {base derived : Ty} (hne : base ≠ derived)
    (hno : ∀ b cls, ¬ (base = .cls b ∧ derived = .cls cls)) : Compared t base derived false

/-- Whether arguments fit parameters, found by comparing them from left to right, up to the first
that does not fit. -/
inductive ComparedAll (t : ClassTable) : List Ty → List Ty → Bool → Prop
  | lengths {params args : List Ty} (h : params.length ≠ args.length) :
    ComparedAll t params args false
  | nil : ComparedAll t [] [] true
  | stop {q a : Ty} {params args : List Ty} (hlen : params.length = args.length)
    (h : t.Compared q a false) : ComparedAll t (q :: params) (a :: args) false
  | next {q a : Ty} {params args : List Ty} {r : Bool} (hlen : params.length = args.length)
    (h : t.Compared q a true) (hrest : ComparedAll t params args r) :
    ComparedAll t (q :: params) (a :: args) r

/-- Everything that is asked of the table is answered by searches that end. -/
structure AllEnd (t : ClassTable) : Prop where
  searches : ∀ cls, t.SearchesEnd cls
  compared : ∀ base derived r, t.Compared base derived r ↔ r = t.isOrBase base derived
  comparedAll : ∀ params args r, t.ComparedAll params args r ↔ r = t.accepts params args

theorem compared_iff (h : ∀ cls, t.SearchesEnd cls) {base derived : Ty} {r : Bool} :
    t.Compared base derived r ↔ r = t.isOrBase base derived := by
  constructor
  · intro hr
    cases hr with
    | same => exact (t.isOrBase_self _).symm
    | @searched b cls r hne hsearch =>
      obtain ⟨answer, hfinds, hbase⟩ := (h cls).base b
      rw [hbase, (hfinds r).mp hsearch, beq_eq_false_iff_ne.mpr hne, Bool.false_or]
    | unlike hne hno => exact (isOrBase_eq_false hne hno).symm
  · rintro rfl
    by_cases heq : base = derived
    · subst heq
      rw [isOrBase_self]
      exact .same
    by_cases hcls : ∃ b cls, base = .cls b ∧ derived = .cls cls
    · obtain ⟨b, cls, rfl, rfl⟩ := hcls
      have hne : b ≠ cls := fun hbc => heq (hbc ▸ rfl)
      obtain ⟨answer, hfinds, hbase⟩ := (h cls).base b
      rw [hbase, beq_eq_false_iff_ne.mpr hne, Bool.false_or]
      exact .searched hne ((hfinds answer).mpr rfl)
    · have hno : ∀ b cls, ¬ (base = .cls b ∧ derived = .cls cls) :=
        fun b cls hb => hcls ⟨b, cls, hb⟩
      rw [isOrBase_eq_false heq hno]
      exact .unlike heq hno

theorem accepts_of_length_ne {params args : List Ty} (h : params.length ≠ args.length) :
    t.accepts params args = false := by
  rw [← Bool.not_eq_true, accepts_iff_forall₂]
  exact fun hall => h hall.length_eq

theorem comparedAll_iff (h : ∀ cls, t.SearchesEnd cls) : ∀ {params args : List Ty} {r : Bool},
    t.ComparedAll params args r ↔ r = t.accepts params args := by
  intro params args r
  constructor
  · intro hr
    induction hr with
    | lengths hlen => exact (accepts_of_length_ne hlen).symm
    | nil => rfl
    | stop _ hqa => rw [accepts, ← (compared_iff h).mp hqa, Bool.false_and]
    | next _ hqa _ ih => rw [accepts, ← (compared_iff h).mp hqa, Bool.true_and, ih]
  · rintro rfl
    by_cases hlen : params.length = args.length
    · induction params generalizing args with
      | nil =>
        obtain rfl : args = [] := List.length_eq_zero_iff.mp hlen.symm
        exact .nil
      | cons q params ih =>
        cases args with
        | nil => cases hlen
        | cons a args =>
          have hlen : params.length = args.length := Nat.succ.inj hlen
          rw [accepts]
          cases hqa : t.isOrBase q a with
          | false => exact .stop hlen ((compared_iff h).mpr hqa.symm)
          | true => exact .next hlen ((compared_iff h).mpr hqa.symm) (ih hlen)
    · rw [accepts_of_length_ne hlen]
      exact .lengths hlen

theorem allEnd (h : ∀ cls, t.SearchesEnd cls) : t.AllEnd :=
  ⟨h, fun _ _ _ => compared_iff h, fun _ _ _ => comparedAll_iff h⟩

end ClassTable

/-- A run that ends although no search is limited: wherever it stands, everything that is asked of
the class table is answered by searches that end. -/
inductive Env.EndingRun (p : Program) : Env → List Event → Env → Prop
  | done {env : Env} (h : env.table.AllEnd) : EndingRun p env [] env
  | moved {env env' : Env} {op : Op} {l : List Event} (h : env.table.AllEnd)
    (hop : op.Allowed p env) (hl : EndingRun p (op.step env).state l env') :
    EndingRun p env (.moved (op.step env).state :: l) env'
  | typed {env env' : Env} {τ : Ty} {l : List Event} (h : env.table.AllEnd)
    (hl : EndingRun p env l env') : EndingRun p env (.typed τ :: l) env'

theorem Env.Run.ending {env env' : Env} {l : List Event} (h : Run p env l env')
    (hends : ∀ e ∈ env :: envsOf l, e.table.AllEnd) : EndingRun p env l env' := by
  induction h with
  | done => exact .done (hends _ (List.mem_cons_self ..))
  | moved hop _ ih =>
    obtain ⟨henv, hrest⟩ := List.forall_mem_cons.mp hends
    exact .moved henv hop (ih hrest)
  | typed _ _ ih => exact .typed (hends _ (List.mem_cons_self ..)) (ih hends)

namespace Program

theorem noneSelf_points (hself : ∀ c ∈ p.classes, c.parent ≠ some c.name) :
    ∀ env ∈ p.points, env.table.NoneSelf :=
  (p.forall_tables (I := ClassTable.NoneSelf) (fun _ _ hc => (nomatch hc))
    fun _ _ _ hop heff h => heff.noneSelf hself hop h).1

theorem walk_lineage_points (hself : ∀ c ∈ p.classes, c.parent ≠ some c.name) {env : Env}
    (henv : env ∈ p.points) (cls : String) :
    env.table.Walk (env.table.find? cls) (env.table.lineage cls) ∧
      (env.table.lineage cls).Pairwise fun a b => env.table.index b.name < env.table.index a.name :=
  (p.ordered_points.1 env henv).walk_lineage (noneSelf_points hself env henv) cls

/-- **If no class names itself as its parent, the check ends, although no search is limited.** It
comes to its end, a success or a failure, through finitely many points, and whatever it asks of the
class table between them is answered by searches that end. At every point the way up from a class
ends as well, after no class twice and no more classes than there are, and goes down in the order of
declaration. -/
theorem searches_end (hself : ∀ c ∈ p.classes, c.parent ≠ some c.name) :
    Env.EndingRun p .empty p.log (p.check .empty).state.2 ∧
      ∀ env ∈ p.points, env.table.AllEnd ∧
        ∀ cls, (∀ l, env.table.Walk (env.table.find? cls) l ↔ l = env.table.lineage cls) ∧
          ((env.table.lineage cls).map ClassInfo.name).Nodup ∧
          (env.table.lineage cls).Pairwise
            (fun a b => env.table.index b.name < env.table.index a.name) ∧
          (env.table.lineage cls).length ≤ env.table.size := by
  have hends : ∀ env ∈ p.points, env.table.AllEnd := fun env henv =>
    ClassTable.allEnd fun cls => (walk_lineage_points hself henv cls).1.searchesEnd
  refine ⟨p.run_log.ending hends, fun env henv => ⟨hends env henv, fun cls => ?_⟩⟩
  obtain ⟨hwalk, hdesc⟩ := walk_lineage_points hself henv cls
  refine ⟨fun l => ⟨fun hl => hl.unique hwalk, ?_⟩, ?_, hdesc, ClassTable.length_climb_le ..⟩
  · rintro rfl
    exact hwalk
  · rw [List.Nodup, List.pairwise_map]
    refine hdesc.imp fun {a b} hlt heq => ?_
    rw [heq] at hlt
    exact lt_irrefl _ hlt

/-- While the bodies of `B` are checked in `overloading`, the way up from `B` is through `A`. -/
theorem overloading_searches_end :
    Env.EndingRun overloading .empty overloading.log (overloading.check .empty).state.2 ∧
    ∃ env ∈ overloading.points,
      env.table.current = some "B" ∧ (env.table.lineage "B").map ClassInfo.name = ["B", "A"] ∧
      env.table.Walk (env.table.find? "B") (env.table.lineage "B") ∧
      env.table.Compared (.cls "A") (.cls "B") true ∧
      env.table.ComparedAll [.cls "A", .int] [.cls "B", .int] true := by
  obtain ⟨hrun, hpoints⟩ := searches_end (p := overloading) (by decide)
  have hany : (overloading.points.any fun env => env.table.current == some "B" &&
      ((env.table.lineage "B").map ClassInfo.name == ["B", "A"] &&
        (env.table.isOrBase (.cls "A") (.cls "B") &&
          env.table.accepts [.cls "A", .int] [.cls "B", .int]))) = true := by
    decide +kernel
  obtain ⟨env, henv, h⟩ := List.any_eq_true.mp hany
  simp only [Bool.and_eq_true, beq_iff_eq] at h
  obtain ⟨hcurrent, hlineage, hbase, haccepts⟩ := h
  obtain ⟨hends, hways⟩ := hpoints env henv
  exact ⟨hrun, env, henv, hcurrent, hlineage, ((hways "B").1 _).mpr rfl,
    (hends.compared _ _ _).mpr hbase.symm, (hends.comparedAll _ _ _).mpr haccepts.symm⟩

end Program

end ClassLang
