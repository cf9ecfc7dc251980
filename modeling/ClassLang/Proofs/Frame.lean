import ClassLang.Proofs.Check.Points
import ClassLang.Proofs.Nesting
import ClassLang.Proofs.Scoping

/-!
# What a check leaves of its environment

A statement that is accepted leaves the environment as it was, unless it is a declaration: that one
binds its name in the innermost frame (`Stmt.Leaves`). So the statements of a block change nothing
but the frame that was opened for them, and when it is closed the environment is the one before.

A class that is accepted is added to the table. Its members are declared in a first pass; in the
second, entering a method declares it once more, which changes nothing as its key is there
(`ClassInfo.insertMethod_of_contains`), and the body leaves nothing behind. What the class leaves is
thus what its declarations left (`ClassDecl.env_of_check`).
-/

namespace ClassLang

open Outcome

variable {env env' : Env} {before : ClassTable} {cls : String} {signed : List Signature}
  {s : Signature}

/-- An operation that succeeds has its effect. -/
theorem Env.Op.effect_of_step (op : Env.Op) {u : Unit} (h : op.step env = .ok u env') :
    env.Effect op env' := by
  rcases op.step_cases env with ⟨e, he⟩ | ⟨env₁, hok, heff⟩
  · rw [he] at h
    cases h
  · rw [hok] at h
    cases h
    exact heff

/-! ### Statements -/

/-- What a statement that is accepted makes of the environment. -/
inductive Stmt.Leaves (env : Env) (s : Stmt) : Env → Prop
  | same (h : s.declared? = none) : Stmt.Leaves env s env
  | bound {x : String} {ty : Ty} {frame : NameMap Entity} {rest : List (NameMap Entity)}
    (h : s.declared? = some (x, ty)) (hframes : env.scopes.frames = frame :: rest) :
    Stmt.Leaves env s { env with scopes := ⟨frame.insert x (.value ty) :: rest⟩ }

theorem Env.inner_bind {x : String} {e : Entity} {frame : NameMap Entity}
    {rest : List (NameMap Entity)} (hframes : env.scopes.frames = frame :: rest) :
    env.Inner { env with scopes := ⟨frame.insert x e :: rest⟩ } := by
  refine ⟨rfl, rfl, ?_, ?_⟩
  · rw [hframes]
    rfl
  · rw [Scopes.depth, Scopes.depth, hframes]
    rfl

theorem Stmt.Leaves.inner {s : Stmt} (h : s.Leaves env env') : env.Inner env' := by
  cases h with
  | same => exact .refl env
  | bound _ hframes => exact Env.inner_bind hframes

theorem Env.inner_of_declareLocal {x : String} {e : Entity} {u : Unit}
    (h : Env.declareLocal x e env = .ok u env') : env.Inner env' := by
  cases Op.effect_of_step (.declareLocal x e) h with
  | table ho => cases ho
  | declareLocal _ hframes => exact inner_bind hframes

/-- A frame that is opened, changed and closed leaves the frames around it. -/
theorem Env.eq_of_inner {env₁ : Env} {frame : NameMap Entity}
    (hinner : ({ env with scopes := ⟨frame :: env.scopes.frames⟩ } : Env).Inner env₁)
    {last : NameMap Entity} {rest : List (NameMap Entity)}
    (hframes : env₁.scopes.frames = last :: rest) : { env₁ with scopes := ⟨rest⟩ } = env := by
  have houter : env₁.scopes.frames.tail = env.scopes.frames := hinner.outer
  have htable : env₁.table = env.table := hinner.table
  have hmethod : env₁.method = env.method := hinner.method
  rw [hframes, List.tail_cons] at houter
  rw [htable, hmethod, houter]

theorem env_of_checkInScope {body : List Stmt} {run : Env → Checked (List Stmt)} {u : Unit}
    {r : List Stmt × Env} (hrun : ∀ env u r, run env = .ok u r → env.Inner r.2)
    (h : checkInScope body env run = .ok u r) : r.2 = env := by
  obtain ⟨_, env₁, henter, h⟩ := exists_of_andThen h
  obtain ⟨_, b, hbody, h⟩ := exists_of_andThen h
  obtain ⟨env₂, hleave, rfl⟩ := exists_of_wrap h
  have hinner := hrun env₁ _ b hbody
  cases Env.Op.effect_of_step .enterScope henter with
  | table ho => cases ho
  | enterScope _ =>
    cases Env.Op.effect_of_step .leaveScope hleave with
    | table ho => cases ho
    | leaveScope _ hframes => exact Env.eq_of_inner hinner hframes

mutual

/-- **A statement that is accepted leaves the environment as it was, or with its name bound.** -/
theorem Stmt.leaves_of_check : ∀ (s : Stmt) {env : Env} {u : Unit} {r : Stmt × Env},
    s.check env = .ok u r → s.Leaves env r.2
  | .block sp body, env, _, _, h => by
    rw [Stmt.check] at h
    obtain ⟨b, hbody, rfl⟩ := exists_of_wrap (of_locate h)
    have hsame := env_of_checkInScope (fun _ _ _ => Stmt.inner_of_checkList body) hbody
    exact hsame ▸ .same rfl
  | .ifThen sp c t, env, _, _, h => by
    rw [Stmt.check] at h
    obtain ⟨_, c', -, h⟩ := exists_of_andThen (of_locate h)
    obtain ⟨b, ht, rfl⟩ := exists_of_wrap h
    have hsame := env_of_checkInScope (fun _ _ _ => Stmt.inner_of_checkList t) ht
    exact hsame ▸ .same rfl
  | .ifElse sp c t f, env, _, _, h => by
    rw [Stmt.check] at h
    obtain ⟨_, c', -, h⟩ := exists_of_andThen (of_locate h)
    obtain ⟨_, b, ht, h⟩ := exists_of_andThen h
    obtain ⟨b', hf, rfl⟩ := exists_of_wrap h
    have hsame := env_of_checkInScope (fun _ _ _ => Stmt.inner_of_checkList t) ht
    have hsame' := env_of_checkInScope (fun _ _ _ => Stmt.inner_of_checkList f) hf
    exact (hsame'.trans hsame) ▸ .same rfl
  | .loop sp c body, env, _, _, h => by
    rw [Stmt.check] at h
    obtain ⟨_, c', -, h⟩ := exists_of_andThen (of_locate h)
    obtain ⟨b, hbody, rfl⟩ := exists_of_wrap h
    have hsame := env_of_checkInScope (fun _ _ _ => Stmt.inner_of_checkList body) hbody
    exact hsame ▸ .same rfl
  | .assign sp target value, env, _, _, h => by
    rw [Stmt.check] at h
    obtain ⟨r, -, rfl⟩ := exists_of_wrap (of_locate h)
    exact .same rfl
  | .declare sp ty x init, env, _, _, h => by
    rw [Stmt.check] at h
    obtain ⟨_, -, h⟩ := of_ask (of_locate h)
    obtain ⟨_, init', -, h⟩ := exists_of_andThen h
    obtain ⟨env', hdeclare, rfl⟩ := exists_of_wrap h
    cases Env.Op.effect_of_step (.declareLocal x (.value ty)) hdeclare with
    | table ho => cases ho
    | declareLocal _ hframes => exact .bound rfl hframes
  | .ret sp value, env, _, _, h => by
    rw [Stmt.check] at h
    obtain ⟨m, -, h⟩ := of_ask (of_locate h)
    obtain ⟨value', -, rfl⟩ := exists_of_wrap h
    exact .same rfl
  | .print sp value, env, _, _, h => by
    rw [Stmt.check] at h
    obtain ⟨value', -, rfl⟩ := exists_of_wrap (of_locate h)
    exact .same rfl
  | .eval sp value, env, _, _, h => by
    rw [Stmt.check] at h
    obtain ⟨ty, value', -, h⟩ := exists_of_andThen (of_locate h)
    cases h
    exact .same rfl

theorem Stmt.inner_of_checkList : ∀ (ss : List Stmt) {env : Env} {u : Unit}
    {r : List Stmt × Env}, Stmt.checkList ss env = .ok u r → env.Inner r.2
  | [], env, _, _, h => by
    cases h
    exact .refl env
  | s :: ss, env, _, _, h => by
    rw [Stmt.checkList] at h
    obtain ⟨_, b, hs, h⟩ := exists_of_andThen h
    obtain ⟨⟨ss', env₁⟩, hss, rfl⟩ := exists_of_wrap h
    have hrest := Stmt.inner_of_checkList ss hss
    exact (Stmt.leaves_of_check s hs).inner.trans hrest

end

theorem Stmt.env_of_checkBlock {body : List Stmt} {u : Unit} {r : List Stmt × Env}
    (h : Stmt.checkBlock body env = .ok u r) : r.2 = env :=
  env_of_checkInScope (fun _ _ _ => Stmt.inner_of_checkList body) h

/-! ### The class that is being declared -/

/-- Class `cls` is open, a new one after those of table `before`, whose records are as they were
there. It has methods with the keys of `signed`. -/
structure Env.Opened (env : Env) (before : ClassTable) (cls : String)
    (signed : List Signature) : Prop where
  current : env.table.current = some cls
  fresh : before.contains cls = false
  others : ∀ other, other ≠ cls → env.table.find? other = before.find? other
  order : env.table.order = before.order ++ [cls]
  record : ∃ i, env.table.find? cls = some i ∧ i.name = cls ∧
    ∀ s ∈ signed, i.methods.contains s = true

/-- Declaring a method again changes nothing. -/
theorem ClassInfo.insertMethod_of_contains {i : ClassInfo} (h : i.methods.contains s = true) :
    (i.insertMethod s).2 = i := by
  obtain ⟨u, hu, hkey⟩ := MethodSet.contains_iff.mp h
  rw [ClassInfo.insertMethod, MethodSet.insert_of_sameKey hu hkey]

namespace Env.Opened

/-- An operation on the open class changes its record, and keeps the methods it has. -/
theorem change (h : env.Opened before cls signed) (op : Env.Op) {o : ClassTable.Op}
    {f : ClassInfo → ClassInfo} (ho : op.onTable? = some o) (hf : o.change? = some f)
    (more : List Signature) (hmore : ∀ i, ∀ s ∈ more, (f i).methods.contains s = true) {u : Unit}
    (hstep : op.step env = .ok u env') :
    env'.Opened before cls (signed ++ more) ∧ env'.scopes = env.scopes ∧
      env'.method = env.method := by
  have heff := op.effect_of_step hstep
  cases op with
  | enterClass | setParent | addField | addMethod =>
    cases heff with
    | @table _ o' t ho' heff =>
      obtain rfl : o = o' := Option.some.inj (ho.symm.trans ho')
      cases heff with
      | enter | leave => cases hf
      | @change _ f' cls' c hf' hopen hc =>
        obtain rfl : f = f' := Option.some.inj (hf.symm.trans hf')
        obtain rfl : cls = cls' := Option.some.inj (h.current.symm.trans hopen)
        obtain ⟨i, hi, hname, hsigned⟩ := h.record
        refine ⟨⟨h.current, h.fresh, fun other hother => ?_, h.order, f i, ?_, ?_, ?_⟩, rfl, rfl⟩
        · show (env.table.update cls f).find? other = _
          rw [ClassTable.find?_update, if_neg hother]
          exact h.others other hother
        · show (env.table.update cls f).find? cls = _
          rw [ClassTable.find?_update, if_pos rfl, hi, Option.map_some]
        · exact (ClassTable.Op.name_of_change hf i).trans hname
        · exact List.forall_mem_append.mpr
            ⟨fun s hs => contains_of_change hf (hsigned s hs), hmore i⟩
  | leaveClass | enterMethod | leaveMethod | enterScope | leaveScope | declareLocal => cases ho

/-- Entering a method that has been declared declares nothing. -/
theorem update_insertMethod (h : env.Opened before cls signed) (hs : s ∈ signed) :
    env.table.update cls (fun i => (i.insertMethod s).2) = env.table := by
  obtain ⟨i, hi, -, hsigned⟩ := h.record
  have hsame := NameMap.modify_of_fixed (f := fun i : ClassInfo => (i.insertMethod s).2) hi
    (ClassInfo.insertMethod_of_contains (hsigned s hs))
  rw [ClassTable.update, hsame]

/-- The classes are those of `before`, and the open one. -/
theorem classes_eq (h : env.Opened before cls signed) (hstep : before.InStep) {i : ClassInfo}
    (hi : env.table.find? cls = some i) : env.table.classes = before.classes ++ [i] := by
  have hothers : ∀ other ∈ before.order, env.table.find? other = before.find? other := by
    intro other hmem
    refine h.others other ?_
    rintro rfl
    rw [hstep.listed, h.fresh] at hmem
    cases hmem
  have hlast : [cls].filterMap env.table.find? = [i] := by simp [hi]
  rw [ClassTable.classes, h.order, List.filterMap_append, List.filterMap_congr hothers, hlast,
    ClassTable.classes]

theorem of_enterClass {u : Unit} (h : Env.enterClass cls env = .ok u env') :
    env'.Opened env.table cls [] ∧ env'.scopes = env.scopes ∧ env'.method = env.method := by
  cases Op.effect_of_step (.enterClass cls) h with
  | table ho heff =>
    cases ho
    cases heff with
    | enter hclosed hnew =>
      refine ⟨⟨rfl, hnew, fun other hother => ?_, rfl, ClassTable.fresh cls, ?_, rfl,
        List.forall_mem_nil _⟩, rfl, rfl⟩
      · show (env.table.extend cls).find? other = _
        rw [ClassTable.find?_extend, if_neg hother]
      · show (env.table.extend cls).find? cls = _
        rw [ClassTable.find?_extend, if_pos rfl]
    | change hf => cases hf

theorem tieParent (h : env.Opened before cls signed) {parent : Option String} {u : Unit}
    (hstep : ClassLang.tieParent parent env = .ok u env') :
    env'.Opened before cls signed ∧ env'.scopes = env.scopes ∧ env'.method = env.method := by
  cases parent with
  | none =>
    cases hstep
    exact ⟨h, rfl, rfl⟩
  | some q =>
    rw [ClassLang.tieParent] at hstep
    split at hstep
    · have hset := h.change (.setParent q) rfl rfl [] (by simp) hstep
      rwa [List.append_nil] at hset
    · cases hstep

theorem addMethod (h : env.Opened before cls signed) {isNew : Bool}
    (hstep : Env.addMethod s env = .ok isNew env') :
    env'.Opened before cls (signed ++ [s]) ∧ env'.scopes = env.scopes ∧
      env'.method = env.method := by
  have hadded : (Op.addMethod s).step env = .ok () env' := by
    show (Env.addMethod s env).forget = _
    rw [hstep]
    rfl
  refine h.change (.addMethod s) rfl rfl [s] (fun i u hu => ?_) hadded
  rw [List.mem_singleton.mp hu]
  exact MethodSet.contains_insert_iff.mpr (.inr (Signature.sameKey_self s))

end Env.Opened

/-! ### Declaring the members -/

namespace Env.Opened

theorem declareField (h : env.Opened before cls signed) {sp : Span} {ty : Ty} {x : String} {u : Unit}
    (hstep : ClassLang.declareField cls sp ty x env = .ok u env') :
    env'.Opened before cls signed ∧ env'.scopes = env.scopes ∧ env'.method = env.method := by
  obtain ⟨_, -, hstep⟩ := of_ask (of_locate hstep)
  obtain ⟨replaced, env₁, hadd, hstep⟩ := exists_of_andThen hstep
  have hadded : (Op.addField x ty).step env = .ok () env₁ := by
    show (Env.addField x ty env).forget = _
    rw [hadd]
    rfl
  have hset := h.change (.addField x ty) rfl rfl [] (by simp) hadded
  rw [List.append_nil] at hset
  split at hstep
  · cases hstep
  · cases hstep
    exact hset

/-- A member that is declared changes only the record of the open class, which then has the key of
its signature. -/
theorem declare (h : env.Opened before cls signed) {m : Member} {replaced replaced' : Bool}
    {b : Member × Env} (hm : m.declare cls replaced env = .ok replaced' b) :
    b.2.Opened before cls (signed ++ (m.signature? cls).toList) ∧ b.2.scopes = env.scopes ∧
      b.2.method = env.method := by
  cases m with
  | field sp ty x =>
    obtain ⟨_, env₁, hfield, hm⟩ := exists_of_andThen hm
    cases hm
    have hset := h.declareField hfield
    rwa [← List.append_nil signed] at hset
  | method ret f r =>
    obtain ⟨_, -, hm⟩ := of_ask (of_locate hm)
    obtain ⟨_, -, hm⟩ := of_ask hm
    obtain ⟨_, b', hr, hm⟩ := exists_of_andThen hm
    cases hm
    obtain ⟨isNew, hadd⟩ := (Routine.of_declare hr).2
    exact h.addMethod hadd
  | constructor r =>
    obtain ⟨_, -, hm⟩ := of_ask (of_locate hm)
    obtain ⟨_, b', hr, hm⟩ := exists_of_andThen hm
    cases hm
    obtain ⟨isNew, hadd⟩ := (Routine.of_declare hr).2
    exact h.addMethod hadd

theorem declareList : ∀ {ms : List Member} {signed : List Signature} {replaced : Bool} {env : Env}
    {u : Unit} {b : List Member × Env}, env.Opened before cls signed →
    Member.declareList cls replaced ms env = .ok u b →
    b.2.Opened before cls (signed ++ ms.filterMap (Member.signature? cls)) ∧
      b.2.scopes = env.scopes ∧ b.2.method = env.method
  | [], signed, _, _, _, _, h, hms => by
    cases hms
    rw [List.filterMap_nil, List.append_nil]
    exact ⟨h, rfl, rfl⟩
  | m :: ms, signed, _, _, _, _, h, hms => by
    rw [Member.declareList] at hms
    obtain ⟨replaced', b, hm, hms⟩ := exists_of_andThen hms
    obtain ⟨b', hrest, rfl⟩ := exists_of_wrap hms
    obtain ⟨hopened, hscopes, hmethod⟩ := h.declare hm
    obtain ⟨hopened', hscopes', hmethod'⟩ := declareList hopened hrest
    refine ⟨?_, hscopes'.trans hscopes, hmethod'.trans hmethod⟩
    have hlist : signed ++ (m :: ms).filterMap (Member.signature? cls) =
        signed ++ (m.signature? cls).toList ++ ms.filterMap (Member.signature? cls) := by
      rw [List.filterMap_cons, List.append_assoc]
      cases m.signature? cls <;> rfl
    rw [hlist]
    exact hopened'

end Env.Opened

/-! ### Checking the bodies -/

theorem inner_of_declareParams : ∀ {params : List Param} {env env' : Env} {u : Unit},
    declareParams params env = .ok u env' → env.Inner env'
  | [], env, _, _, h => by
    cases h
    exact .refl env
  | q :: rest, _, _, _, h => by
    rw [declareParams] at h
    obtain ⟨_, env₁, hdeclare, h⟩ := exists_of_andThen h
    exact (Env.inner_of_declareLocal hdeclare).trans (inner_of_declareParams h)

namespace Env.Opened

/-- **A body that is accepted leaves nothing behind**, if its signature has been declared. -/
theorem env_of_checkBody (h : env.Opened before cls signed) (hs : s ∈ signed) {r : Routine} {u : Unit}
    {b : Routine × Env} (hbody : r.checkBody s env = .ok u b) : b.2 = env := by
  obtain ⟨_, env₁, henter, hbody⟩ := exists_of_andThen hbody
  obtain ⟨_, env₂, hparams, hbody⟩ := exists_of_andThen hbody
  obtain ⟨_, b', hstmts, hbody⟩ := exists_of_andThen hbody
  obtain ⟨env₃, hleave, rfl⟩ := exists_of_wrap hbody
  have hinner : env₁.Inner b'.2 :=
    (inner_of_declareParams hparams).trans (Stmt.inner_of_checkList r.body (of_locate hstmts))
  cases Op.effect_of_step (.enterMethod s) henter with
  | table ho => cases ho
  | @enterMethod _ cls' c hmethod hopen hc =>
    cases Op.effect_of_step .leaveMethod hleave with
    | table ho => cases ho
    | @leaveMethod m frame rest _ hframes =>
      obtain rfl : cls = cls' := Option.some.inj (h.current.symm.trans hopen)
      have htable : b'.2.table = env.table := by
        rw [hinner.table]
        exact h.update_insertMethod hs
      have hrest : rest = env.scopes.frames := by
        have houter := hinner.outer
        rwa [hframes] at houter
      show (⟨b'.2.table, ⟨rest⟩, none⟩ : Env) = env
      rw [htable, hrest, ← hmethod]

theorem env_of_checkMember (h : env.Opened before cls signed) {m : Member}
    (hs : ∀ s, m.signature? cls = some s → s ∈ signed) {u : Unit} {b : Member × Env}
    (hm : (m.declared cls).checkBody env = .ok u b) : b.2 = env := by
  cases m with
  | field sp ty x =>
    cases hm
    rfl
  | method ret f r =>
    obtain ⟨b', hr, rfl⟩ := exists_of_wrap hm
    rw [Routine.check_filled rfl] at hr
    exact h.env_of_checkBody (hs _ rfl) hr
  | constructor r =>
    obtain ⟨b', hr, rfl⟩ := exists_of_wrap hm
    rw [Routine.check_filled rfl] at hr
    exact h.env_of_checkBody (hs _ rfl) hr

theorem env_of_checkMembers : ∀ {ms : List Member} {env : Env} {u : Unit} {b : List Member × Env},
    env.Opened before cls signed → (∀ m ∈ ms, ∀ s, m.signature? cls = some s → s ∈ signed) →
    checkEach Member.checkBody (ms.map (Member.declared cls)) env = .ok u b → b.2 = env
  | [], _, _, _, _, _, hms => by
    cases hms
    rfl
  | m :: ms, env, _, _, h, hs, hms => by
    obtain ⟨hm, hrest⟩ := List.forall_mem_cons.mp hs
    rw [List.map_cons, checkEach] at hms
    obtain ⟨_, ⟨m', env₁⟩, hfirst, hms⟩ := exists_of_andThen hms
    obtain ⟨⟨ms', env₂⟩, hothers, rfl⟩ := exists_of_wrap hms
    obtain rfl : env₁ = env := h.env_of_checkMember hm hfirst
    have hsame : env₂ = env₁ := env_of_checkMembers h hrest hothers
    exact hsame

end Env.Opened

/-! ### Classes -/

/-- **What a class that is accepted leaves is what its declarations leave**, once the class is
left. -/
theorem ClassDecl.env_of_check {c : ClassDecl} {u : Unit} {b : ClassDecl × Env}
    (h : c.check env = .ok u b) : ∃ env₁ env₂ ms env₃, Env.enterClass c.name env = .ok () env₁ ∧
      tieParent c.parent env₁ = .ok () env₂ ∧
      Member.declareList c.name false c.members env₂ = .ok () (ms, env₃) ∧
      env₃.Opened env.table c.name (c.members.filterMap (Member.signature? c.name)) ∧
      env₃.scopes = env.scopes ∧ env₃.method = none ∧
      b.2 = { env₃ with table := env₃.table.leave } := by
  obtain ⟨_, env₁, henter, h⟩ := exists_of_andThen h
  obtain ⟨_, env₂, htie, h⟩ := exists_of_andThen h
  obtain ⟨_, ⟨ms, env₃⟩, hdeclare, h⟩ := exists_of_andThen h
  obtain ⟨_, ⟨ms', env₄⟩, hbodies, h⟩ := exists_of_andThen h
  obtain ⟨env₅, hleave, rfl⟩ := exists_of_wrap h
  obtain ⟨hopened₁, hscopes₁, -⟩ := Env.Opened.of_enterClass (of_locate henter)
  obtain ⟨hopened₂, hscopes₂, -⟩ := hopened₁.tieParent (of_locate htie)
  obtain ⟨hopened₃, hscopes₃, -⟩ := hopened₂.declareList hdeclare
  rw [List.nil_append] at hopened₃
  have hsigned : ∀ m ∈ c.members, ∀ s, m.signature? c.name = some s →
      s ∈ c.members.filterMap (Member.signature? c.name) := fun m hm s hs =>
    List.mem_filterMap.mpr ⟨m, hm, hs⟩
  rw [show ms = _ from Member.eq_of_declareList hdeclare] at hbodies
  obtain rfl : env₄ = env₃ := hopened₃.env_of_checkMembers hsigned hbodies
  cases Env.Op.effect_of_step .leaveClass hleave with
  | table ho => cases ho
  | leaveClass hmethod =>
    exact ⟨env₁, env₂, ms, env₄, of_locate henter, of_locate htie, hdeclare, hopened₃,
      hscopes₃.trans (hscopes₂.trans hscopes₁), hmethod, rfl⟩

/-- **What a check that succeeds leaves of its environment.** A statement changes at most the
innermost frame, and that only if it is a declaration, which binds its name there. A block changes
nothing. A class adds its own record to the table, leaves the other records and the scopes as they
are, and leaves neither a class nor a method open. -/
theorem check_keeps_environment :
    (∀ (s : Stmt) env s' env', s.check env = .ok () (s', env') →
      env'.table = env.table ∧ env'.method = env.method ∧
      env'.scopes.depth = env.scopes.depth ∧
      env'.scopes.frames.tail = env.scopes.frames.tail ∧
      (s.declared? = none → env' = env) ∧
      ∀ x ty, s.declared? = some (x, ty) → ∃ frame rest, env.scopes.frames = frame :: rest ∧
        env'.scopes.frames = frame.insert x (.value ty) :: rest) ∧
    (∀ body env body' env', Stmt.checkBlock body env = .ok () (body', env') → env' = env) ∧
    ∀ (c : ClassDecl) env c' env', c.check env = .ok () (c', env') →
      env'.scopes = env.scopes ∧ env'.method = none ∧ env'.table.current = none ∧
      (∀ other, other ≠ c.name → env'.table.find? other = env.table.find? other) ∧
      env'.table.order = env.table.order ++ [c.name] ∧
      ∃ i, i.name = c.name ∧ env'.table.find? c.name = some i ∧
        (env.table.InStep → env'.table.classes = env.table.classes ++ [i]) := by
  refine ⟨fun s env s' env' h => ?_, fun body env body' env' h => Stmt.env_of_checkBlock h,
    fun c env c' env' h => ?_⟩
  · have hleaves : s.Leaves env env' := Stmt.leaves_of_check s h
    have hinner := hleaves.inner
    refine ⟨hinner.table, hinner.method, hinner.depth, hinner.outer, ?_, ?_⟩
    · intro hnone
      cases hleaves with
      | same => rfl
      | bound hsome =>
        rw [hnone] at hsome
        cases hsome
    · intro x ty hsome
      cases hleaves with
      | same hnone =>
        rw [hnone] at hsome
        cases hsome
      | bound hbound hframes =>
        rw [hbound] at hsome
        cases hsome
        exact ⟨_, _, hframes, rfl⟩
  · obtain ⟨_, _, _, env₃, -, -, -, hopened, hscopes, hmethod, henv⟩ := ClassDecl.env_of_check h
    obtain rfl : env' = { env₃ with table := env₃.table.leave } := henv
    obtain ⟨i, hi, hname, -⟩ := hopened.record
    exact ⟨hscopes, hmethod, rfl, hopened.others, hopened.order, i, hname, hi,
      fun hstep => hopened.classes_eq hstep hi⟩

/-- In the method `f` of a class `A`. -/
def Env.withinMethod : Env := afterCalls .empty
  [.operation (.enterClass "A"), .operation (.enterMethod ⟨"f", [], .void⟩)]

/-- In `f`, declaring `x` binds it next to the receiver; the same in a block leaves nothing. The first
class of `overloading`, with a field and a method, is left again. -/
theorem Env.withinMethod_kept :
    (∃ s env', (Stmt.declare .unknown .int "x" none).check withinMethod = .ok () (s, env') ∧
      env'.table = withinMethod.table ∧ ∃ args, withinMethod.scopes.frames = [args] ∧
        env'.scopes.frames = [args.insert "x" (.value .int)]) ∧
    (∃ body, Stmt.checkBlock [.declare .unknown .int "x" none] withinMethod =
      .ok () (body, withinMethod)) ∧
    ∃ c env', (Program.overloading.classes.head (by decide)).check .empty = .ok () (c, env') ∧
      env'.scopes = .empty ∧ env'.method = none ∧ env'.table.current = none ∧
      env'.table.classes.map ClassInfo.name = ["A"] := by
  obtain ⟨hstmt, hblock, hclass⟩ := check_keeps_environment
  refine ⟨?_, ?_, ?_⟩
  · obtain ⟨s, env', h⟩ := Outcome.exists_of_isOk
      (r := (Stmt.declare .unknown .int "x" none).check withinMethod) (by decide +kernel)
    obtain ⟨htable, -, -, -, -, hbound⟩ := hstmt _ _ _ _ h
    obtain ⟨args, rest, hframes, hframes'⟩ := hbound "x" .int rfl
    obtain rfl : rest = [] := by
      have hdepth : withinMethod.scopes.frames.tail = [] := by decide +kernel
      rwa [hframes] at hdepth
    exact ⟨s, env', h, htable, args, hframes, hframes'⟩
  · obtain ⟨body, env', h⟩ := Outcome.exists_of_isOk
      (r := Stmt.checkBlock [.declare .unknown .int "x" none] withinMethod) (by decide +kernel)
    obtain rfl := hblock _ _ _ _ h
    exact ⟨body, h⟩
  · obtain ⟨c, env', h⟩ := Outcome.exists_of_isOk
      (r := (Program.overloading.classes.head (by decide)).check .empty) (by decide +kernel)
    obtain ⟨hscopes, hmethod, hcurrent, -, -, i, hname, -, hclasses⟩ := hclass _ _ _ _ h
    refine ⟨c, env', h, hscopes, hmethod, hcurrent, ?_⟩
    rw [hclasses .empty, List.map_append, List.map_singleton, hname]
    rfl

end ClassLang
