import ClassLang.Proofs.Check.Signed
import ClassLang.Proofs.Check.Stmt
import ClassLang.Proofs.Table.Declare
import ClassLang.Proofs.Typing.Classes

/-!
# The checker declares and checks members as the rules do

While a class is open its members are first declared, one after the other, and then their bodies
are checked. A member can join those declared before it if it is typed, apart from them, and no
method in the place of the constructor that the class starts out with (`Member.Joins`); the
declaring pass accepts the members of which each can join (`settles_declareList`). In the second
pass a body is checked at the point where the parameters and the receiver are known, and nothing of
it is left in the environment (`settles_body`).
-/

namespace ClassLang

variable {env : Env} {earlier : List Outline} {c : Outline} {x cls : String} {τ : Ty}
  {s : Signature} {m n : Member} {pre ms : List Member} {names : List String}
  {parent : Option String}

/-- Class `c` is open, after the classes `earlier`, and none of its methods. -/
structure Env.Declaring (env : Env) (earlier : List Outline) (c : Outline) : Prop where
  table : env.table.Open earlier c
  scopes : env.scopes = .empty
  method : env.method = none

/-! ### Which members can join -/

namespace Member

/-- The member can be declared after the members `pre`. -/
def Joins (names : List String) (pre : List Member) (m : Member) : Prop :=
  m.Typed names ∧ m.SparesInitial ∧ ∀ n ∈ pre, n.Apart m

/-- The members can be declared one after the other, after the members `pre`. -/
def AllJoin (names : List String) (pre ms : List Member) : Prop :=
  (∀ m ∈ ms, m.Joins names pre) ∧ ms.Pairwise Apart

theorem allJoin_cons_iff :
    AllJoin names pre (m :: ms) ↔ m.Joins names pre ∧ AllJoin names (pre ++ [m]) ms := by
  have hstep : ∀ n : Member, n.Joins names (pre ++ [m]) ↔ n.Joins names pre ∧ m.Apart n := by
    intro n
    simp only [Joins, List.forall_mem_append, List.forall_mem_singleton]
    tauto
  simp only [AllJoin, List.forall_mem_cons, List.pairwise_cons, hstep, forall_and]
  tauto

/-- The member takes the place of the constructor that a class starts out with. -/
def takesInitial : Member → Bool
  | .constructor r => r.params.isEmpty
  | _ => false

theorem takesInitial_iff (h : m.SparesInitial) :
    m.takesInitial = true ↔ m.key? = some (constructorName, []) := by
  cases m with
  | field => simp [takesInitial, key?]
  | method ret f r => exact ⟨nofun, fun hk => absurd (Option.some.inj hk) h⟩
  | constructor r => simp [takesInitial, key?, Routine.paramTypes]

theorem apart_iff_of_field {sp : Span} : n.Apart (.field sp τ x) ↔ n.fieldName? ≠ some x := by
  simp only [Apart, fieldName?, key?]
  exact ⟨fun h hn => h.1 x hn rfl, fun h =>
    ⟨fun y hy hx => h (hx ▸ hy), fun k _ => (Option.some_ne_none k).symm⟩⟩

theorem apart_iff_of_key {k : String × List Ty} (hf : m.fieldName? = none) (hk : m.key? = some k) :
    n.Apart m ↔ n.key? ≠ some k := by
  simp only [Apart, hf, hk]
  exact ⟨fun h hn => h.2 k hn rfl, fun h =>
    ⟨fun x _ => (Option.some_ne_none x).symm, fun y hy hx => h (hx ▸ hy)⟩⟩

/-- A key is free in a class that has declared the members `pre`. -/
theorem free_iff : (∀ u, (Outline.ofMembers cls parent pre).Offers u → u.sameKey s = false) ↔
    (s.name, s.params) ≠ (constructorName, []) ∧
      ∀ n ∈ pre, n.key? ≠ some (s.name, s.params) := by
  have hkey : ∀ u : Signature, u.sameKey s = false ↔ (s.name, s.params) ≠ (u.name, u.params) := by
    intro u
    rw [Bool.eq_false_iff, ne_eq, Signature.sameKey_iff, ne_eq, Prod.mk.injEq, @eq_comm _ s.name,
      @eq_comm _ s.params]
  simp only [Outline.offers_iff, hkey, forall_eq_or_imp]
  refine and_congr Iff.rfl ⟨fun h n hn hk => ?_, fun h u hu hk => ?_⟩
  · cases hs : n.signature? cls with
    | none => cases n <;> simp_all [signature?, key?]
    | some u =>
      rw [key?_of_signature? hs] at hk
      exact h u (List.mem_filterMap.mpr ⟨n, hn, hs⟩) (Option.some.inj hk).symm
  · obtain ⟨n, hn, hs⟩ := List.mem_filterMap.mp hu
    exact h n hn ((key?_of_signature? hs).trans (congrArg some hk.symm))

/-- A constructor finds its key free, or takes the initial one's place, if no member before has its
key. -/
theorem free_or_replaces_iff {r : Routine} (hpre : ∀ n ∈ pre, n.SparesInitial) :
    ((∀ u, (Outline.ofMembers cls parent pre).Offers u →
        u.sameKey (.ofConstructor cls r.paramTypes) = false) ∨
      (r.params.isEmpty && !pre.any takesInitial) = true) ↔
    ∀ n ∈ pre, n.Apart (.constructor r) := by
  have hapart : ∀ n : Member,
      n.Apart (.constructor r) ↔ n.key? ≠ some (constructorName, r.paramTypes) :=
    fun n => apart_iff_of_key rfl rfl
  simp only [free_iff, hapart, Signature.ofConstructor]
  -- without parameters the key is never free, as the initial constructor has it
  by_cases hr : r.params = []
  · have hparams : r.paramTypes = [] := by rw [Routine.paramTypes, hr, List.map_nil]
    have hnone : pre.any takesInitial = false ↔ ∀ n ∈ pre, n.key? ≠ some (constructorName, []) := by
      rw [List.any_eq_false]
      exact forall₂_congr fun n hn => (takesInitial_iff (hpre n hn)).not
    simp [hr, hparams, hnone]
  · have hparams : r.paramTypes ≠ [] := by simpa [Routine.paramTypes] using hr
    simp [hr, hparams]

theorem joins_field_iff {sp : Span} (cls : String) (parent : Option String) :
    (Member.field sp τ x).Joins names pre ↔
      τ.Storable names ∧ x ∉ (Outline.ofMembers cls parent pre).fields.map Prod.fst := by
  have htyped : (Member.field sp τ x).Typed names ↔ τ.Storable names :=
    ⟨fun h => by cases h; assumption, .field⟩
  have hfields : x ∈ (Outline.ofMembers cls parent pre).fields.map Prod.fst ↔
      ∃ n ∈ pre, n.fieldName? = some x := by
    rw [Outline.ofMembers, List.map_filterMap, List.mem_filterMap]
    simp only [fieldName?_eq]
  simp only [Joins, htyped, SparesInitial, apart_iff_of_field, hfields]
  simp

theorem joins_method_iff {ret : Ty} {f : String} {r : Routine} (cls : String)
    (parent : Option String) : (Member.method ret f r).Joins names pre ↔
      ret.Known names ∧ (∀ τ ∈ r.paramTypes, τ.Storable names) ∧
        ∀ u, (Outline.ofMembers cls parent pre).Offers u →
          u.sameKey ⟨f, r.paramTypes, ret⟩ = false := by
  have htyped : (Member.method ret f r).Typed names ↔
      ret.Known names ∧ ∀ τ ∈ r.paramTypes, τ.Storable names :=
    ⟨fun h => by cases h with | method hret h => exact ⟨hret, h⟩, fun ⟨hret, h⟩ => .method hret h⟩
  have hapart : ∀ n : Member, n.Apart (.method ret f r) ↔ n.key? ≠ some (f, r.paramTypes) :=
    fun n => apart_iff_of_key rfl rfl
  rw [Joins, htyped, free_iff, and_assoc]
  simp only [hapart, SparesInitial]

theorem joins_constructor_iff {r : Routine} (hpre : ∀ n ∈ pre, n.SparesInitial) (cls : String)
    (parent : Option String) : (Member.constructor r).Joins names pre ↔
      (∀ τ ∈ r.paramTypes, τ.Storable names) ∧
        ((∀ u, (Outline.ofMembers cls parent pre).Offers u →
            u.sameKey (.ofConstructor cls r.paramTypes) = false) ∨
          (r.params.isEmpty && !pre.any takesInitial) = true) := by
  have htyped : (Member.constructor r).Typed names ↔ ∀ τ ∈ r.paramTypes, τ.Storable names :=
    ⟨fun h => by cases h; assumption, .constructor⟩
  rw [Joins, htyped, free_or_replaces_iff hpre]
  simp only [SparesInitial, true_and]

end Member

/-! ### Declaring -/

theorem Outline.ofMembers_addField (sp : Span) : (ofMembers cls parent pre).addField x τ =
    ofMembers cls parent (pre ++ [.field sp τ x]) := by
  simp [ofMembers, addField, Member.field?, Member.signature?]

theorem Outline.ofMembers_addSignature (hf : m.field? = none) (hs : m.signature? cls = some s) :
    (ofMembers cls parent pre).addSignature s = ofMembers cls parent (pre ++ [m]) := by
  simp [ofMembers, addSignature, hf, hs]

namespace Env.Declaring

open Outcome

theorem records (h : env.Declaring earlier c) : env.table.Records (earlier ++ [c]) :=
  h.table.records

/-- Changing the table as the open class changes. -/
theorem update (h : env.Declaring earlier c) {d : Outline} {change : ClassInfo → ClassInfo}
    (hkept : ∀ i, (change i).name = i.name) (hname : d.name = c.name)
    (hchange : ∀ i, i.Records c → (change i).Records d) :
    ({ env with table := env.table.update c.name change } : Env).Declaring earlier d :=
  ⟨h.table.update hkept hname hchange, h.scopes, h.method⟩

theorem settles_field (h : env.Declaring earlier c) {sp : Span} (cls : String) :
    (declareField cls sp τ x env).Settles
      (fun _ => τ.Storable ((earlier ++ [c]).map Outline.name) ∧ x ∉ c.fields.map Prod.fst)
      fun _ env' => env'.Declaring earlier (c.addField x τ) := by
  obtain ⟨i, hi, hstep⟩ := h.table.onCurrent_eq
  unfold declareField
  refine Settles.locate (Settles.require (ClassTable.answers_requireStorage h.records) fun _ => ?_)
  rw [Env.addField, Env.onTable, ClassTable.addField, hstep, wrap_ok, andThen_ok]
  have hold : (i.insertMember x (.value τ)).1.isSome = true ↔ x ∈ c.fields.map Prod.fst :=
    hi.isSome_get?_iff
  by_cases hx : x ∈ c.fields.map Prod.fst
  · rw [if_pos (hold.mpr hx)]
    exact Settles.fail fun _ hne => hne hx
  · rw [if_neg (mt hold.mp hx)]
    exact Settles.done hx (h.update (fun _ => rfl) rfl fun j hj => hj.insertMember hx)

theorem settles_routine (h : env.Declaring earlier c) (cls : String) (r : Routine)
    (mayReplace : Bool) (hmay : mayReplace = true → c.Offers s) :
    (r.declare cls s mayReplace env).Settles
      (fun _ => (∀ u, c.Offers u → u.sameKey s = false) ∨ mayReplace = true)
      fun _ r' => r'.1 = { r with signature := .filled s } ∧
        r'.2.Declaring earlier (c.addSignature s) := by
  obtain ⟨i, hi, hstep⟩ := h.table.onCurrent_eq
  have hnew : (i.insertMethod s).1 = true ↔ ∀ u, c.Offers u → u.sameKey s = false := by
    rw [ClassInfo.insertMethod, Bool.not_eq_true', ← Bool.not_eq_true, hi.contains_iff]
    simp
  unfold Routine.declare
  rw [Env.addMethod, Env.onTable, ClassTable.addMethod, hstep, wrap_ok, andThen_ok]
  by_cases hs : ((i.insertMethod s).1 || mayReplace) = true
  · rw [if_pos hs]
    rw [Bool.or_eq_true, hnew] at hs
    refine Settles.done hs ⟨rfl, h.update (fun _ => rfl) rfl fun j hj => hj.insertMethod ?_⟩
    exact hs.symm.imp_left hmay
  · rw [if_neg hs]
    rw [Bool.or_eq_true, hnew] at hs
    exact Settles.fail fun _ => hs

/-- **The checker declares a member just if it can join those before it.** The answer says whether
the initial constructor's place has been taken by now. -/
theorem settles_declare (h : env.Declaring earlier (.ofMembers cls parent pre))
    (hpre : ∀ n ∈ pre, n.SparesInitial) (m : Member) :
    (m.declare cls (pre.any Member.takesInitial) env).Settles
      (fun b => m.Joins (earlier.map Outline.name ++ [cls]) pre ∧
        b = (pre ++ [m]).any Member.takesInitial)
      fun _ r => r.1 = m.declared cls ∧
        r.2.Declaring earlier (.ofMembers cls parent (pre ++ [m])) := by
  have hrecords := h.records
  have hparams : ∀ r : Routine, Answers (r.requireParams env.table) fun _ =>
      ∀ τ ∈ r.paramTypes, τ.Storable (earlier.map Outline.name ++ [cls]) :=
    fun r => (ClassTable.answers_requireParams hrecords _).congr fun _ => by
      simp [Routine.paramTypes]
  cases m with
  | field sp τ x =>
    rw [Member.declare]
    refine (h.settles_field cls).andThen (K := fun _ b => b = pre.any Member.takesInitial)
      (fun _ env' _ henv => ?_) fun b => ?_
    · rw [Outline.ofMembers_addField sp] at henv
      exact Settles.ok (fun _ => Iff.rfl) ⟨rfl, henv⟩
    · simp [Member.joins_field_iff cls parent, Member.takesInitial]
  | method ret f r =>
    have hret : Answers (env.table.requireDeclared ret) fun _ =>
        ret.Known (earlier.map Outline.name ++ [cls]) :=
      (ClassTable.answers_requireDeclared hrecords).congr fun _ => by simp
    rw [Member.declare]
    refine Settles.locate (Settles.congr ?_ fun b =>
      and_congr_left' (Member.joins_method_iff cls parent))
    simp only [and_assoc]
    refine Settles.require hret fun _ => Settles.require (hparams r) fun _ => ?_
    refine Settles.congr ((h.settles_routine cls r false (absurd · Bool.false_ne_true)).after
      (L := fun b => b = pre.any Member.takesInitial) fun r' _ hr => ?_) fun b => ?_
    · obtain ⟨r', env'⟩ := r'
      obtain ⟨rfl, henv⟩ := hr
      rw [Outline.ofMembers_addSignature (m := .method ret f r) rfl rfl] at henv
      exact Settles.ok (fun _ => Iff.rfl) ⟨rfl, henv⟩
    · simp [Member.takesInitial]
  | constructor r =>
    rw [Member.declare]
    refine Settles.locate (Settles.congr ?_ fun b =>
      and_congr_left' (Member.joins_constructor_iff hpre cls parent))
    simp only [and_assoc]
    refine Settles.require (hparams r) fun _ => ?_
    refine (h.settles_routine cls r _ fun hmay => ?_).after fun r' _ hr => ?_
    · have hempty : r.paramTypes = [] := by
        have := (Bool.and_eq_true_iff.mp hmay).1
        simpa [Routine.paramTypes] using this
      rw [hempty]
      exact .initial
    · obtain ⟨r', env'⟩ := r'
      obtain ⟨rfl, henv⟩ := hr
      rw [Outline.ofMembers_addSignature (m := .constructor r) rfl rfl] at henv
      exact Settles.ok (fun b => by simp [Member.takesInitial]) ⟨rfl, henv⟩

/-- **The declaring pass accepts the members that can be declared one after the other.** -/
theorem settles_declareList : ∀ (ms : List Member) {pre : List Member} {env : Env},
    env.Declaring earlier (.ofMembers cls parent pre) → (∀ n ∈ pre, n.SparesInitial) →
    (Member.declareList cls (pre.any Member.takesInitial) ms env).Settles
      (fun _ => Member.AllJoin (earlier.map Outline.name ++ [cls]) pre ms)
      fun _ r => r.1 = ms.map (Member.declared cls) ∧
        r.2.Declaring earlier (.ofMembers cls parent (pre ++ ms))
  | [], pre, env, h, _ =>
    Settles.done ⟨List.forall_mem_nil _, .nil⟩ ⟨rfl, by rw [List.append_nil]; exact h⟩
  | m :: ms, pre, env, h, hpre => by
    rw [Member.declareList]
    refine (h.settles_declare hpre m).andThen
      (K := fun _ _ => Member.AllJoin (earlier.map Outline.name ++ [cls]) (pre ++ [m]) ms)
      (fun b r hb hr => ?_) fun _ => ?_
    · obtain ⟨hjoins, rfl⟩ := hb
      obtain ⟨m', env'⟩ := r
      obtain ⟨rfl, henv⟩ := hr
      have hpre' : ∀ n ∈ pre ++ [m], n.SparesInitial :=
        List.forall_mem_append.mpr ⟨hpre, List.forall_mem_singleton.mpr hjoins.2.1⟩
      refine (settles_declareList ms henv hpre').wrap fun _ r _ hr => ?_
      obtain ⟨ms', env''⟩ := r
      obtain ⟨rfl, henv'⟩ := hr
      rw [List.append_assoc, List.singleton_append] at henv'
      exact ⟨rfl, henv'⟩
    · rw [Member.allJoin_cons_iff]
      simp

/-! ### Checking bodies -/

/-- The point of a method at which only the receiver is known. -/
theorem enterMethod_eq (h : env.Declaring earlier c) (hcs : Hierarchy (earlier ++ [c]))
    (hs : c.Offers s) : ∃ env', Env.enterMethod s env = .ok () env' ∧
      env'.At (.ofBody (earlier ++ [c]) c.name s.ret []) ∧ env'.table.Open earlier c ∧
      env'.scopes.depth = 1 := by
  obtain ⟨i, hcur, hi⟩ := h.table.current?_eq
  obtain ⟨j, -, hstep⟩ := h.table.onCurrent_eq
  -- entering a method declares it once more, which changes nothing
  have htable : (env.table.update c.name fun i => (i.insertMethod s).2).Open earlier c :=
    h.table.update (fun _ => rfl) rfl fun k hk => by rw [hk.insertMethod_eq hs]; exact hk
  refine ⟨⟨env.table.update c.name fun i => (i.insertMethod s).2,
    ⟨[NameMap.empty.insert receiverName (.value i.ty)]⟩, some ⟨i.name, s⟩⟩, ?_, ?_, htable, rfl⟩
  · unfold Env.enterMethod
    simp only [h.method, Env.currentClass, hcur, ofExcept_ok, andThen_ok, Env.addMethod,
      Env.onTable, ClassTable.addMethod, hstep, wrap_ok, h.scopes]
    rfl
  · refine ⟨htable.records, hcs, fun x => ?_, ?_, List.cons_ne_nil _ _, _, rfl, rfl⟩
    · by_cases hx : x = receiverName
      · simp [Scopes.lookup, Context.ofBody, ClassInfo.ty, hi.name, hx]
      · have hne : (x == receiverName) = false := beq_eq_false_iff_ne.mpr hx
        simp [Scopes.lookup, Context.ofBody, List.lookup_cons, hne, hx]
    · intro e he
      simp only [Context.ofBody, List.map_nil, List.reverse_nil, List.nil_append,
        List.mem_singleton] at he
      subst he
      intro name hname
      rw [← Ty.cls.inj hname]
      exact List.mem_map.mpr ⟨c, List.mem_append_right _ (List.mem_singleton_self c), rfl⟩

end Env.Declaring

namespace Env.At

open Outcome

variable {Γ : Context}

theorem declareParams_eq : ∀ (params : List Param) {env : Env} {Γ : Context}, env.At Γ →
    (∀ p ∈ params, p.ty.Known Γ.names) → ∃ env', declareParams params env = .ok () env' ∧
      env'.At { Γ with locals := (params.map fun p => (p.name, p.ty)).reverse ++ Γ.locals } ∧
      env.Inner env'
  | [], env, Γ, h, _ => ⟨env, rfl, h, .refl env⟩
  | p :: rest, env, Γ, h, hp => by
    obtain ⟨hp, hrest⟩ := List.forall_mem_cons.mp hp
    obtain ⟨env₁, he₁, hat₁, hi₁⟩ := h.declareLocal_eq (x := p.name) hp
    obtain ⟨env₂, he₂, hat₂, hi₂⟩ := declareParams_eq rest hat₁ hrest
    refine ⟨env₂, ?_, ?_, hi₁.trans hi₂⟩
    · rw [declareParams, he₁, andThen_ok, he₂]
    · simpa [Context.bind] using hat₂

end Env.At

theorem Env.leaveMethod_eq (hin : env.inMethod = true) (hdepth : env.scopes.depth = 1) :
    Env.leaveMethod env = .ok () ⟨env.table, .empty, none⟩ := by
  obtain ⟨table, ⟨frames⟩, method⟩ := env
  obtain ⟨frame, rfl⟩ := List.length_eq_one_iff.mp hdepth
  rw [Env.leaveMethod, Env.inBody, if_pos hin]
  rfl

namespace Env.Declaring

open Outcome

/-- **A body is checked where its parameters and the receiver are known**, and leaves nothing in
the environment. -/
theorem settles_body (h : env.Declaring earlier c) (hcs : Hierarchy (earlier ++ [c]))
    (hs : c.Offers s) (r : Routine)
    (hparams : ∀ p ∈ r.params, p.ty.Known ((earlier ++ [c]).map Outline.name)) :
    (r.checkBody s env).Settles
      (fun _ => Stmt.AllOk .plain (.ofBody (earlier ++ [c]) c.name s.ret r.params) r.body)
      fun _ r' => (∃ body, r'.1 = { r with body } ∧
          Stmt.AllOk .annotated (.ofBody (earlier ++ [c]) c.name s.ret r.params) body) ∧
        r'.2.Declaring earlier c := by
  obtain ⟨env₁, he₁, hat₁, hopen, hdepth⟩ := h.enterMethod_eq hcs hs
  obtain ⟨env₂, he₂, hat₂, hi₂⟩ := At.declareParams_eq r.params hat₁ hparams
  -- parameters and statements share one frame, the only one, so leaving pops all there is
  rw [Routine.checkBody, he₁, andThen_ok, he₂, andThen_ok]
  refine (Settles.locate (hat₂.settles_stmts r.body)).finish fun _ r' _ hr => ?_
  obtain ⟨body, env₃⟩ := r'
  obtain ⟨hbody, hi₃⟩ := hr
  have hin : env₃.inMethod = true := by
    rw [Env.inMethod, hi₃.method]
    exact hat₂.inMethod
  have hleave := Env.leaveMethod_eq hin ((hi₃.depth.trans hi₂.depth).trans hdepth)
  have htable : env₃.table = env₁.table := hi₃.table.trans hi₂.table
  refine ⟨({ r with body }, ⟨env₁.table, .empty, none⟩), ?_, ⟨body, rfl, hbody⟩, hopen, rfl, rfl⟩
  simp only [hleave, wrap_ok, htable]

theorem settles_member (h : env.Declaring earlier c) (hcs : Hierarchy (earlier ++ [c])) (m : Member)
    (htyped : m.Typed ((earlier ++ [c]).map Outline.name))
    (hs : ∀ s, m.signature? c.name = some s → c.Offers s) :
    ((m.declared c.name).checkBody env).Settles
      (fun _ => m.Ok .plain (earlier ++ [c]) c.name)
      fun _ r => r.1.Ok .annotated (earlier ++ [c]) c.name ∧ r.2.Declaring earlier c := by
  have hknown : ∀ r : Routine,
      (∀ τ ∈ r.paramTypes, τ.Storable ((earlier ++ [c]).map Outline.name)) →
      ∀ p ∈ r.params, p.ty.Known ((earlier ++ [c]).map Outline.name) :=
    fun r hr p hp => (hr p.ty (List.mem_map_of_mem hp)).2
  cases m with
  | field => exact Settles.done .field ⟨.field, h⟩
  | method ret f r =>
    cases htyped with
    | method _ hparams =>
      have hbody := h.settles_body hcs (hs _ rfl)
        { r with signature := .filled ⟨f, r.paramTypes, ret⟩ } (hknown r hparams)
      refine (hbody.congr fun _ => ?_).wrap fun _ r' _ hr => ?_
      · exact ⟨fun hm => by cases hm; assumption, fun hb => .method trivial hb⟩
      · obtain ⟨r', env'⟩ := r'
        obtain ⟨⟨body, rfl, hbody⟩, henv⟩ := hr
        exact ⟨.method rfl hbody, henv⟩
  | constructor r =>
    cases htyped with
    | constructor hparams =>
      have hbody := h.settles_body hcs (hs _ rfl)
        { r with signature := .filled (.ofConstructor c.name r.paramTypes) } (hknown r hparams)
      refine (hbody.congr fun _ => ?_).wrap fun _ r' _ hr => ?_
      · exact ⟨fun hm => by cases hm; assumption, fun hb => .constructor trivial hb⟩
      · obtain ⟨r', env'⟩ := r'
        obtain ⟨⟨body, rfl, hbody⟩, henv⟩ := hr
        exact ⟨.constructor rfl hbody, henv⟩

theorem settles_members (hcs : Hierarchy (earlier ++ [c])) : ∀ (ms : List Member) {env : Env},
    env.Declaring earlier c →
    (∀ m ∈ ms, m.Typed ((earlier ++ [c]).map Outline.name) ∧
      ∀ s, m.signature? c.name = some s → c.Offers s) →
    (checkEach Member.checkBody (ms.map (Member.declared c.name)) env).Settles
      (fun _ => ∀ m ∈ ms, m.Ok .plain (earlier ++ [c]) c.name)
      fun _ r => (∀ m ∈ r.1, m.Ok .annotated (earlier ++ [c]) c.name) ∧ r.2.Declaring earlier c
  | [], _, h, _ => Settles.done (List.forall_mem_nil _) ⟨List.forall_mem_nil _, h⟩
  | m :: ms, env, h, hms => by
    obtain ⟨hm, hms⟩ := List.forall_mem_cons.mp hms
    rw [List.map_cons, checkEach]
    refine Settles.congr ?_ fun _ => List.forall_mem_cons
    refine (h.settles_member hcs m hm.1 hm.2).after fun r _ hr => ?_
    obtain ⟨m', env'⟩ := r
    obtain ⟨hm', henv⟩ := hr
    refine (settles_members hcs ms henv hms).wrap fun _ r _ hr => ?_
    obtain ⟨ms', env''⟩ := r
    exact ⟨List.forall_mem_cons.mpr ⟨hm', hr.1⟩, hr.2⟩

end Env.Declaring

end ClassLang
