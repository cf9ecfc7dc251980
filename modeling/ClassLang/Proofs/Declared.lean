import ClassLang.Compile
import ClassLang.Proofs.Lineage
import ClassLang.Proofs.Operations
import ClassLang.Proofs.Table.Resolution
import ClassLang.Proofs.Typing.Classes

/-!
# Environments in which every class that is named is declared

In a declared environment the parents, fields and methods of the table and the locals in scope name
only classes of the table, and nothing is stored under type `void` (`Env.Declared`). The operations
that declare something keep this if it is so of what they declare (`Env.Op.Guarded`,
`Env.Effect.declared`), and the types that lookups find there are declared as well
(`Env.Declared.storable_of_useVar`, `Env.Declared.declared_of_bindCall`).
-/

namespace ClassLang

/-- The names of the classes declared so far: those under which the table has a record. -/
def Env.names (env : Env) : List String := env.table.records.entries.map Prod.fst

variable {names names' : List String} {env env' env₁ env₂ : Env} {s : Signature} {e : Entity}
  {i : ClassInfo} {ty : Ty}

/-! ### What is declared -/

/-- The entry of a field or local: a value of a type that can be stored. -/
def Entity.Stored (names : List String) (e : Entity) : Prop := ∃ τ, e = .value τ ∧ τ.Storable names

/-- The types of a method. -/
def Signature.Declared (names : List String) (s : Signature) : Prop :=
  s.ret.Known names ∧ ∀ τ ∈ s.params, τ.Storable names

/-- What the record of a class names is declared. -/
structure ClassInfo.Declared (names : List String) (i : ClassInfo) : Prop where
  name : i.name ∈ names
  parent : ∀ q, i.parent = some q → q ∈ names
  fields : ∀ x e, i.members.get? x = some e → e.Stored names
  methods : ∀ s ∈ i.methods.toList, s.Declared names

/-- What the class table and the locals name is declared. -/
structure Env.Declared (env : Env) : Prop where
  classes : ∀ cls i, env.table.find? cls = some i → i.Declared env.names
  locals : ∀ frame ∈ env.scopes.frames, ∀ x e, frame.get? x = some e → e.Stored env.names

theorem Entity.Stored.mono (h : e.Stored names) (hsub : names ⊆ names') : e.Stored names' := by
  obtain ⟨τ, he, hτ⟩ := h
  exact ⟨τ, he, hτ.mono hsub⟩

theorem Signature.Declared.mono (h : s.Declared names) (hsub : names ⊆ names') :
    s.Declared names' :=
  ⟨h.1.mono hsub, fun τ hτ => (h.2 τ hτ).mono hsub⟩

theorem ClassInfo.Declared.mono (h : i.Declared names) (hsub : names ⊆ names') :
    i.Declared names' :=
  ⟨hsub h.name, fun q hq => hsub (h.parent q hq), fun x e he => (h.fields x e he).mono hsub,
    fun s hs => (h.methods s hs).mono hsub⟩

/-! ### What an operation keeps -/

/-- What an operation is to declare is declared with types that may stand there. -/
def Env.Op.Guarded (names : List String) : Env.Op → Prop
  | .setParent parent => parent ∈ names
  | .addField _ ty => ty.Storable names
  | .addMethod s | .enterMethod s => s.Declared names
  | .declareLocal _ e => e.Stored names
  | _ => True

namespace ClassInfo.Declared

theorem fresh {name : String} (h : name ∈ names) : (ClassTable.fresh name).Declared names where
  name := h
  parent := fun _ => nofun
  fields := fun _ _ => nofun
  methods := fun s hs => by
    obtain rfl : s = .ofConstructor name [] := by
      simpa [ClassTable.fresh, MethodSet.insert, MethodSet.empty, Signature.insertSorted] using hs
    exact ⟨fun q hq => Ty.cls.inj hq ▸ h, List.forall_mem_nil _⟩

theorem insertMember {x : String} (h : i.Declared names) (he : e.Stored names) :
    (i.insertMember x e).2.Declared names where
  name := h.name
  parent := h.parent
  fields := fun y e' he' => by
    rw [get?_insertMember] at he'
    split at he'
    · exact Option.some.inj he' ▸ he
    · exact h.fields y e' he'
  methods := h.methods

theorem insertMethod (h : i.Declared names) (hs : s.Declared names) :
    (i.insertMethod s).2.Declared names where
  name := h.name
  parent := h.parent
  fields := h.fields
  methods := fun u hu => by
    rcases MethodSet.mem_insert_iff.mp hu with hu | ⟨rfl, -⟩
    · exact h.methods u hu
    · exact hs

end ClassInfo.Declared

namespace Env

theorem mem_names_iff {name : String} : name ∈ env.names ↔ env.table.contains name = true := by
  rw [names, ClassTable.contains, ClassTable.find?, NameMap.get?, List.lookup_isSome_iff,
    List.mem_map]
  exact exists_congr fun e => and_congr_right fun _ => eq_comm.trans beq_iff_eq.symm

/-- An operation on the class table forgets no class. -/
theorem names_subset {o : ClassTable.Op} (h : env.table.Effect o env'.table) :
    env.names ⊆ env'.names := by
  intro name hname
  rw [mem_names_iff] at hname ⊢
  revert h
  generalize env'.table = t'
  intro h
  cases h with
  | enter => simp [hname]
  | change => simpa using hname
  | leave => exact hname

/-- Another innermost frame. -/
theorem Declared.frame {frame : NameMap Entity} {rest : List (NameMap Entity)} (h : env.Declared)
    (hrest : rest ⊆ env.scopes.frames)
    (hframe : ∀ x e, frame.get? x = some e → e.Stored env.names) :
    ({ env with scopes := ⟨frame :: rest⟩ } : Env).Declared :=
  ⟨h.classes, List.forall_mem_cons.mpr ⟨hframe, fun frame hmem => h.locals frame (hrest hmem)⟩⟩

/-- Without the innermost frame. -/
theorem Declared.pop {frame : NameMap Entity} {rest : List (NameMap Entity)} (h : env.Declared)
    (hframes : env.scopes.frames = frame :: rest) (method : Option OpenMethod) :
    ({ env with scopes := ⟨rest⟩, method := method } : Env).Declared := by
  refine ⟨h.classes, fun frame hframe => h.locals frame ?_⟩
  rw [hframes]
  exact List.mem_cons_of_mem _ hframe

theorem stored_insert {frame : NameMap Entity} {x : String} (he : e.Stored names)
    (h : ∀ y e', frame.get? y = some e' → e'.Stored names) :
    ∀ y e', (frame.insert x e).get? y = some e' → e'.Stored names := by
  intro y e' he'
  rw [NameMap.get?_insert] at he'
  split at he'
  · exact Option.some.inj he' ▸ he
  · exact h y e' he'

/-- What an operation on the class table gives a record is declared, if the operation is guarded. -/
theorem Declared.of_table {op : Op} {o : ClassTable.Op} {t : ClassTable} (h : env.Declared)
    (ho : op.onTable? = some o) (heff : env.table.Effect o t) (hop : op.Guarded env.names) :
    ({ env with table := t } : Env).Declared := by
  have hsub : env.names ⊆ ({ env with table := t } : Env).names := names_subset heff
  refine ⟨?_, fun frame hframe x e he => (h.locals frame hframe x e he).mono hsub⟩
  refine heff.forall_records (fun name hname => .fresh ?_) (fun f cls c hf _ _ hc => ?_)
    fun cls c hc => (h.classes cls c hc).mono hsub
  · subst hname
    cases heff with
    | enter => simp [mem_names_iff]
    | change hf => cases hf
  · cases op with
    | setParent parent =>
      cases ho
      cases hf
      exact ⟨hc.name, fun q hq => Option.some.inj hq ▸ hsub hop, hc.fields, hc.methods⟩
    | addField name ty =>
      cases ho
      cases hf
      exact hc.insertMember ⟨ty, rfl, hop.mono hsub⟩
    | addMethod s =>
      cases ho
      cases hf
      exact hc.insertMethod (hop.mono hsub)
    | enterClass =>
      cases ho
      cases hf
    | _ => cases ho

/-- No operation forgets a class. -/
theorem Effect.names_subset {op : Op} (heff : env.Effect op env') : env.names ⊆ env'.names := by
  rcases heff.on_table with htable | ⟨o, ho, -⟩
  · rw [names, names, htable]
    exact List.Subset.refl _
  · exact Env.names_subset ho

theorem Op.names_step (op : Op) (env : Env) : env.names ⊆ (op.step env).state.names :=
  op.keeps (I := fun env' => env.names ⊆ env'.names) (fun _ heff => heff.names_subset)
    (List.Subset.refl _)

/-- **A guarded operation keeps what is declared declared.** -/
theorem Effect.declared {op : Op} (heff : env.Effect op env') (hop : op.Guarded env.names)
    (h : env.Declared) : env'.Declared := by
  cases heff with
  | table ho heff => exact h.of_table ho heff hop
  | leaveClass => exact ⟨h.classes, h.locals⟩
  | @enterMethod s cls c hmethod hopen hc =>
    have ho : (Op.addMethod s).onTable? = some (.addMethod s) := rfl
    have htable := h.of_table ho (.change rfl hopen hc) hop
    have hreceiver : Entity.Stored env.names (.value c.ty) :=
      ⟨c.ty, rfl, nofun, fun q hq => Ty.cls.inj hq ▸ (h.classes cls c hc).name⟩
    have hsub : env.names ⊆ ({ env with
        table := env.table.update cls fun c => (c.insertMethod s).2 } : Env).names :=
      Env.names_subset (o := .addMethod s) (.change rfl hopen hc)
    have hentries : ∀ x e, ((NameMap.empty : NameMap Entity).insert receiverName
        (.value c.ty)).get? x = some e → e.Stored env.names :=
      stored_insert hreceiver fun _ _ => nofun
    have hframe := htable.frame (List.Subset.refl _) fun x e he => (hentries x e he).mono hsub
    exact ⟨hframe.classes, hframe.locals⟩
  | leaveMethod hmethod hframes => exact h.pop hframes none
  | enterScope => exact h.frame (List.Subset.refl _) fun _ _ => nofun
  | leaveScope hmethod hframes => exact h.pop hframes _
  | @declareLocal m name e frame rest hmethod hframes =>
    have hold := h.locals
    rw [hframes] at hold
    obtain ⟨hframe, -⟩ := List.forall_mem_cons.mp hold
    refine h.frame ?_ (stored_insert hop hframe)
    rw [hframes]
    exact List.subset_cons_self ..

theorem Op.declared_step {op : Op} (hop : op.Guarded env.names) (h : env.Declared) :
    (op.step env).state.Declared :=
  op.keeps (fun _ heff => heff.declared hop h) h

end Env

/-! ### What is found -/

theorem ClassTable.find?_of_after {t : ClassTable} {cls : String} : ∀ {k : ℕ} {i : ClassInfo},
    t.after (t.find? cls) k = some i → ∃ name, t.find? name = some i
  | 0, _, h => ⟨cls, h⟩
  | k + 1, _, h => by
    rw [after, Function.iterate_succ_apply'] at h
    obtain ⟨d, -, hd⟩ := Option.bind_eq_some_iff.mp h
    obtain ⟨q, -, hq⟩ := Option.bind_eq_some_iff.mp hd
    exact ⟨q, hq⟩

/-- What is found from a class on is found in a class of the table. -/
theorem ClassTable.exists_of_nearest? {α : Type} {t : ClassTable} {cls : String}
    {look : ClassInfo → Option α} {found : Located α} (h : t.nearest? cls look = some found) :
    ∃ name i, t.find? name = some i ∧ look i = some found.what := by
  obtain ⟨⟨i, depth⟩, hmem, hlook⟩ := List.exists_of_findSome?_eq_some h
  obtain ⟨what, hwhat, rfl⟩ := Option.map_eq_some_iff.mp hlook
  obtain ⟨k, -, hk⟩ := (mem_climb_iff t _ _).mp (List.fst_mem_of_mem_zipIdx hmem)
  obtain ⟨name, hi⟩ := find?_of_after hk
  exact ⟨name, i, hi, hwhat⟩

namespace Env.Declared

variable {x cls : String} {τ : Ty}

theorem stored_lookup (h : env.Declared) (hx : env.scopes.lookup x = some e) :
    e.Stored env.names := by
  obtain ⟨frame, hframe, he⟩ := List.exists_of_findSome?_eq_some hx
  exact h.locals frame hframe x e he

theorem storable_of_receiver? (h : env.Declared) (hτ : env.receiver? = some τ) :
    τ.Storable env.names := by
  obtain ⟨e, he, hvalue⟩ := Option.bind_eq_some_iff.mp hτ
  obtain ⟨σ, rfl, hσ⟩ := h.stored_lookup he
  exact Option.some.inj hvalue ▸ hσ

theorem storable_of_fieldTy {owner : String} (h : env.Declared)
    (hτ : env.table.fieldTy cls x = .ok (τ, owner)) : τ.Storable env.names := by
  unfold ClassTable.fieldTy at hτ
  split at hτ
  · rename_i depth o σ hfind
    cases hτ
    obtain ⟨name, i, hi, hmember⟩ := ClassTable.exists_of_nearest? hfind
    obtain ⟨σ, hvalue, hσ⟩ := (h.classes name i hi).fields x _ hmember
    cases hvalue
    exact hσ
  · cases hτ
  · split at hτ <;> cases hτ

theorem storable_of_lookupVar {b : VarBinding} (h : env.Declared)
    (hτ : env.lookupVar x = .ok (τ, b)) : τ.Storable env.names := by
  unfold Env.lookupVar at hτ
  split at hτ
  · rename_i σ hlocal
    cases hτ
    unfold Env.findLocal? at hlocal
    split at hlocal
    · cases hlocal
    · obtain ⟨σ, hvalue, hσ⟩ := h.stored_lookup hlocal
      cases hvalue
      exact hσ
  · cases hτ
  · split at hτ
    · cases hτ
    · split at hτ
      · cases hτ
      · rename_i hfield
        cases hτ
        exact h.storable_of_fieldTy hfield

theorem storable_of_useVar {o : Option String} {found : VarBinding × Option VarBinding}
    (h : env.Declared) (hτ : env.useVar o x = .ok (τ, found)) : τ.Storable env.names := by
  unfold Env.useVar at hτ
  split at hτ
  · split at hτ
    · cases hτ
    · rename_i hvar
      cases hτ
      exact h.storable_of_lookupVar hvar
  · split at hτ
    · cases hτ
    · split at hτ
      · cases hτ
      · rename_i hfield
        cases hτ
        exact h.storable_of_fieldTy hfield

/-- The method that a call means is a method of a class of the table. -/
theorem declared_of_resolveMethod {name : String} {args : List Ty} (h : env.Declared)
    (hs : env.table.resolveMethod cls name args = .ok s) : s.Declared env.names := by
  cases hc : env.table.contains cls with
  | false =>
    unfold ClassTable.resolveMethod at hs
    simp [hc, Misuse.raise] at hs
  | true =>
    rw [ClassTable.resolveMethod_eq_nearest _ hc] at hs
    split at hs
    · cases hs
    · rename_i found hfound
      obtain ⟨name, i, hi, hoffer⟩ := ClassTable.exists_of_nearest? hfound
      rw [hs] at hoffer
      exact (h.classes name i hi).methods s (ClassTable.mem_methods_of_offer hoffer)

theorem declared_of_bindCall {name : String} {args : List Ty} {target : MethodBinding}
    (h : env.Declared) (ht : env.table.bindCall cls name args = .ok target) :
    target.method.Declared env.names := by
  unfold ClassTable.bindCall at ht
  split at ht
  · cases ht
  · rename_i s hcall
    have hmethod : target.method = s := by
      unfold ClassTable.bindMethod at ht
      split at ht
      · cases ht
        rfl
      · cases ht
    rw [hmethod]
    unfold ClassTable.resolveCall at hcall
    split at hcall
    · split at hcall <;> cases hcall
    · exact h.declared_of_resolveMethod hcall

end Env.Declared

theorem known_of_ruleType {key : Signature} (h : ruleType key = .ok ty) : ty.Known names := by
  have hrules : ∀ s ∈ operatorRules, s.ret = .int ∨ s.ret = .bool := by decide
  unfold ruleType at h
  split at h
  · rename_i σ hσ
    cases h
    obtain ⟨s, hs, rfl⟩ := Option.map_eq_some_iff.mp hσ
    rcases hrules s (List.mem_of_find?_eq_some hs) with hret | hret
    · exact fun _ hcls => nomatch hret.symm.trans hcls
    · exact fun _ hcls => nomatch hret.symm.trans hcls
  · cases h

/-! ### What is asked for -/

theorem ClassTable.known_of_requireDeclared (h : env.table.requireDeclared ty = .ok ()) :
    ty.Known env.names := by
  intro name hname
  subst hname
  unfold requireDeclared at h
  by_cases hc : env.table.contains name = true
  · exact Env.mem_names_iff.mpr hc
  · simp only [hc, Bool.false_eq_true, if_false, Fault.raise] at h
    cases h

theorem ClassTable.storable_of_requireStorage {x : String}
    (h : env.table.requireStorage ty x = .ok ()) : ty.Storable env.names := by
  unfold requireStorage at h
  split at h
  · cases h
  · rename_i hdeclared
    refine ⟨fun hvoid => ?_, known_of_requireDeclared hdeclared⟩
    subst hvoid
    cases h

theorem ClassTable.mem_of_requireInstantiable {name : String}
    (h : env.table.requireInstantiable ty = .ok name) : name ∈ env.names := by
  unfold requireInstantiable at h
  split at h
  · cases h
  · rename_i hdeclared
    cases ty with
    | cls cls =>
      cases h
      exact known_of_requireDeclared hdeclared name rfl
    | _ => cases h

theorem ClassTable.storable_of_requireParams : ∀ {params : List (Ty × String)},
    env.table.requireParams params = .ok () → ∀ q ∈ params, q.1.Storable env.names
  | [], _ => List.forall_mem_nil _
  | (ty, x) :: rest, h => by
    unfold requireParams at h
    split at h
    · cases h
    · rename_i hty
      exact List.forall_mem_cons.mpr ⟨storable_of_requireStorage hty, storable_of_requireParams h⟩

theorem Routine.storable_params {r : Routine} (h : r.requireParams env.table = .ok ()) :
    ∀ τ ∈ r.paramTypes, τ.Storable env.names := by
  intro τ hτ
  obtain ⟨q, hq, rfl⟩ := List.mem_map.mp hτ
  exact ClassTable.storable_of_requireParams h _ (List.mem_map_of_mem hq)

end ClassLang
