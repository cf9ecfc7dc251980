import ClassLang.ClassTable.Use
import ClassLang.Proofs.Table.Resolution
import ClassLang.Proofs.Typing.Rules

/-!
# Uses of classes, against the rules

Each use of a type, member or method that the checker puts to the class table is allowed just when
the typing rules allow it, and a use that is not allowed is a fault of the program. In particular
the method that a call was resolved to is found again when its class is looked for
(`bindMethod_of_nearest`): a class nearer by that had a method of the same key would have had a
candidate for the call.
-/

namespace ClassLang

theorem answers_requireSame {actual expected : Ty} :
    Answers (requireSame actual expected) fun _ => actual = expected :=
  Answers.require

namespace ClassTable

variable {t : ClassTable} {cs : List Outline} {cls name : String} {c : Outline} {args : List Ty}
  {s : Signature} {ty : Ty}

/-! ### Types -/

theorem answers_requireDeclared (h : t.Records cs) :
    Answers (t.requireDeclared ty) fun _ => ty.Known (cs.map Outline.name) := by
  unfold requireDeclared
  cases ty with
  | cls name =>
    refine Answers.require.congr fun _ => ?_
    rw [h.contains_iff]
    exact ⟨fun hk => hk name rfl, fun hn _ he => by cases he; exact hn⟩
  | void => exact Answers.ok fun _ => ⟨fun _ => rfl, fun _ => nofun⟩
  | int => exact Answers.ok fun _ => ⟨fun _ => rfl, fun _ => nofun⟩
  | bool => exact Answers.ok fun _ => ⟨fun _ => rfl, fun _ => nofun⟩

theorem answers_requireStorage (h : t.Records cs) :
    Answers (t.requireStorage ty name) fun _ => ty.Storable (cs.map Outline.name) := by
  have hvoid : Answers (if ty.isVoid then (Fault.voidStorage name).raise else .ok ())
      fun _ => ty ≠ .void := by
    by_cases hv : ty = .void
    · rw [if_pos (by simp [Ty.isVoid, hv])]
      exact Answers.raise fun _ hne => hne hv
    · rw [if_neg (by simp [Ty.isVoid, hv])]
      exact Answers.ok fun _ => by simp [hv]
  exact ((answers_requireDeclared h).after fun _ => hvoid).congr fun _ => and_comm

theorem answers_requireParams (h : t.Records cs) : ∀ params : List (Ty × String),
    Answers (t.requireParams params) fun _ => ∀ p ∈ params, p.1.Storable (cs.map Outline.name)
  | [] => Answers.ok fun _ => by simp
  | (ty, name) :: rest => by
    rw [requireParams]
    refine ((answers_requireStorage h).after fun _ => answers_requireParams h rest).congr
      fun _ => ?_
    rw [List.forall_mem_cons]

theorem answers_requireFits (h : t.Records cs) (hcs : Hierarchy cs) {actual expected : Ty} :
    Answers (t.requireFits actual expected) fun _ => actual.Fits cs expected :=
  Answers.require.congr fun _ => (isOrBase_iff h hcs).symm

/-- A name stands for a class unless it is that of a built-in type. -/
theorem ofName_eq_cls_iff {n : String} :
    Ty.ofName name = .cls n ↔ n = name ∧ name ∉ builtinNames := by
  unfold Ty.ofName builtinNames
  split
  · simp_all
  · split
    · simp_all
    · split <;> simp_all [eq_comm]

theorem answers_requireInstantiable (h : t.Records cs) :
    Answers (t.requireInstantiable (.ofName name)) fun n =>
      n = name ∧ name ∉ builtinNames ∧ name ∈ cs.map Outline.name := by
  have hiff := @ofName_eq_cls_iff name
  refine ((answers_requireDeclared h).after (L := fun n => Ty.ofName name = .cls n)
    fun _ => ?_).congr fun n => ⟨?_, ?_⟩
  · split
    · rename_i n hn
      exact Answers.ok fun b => by rw [hn, Ty.cls.injEq, eq_comm]
    · rename_i hno
      exact Answers.raise hno
  · rintro ⟨rfl, hb, hn⟩
    have hcls := hiff.mpr ⟨rfl, hb⟩
    refine ⟨fun m hm => ?_, hcls⟩
    rw [hcls] at hm
    cases hm
    exact hn
  · rintro ⟨hk, hcls⟩
    obtain ⟨rfl, hb⟩ := hiff.mp hcls
    exact ⟨rfl, hb, hk n hcls⟩

/-! ### Fields -/

theorem isSome_member_iff {i : ClassInfo} (hi : i.Records c) :
    (i.members.get? name).isSome = true ↔ name ∈ c.fields.map Prod.fst := by
  rw [hi.member, Option.isSome_map, List.lookup_isSome_iff, List.mem_map]
  simp only [beq_iff_eq, @eq_comm _ name]

theorem answers_fieldTy (h : t.Records cs) (hcs : Hierarchy cs) :
    Answers (t.fieldTy cls name) fun a => ∃ c, FieldOf cs cls name c a.1 ∧ c.name = a.2 := by
  have hlook : ∀ (i : ClassInfo) (c : Outline), i.Records c →
      ((i.members.get? name).isSome = true ↔ name ∈ c.fields.map Prod.fst) :=
    fun i c hi => isSome_member_iff hi
  unfold fieldTy findMember?
  cases hfind : (t.lineage cls).find? fun i => (i.members.get? name).isSome with
  | none =>
    have hno : ∀ a : Ty × String, ¬ ∃ c, FieldOf cs cls name c a.1 ∧ c.name = a.2 := by
      rintro a ⟨c, hc, -⟩
      obtain ⟨i, hi, -⟩ := h.find?_lineage_of_nearest hcs hlook hc.nearest
      rw [hfind] at hi
      cases hi
    rw [nearest?_eq_none hfind]
    simp only
    split
    · exact Answers.raise hno
    · exact Answers.raise hno
  | some i =>
    obtain ⟨c, hic, hc⟩ := h.nearest_of_climb hlook t.size cls hfind
    obtain ⟨depth, what, hwhat, hnear⟩ := nearest?_of_find? hfind
    rw [hic.member] at hwhat
    obtain ⟨ty, hty, rfl⟩ := Option.map_eq_some_iff.mp hwhat
    have hfield : FieldOf cs cls name c ty := ⟨hc, mem_of_lookup hty⟩
    rw [hnear]
    refine Answers.ok fun b => ⟨?_, ?_⟩
    · rintro ⟨d, hd, hdb⟩
      obtain ⟨rfl, hb⟩ := hd.unique hcs hfield
      exact Prod.ext hb (hdb.symm.trans hic.name.symm)
    · rintro rfl
      exact ⟨c, hfield, hic.name.symm⟩

/-! ### Methods -/

/-- A method is found again in the nearest class that has its key. -/
theorem bindMethod_of_nearest (h : t.Records cs) (hcs : Hierarchy cs)
    (hc : Nearest cs (fun d => ∃ u, d.Offers u ∧ u.sameKey s = true) cls c) :
    t.bindMethod cls s = .ok ⟨c.name, s⟩ := by
  obtain ⟨i, hi, hic⟩ := h.find?_lineage_of_nearest hcs
    (p := fun i => (i.methods.find? s).isSome) (fun i c hic => by
      rw [← MethodSet.contains, MethodSet.contains_iff]
      simp only [hic.method]) hc
  obtain ⟨depth, what, -, hnear⟩ := nearest?_of_find? hi
  rw [bindMethod, findMethod?, hnear, hic.name]

theorem bindMethod_of_resolves (h : t.Records cs) (hcs : Hierarchy cs)
    (hc : Resolves cs cls name args c s) : t.bindMethod cls s = .ok ⟨c.name, s⟩ := by
  obtain ⟨ho, hname, hfit⟩ := hc.selects.candidate
  refine bindMethod_of_nearest h hcs (hc.nearest.narrow ?_ ⟨s, ho, Signature.sameKey_self s⟩)
  rintro d ⟨u, hu, hus⟩
  obtain ⟨hun, hup⟩ := Signature.sameKey_iff.mp hus
  exact ⟨u, hu, hun.trans hname, hup ▸ hfit⟩

/-- A call of a member that is no method is a fault as well. -/
theorem answers_resolveCall (h : t.Records cs) (hcs : Hierarchy cs)
    (hcls : cls ∈ cs.map Outline.name) :
    Answers (t.resolveCall cls name args) fun s => ∃ c, Resolves cs cls name args c s := by
  have hr : Answers (t.resolveMethod cls name args) fun s => ∃ c, Resolves cs cls name args c s :=
    answers_resolveMethod h hcs hcls
  unfold resolveCall
  split
  · rename_i c m span he
    rw [he] at hr
    split
    · exact Answers.raise hr.2
    · exact hr
  · exact hr

theorem answers_bindCall (h : t.Records cs) (hcs : Hierarchy cs)
    (hcls : cls ∈ cs.map Outline.name) :
    Answers (t.bindCall cls name args) (Calls cs cls name args) := by
  have hr : Answers (t.resolveCall cls name args) fun s => ∃ c, Resolves cs cls name args c s :=
    answers_resolveCall h hcs hcls
  refine hr.andThen (K := fun s b => ∃ c, Resolves cs cls name args c s ∧ b = ⟨c.name, s⟩)
    (fun e he => by rw [bindCall, he]) ?_ fun b => ?_
  · rintro s hs ⟨c, hc⟩
    rw [bindCall, hs]
    simp only
    rw [bindMethod_of_resolves h hcs hc]
    refine Answers.ok fun b => ⟨?_, fun hb => ⟨c, hc, hb⟩⟩
    rintro ⟨d, hd, rfl⟩
    rw [(hd.unique hcs hc).1]
  · constructor
    · rintro ⟨c, hc, hname⟩
      exact ⟨b.method, ⟨c, hc⟩, c, hc, by rw [hname]⟩
    · rintro ⟨s, -, c, hc, rfl⟩
      exact ⟨c, hc, rfl⟩

theorem answers_bindConstructor (h : t.Records cs) (hcs : Hierarchy cs)
    (hcls : cls ∈ cs.map Outline.name) :
    Answers (t.bindConstructor cls args) (Creates cs cls args) := by
  obtain ⟨c, hc, rfl⟩ := List.mem_map.mp hcls
  have hr : Answers (t.resolveConstructor c.name args) (c.Selects cs constructorName args) :=
    answers_resolveConstructor h hcs hc
  refine hr.andThen (K := fun s b => b = ⟨c.name, s⟩) (fun e he => by rw [bindConstructor, he])
    (fun s hs hsel => ?_) fun b => ?_
  · rw [bindConstructor, hs]
    simp only
    rw [bindMethod_of_nearest h hcs
      (.here hc rfl ⟨s, hsel.candidate.1, Signature.sameKey_self s⟩)]
    exact Answers.ok fun b => Iff.rfl
  · constructor
    · rintro ⟨d, hd, hname, hsel, howner⟩
      rw [hcs.eq_of_name hd hc hname] at hsel
      exact ⟨b.method, hsel, by rw [← howner]⟩
    · rintro ⟨s, hsel, rfl⟩
      exact ⟨c, hc, rfl, hsel, rfl⟩

end ClassTable

end ClassLang
