import ClassLang.ClassTable.Overload
import ClassLang.Proofs.Settles
import ClassLang.Proofs.Table.Records

/-!
# What the class table answers

For a table that records a well-formed list of classes, the questions of the checker have the
answers that the relations on outlines give: `isOrBase` decides which types fit
(`isOrBase_iff`), `nearest?` looks at the nearest class that has something
(`nearest?_of_find?`), and `resolveMethod` and `resolveConstructor` come to the method that a call
means, or to a fault if it means none (`answers_resolveMethod`, `answers_resolveConstructor`).
-/

namespace ClassLang

namespace ClassTable

variable {t : ClassTable} {cs : List Outline} {cls name : String} {i : ClassInfo} {c : Outline}
  {args : List Ty} {s : Signature}

/-! ### Types that fit -/

/-- What a walk comes to, the type it started at fits. -/
theorem Records.fits_of_climb (h : t.Records cs) :
    ∀ (limit : ℕ) (name : String), i ∈ t.climb limit (t.find? name) →
      (Ty.cls name).Fits cs (.cls i.name)
  | 0, _, hi => by simp at hi
  | limit + 1, name, hi => by
    cases hj : t.find? name with
    | none => simp [hj] at hi
    | some j =>
      obtain ⟨d, hd, hdn, hjd⟩ := h.of_find? hj
      rw [hj, climb_succ] at hi
      rcases List.mem_cons.mp hi with rfl | hi
      · rw [hjd.name, hdn]
        exact .refl
      · cases hq : j.parent with
        | none => simp [parent?, hq] at hi
        | some q =>
          simp only [parent?, hq, Option.bind_some] at hi
          have hstep : Ty.ParentOf cs (.cls name) (.cls q) :=
            hdn ▸ .mk hd (hjd.parent.symm.trans hq)
          exact .head hstep (h.fits_of_climb limit q hi)

/-- A class that a type fits is met on the way up. -/
theorem exists_nearest_of_fits {b : String} (hb : b ∈ cs.map Outline.name) {a : Ty}
    (h : a.Fits cs (.cls b)) : ∀ {n : String}, a = .cls n → ∃ c, Nearest cs (·.name = b) n c := by
  induction h using Relation.ReflTransGen.head_induction_on with
  | refl =>
    intro n hn
    cases hn
    obtain ⟨c, hc, hcb⟩ := List.mem_map.mp hb
    exact ⟨c, .here hc hcb hcb⟩
  | head hstep _ ih =>
    intro n hn
    cases hstep with
    | @mk c q hc hq =>
      cases hn
      by_cases hcb : c.name = b
      · exact ⟨c, .here hc rfl hcb⟩
      · obtain ⟨d, hd⟩ := ih rfl
        exact ⟨d, .up hc rfl hcb hq hd⟩

/-- A built-in type fits itself only, and a class only classes that are declared. -/
theorem fits_cases (hcs : Hierarchy cs) {a b : Ty} (h : a.Fits cs b) :
    a = b ∨ ∃ m n, a = .cls m ∧ b = .cls n ∧ n ∈ cs.map Outline.name := by
  rcases Relation.ReflTransGen.cases_head h with hab | ⟨x, hax, -⟩
  · exact .inl hab
  · rcases Relation.ReflTransGen.cases_tail h with hab | ⟨y, -, hyb⟩
    · exact .inl hab.symm
    · cases hax with
      | mk hc hq =>
        cases hyb with
        | mk hd hq' => exact .inr ⟨_, _, rfl, rfl, hcs.parents _ hd _ hq'⟩

theorem isOrBase_iff (h : t.Records cs) (hcs : Hierarchy cs) {actual expected : Ty} :
    t.isOrBase expected actual = true ↔ actual.Fits cs expected := by
  constructor
  · intro ht
    unfold isOrBase at ht
    rw [Bool.or_eq_true, beq_iff_eq] at ht
    rcases ht with rfl | ht
    · exact .refl
    · split at ht
      · rename_i b d
        obtain ⟨i, hi, hib⟩ := List.any_eq_true.mp ht
        obtain ⟨k, hk⟩ := mem_above_iff.mp hi
        have hmem : i ∈ t.climb (k + 2) (t.find? d) :=
          (mem_climb_iff t (k + 2) _).mpr ⟨k + 1, Nat.lt_succ_self _, hk⟩
        have hfit := h.fits_of_climb (k + 2) d hmem
        rwa [beq_iff_eq.mp hib] at hfit
      · cases ht
  · intro hf
    rcases fits_cases hcs hf with rfl | ⟨d, b, rfl, rfl, hb⟩
    · exact t.isOrBase_self _
    · by_cases hbd : b = d
      · exact hbd ▸ t.isOrBase_self _
      · obtain ⟨c, hc⟩ := exists_nearest_of_fits hb hf rfl
        obtain ⟨i, hi, hic⟩ := h.find?_lineage_of_nearest (p := fun i => i.name == b) hcs
          (fun i c hic => by simp [hic.name]) hc
        have hib : i.name = b := by simpa using List.find?_some hi
        -- the walk starts at `d` itself, so it comes to `b` after a step or more
        have habove : i ∈ t.above d := by
          obtain ⟨k, -, hk⟩ := (mem_climb_iff t t.size _).mp (List.mem_of_find?_eq_some hi)
          cases k with
          | zero =>
            obtain ⟨e, -, hed, hie⟩ := h.of_find? hk
            exact absurd (hib.symm.trans (hie.name.trans hed)) hbd
          | succ k => exact mem_above_iff.mpr ⟨k, hk⟩
        rw [isOrBase_cls, Bool.or_eq_true, List.any_eq_true]
        exact .inr ⟨i, habove, by simp [hib]⟩

theorem accepts_iff (h : t.Records cs) (hcs : Hierarchy cs) : ∀ {params args : List Ty},
    t.accepts params args = true ↔ List.Forall₂ (Ty.Fits cs) args params
  | [], [] => by simp [accepts]
  | [], _ :: _ => by simp [accepts]
  | _ :: _, [] => by simp [accepts]
  | p :: params, a :: args => by
    rw [accepts, Bool.and_eq_true, isOrBase_iff h hcs, accepts_iff h hcs, List.forall₂_cons]

/-! ### The nearest class that has something -/

theorem findSome?_zipIdx {α : Type} (look : ClassInfo → Option α) :
    ∀ (l : List ClassInfo) (k : ℕ),
      match l.find? fun i => (look i).isSome with
      | none => ((l.zipIdx k).findSome? fun (i, depth) =>
          (look i).map fun what => (⟨depth, i.name, what⟩ : Located α)) = none
      | some i => ∃ depth what, look i = some what ∧ ((l.zipIdx k).findSome? fun (i, depth) =>
          (look i).map fun what => (⟨depth, i.name, what⟩ : Located α)) = some ⟨depth, i.name, what⟩
  | [], _ => rfl
  | j :: l, k => by
    have ih := findSome?_zipIdx look l (k + 1)
    cases hj : look j with
    | none => simpa [hj] using ih
    | some what => simp [hj]

theorem nearest?_of_find? {α : Type} {look : ClassInfo → Option α}
    (hi : (t.lineage cls).find? (fun i => (look i).isSome) = some i) :
    ∃ depth what, look i = some what ∧ t.nearest? cls look = some ⟨depth, i.name, what⟩ := by
  have := findSome?_zipIdx look (t.lineage cls) 0
  rw [hi] at this
  exact this

theorem nearest?_eq_none {α : Type} {look : ClassInfo → Option α}
    (hi : (t.lineage cls).find? (fun i => (look i).isSome) = none) :
    t.nearest? cls look = none := by
  have := findSome?_zipIdx look (t.lineage cls) 0
  rw [hi] at this
  exact this

/-- A walk that is longer than the lineage finds nothing else. -/
theorem nearest?_eq_ancestors {α : Type} {look : ClassInfo → Option α} {n : ℕ} (hn : t.size ≤ n) :
    t.nearest? cls look = (t.ancestors cls n).zipIdx.findSome? fun (i, depth) =>
      (look i).map fun what => (⟨depth, i.name, what⟩ : Located α) := by
  cases hfind : (t.lineage cls).find? fun i => (look i).isSome with
  | none =>
    have hnone : (t.ancestors cls n).find? (fun i => (look i).isSome) = none := by
      rw [List.find?_eq_none] at hfind ⊢
      exact fun i hi => hfind i (mem_lineage_of_mem_ancestors hi)
    have hsearch := findSome?_zipIdx look (t.ancestors cls n) 0
    rw [hnone] at hsearch
    rw [nearest?_eq_none hfind, hsearch]
  | some i =>
    obtain ⟨depth, what, -, hnear⟩ := nearest?_of_find? hfind
    obtain ⟨m, rfl⟩ := Nat.exists_eq_add_of_le hn
    rw [hnear, ancestors, climb_add, List.zipIdx_append, List.findSome?_append]
    rw [nearest?, lineage, ancestors] at hnear
    rw [hnear, Option.some_or]

/-! ### Overloads of one class -/

theorem mem_overloads_iff (hi : i.Records c) :
    s ∈ i.methods.overloads name ↔ c.Offers s ∧ s.name = name := by
  rw [MethodSet.overloads, List.mem_filter, hi.method, beq_iff_eq]

/-- What a class can have for a call: a method it selects, no candidate at all, or several
candidates, none of them selected. -/
theorem overloadIn_cases (h : t.Records cs) (hcs : Hierarchy cs) (hi : i.Records c) (name : String)
    (args : List Ty) :
    (∃ s, t.overloadIn i name args = .ok (some s) ∧ c.Selects cs name args s) ∨
    (t.overloadIn i name args = .ok none ∧ ∀ s, ¬ c.Candidate cs name args s) ∨
    (∃ f : Fault, t.overloadIn i name args = f.raise ∧ (∃ s, c.Candidate cs name args s) ∧
      ∀ s, ¬ c.Selects cs name args s) := by
  have hcand : ∀ s, s ∈ (i.methods.overloads name).filter (fun s => t.accepts s.params args) ↔
      c.Candidate cs name args s := fun s => by
    rw [List.mem_filter, mem_overloads_iff hi, accepts_iff h hcs, and_assoc]
    rfl
  have hnodup : ((i.methods.overloads name).filter fun s => t.accepts s.params args).Nodup :=
    (i.methods.nodup.filter _).filter _
  cases hexact : (i.methods.overloads name).find? (·.params == args) with
  | some s =>
    obtain ⟨ho, hname⟩ := (mem_overloads_iff hi).mp (List.mem_of_find?_eq_some hexact)
    refine .inl ⟨s, ?_, .exact ho hname (by simpa using List.find?_some hexact)⟩
    simp only [overloadIn, hexact]
  | none =>
    have hno : ∀ s, c.Offers s → s.name = name → s.params ≠ args := fun s ho hname hargs => by
      have := List.find?_eq_none.mp hexact s ((mem_overloads_iff hi).mpr ⟨ho, hname⟩)
      simp [hargs] at this
    simp only [overloadIn, hexact]
    cases hl : (i.methods.overloads name).filter fun s => t.accepts s.params args with
    | nil =>
      refine .inr (.inl ⟨rfl, fun s hs => ?_⟩)
      rw [← hcand, hl] at hs
      simp at hs
    | cons s rest =>
      have hs : c.Candidate cs name args s := (hcand s).mp (by rw [hl]; exact List.mem_cons_self ..)
      cases rest with
      | nil =>
        refine .inl ⟨s, rfl, .only hs fun u hu => ?_⟩
        rw [← hcand, hl] at hu
        exact List.mem_singleton.mp hu
      | cons u rest =>
        have hu : c.Candidate cs name args u := (hcand u).mp (by simp [hl])
        refine .inr (.inr ⟨_, rfl, ⟨s, hs⟩, fun v hv => ?_⟩)
        cases hv with
        | exact ho hname hargs => exact hno v ho hname hargs
        | only _ honly =>
          rw [hl, honly s hs, honly u hu] at hnodup
          simp at hnodup

/-! ### The method a call means -/

/-- The class has a candidate, one or several: the search for an overload ends there. -/
def decides (t : ClassTable) (name : String) (args : List Ty) (i : ClassInfo) : Bool :=
  match t.overloadIn i name args with
  | .ok none => false
  | _ => true

theorem overloadAlong_eq (t : ClassTable) (name : String) (args : List Ty) :
    ∀ l : List ClassInfo, t.overloadAlong name args l =
      match l.find? (t.decides name args) with
      | none => .ok none
      | some i => t.overloadIn i name args
  | [] => rfl
  | i :: l => by
    have ih := overloadAlong_eq t name args l
    rw [overloadAlong]
    cases hi : t.overloadIn i name args with
    | error e => simp [decides, hi]
    | ok found =>
      cases found with
      | none => simpa [decides, hi] using ih
      | some s => simp [decides, hi]

theorem decides_iff (h : t.Records cs) (hcs : Hierarchy cs) (hi : i.Records c) :
    t.decides name args i = true ↔ ∃ s, c.Candidate cs name args s := by
  unfold decides
  rcases overloadIn_cases h hcs hi name args with
    ⟨s, hs, hsel⟩ | ⟨hnone, hno⟩ | ⟨f, hf, hex, -⟩
  · simp only [hs, true_iff]
    exact ⟨s, hsel.candidate⟩
  · simp only [hnone, Bool.false_eq_true, false_iff]
    exact fun ⟨s, hs⟩ => hno s hs
  · simp only [hf, Fault.raise, true_iff]
    exact hex

/-- **A call comes to the method it means**, or to a fault if it means none. -/
theorem answers_resolveMethod (h : t.Records cs) (hcs : Hierarchy cs)
    (hcls : cls ∈ cs.map Outline.name) :
    Answers (t.resolveMethod cls name args) fun s => ∃ c, Resolves cs cls name args c s := by
  have hdec : ∀ i c, i.Records c →
      (t.decides name args i = true ↔ ∃ s, c.Candidate cs name args s) :=
    fun i c hi => decides_iff h hcs hi
  unfold resolveMethod
  rw [if_pos (h.contains_iff.mpr hcls), overloadAlong_eq]
  cases hfind : (t.lineage cls).find? (t.decides name args) with
  | none =>
    refine Answers.raise ?_
    rintro s ⟨c, hc⟩
    obtain ⟨i, hi, -⟩ := h.find?_lineage_of_nearest hcs hdec hc.nearest
    rw [hfind] at hi
    cases hi
  | some i =>
    obtain ⟨c, hic, hc⟩ := h.nearest_of_climb hdec t.size cls hfind
    simp only
    rcases overloadIn_cases h hcs hic name args with
      ⟨s, hs, hsel⟩ | ⟨-, hno⟩ | ⟨f, hf, -, hno⟩
    · rw [hs]
      refine Answers.ok fun u => ⟨?_, ?_⟩
      · rintro ⟨d, hd⟩
        exact (hd.unique hcs ⟨hc, hsel⟩).2
      · rintro rfl
        exact ⟨c, hc, hsel⟩
    · obtain ⟨s, hs⟩ := hc.holds
      exact absurd hs (hno s)
    · rw [hf]
      refine Answers.raise ?_
      rintro s ⟨d, hd⟩
      rw [hd.nearest.unique hcs hc] at hd
      exact hno s hd.selects

theorem answers_resolveConstructor (h : t.Records cs) (hcs : Hierarchy cs) (hc : c ∈ cs) :
    Answers (t.resolveConstructor c.name args) (c.Selects cs constructorName args) := by
  obtain ⟨i, hi, hic⟩ := h.find?_of_mem hc
  unfold resolveConstructor
  rw [hi]
  simp only
  rcases overloadIn_cases h hcs hic constructorName args with
    ⟨s, hs, hsel⟩ | ⟨hnone, hno⟩ | ⟨f, hf, -, hno⟩
  · rw [hs]
    refine Answers.ok fun u => ⟨fun hu => hu.unique hcs hc hsel, ?_⟩
    rintro rfl
    exact hsel
  · rw [hnone]
    exact Answers.raise fun s hs => hno s hs.candidate
  · rw [hf]
    exact Answers.raise hno

/-! ### The search for a method as a search for the nearest class -/

/-- What a class answers to a call, if the call goes no further. -/
def offer (t : ClassTable) (name : String) (args : List Ty) (c : ClassInfo) :
    Option (Except Failure Signature) :=
  match t.overloadIn c name args with
  | .ok none => none
  | .ok (some s) => some (.ok s)
  | .error e => some (.error e)

/-- The overload that a class answers with is one of its methods. -/
theorem mem_methods_of_offer (h : t.offer name args i = some (.ok s)) : s ∈ i.methods.toList := by
  have hmem : ∀ {u : Signature}, u ∈ i.methods.overloads name → u ∈ i.methods.toList :=
    fun hu => (List.mem_filter.mp hu).1
  unfold offer overloadIn at h
  cases hexact : (i.methods.overloads name).find? (·.params == args) with
  | some u =>
    simp only [hexact, Option.some.injEq, Except.ok.injEq] at h
    exact h ▸ hmem (List.mem_of_find?_eq_some hexact)
  | none =>
    simp only [hexact] at h
    cases hl : (i.methods.overloads name).filter fun u => t.accepts u.params args with
    | nil => simp [hl] at h
    | cons u rest =>
      cases rest with
      | nil =>
        simp only [hl, Option.some.injEq, Except.ok.injEq] at h
        subst h
        have hu : u ∈ (i.methods.overloads name).filter fun u => t.accepts u.params args := by
          rw [hl]
          exact List.mem_cons_self ..
        exact hmem (List.mem_filter.mp hu).1
      | cons v rest => simp [hl, Fault.raise] at h

/-- Going on to the next class until one answers is to ask the first one that answers. -/
theorem overloadAlong_eq_offer (t : ClassTable) (name : String)
    (args : List Ty) (otherwise : Except Failure Signature) : ∀ (l : List ClassInfo) (k : ℕ),
    (match t.overloadAlong name args l with
      | .error e => .error e
      | .ok (some s) => .ok s
      | .ok none => otherwise) =
    match (l.zipIdx k).findSome? fun (c, depth) => (t.offer name args c).map fun what =>
        (⟨depth, c.name, what⟩ : Located (Except Failure Signature)) with
      | none => otherwise
      | some found => found.what
  | [], _ => rfl
  | c :: l, k => by
    have ih := overloadAlong_eq_offer t name args otherwise l (k + 1)
    rw [overloadAlong, List.zipIdx_cons, List.findSome?_cons]
    cases hc : t.overloadIn c name args with
    | error e => simp [offer, hc]
    | ok found =>
      cases found with
      | none => simpa [offer, hc] using ih
      | some s => simp [offer, hc]

theorem resolveMethod_eq_nearest (t : ClassTable) (h : t.contains cls = true) :
    t.resolveMethod cls name args =
      match t.nearest? cls (t.offer name args) with
      | none => noOverload cls name args
      | some found => found.what := by
  unfold resolveMethod nearest?
  rw [if_pos h]
  exact overloadAlong_eq_offer t name args (noOverload cls name args) (t.lineage cls) 0

end ClassTable

end ClassLang
