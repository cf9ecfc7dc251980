import ClassLang.Proofs.Overload

/-!
# The first class on the way up

A search goes up from a class and stops at the first class in which it finds something
(`ClassTable.IsFirst`, `ClassTable.nearest?_eq_some_iff`). This holds in every table: where the
parents form a ring, the first class is met before the way comes back to one it has passed.

A call is looked up twice. The first search compares parameters with arguments, up to bases, and
comes to a signature; the second looks for that very signature, to say which class it comes from.
Both stop at the same class, and what stands there is the signature with its return type
(`ClassTable.bound_where_selected`). For a nearer class that had a method of the same key would have
had it for the call.
-/

namespace ClassLang

namespace ClassTable

variable {t : ClassTable} {cls name : String} {args : List Ty} {s : Signature} {i j : ClassInfo}
  {k k' : ℕ} {P : ClassInfo → Prop} {α : Type} {look : ClassInfo → Option α}

/-! ### What a search finds -/

/-- The class that a walk comes to after `k` steps from `cls` has `P`, and none before it has. -/
structure IsFirst (t : ClassTable) (cls : String) (P : ClassInfo → Prop) (k : ℕ) (i : ClassInfo) :
    Prop where
  reached : t.after (t.find? cls) k = some i
  holds : P i
  before : ∀ k' < k, ∀ j, t.after (t.find? cls) k' = some j → ¬ P j

theorem getElem?_climb (t : ClassTable) : ∀ (n : ℕ) (start : Option ClassInfo) (k : ℕ),
    (t.climb n start)[k]? = if k < n then t.after start k else none
  | 0, _, _ => by simp
  | n + 1, none, k => by simp [after_none]
  | n + 1, some c, 0 => by simp [after]
  | n + 1, some c, k + 1 => by
    have hstep : t.after (some c) (k + 1) = t.after (t.parent? c) k := rfl
    rw [climb_succ, List.getElem?_cons_succ, getElem?_climb t n, hstep]
    simp only [Nat.add_lt_add_iff_right]

/-- A search in a list stops at the first class that has something. -/
theorem findSome?_zipIdx_iff (found : Located α) : ∀ (l : List ClassInfo) (d : ℕ),
    ((l.zipIdx d).findSome? fun (i, depth) =>
        (look i).map fun what => (⟨depth, i.name, what⟩ : Located α)) = some found ↔
      ∃ k i a, l[k]? = some i ∧ look i = some a ∧ found = ⟨d + k, i.name, a⟩ ∧
        ∀ k' < k, ∀ j, l[k']? = some j → look j = none
  | [], d => by simp
  | i :: l, d => by
    have ih := findSome?_zipIdx_iff found l (d + 1)
    rw [List.zipIdx_cons, List.findSome?_cons]
    cases hi : look i with
    | some a =>
      simp only [hi, Option.map_some]
      constructor
      · intro h
        exact ⟨0, i, a, rfl, hi, (Option.some.inj h).symm, fun k' hk' => absurd hk' (by omega)⟩
      · rintro ⟨k, j, b, hj, hb, rfl, hbefore⟩
        -- a later class would not be the first
        obtain rfl : k = 0 := by
          by_contra hk
          have hnone := hbefore 0 (by omega) i rfl
          rw [hi] at hnone
          cases hnone
        obtain rfl : i = j := Option.some.inj hj
        rw [Option.some.inj (hi.symm.trans hb)]
        rfl
    | none =>
      simp only [hi, Option.map_none]
      rw [ih]
      constructor
      · rintro ⟨k, j, a, hj, ha, rfl, hbefore⟩
        refine ⟨k + 1, j, a, hj, ha, by rw [Nat.add_right_comm, Nat.add_assoc], ?_⟩
        intro k' hk' b hb
        cases k' with
        | zero => exact Option.some.inj hb ▸ hi
        | succ k' => exact hbefore k' (by omega) b hb
      · rintro ⟨k, j, a, hj, ha, rfl, hbefore⟩
        cases k with
        | zero =>
          obtain rfl : i = j := Option.some.inj hj
          rw [hi] at ha
          cases ha
        | succ k =>
          refine ⟨k, j, a, hj, ha, by rw [Nat.add_right_comm, Nat.add_assoc], ?_⟩
          exact fun k' hk' b hb => hbefore (k' + 1) (by omega) b hb

/-- The first class with a property is met in fewer than `size` steps. -/
theorem IsFirst.lt_size (h : t.IsFirst cls P k i) : k < t.size := by
  have hs : ∀ c, t.find? cls = some c → c ∈ t.infos := fun c hc => mem_infos_of_find? hc
  obtain ⟨k', hk', hi⟩ := exists_lt_size hs k h.reached
  by_contra hk
  exact h.before k' (by omega) i hi h.holds

/-- **A search finds what the first class with something has**, at that class's depth, in every
table. -/
theorem nearest?_eq_some_iff {owner : String} {a : α} :
    t.nearest? cls look = some ⟨k, owner, a⟩ ↔
      ∃ i, t.IsFirst cls (fun j => (look j).isSome = true) k i ∧ i.name = owner ∧
        look i = some a := by
  have hwalk : ∀ {k : ℕ} {i : ClassInfo},
      (t.lineage cls)[k]? = some i ↔ k < t.size ∧ t.after (t.find? cls) k = some i := by
    intro k i
    rw [lineage, ancestors, getElem?_climb]
    split <;> simp [*]
  rw [nearest?, findSome?_zipIdx_iff]
  constructor
  · rintro ⟨k', i, a', hi, ha, heq, hbefore⟩
    obtain ⟨hk, hreached⟩ := hwalk.mp hi
    rw [Nat.zero_add] at heq
    obtain ⟨rfl, rfl, rfl⟩ := Located.mk.inj heq
    refine ⟨i, ⟨hreached, by simp [ha], fun k' hk' j hj => ?_⟩, rfl, ha⟩
    rw [hbefore k' hk' j (hwalk.mpr ⟨by omega, hj⟩)]
    exact Bool.false_ne_true
  · rintro ⟨i, hfirst, rfl, ha⟩
    refine ⟨k, i, a, hwalk.mpr ⟨hfirst.lt_size, hfirst.reached⟩, ha, by simp, fun k' hk' j hj => ?_⟩
    have hnone := hfirst.before k' hk' j (hwalk.mp hj).2
    simpa using hnone

/-! ### The two searches for a call -/

theorem offer_eq_ok_iff :
    t.offer name args i = some (.ok s) ↔ t.overloadIn i name args = .ok (some s) := by
  unfold offer
  cases t.overloadIn i name args with
  | error e => simp
  | ok found => cases found <;> simp

theorem isSome_offer_iff :
    (t.offer name args i).isSome = true ↔ t.overloadIn i name args ≠ .ok none := by
  unfold offer
  cases t.overloadIn i name args with
  | error e => simp
  | ok found => cases found <;> simp

theorem mem_candidates_of_overloadIn (h : t.overloadIn i name args = .ok (some s)) :
    s ∈ t.candidates i name args := by
  have hoffer := offer_eq_ok_iff.mpr h
  rcases t.offer_cases i name args with ⟨hnone, -⟩ | ⟨r, hr, hchooses⟩
  · rw [hoffer] at hnone
    cases hnone
  · obtain rfl : Except.ok s = r := Option.some.inj (hoffer.symm.trans hr)
    cases hchooses with
    | exact hs _ => exact hs
    | only hs => exact hs ▸ List.mem_singleton_self s

/-- A class that has nothing for a call has no method of the key that another class selects. -/
theorem not_contains_of_overloadIn (hi : t.overloadIn i name args = .ok (some s))
    (hj : t.overloadIn j name args = .ok none) : ¬ j.methods.contains s = true := by
  intro hcontains
  obtain ⟨u, hu, hkey⟩ := MethodSet.contains_iff.mp hcontains
  obtain ⟨hname, hparams⟩ := Signature.sameKey_iff.mp hkey
  obtain ⟨-, hsname, hfits⟩ := mem_candidates_iff.mp (mem_candidates_of_overloadIn hi)
  have hcandidate : u ∈ t.candidates j name args :=
    mem_candidates_iff.mpr ⟨hu, hname.trans hsname, hparams ▸ hfits⟩
  rcases t.offer_cases j name args with ⟨-, hnil⟩ | ⟨r, hr, -⟩
  · rw [hnil] at hcandidate
    cases hcandidate
  · exact isSome_offer_iff.mp (by rw [hr]; rfl) hj

theorem find?_of_overloadIn (h : t.overloadIn i name args = .ok (some s)) :
    i.methods.find? s = some s :=
  MethodSet.find?_of_mem (mem_candidates_iff.mp (mem_candidates_of_overloadIn h)).1

/-- A call comes to the method of the first class that has anything for it. -/
theorem resolveMethod_eq_ok_iff : t.resolveMethod cls name args = .ok s ↔
    ∃ k i, t.IsFirst cls (fun j => t.overloadIn j name args ≠ .ok none) k i ∧
      t.overloadIn i name args = .ok (some s) := by
  have hfirst : ∀ k, (∃ i, t.IsFirst cls (fun j => (t.offer name args j).isSome = true) k i ∧
      t.offer name args i = some (.ok s)) ↔
      ∃ i, t.IsFirst cls (fun j => t.overloadIn j name args ≠ .ok none) k i ∧
        t.overloadIn i name args = .ok (some s) := by
    intro k
    simp only [isSome_offer_iff, offer_eq_ok_iff]
  by_cases hc : t.contains cls = true
  · rw [t.resolveMethod_eq_nearest hc]
    constructor
    · intro h
      cases hnear : t.nearest? cls (t.offer name args) with
      | none =>
        rw [hnear] at h
        cases h
      | some found =>
        obtain ⟨k, owner, r⟩ := found
        rw [hnear] at h
        obtain rfl : r = .ok s := h
        obtain ⟨i, hi, -, hoffer⟩ := nearest?_eq_some_iff.mp hnear
        exact ⟨k, (hfirst k).mp ⟨i, hi, hoffer⟩⟩
    · rintro ⟨k, h⟩
      obtain ⟨i, hi, hoffer⟩ := (hfirst k).mpr h
      rw [nearest?_eq_some_iff.mpr ⟨i, hi, rfl, hoffer⟩]
  · constructor
    · intro h
      rw [resolveMethod_unregistered (Bool.eq_false_iff.mpr hc)] at h
      cases h
    · rintro ⟨k, i, hi, -⟩
      have hnone : t.find? cls = none := by simpa [contains] using hc
      have hreached := hi.reached
      rw [hnone, after_none] at hreached
      cases hreached

/-- A creation comes to a constructor of the class itself. -/
theorem resolveConstructor_eq_ok_iff : t.resolveConstructor cls args = .ok s ↔
    ∃ i, t.find? cls = some i ∧ t.overloadIn i constructorName args = .ok (some s) := by
  unfold resolveConstructor
  cases t.find? cls with
  | none => simp [Misuse.raise]
  | some i =>
    cases hoverload : t.overloadIn i constructorName args with
    | error e => simp [hoverload]
    | ok found => cases found <;> simp [hoverload, noOverload, Fault.raise]

/-- A signature is bound to the first class that has its key. -/
theorem bindMethod_of_isFirst (h : t.IsFirst cls (fun j => j.methods.contains s = true) k i)
    (hs : i.methods.find? s = some s) :
    t.findMethod? cls s = some ⟨k, i.name, s⟩ ∧ t.bindMethod cls s = .ok ⟨i.name, s⟩ := by
  have hfind : t.findMethod? cls s = some ⟨k, i.name, s⟩ :=
    nearest?_eq_some_iff.mpr ⟨i, h, rfl, hs⟩
  refine ⟨hfind, ?_⟩
  unfold bindMethod
  simp only [hfind]

/-- **A call is bound to the class that selected its method.** In a table that operations build, let
a call come to the method `m`. Then the first class on the way up that has anything for the call is
the first that has a method with the key of `m`; what it has under that key is `m` itself, return
type included; and this class is what `m` is bound to. A constructor is bound to the class whose
object is created. -/
theorem bound_where_selected {ops : List Op} (ht : t = run .empty ops) (cls : String) :
    (∀ name args m, t.resolveMethod cls name args = .ok m → ∃ k i,
      t.IsFirst cls (fun j => t.overloadIn j name args ≠ .ok none) k i ∧
      t.overloadIn i name args = .ok (some m) ∧
      t.IsFirst cls (fun j => j.methods.contains m = true) k i ∧
      t.findMethod? cls m = some ⟨k, i.name, m⟩ ∧ t.bindMethod cls m = .ok ⟨i.name, m⟩) ∧
    ∀ args m, t.resolveConstructor cls args = .ok m → ∃ i, t.find? cls = some i ∧
      t.overloadIn i constructorName args = .ok (some m) ∧
      t.findMethod? cls m = some ⟨0, cls, m⟩ ∧ t.bindMethod cls m = .ok ⟨cls, m⟩ := by
  have hstep : t.InStep := ht ▸ (sound_run ops).inStep
  constructor
  · intro name args m hm
    obtain ⟨k, i, hfirst, hi⟩ := resolveMethod_eq_ok_iff.mp hm
    have hfind := find?_of_overloadIn hi
    have hkey : t.IsFirst cls (fun j => j.methods.contains m = true) k i := by
      refine ⟨hfirst.reached, by simp [MethodSet.contains, hfind], fun k' hk' j hj => ?_⟩
      exact not_contains_of_overloadIn hi (not_not.mp (hfirst.before k' hk' j hj))
    exact ⟨k, i, hfirst, hi, hkey, bindMethod_of_isFirst hkey hfind⟩
  · intro args m hm
    obtain ⟨i, hcls, hi⟩ := resolveConstructor_eq_ok_iff.mp hm
    have hfind := find?_of_overloadIn hi
    have hkey : t.IsFirst cls (fun j => j.methods.contains m = true) 0 i :=
      ⟨hcls, by simp [MethodSet.contains, hfind], fun k' hk' => absurd hk' (by omega)⟩
    have hbound := bindMethod_of_isFirst hkey hfind
    rw [hstep.named cls i hcls] at hbound
    exact ⟨i, hcls, hi, hbound⟩

/-- In `crossed` the call of `f` on a `C` is selected one step up, in `B`, and bound there, although
`A` has an overload for just these arguments. The constructor of `C` is its own. -/
theorem crossed_bound :
    crossed.resolveMethod "C" "f" [.cls "B"] = .ok ⟨"f", [.cls "A"], .bool⟩ ∧
    (∃ i, i.name = "B" ∧
      crossed.IsFirst "C" (fun j => crossed.overloadIn j "f" [.cls "B"] ≠ .ok none) 1 i ∧
      crossed.IsFirst "C" (fun j => j.methods.contains ⟨"f", [.cls "A"], .bool⟩ = true) 1 i) ∧
    crossed.bindMethod "C" ⟨"f", [.cls "A"], .bool⟩ = .ok ⟨"B", ⟨"f", [.cls "A"], .bool⟩⟩ ∧
    crossed.resolveConstructor "C" [] = .ok (.ofConstructor "C" []) ∧
    crossed.bindMethod "C" (.ofConstructor "C" []) = .ok ⟨"C", .ofConstructor "C" []⟩ := by
  have hmethod : crossed.resolveMethod "C" "f" [.cls "B"] = .ok ⟨"f", [.cls "A"], .bool⟩ := by
    decide +kernel
  have hcreate : crossed.resolveConstructor "C" [] = .ok (.ofConstructor "C" []) := by
    decide +kernel
  have hfound : crossed.findMethod? "C" ⟨"f", [.cls "A"], .bool⟩ =
      some ⟨1, "B", ⟨"f", [.cls "A"], .bool⟩⟩ := by
    decide +kernel
  obtain ⟨hmethods, hconstructors⟩ := bound_where_selected (t := crossed) rfl "C"
  obtain ⟨k, i, hselected, -, hfirst, hfind, hbound⟩ := hmethods "f" [.cls "B"] _ hmethod
  obtain ⟨-, -, -, -, hcreated⟩ := hconstructors [] _ hcreate
  obtain ⟨rfl, hname, -⟩ := Located.mk.inj (Option.some.inj (hfind.symm.trans hfound))
  rw [hname] at hbound
  exact ⟨hmethod, ⟨i, hname, hselected, hfirst⟩, hbound, hcreate, hcreated⟩

end ClassTable

end ClassLang
