import ClassLang.Proofs.Ancestry
import ClassLang.Proofs.Table.Operations

/-!
# The overload that a call means

The search for an overload goes through two passes in one class after the other and stops at the
first that finds something. Here is what it comes to, without passes and stops.

In a class the candidates for a call are its methods of that name whose parameters are, position by
position, the types of the arguments or bases of them (`ClassTable.candidates`). On the way up from
the class of the object the first class that has candidates decides. It chooses the candidate with
just the types of the arguments, or else the only one; several are an ambiguity
(`ClassTable.Chooses`, `ClassTable.Resolution`). That exact overloads are candidates themselves, and
that a set has only one with given types, is what makes the two passes a choice among candidates.

The search for a constructor is the same search on a way of one class
(`ClassTable.resolution_iff`).
-/

namespace ClassLang

namespace ClassTable

variable {t : ClassTable} {i j : ClassInfo} {cls name operation : String} {args : List Ty}
  {chain l : List ClassInfo} {s : Signature} {r r' : Except Failure Signature}

/-! ### Bases -/

/-- The types are equal, or the first is a class that is reached from the second by going from class
to parent. -/
inductive IsOrBase (t : ClassTable) : Ty → Ty → Prop
  | refl {τ : Ty} : IsOrBase t τ τ
  | base {cls : String} {i j : ClassInfo} (hi : t.find? cls = some i)
    (h : Relation.TransGen t.Link i j) : IsOrBase t (.cls j.name) (.cls cls)

theorem transGen_of_after (hi : t.find? cls = some i) : ∀ {k : ℕ} {j : ClassInfo},
    t.after (some i) (k + 1) = some j → Relation.TransGen t.Link i j
  | 0, _, h => .single ⟨⟨cls, hi⟩, h⟩
  | k + 1, j, h => by
    rw [after, Function.iterate_succ_apply'] at h
    obtain ⟨d, hd, hj⟩ := Option.bind_eq_some_iff.mp h
    exact .tail (transGen_of_after hi hd) ⟨find?_of_after (hi ▸ hd), hj⟩

theorem after_of_transGen (h : Relation.TransGen t.Link i j) :
    ∃ k, t.after (some i) (k + 1) = some j := by
  induction h with
  | single h => exact ⟨0, h.2⟩
  | tail _ hlast ih =>
    obtain ⟨k, hk⟩ := ih
    refine ⟨k + 1, ?_⟩
    rw [after, Function.iterate_succ_apply', ← after, hk]
    exact hlast.2

theorem mem_above_iff_transGen (hi : t.find? cls = some i) :
    j ∈ t.above cls ↔ Relation.TransGen t.Link i j := by
  rw [mem_above_iff, hi]
  exact ⟨fun ⟨_, hk⟩ => transGen_of_after hi hk, after_of_transGen⟩

/-- **A type is or is a base of another just if the checker says so**, in any table. -/
theorem isOrBase_iff_base {base derived : Ty} :
    t.isOrBase base derived = true ↔ t.IsOrBase base derived := by
  by_cases heq : base = derived
  · subst heq
    exact iff_of_true (t.isOrBase_self base) .refl
  constructor
  · intro h
    unfold isOrBase at h
    rw [Bool.or_eq_true, beq_iff_eq, or_iff_right heq] at h
    split at h
    · rename_i b d
      obtain ⟨j, hj, hname⟩ := List.any_eq_true.mp h
      obtain rfl : j.name = b := beq_iff_eq.mp hname
      cases hi : t.find? d with
      | none => simp [above, hi] at hj
      | some i => exact .base hi ((mem_above_iff_transGen hi).mp hj)
    · cases h
  · intro h
    cases h with
    | refl => exact absurd rfl heq
    | @base d i j hi h =>
      have hj := (mem_above_iff_transGen hi).mpr h
      rw [isOrBase_cls, Bool.or_eq_true]
      exact .inr (List.any_eq_true.mpr ⟨j, hj, by simp⟩)

instance (t : ClassTable) (base derived : Ty) : Decidable (t.IsOrBase base derived) :=
  decidable_of_iff _ isOrBase_iff_base

theorem accepts_iff_base {params : List Ty} :
    t.accepts params args = true ↔ List.Forall₂ t.IsOrBase params args := by
  rw [accepts_iff_forall₂]
  simp only [isOrBase_iff_base]

/-! ### Candidates, and the choice among them -/

/-- The methods of a class that a call may mean, in the order of the set. -/
def candidates (t : ClassTable) (i : ClassInfo) (name : String) (args : List Ty) : List Signature :=
  i.methods.toList.filter fun s => s.name = name ∧ List.Forall₂ t.IsOrBase s.params args

theorem mem_candidates_iff : s ∈ t.candidates i name args ↔
    s ∈ i.methods.toList ∧ s.name = name ∧ List.Forall₂ t.IsOrBase s.params args := by
  simp [candidates]

/-- What a class that has candidates makes of a call. -/
inductive Chooses (t : ClassTable) (i : ClassInfo) (name : String) (args : List Ty) :
    Except Failure Signature → Prop
  | exact {s : Signature} (hs : s ∈ t.candidates i name args) (hargs : s.params = args) :
    Chooses t i name args (.ok s)
  | only {s : Signature} (hs : t.candidates i name args = [s]) : Chooses t i name args (.ok s)
  | ambiguous (hseveral : 2 ≤ (t.candidates i name args).length)
    (hno : ∀ s ∈ t.candidates i name args, s.params ≠ args) :
    Chooses t i name args (.error (.ofFault (.ambiguousCall i.name name
      (", ".intercalate ((t.candidates i name args).map Signature.text)))))

/-- What a call comes to, for the way up `chain` from class `cls`. -/
inductive Resolution (t : ClassTable) (operation cls name : String) (args : List Ty)
    (chain : List ClassInfo) : Except Failure Signature → Prop
  | unregistered (h : t.contains cls = false) : Resolution t operation cls name args chain
      (.error (.misuse (.unregisteredClass operation cls)))
  | undeclared (h : t.contains cls = true) (hnone : ∀ i ∈ chain, t.candidates i name args = []) :
    Resolution t operation cls name args chain
      (.error (.ofFault (.undeclaredMethod cls (Signature.ofKey name args).text)))
  | chosen {k : ℕ} {i : ClassInfo} {r : Except Failure Signature} (h : t.contains cls = true)
    (hk : chain[k]? = some i)
    (hleast : ∀ k' < k, ∀ j, chain[k']? = some j → t.candidates j name args = [])
    (hr : t.Chooses i name args r) : Resolution t operation cls name args chain r

theorem Chooses.ne_nil (h : t.Chooses i name args r) : t.candidates i name args ≠ [] := by
  cases h with
  | exact hs _ => exact List.ne_nil_of_mem hs
  | only hs => simp [hs]
  | ambiguous hseveral _ =>
    intro hnil
    simp [hnil] at hseveral

/-- A set has one method with given types, so a class makes one choice. -/
theorem Chooses.unique (h : t.Chooses i name args r) (h' : t.Chooses i name args r') : r = r' := by
  cases h with
  | @exact s hs hargs =>
    cases h' with
    | @exact u hu hargs' =>
      obtain ⟨hmem, hname, -⟩ := mem_candidates_iff.mp hs
      obtain ⟨hmem', hname', -⟩ := mem_candidates_iff.mp hu
      have hkey : s.sameKey u = true :=
        Signature.sameKey_iff.mpr ⟨hname.trans hname'.symm, hargs.trans hargs'.symm⟩
      rw [MethodSet.eq_of_sameKey hmem hmem' hkey]
    | only hu =>
      rw [hu] at hs
      rw [List.mem_singleton.mp hs]
    | ambiguous _ hno => exact absurd hargs (hno s hs)
  | @only s hs =>
    cases h' with
    | exact hu _ =>
      rw [hs] at hu
      rw [List.mem_singleton.mp hu]
    | only hu =>
      rw [hs] at hu
      rw [(List.cons.inj hu).1]
    | ambiguous hseveral _ => simp [hs] at hseveral
  | ambiguous hseveral hno =>
    cases h' with
    | exact hu hargs => exact absurd hargs (hno _ hu)
    | only hu => simp [hu] at hseveral
    | ambiguous => rfl

/-- The first class with candidates is one class, so a call comes to one thing. -/
theorem Resolution.unique (h : t.Resolution operation cls name args chain r)
    (h' : t.Resolution operation cls name args chain r') : r = r' := by
  cases h with
  | unregistered hc =>
    cases h' with
    | unregistered => rfl
    | undeclared hc' => simp [hc] at hc'
    | chosen hc' => simp [hc] at hc'
  | undeclared hc hnone =>
    cases h' with
    | unregistered hc' => simp [hc] at hc'
    | undeclared => rfl
    | chosen _ hk _ hr => exact absurd (hnone _ (List.mem_of_getElem? hk)) hr.ne_nil
  | @chosen k i _ hc hk hleast hr =>
    cases h' with
    | unregistered hc' => simp [hc] at hc'
    | undeclared _ hnone => exact absurd (hnone _ (List.mem_of_getElem? hk)) hr.ne_nil
    | @chosen k' i' _ _ hk' hleast' hr' =>
      rcases lt_trichotomy k k' with hlt | rfl | hlt
      · exact absurd (hleast' k hlt i hk) hr.ne_nil
      · obtain rfl : i = i' := Option.some.inj (hk.symm.trans hk')
        exact hr.unique hr'
      · exact absurd (hleast k' hlt i' hk') hr'.ne_nil

/-! ### What the search comes to -/

theorem candidates_eq (t : ClassTable) (i : ClassInfo) (name : String) (args : List Ty) :
    t.candidates i name args = (i.methods.overloads name).filter fun s => t.accepts s.params args := by
  rw [candidates, MethodSet.overloads, List.filter_filter]
  refine List.filter_congr fun s _ => ?_
  rw [Bool.eq_iff_iff, decide_eq_true_iff, Bool.and_eq_true, accepts_iff_base, beq_iff_eq, and_comm]

/-- **What one class answers to a call:** nothing if it has no candidate, and else its choice. -/
theorem offer_cases (t : ClassTable) (i : ClassInfo) (name : String) (args : List Ty) :
    (t.offer name args i = none ∧ t.candidates i name args = []) ∨
      ∃ r, t.offer name args i = some r ∧ t.Chooses i name args r := by
  have hmem : ∀ s ∈ i.methods.overloads name, s.params = args → s ∈ t.candidates i name args := by
    intro s hs hargs
    obtain ⟨hs, hname⟩ := List.mem_filter.mp hs
    refine mem_candidates_iff.mpr ⟨hs, beq_iff_eq.mp hname, ?_⟩
    rw [hargs]
    exact List.forall₂_same.mpr fun _ _ => .refl
  unfold offer overloadIn
  simp only [← candidates_eq]
  cases hexact : (i.methods.overloads name).find? (·.params == args) with
  | some s =>
    have hargs : s.params = args := by simpa using List.find?_some hexact
    exact .inr ⟨_, rfl, .exact (hmem s (List.mem_of_find?_eq_some hexact) hargs) hargs⟩
  | none =>
    have hno : ∀ s ∈ t.candidates i name args, s.params ≠ args := by
      intro s hs hargs
      rw [candidates_eq] at hs
      have := List.find?_eq_none.mp hexact s (List.mem_filter.mp hs).1
      exact this (beq_iff_eq.mpr hargs)
    cases hl : t.candidates i name args with
    | nil => exact .inl ⟨rfl, rfl⟩
    | cons s rest =>
      cases rest with
      | nil => exact .inr ⟨_, rfl, .only hl⟩
      | cons u rest =>
        refine .inr ⟨_, rfl, ?_⟩
        rw [← hl]
        exact .ambiguous (by simp [hl]) hno

/-- The first class that answers decides. -/
theorem resolution_findSome? (hc : t.contains cls = true) (operation : String)
    (chain : List ClassInfo) :
    t.Resolution operation cls name args chain
      ((chain.findSome? (t.offer name args)).getD (noOverload cls name args)) := by
  have hnone : ∀ i, t.offer name args i = none → t.candidates i name args = [] := by
    intro i hi
    rcases t.offer_cases i name args with ⟨-, hnil⟩ | ⟨r, hr, -⟩
    · exact hnil
    · rw [hi] at hr
      cases hr
  cases hfind : chain.findSome? (t.offer name args) with
  | none => exact .undeclared hc fun i hi => hnone i (List.findSome?_eq_none_iff.mp hfind i hi)
  | some r =>
    obtain ⟨before, i, after, rfl, hi, hbefore⟩ := List.findSome?_eq_some_iff.mp hfind
    refine .chosen (k := before.length) (i := i) hc (by simp) (fun k hk j hj => ?_) ?_
    · rw [List.getElem?_append_left hk] at hj
      exact hnone j (hbefore j (List.mem_of_getElem? hj))
    · rcases t.offer_cases i name args with ⟨hnil, -⟩ | ⟨r', hr', hchooses⟩
      · rw [hi] at hnil
        cases hnil
      · rw [hi] at hr'
        exact Option.some.inj hr' ▸ hchooses

theorem what_findSome?_zipIdx {α : Type} (look : ClassInfo → Option α) :
    ∀ (l : List ClassInfo) (k : ℕ), ((l.zipIdx k).findSome? fun (i, depth) =>
      (look i).map fun what => (⟨depth, i.name, what⟩ : Located α)).map Located.what =
        l.findSome? look
  | [], _ => rfl
  | i :: l, k => by
    have ih := what_findSome?_zipIdx look l (k + 1)
    rw [List.zipIdx_cons, List.findSome?_cons, List.findSome?_cons]
    cases hi : look i with
    | none => simpa [hi] using ih
    | some a => simp [hi]

/-- Nothing is cut off a way that ends. -/
theorem resolveMethod_eq_findSome? (hc : t.contains cls = true) (h : t.Walk (t.find? cls) chain) :
    t.resolveMethod cls name args =
      (chain.findSome? (t.offer name args)).getD (noOverload cls name args) := by
  have hway : t.ancestors cls (max t.size chain.length) = chain := h.climb_eq (le_max_right ..)
  rw [t.resolveMethod_eq_nearest hc, nearest?_eq_ancestors (le_max_left t.size chain.length), hway,
    ← what_findSome?_zipIdx _ chain 0]
  cases chain.zipIdx.findSome? fun (i, depth) =>
      (t.offer name args i).map fun what => (⟨depth, i.name, what⟩ : Located _) with
  | none => rfl
  | some found => rfl

theorem resolveConstructor_eq_findSome? (hi : t.find? cls = some i) :
    t.resolveConstructor cls args =
      ([i].findSome? (t.offer constructorName args)).getD (noOverload cls constructorName args) := by
  unfold resolveConstructor
  rw [List.findSome?_singleton, offer]
  simp only [hi]
  cases t.overloadIn i constructorName args with
  | error e => rfl
  | ok found => cases found <;> rfl

theorem resolveMethod_unregistered (h : t.contains cls = false) :
    t.resolveMethod cls name args = .error (.misuse (.unregisteredClass "resolve_method" cls)) := by
  unfold resolveMethod
  simp [h, Misuse.raise]

theorem resolveConstructor_unregistered (h : t.contains cls = false) :
    t.resolveConstructor cls args =
      .error (.misuse (.unregisteredClass "resolve_constructor" cls)) := by
  have hnone : t.find? cls = none := by simpa [contains] using h
  unfold resolveConstructor
  simp [hnone, Misuse.raise]

/-- **What a call and a creation come to**, where the way up from the class ends. A creation looks no
further than the class itself. -/
theorem resolution_iff (hchain : t.Walk (t.find? cls) chain) :
    (∀ name args r, t.resolveMethod cls name args = r ↔
      t.Resolution "resolve_method" cls name args chain r) ∧
    ∀ args r, t.resolveConstructor cls args = r ↔
      t.Resolution "resolve_constructor" cls constructorName args (chain.take 1) r := by
  -- What is found is a resolution, and there is only one.
  cases hfind : t.find? cls with
  | none =>
    have hc : t.contains cls = false := by simp [contains, hfind]
    constructor
    · intro name args r
      rw [resolveMethod_unregistered hc]
      exact ⟨fun h => h ▸ .unregistered hc, (Resolution.unregistered hc).unique⟩
    · intro args r
      rw [resolveConstructor_unregistered hc]
      exact ⟨fun h => h ▸ .unregistered hc, (Resolution.unregistered hc).unique⟩
  | some i =>
    have hc : t.contains cls = true := by simp [contains, hfind]
    constructor
    · intro name args r
      rw [resolveMethod_eq_findSome? hc hchain]
      have hfound : t.Resolution "resolve_method" cls name args chain _ :=
        resolution_findSome? hc _ chain
      exact ⟨fun h => h ▸ hfound, hfound.unique⟩
    · intro args r
      have htake : chain.take 1 = [i] := by
        rw [hfind] at hchain
        cases hchain
        rfl
      rw [htake, resolveConstructor_eq_findSome? hfind]
      have hfound : t.Resolution "resolve_constructor" cls constructorName args [i] _ :=
        resolution_findSome? hc _ [i]
      exact ⟨fun h => h ▸ hfound, hfound.unique⟩

/-- A climb that ends before its limit is the whole way up. -/
theorem walk_climb : ∀ {n : ℕ} {start : Option ClassInfo}, (t.climb n start).length < n →
    t.Walk start (t.climb n start)
  | n, none, _ => climb_none t n ▸ .ended
  | n + 1, some c, h => by
    rw [climb_succ, List.length_cons] at h
    rw [climb_succ]
    exact .step (walk_climb (Nat.lt_of_succ_lt_succ h))

/-- Three classes, each the parent of the next. The first takes a `B` in `f`, the second an `A`; of
the two `g` of the second neither is made for two objects of class `B`. -/
def crossed : ClassTable := run .empty [
  .enter "A", .addMethod ⟨"f", [.cls "B"], .int⟩, .leave,
  .enter "B", .setParent "A", .addMethod ⟨"f", [.cls "A"], .bool⟩,
  .addMethod ⟨"g", [.cls "B", .cls "A"], .int⟩, .addMethod ⟨"g", [.cls "A", .cls "B"], .int⟩, .leave,
  .enter "C", .setParent "B", .leave]

/-- What fits in the class hides what is exact in its parent. Ambiguity names the class it is found
in, a missing method the class that was asked. A constructor is not inherited. -/
theorem crossed_resolved :
    crossed.resolveMethod "C" "f" [.cls "B"] = .ok ⟨"f", [.cls "A"], .bool⟩ ∧
    crossed.resolveMethod "C" "g" [.cls "B", .cls "C"] =
      .error (.ofFault (.ambiguousCall "B" "g" "g(A,B), g(B,A)")) ∧
    crossed.resolveMethod "C" "f" [.int] = .error (.ofFault (.undeclaredMethod "C" "f(int)")) ∧
    crossed.resolveConstructor "C" [] = .ok (.ofConstructor "C" []) := by
  have hchain : crossed.Walk (crossed.find? "C") (crossed.climb 4 (crossed.find? "C")) :=
    walk_climb (by decide +kernel)
  obtain ⟨hmethod, hconstructor⟩ := resolution_iff hchain
  have hC : crossed.contains "C" = true := by decide +kernel
  let b := crossed.classes.get ⟨1, by decide +kernel⟩
  have hb : (crossed.climb 4 (crossed.find? "C"))[1]? = some b := by decide +kernel
  refine ⟨(hmethod _ _ _).mpr ?_, (hmethod _ _ _).mpr ?_, (hmethod _ _ _).mpr ?_,
    (hconstructor _ _).mpr ?_⟩
  · have honly : crossed.candidates b "f" [.cls "B"] = [⟨"f", [.cls "A"], .bool⟩] := by
      decide +kernel
    exact .chosen hC hb (by decide +kernel) (.only honly)
  · have hboth : crossed.candidates b "g" [.cls "B", .cls "C"] =
        [⟨"g", [.cls "A", .cls "B"], .int⟩, ⟨"g", [.cls "B", .cls "A"], .int⟩] := by
      decide +kernel
    have hchooses : crossed.Chooses b "g" [.cls "B", .cls "C"] _ :=
      .ambiguous (by decide +kernel) (by decide +kernel)
    have hname : b.name = "B" := by decide +kernel
    rw [hboth, hname] at hchooses
    exact .chosen hC hb (by decide +kernel) hchooses
  · exact .undeclared hC (by decide +kernel)
  · have hc : ((crossed.climb 4 (crossed.find? "C")).take 1)[0]? =
        some (crossed.classes.get ⟨2, by decide +kernel⟩) := by
      decide +kernel
    exact .chosen hC hc (by decide +kernel) (.exact (by decide +kernel) rfl)

end ClassTable

end ClassLang
