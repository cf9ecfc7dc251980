import ClassLang.Proofs.Overload
import Mathlib.Order.Defs.Unbundled

/-!
# Classes ordered by inheritance

A value may stand where its own type or a base of it is expected. If every parent is declared and
every way up ends, this is an order on types, and its part on classes is generated by the step from
a class to its parent (`ClassTable.Extends`, `ClassTable.InStep.isOrBase_cls_iff`). It is an order
because the way up gets shorter with every step, and a forest because a class has one parent: the
bases of a type are comparable. Arguments are ordered position by position
(`ClassTable.isOrBase_partialOrder`).
-/

namespace ClassLang

open Relation

namespace ClassTable

variable {t : ClassTable} {i j : ClassInfo} {a b cls : String} {l : List ClassInfo}
  {base derived : Ty}

/-- From a class to the parent it names. -/
def Extends (t : ClassTable) (cls parent : String) : Prop :=
  (t.find? cls).bind ClassInfo.parent = some parent

/-- The parents of all classes are declared. -/
def ParentsDeclared (t : ClassTable) : Prop :=
  ∀ i ∈ t.classes, ∀ parent ∈ i.parent, t.contains parent = true

instance (t : ClassTable) : Decidable t.ParentsDeclared :=
  inferInstanceAs (Decidable (∀ i ∈ t.classes, ∀ parent ∈ i.parent, t.contains parent = true))

/-! ### The closure of the step from class to parent -/

theorem InStep.extends_of_link (hstep : t.InStep) (hi : t.find? a = some i) (h : t.Link i j) :
    t.Extends a j.name ∧ t.find? j.name = some j := by
  obtain ⟨q, hq, hj⟩ := Option.bind_eq_some_iff.mp h.2
  obtain rfl : j.name = q := hstep.named q j hj
  refine ⟨?_, hj⟩
  rw [Extends, hi]
  exact hq

theorem InStep.reflTransGen_of_links (hstep : t.InStep) (hi : t.find? a = some i)
    (h : TransGen t.Link i j) : ReflTransGen t.Extends a j.name ∧ t.find? j.name = some j := by
  induction h with
  | single h =>
    obtain ⟨hfirst, hj⟩ := hstep.extends_of_link hi h
    exact ⟨.single hfirst, hj⟩
  | tail _ hlast ih =>
    obtain ⟨hway, hd⟩ := ih
    obtain ⟨hnext, hj⟩ := hstep.extends_of_link hd hlast
    exact ⟨hway.tail hnext, hj⟩

theorem InStep.link_of_extends (hstep : t.InStep) (h : t.ParentsDeclared) (hab : t.Extends a b) :
    ∃ i j, t.find? a = some i ∧ t.find? b = some j ∧ t.Link i j := by
  obtain ⟨i, hi, hparent⟩ := Option.bind_eq_some_iff.mp hab
  have hmem : i ∈ t.classes := (hstep.find?_eq_some_iff.mp hi).1
  obtain ⟨j, hj⟩ := Option.isSome_iff_exists.mp (h i hmem b hparent)
  refine ⟨i, j, hi, hj, ⟨a, hi⟩, ?_⟩
  rw [parent?, hparent]
  exact hj

/-- A class is reached by steps to parents just if it is the class itself or a base of it. -/
theorem InStep.isOrBase_cls_iff (hstep : t.InStep) (h : t.ParentsDeclared) :
    t.isOrBase (.cls b) (.cls a) = true ↔ ReflTransGen t.Extends a b := by
  rw [isOrBase_iff_base]
  constructor
  · intro hbase
    cases hbase with
    | refl => exact .refl
    | base hi hlinks => exact (hstep.reflTransGen_of_links hi hlinks).1
  · intro hway
    induction hway with
    | refl => exact .refl
    | @tail _ q _ hlast ih =>
      obtain ⟨i, j, hi, hj, hlink⟩ := hstep.link_of_extends h hlast
      rw [← hstep.named q j hj]
      cases ih with
      | refl => exact .base hi (.single hlink)
      | @base _ c d hc hlinks =>
        -- what the links have come to is the record of the class, so they go on from there
        have hd := (hstep.reflTransGen_of_links hc hlinks).2
        obtain rfl := Option.some.inj (hd.symm.trans hi)
        exact .base hc (hlinks.tail hlink)

theorem InStep.isOrBase_cases (hstep : t.InStep) (h : t.ParentsDeclared) :
    t.isOrBase base derived = true ↔
      base = derived ∨ ∃ b a, base = .cls b ∧ derived = .cls a ∧ ReflTransGen t.Extends a b := by
  constructor
  · intro hbase
    by_cases heq : base = derived
    · exact .inl heq
    cases isOrBase_iff_base.mp hbase with
    | refl => exact absurd rfl heq
    | base => exact .inr ⟨_, _, rfl, rfl, (hstep.isOrBase_cls_iff h).mp hbase⟩
  · rintro (rfl | ⟨b, a, rfl, rfl, hway⟩)
    · exact t.isOrBase_self _
    · exact (hstep.isOrBase_cls_iff h).mpr hway

/-- A built-in type fits itself and nothing else, and nothing else fits it. -/
theorem isOrBase_builtin (h : base.isBuiltin = true ∨ derived.isBuiltin = true) :
    t.isOrBase base derived = true ↔ base = derived := by
  rw [isOrBase_iff_base]
  constructor
  · intro hbase
    cases hbase with
    | refl => rfl
    | base =>
      rcases h with h | h
      · cases h
      · cases h
  · rintro rfl
    exact .refl

/-! ### The laws of an order -/

/-- The way up from the parent is shorter. -/
theorem Walk.shorter (h : t.Walk (t.find? a) l) (hab : t.Extends a b) :
    ∃ l', t.Walk (t.find? b) l' ∧ l'.length < l.length := by
  obtain ⟨i, hi, hparent⟩ := Option.bind_eq_some_iff.mp hab
  rw [hi] at h
  cases h with
  | @step _ l' h =>
    rw [parent?, hparent, Option.bind_some] at h
    exact ⟨l', h, Nat.lt_succ_self _⟩

theorem Walk.shorter_of_transGen (h : t.Walk (t.find? a) l) (hab : TransGen t.Extends a b) :
    ∃ l', t.Walk (t.find? b) l' ∧ l'.length < l.length := by
  induction hab with
  | single hstep => exact h.shorter hstep
  | tail _ hlast ih =>
    obtain ⟨l', hl', hlt⟩ := ih
    obtain ⟨l'', hl'', hlt'⟩ := hl'.shorter hlast
    exact ⟨l'', hl'', hlt'.trans hlt⟩

/-- A class whose way up ends is no proper base of itself. -/
theorem Walk.eq_of_reflTransGen (h : t.Walk (t.find? a) l) (hab : ReflTransGen t.Extends a b)
    (hba : ReflTransGen t.Extends b a) : a = b := by
  rcases reflTransGen_iff_eq_or_transGen.mp hab with rfl | hproper
  · rfl
  · obtain ⟨l', hl', hlt⟩ := h.shorter_of_transGen (hproper.trans_left hba)
    rw [h.unique hl'] at hlt
    exact absurd hlt (lt_irrefl _)

theorem InStep.isOrBase_trans {x y z : Ty} (hstep : t.InStep) (h : t.ParentsDeclared)
    (hxy : t.isOrBase y x = true) (hyz : t.isOrBase z y = true) : t.isOrBase z x = true := by
  rcases (hstep.isOrBase_cases h).mp hxy with rfl | ⟨b, a, rfl, rfl, hab⟩
  · exact hyz
  rcases (hstep.isOrBase_cases h).mp hyz with rfl | ⟨c, _, rfl, hb, hbc⟩
  · exact hxy
  cases hb
  exact (hstep.isOrBase_cls_iff h).mpr (hab.trans hbc)

theorem InStep.isOrBase_antisymm {x y : Ty} (hstep : t.InStep) (h : t.ParentsDeclared)
    (hends : ∀ cls, ∃ l, t.Walk (t.find? cls) l) (hxy : t.isOrBase y x = true)
    (hyx : t.isOrBase x y = true) : x = y := by
  rcases (hstep.isOrBase_cases h).mp hxy with rfl | ⟨b, a, rfl, rfl, hab⟩
  · rfl
  obtain ⟨l, hl⟩ := hends a
  rw [hl.eq_of_reflTransGen hab ((hstep.isOrBase_cls_iff h).mp hyx)]

/-- Two bases of one type are comparable, since a class has one parent. -/
theorem InStep.isOrBase_total {x y z : Ty} (hstep : t.InStep) (h : t.ParentsDeclared)
    (hxz : t.isOrBase x z = true) (hyz : t.isOrBase y z = true) :
    t.isOrBase x y = true ∨ t.isOrBase y x = true := by
  rcases (hstep.isOrBase_cases h).mp hxz with rfl | ⟨a, c, rfl, rfl, hca⟩
  · exact .inr hyz
  rcases (hstep.isOrBase_cases h).mp hyz with rfl | ⟨b, _, rfl, hc, hcb⟩
  · exact .inl hxz
  cases hc
  have hunique : Relator.RightUnique t.Extends := fun _ _ _ hb hc =>
    Option.some.inj (hb.symm.trans hc)
  rcases ReflTransGen.total_of_right_unique hunique hca hcb with hab | hba
  · exact .inr ((hstep.isOrBase_cls_iff h).mpr hab)
  · exact .inl ((hstep.isOrBase_cls_iff h).mpr hba)

theorem InStep.accepts_trans (hstep : t.InStep) (h : t.ParentsDeclared) : ∀ {xs ys zs : List Ty},
    t.accepts ys xs = true → t.accepts zs ys = true → t.accepts zs xs = true
  | [], [], [], _, _ => rfl
  | _ :: _, _ :: _, _ :: _, hxy, hyz => by
    rw [accepts, Bool.and_eq_true] at hxy hyz ⊢
    exact ⟨hstep.isOrBase_trans h hxy.1 hyz.1, hstep.accepts_trans h hxy.2 hyz.2⟩

theorem InStep.accepts_antisymm (hstep : t.InStep) (h : t.ParentsDeclared)
    (hends : ∀ cls, ∃ l, t.Walk (t.find? cls) l) :
    ∀ {xs ys : List Ty}, t.accepts ys xs = true → t.accepts xs ys = true → xs = ys
  | [], [], _, _ => rfl
  | _ :: _, _ :: _, hxy, hyx => by
    rw [accepts, Bool.and_eq_true] at hxy hyx
    rw [hstep.isOrBase_antisymm h hends hxy.1 hyx.1, hstep.accepts_antisymm h hends hxy.2 hyx.2]

/-- **Inheritance orders the types.** In a table in step whose parents are declared and whose ways up
end, a class fits another just if it comes to it by steps to parents, and a built-in type fits itself
only. This is a partial order in which two bases of one type are comparable. Arguments fit parameters
position by position, which is a partial order on lists. -/
theorem isOrBase_partialOrder (hstep : t.InStep) (h : t.ParentsDeclared)
    (hends : ∀ cls, ∃ l, t.Walk (t.find? cls) l) :
    (∀ base derived, t.isOrBase (.cls base) (.cls derived) = true ↔
      ReflTransGen t.Extends derived base) ∧
    (∀ x y : Ty, x.isBuiltin = true ∨ y.isBuiltin = true → (t.isOrBase x y = true ↔ x = y)) ∧
    IsPartialOrder Ty (fun derived base => t.isOrBase base derived = true) ∧
    (∀ x y z, t.isOrBase x z = true → t.isOrBase y z = true →
      t.isOrBase x y = true ∨ t.isOrBase y x = true) ∧
    (∀ params args, t.accepts params args = true ↔
      List.Forall₂ (fun base derived => t.isOrBase base derived = true) params args) ∧
    IsPartialOrder (List Ty) fun args params => t.accepts params args = true := by
  refine ⟨fun base derived => hstep.isOrBase_cls_iff h, fun x y => isOrBase_builtin, ?_,
    fun x y z => hstep.isOrBase_total h, t.accepts_iff_forall₂, ?_⟩
  · exact { refl := t.isOrBase_self
            trans := fun _ _ _ => hstep.isOrBase_trans h
            antisymm := fun _ _ => hstep.isOrBase_antisymm h hends }
  · exact { refl := fun xs => (t.accepts_iff_forall₂ xs xs).mpr
              (List.forall₂_same.mpr fun x _ => t.isOrBase_self x)
            trans := fun _ _ _ => hstep.accepts_trans h
            antisymm := fun _ _ => hstep.accepts_antisymm h hends }

/-- The classes of `crossed` stand one above the other: `A` is reached from `C`, and not the other
way round. -/
theorem crossed_ordered : crossed.InStep ∧ crossed.ParentsDeclared ∧
    ReflTransGen crossed.Extends "C" "A" ∧
    ¬ ReflTransGen crossed.Extends "A" "C" ∧
    IsPartialOrder Ty (fun derived base => crossed.isOrBase base derived = true) ∧
    crossed.accepts [.cls "A", .int] [.cls "C", .int] = true ∧
    ¬ crossed.accepts [.cls "C", .int] [.cls "A", .int] = true := by
  have hstep : crossed.InStep := (sound_run _).inStep
  have hdeclared : crossed.ParentsDeclared := by decide +kernel
  have hclimb : ∀ i ∈ crossed.classes, (crossed.climb 4 (some i)).length < 4 := by decide +kernel
  have hends : ∀ cls, ∃ l, crossed.Walk (crossed.find? cls) l := by
    intro cls
    cases hcls : crossed.find? cls with
    | none => exact ⟨[], .ended⟩
    | some i => exact ⟨_, walk_climb (hclimb i (hstep.find?_eq_some_iff.mp hcls).1)⟩
  obtain ⟨hclass, -, hpartial, -, -, hlists⟩ := isOrBase_partialOrder hstep hdeclared hends
  have hup : crossed.accepts [.cls "A", .int] [.cls "C", .int] = true := by decide +kernel
  refine ⟨hstep, hdeclared, (hclass "A" "C").mp (by decide +kernel), ?_, hpartial, hup,
    fun hdown => ?_⟩
  · rw [← hclass]
    decide +kernel
  · have heq := hlists.antisymm _ _ hup hdown
    revert heq
    decide

end ClassTable

end ClassLang
