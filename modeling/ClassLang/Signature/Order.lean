import ClassLang.Signature

/-!
# Signatures in their order

Signatures are totally ordered by their keys (`Signature.compare_eq_iff`). A list of them in strictly
increasing order has one signature for each key, and `insertSorted` keeps it so: it finds the key
there and changes nothing, or adds the signature at its place and nothing else
(`mem_insertSorted_iff`, `increasing_insertSorted`).
-/

namespace ClassLang

open Std

namespace Ty

/-- The name of a class; a built-in type counts as nameless. -/
def label (t : Ty) : String := t.className?.getD ""

theorem compare_eq_lex (a b : Ty) :
    compare a b = compareLex (compareOn rank) (compareOn label) a b := by
  cases a with
  | cls a =>
    cases b with
    | cls b => rfl
    | _ => rfl
  | _ => cases b <;> rfl

instance : TransOrd Ty :=
  have : (compare : Ty → Ty → Ordering) = compareLex (compareOn rank) (compareOn label) :=
    funext fun a => funext fun b => compare_eq_lex a b
  show TransCmp (compare : Ty → Ty → Ordering) by
    rw [this]
    infer_instance

instance : LawfulEqOrd Ty where
  eq_of_compare {a b} h := by
    rw [compare_eq_lex, compareLex_eq_eq] at h
    have hr : a.rank = b.rank := LawfulEqOrd.eq_of_compare h.1
    have hl : a.label = b.label := LawfulEqOrd.eq_of_compare h.2
    cases a <;> cases b <;> simp_all [rank, label, className?]

end Ty

namespace Signature

instance : TransOrd Signature :=
  inferInstanceAs (TransCmp (compareLex (compareOn name) (compareOn params)))

/-- Signatures are level in the order just when they name the same overload. -/
theorem compare_eq_iff {s t : Signature} : compare s t = .eq ↔ s.sameKey t = true := by
  rw [sameKey_iff]
  show compareLex (compareOn name) (compareOn params) s t = .eq ↔ _
  rw [compareLex_eq_eq]
  exact and_congr LawfulEqOrd.compare_eq_iff_eq LawfulEqOrd.compare_eq_iff_eq

theorem sameKey_comm {s t : Signature} : s.sameKey t = t.sameKey s := by
  rw [Bool.eq_iff_iff, sameKey_iff, sameKey_iff]
  exact and_congr eq_comm eq_comm

theorem compare_self_ne_lt (s : Signature) : compare s s ≠ .lt := by
  rw [compare_eq_iff.mpr (sameKey_self s)]
  exact nofun

/-! ### Insertion -/

/-- In strictly increasing order. -/
def Increasing (l : List Signature) : Prop := l.Pairwise fun s t => compare s t = .lt

instance (l : List Signature) : Decidable (Increasing l) :=
  inferInstanceAs (Decidable (List.Pairwise _ l))

/-- A list of signatures with a further one in its place, unless its key is there already. -/
def insertSorted (s : Signature) : List Signature → List Signature
  | [] => [s]
  | t :: rest =>
    match compare s t with
    | .lt => s :: t :: rest
    | .eq => t :: rest
    | .gt => t :: s.insertSorted rest

theorem not_sameKey_of_lt {s t : Signature} (h : compare s t = .lt) : s.sameKey t = false := by
  rw [Bool.eq_false_iff]
  intro hk
  rw [compare_eq_iff.mpr hk] at h
  cases h

/-- A signature that comes before all of an increasing list has a key of its own. -/
theorem not_sameKey_of_lt_head {s t u : Signature} {l : List Signature}
    (hl : Increasing (t :: l)) (h : compare s t = .lt) (hu : u ∈ t :: l) :
    u.sameKey s = false := by
  rw [sameKey_comm]
  apply not_sameKey_of_lt
  rcases List.mem_cons.mp hu with rfl | hu
  · exact h
  · exact TransCmp.lt_trans h ((List.pairwise_cons.mp hl).1 u hu)

/-- What an insertion adds is the signature, if its key is new. -/
theorem mem_insertSorted_iff {s u : Signature} : ∀ {l : List Signature}, Increasing l →
    (u ∈ s.insertSorted l ↔ u ∈ l ∨ u = s ∧ ∀ v ∈ l, v.sameKey s = false)
  | [], _ => by simp [insertSorted]
  | t :: l, hl => by
    have ih := mem_insertSorted_iff (s := s) (u := u) (List.pairwise_cons.mp hl).2
    rw [insertSorted]
    cases hc : compare s t with
    | lt =>
      have hnew : ∀ v ∈ t :: l, v.sameKey s = false := fun v hv =>
        not_sameKey_of_lt_head hl hc hv
      rw [List.mem_cons, or_comm]
      exact or_congr_right (and_iff_left hnew).symm
    | eq =>
      have hk : t.sameKey s = true := by rw [sameKey_comm]; exact compare_eq_iff.mp hc
      refine ⟨Or.inl, fun h => h.elim id fun ⟨_, h⟩ => ?_⟩
      rw [h t (List.mem_cons_self ..)] at hk
      cases hk
    | gt =>
      have hk : t.sameKey s = false := not_sameKey_of_lt (OrientedCmp.lt_of_gt hc)
      rw [List.mem_cons, ih, List.mem_cons, List.forall_mem_cons, or_assoc]
      simp only [hk, true_and]

theorem increasing_insertSorted {s : Signature} : ∀ {l : List Signature}, Increasing l →
    Increasing (s.insertSorted l)
  | [], _ => List.pairwise_singleton _ _
  | t :: l, hl => by
    obtain ⟨ht, hl'⟩ := List.pairwise_cons.mp hl
    rw [insertSorted]
    cases hc : compare s t with
    | lt =>
      refine List.pairwise_cons.mpr ⟨fun u hu => ?_, hl⟩
      rcases List.mem_cons.mp hu with rfl | hu
      · exact hc
      · exact TransCmp.lt_trans hc (ht u hu)
    | eq => exact hl
    | gt =>
      refine List.pairwise_cons.mpr ⟨fun u hu => ?_, increasing_insertSorted hl'⟩
      rcases (mem_insertSorted_iff hl').mp hu with hu | ⟨rfl, -⟩
      · exact ht u hu
      · exact OrientedCmp.lt_of_gt hc

end Signature

end ClassLang
