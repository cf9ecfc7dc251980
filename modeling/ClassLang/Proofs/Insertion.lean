import ClassLang.Proofs.Inherited

/-!
# Methods put into a class one after the other

A class keeps its methods in a set that is ordered by keys. Whatever methods are put in, the set
holds of each key the one that came first, with the return type it came with, and a later one of
that key changes nothing (`MethodSet.find?_foldl_insert`). The order does not look at return types,
so they cannot decide which of two methods is kept (`ClassInfo.methods_in_order`).
-/

namespace ClassLang

open Std

namespace Signature

variable {s t : Signature}

theorem isLE_total (s t : Signature) : (compare s t).isLE = true ∨ (compare t s).isLE = true := by
  have hswap : compare t s = (compare s t).swap := OrientedCmp.eq_swap
  rw [hswap]
  cases compare s t <;> decide

theorem sameKey_of_isLE (hst : (compare s t).isLE = true) (hts : (compare t s).isLE = true) :
    s.sameKey t = true :=
  compare_eq_iff.mp (OrientedCmp.isLE_antisymm hst hts)

/-- Signatures of one name are ordered by their parameters. -/
theorem compare_params_of_lt (hname : s.name = t.name) (h : compare s t = .lt) :
    compare s.params t.params = .lt := by
  have hlex : (compare s.name t.name).then (compare s.params t.params) = .lt := h
  rwa [hname, ReflOrd.compare_self, Ordering.eq_then] at hlex

end Signature

/-! ### Insertions into a set -/

namespace MethodSet

variable {m : MethodSet} {s t : Signature}

/-- A method put in is found under its key, unless one was found there before. -/
theorem find?_insert : (m.insert s).find? t = (m.find? t).or ([s].find? (·.sameKey t)) := by
  cases hfind : m.find? t with
  | some u =>
    obtain ⟨hu, hkey⟩ := find?_eq_some_iff.mp hfind
    exact find?_eq_some_iff.mpr ⟨mem_insert_iff.mpr (.inl hu), hkey⟩
  | none =>
    have hnone := find?_eq_none_iff.mp hfind
    rw [Option.none_or, List.find?_singleton]
    split
    next hkey =>
      obtain ⟨hname, hparams⟩ := Signature.sameKey_iff.mp hkey
      have hnew : ∀ u ∈ m.toList, u.sameKey s = false := by
        intro u hu
        rw [Bool.eq_false_iff, ne_eq, Signature.sameKey_iff, hname, hparams]
        exact hnone u hu
      exact find?_eq_some_iff.mpr ⟨mem_insert_iff.mpr (.inr ⟨rfl, hnew⟩), hname, hparams⟩
    next hkey =>
      refine find?_eq_none_iff.mpr fun u hu => ?_
      rcases mem_insert_iff.mp hu with hu | ⟨rfl, -⟩
      · exact hnone u hu
      · rwa [← Signature.sameKey_iff]

/-- **The first of each key is kept.** After any insertions a key is looked up in what was there
before, then among the methods put in, the earliest first. -/
theorem find?_foldl_insert (t : Signature) : ∀ (ss : List Signature) (m : MethodSet),
    (ss.foldl insert m).find? t = (m.find? t).or (ss.find? (·.sameKey t))
  | [], _ => by simp
  | s :: ss, m => by
    rw [List.foldl_cons, find?_foldl_insert t ss, find?_insert, Option.or_assoc,
      ← List.find?_append, List.singleton_append]

theorem mem_iff_find? : s ∈ m.toList ↔ m.find? s = some s := by
  rw [find?_eq_some_iff]
  exact (and_iff_left ⟨rfl, rfl⟩).symm

theorem pairwise_overloads (m : MethodSet) (name : String) :
    (m.overloads name).Pairwise fun s t => compare s.params t.params = .lt := by
  refine (List.Pairwise.filter _ m.sorted).imp_of_mem fun {s t} hs ht hst => ?_
  have hs : s.name = name := by simpa using (List.mem_filter.mp hs).2
  have ht : t.name = name := by simpa using (List.mem_filter.mp ht).2
  exact Signature.compare_params_of_lt (hs.trans ht.symm) hst

end MethodSet

/-! ### Insertions into a class -/

namespace ClassInfo

/-- The class after methods are put in, one after the other. -/
def insertMethods (c : ClassInfo) (ss : List Signature) : ClassInfo :=
  ss.foldl (fun c s => (c.insertMethod s).2) c

theorem methods_insertMethods : ∀ (ss : List Signature) (c : ClassInfo),
    (c.insertMethods ss).methods = ss.foldl MethodSet.insert c.methods
  | [], _ => rfl
  | _ :: ss, _ => methods_insertMethods ss _

/-- **The methods of a class.** Signatures are totally ordered, up to their keys and whatever they
return. Once the methods `ss` are put into a class that had none, its methods stand in that order,
and are the first of each key in `ss`; the answer to a further one is whether its key is new, also
where the class is the open one of a table; and the overloads of a name are the methods of that name,
in the order of their parameters. -/
theorem methods_in_order (c₀ : ClassInfo) (h₀ : c₀.methods = .empty) (ss : List Signature) :
    (∀ s t u : Signature,
      ((compare s t).isLE = true ∨ (compare t s).isLE = true) ∧
      ((compare s t).isLE = true → (compare t u).isLE = true → (compare s u).isLE = true) ∧
      ((compare s t).isLE = true → (compare t s).isLE = true → s.sameKey t = true) ∧
      (compare s t = .eq ↔ s.sameKey t = true) ∧
      ∀ r r', compare { s with ret := r } { t with ret := r' } = compare s t) ∧
    let c := c₀.insertMethods ss
    c.methods.toList.Pairwise (fun s t => compare s t = .lt) ∧
    (∀ s, s ∈ c.methods.toList ↔ ss.find? (·.sameKey s) = some s) ∧
    (∀ s, (c.insertMethod s).1 = true ↔ ∀ u ∈ ss, u.sameKey s = false) ∧
    (∀ s (t : ClassTable), t.current? = some c → ∃ isNew t',
      ClassTable.addMethod s t = .ok isNew t' ∧ t'.current? = some (c.insertMethod s).2 ∧
      (isNew = true ↔ ∀ u ∈ ss, u.sameKey s = false)) ∧
    ∀ f, (∀ s, s ∈ c.methods.overloads f ↔ s ∈ c.methods.toList ∧ s.name = f) ∧
      (c.methods.overloads f).Pairwise fun s t => compare s.params t.params = .lt := by
  refine ⟨fun s t u => ⟨Signature.isLE_total s t, TransCmp.isLE_trans, Signature.sameKey_of_isLE,
    Signature.compare_eq_iff, fun _ _ => rfl⟩, ?_⟩
  intro c
  have hfind : ∀ s, c.methods.find? s = ss.find? (·.sameKey s) := by
    intro s
    rw [methods_insertMethods, h₀, MethodSet.find?_foldl_insert]
    exact Option.none_or
  have hanswer : ∀ s, (c.insertMethod s).1 = true ↔ ∀ u ∈ ss, u.sameKey s = false := by
    intro s
    rw [insertMethod, MethodSet.contains, hfind, Bool.not_eq_true', Option.isSome_eq_false_iff,
      Option.isNone_iff_eq_none, List.find?_eq_none]
    simp only [Bool.not_eq_true]
  refine ⟨c.methods.sorted, fun s => ?_, hanswer, fun s t ht => ?_,
    fun f => ⟨fun s => ?_, c.methods.pairwise_overloads f⟩⟩
  · rw [MethodSet.mem_iff_find?, hfind]
  · obtain ⟨cls, hopen, hc⟩ := Option.bind_eq_some_iff.mp ht
    have hchanged : (t.update cls fun c => (c.insertMethod s).2).find? cls =
        some (c.insertMethod s).2 := by
      rw [ClassTable.find?_update, if_pos rfl, hc, Option.map_some]
    exact ⟨_, _, ClassTable.onCurrent_of_open hopen hc ..,
      Option.bind_eq_some_iff.mpr ⟨cls, hopen, hchanged⟩, hanswer s⟩
  · rw [MethodSet.overloads, List.mem_filter, beq_iff_eq]

/-- Methods in no order. `f(int)` comes twice, and returns something else the second time. -/
def jumbled : List Signature := [
  ⟨"f", [.cls "A"], .int⟩, ⟨"f", [.int], .bool⟩, ⟨"a", [], .void⟩, ⟨"f", [.int], .void⟩]

/-- The `f(int)` that came first is kept, and a third one is refused. -/
theorem jumbled_in_order :
    let c := insertMethods { name := "C", parent := some "B" } jumbled
    let t : ClassTable := ⟨NameMap.empty.insert "C" c, ["C"], some "C"⟩
    t.current? = some c ∧
    c.methods.toList = [⟨"a", [], .void⟩, ⟨"f", [.int], .bool⟩, ⟨"f", [.cls "A"], .int⟩] ∧
    ⟨"f", [.int], .bool⟩ ∈ c.methods.overloads "f" ∧ ⟨"f", [.int], .void⟩ ∉ c.methods.toList ∧
    ∃ t', ClassTable.addMethod ⟨"f", [.int], .int⟩ t = .ok false t' := by
  intro c t
  obtain ⟨-, -, hmem, -, hanswer, hoverloads⟩ :=
    methods_in_order { name := "C", parent := some "B" } rfl jumbled
  have hopen : t.current? = some c := rfl
  obtain ⟨isNew, t', hadd, -, hnew⟩ := hanswer ⟨"f", [.int], .int⟩ t hopen
  have hold : isNew = false := by
    rw [Bool.eq_false_iff, ne_eq, hnew]
    decide
  refine ⟨hopen, by decide, ((hoverloads "f").1 _).mpr ⟨(hmem _).mpr (by decide), rfl⟩, ?_, t', ?_⟩
  · rw [hmem]
    decide
  · rw [hadd, hold]

end ClassInfo

end ClassLang
