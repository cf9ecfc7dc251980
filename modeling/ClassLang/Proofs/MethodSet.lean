import ClassLang.MethodSet
import Mathlib.Data.List.Pairwise

/-!
# One method for each key

The methods of a set stand in strictly increasing order, so a key names at most one of them
(`MethodSet.eq_of_sameKey`), which is found under it (`MethodSet.find?_of_mem`). A method put in
comes to what was there if its key is new, and otherwise changes nothing (`MethodSet.mem_insert_iff`,
`MethodSet.insert_of_mem`).
-/

namespace ClassLang

/-- A key that is there already stays as it is. -/
theorem Signature.insertSorted_of_mem {s u : Signature} : ∀ {l : List Signature}, Increasing l →
    u ∈ l → u.sameKey s = true → s.insertSorted l = l
  | [], _, hu, _ => by simp at hu
  | t :: l, hl, hu, hk => by
    rw [insertSorted]
    cases hc : compare s t with
    | lt =>
      rw [not_sameKey_of_lt_head hl hc hu] at hk
      cases hk
    | eq => rfl
    | gt =>
      rcases List.mem_cons.mp hu with rfl | hu
      · rw [not_sameKey_of_lt (Std.OrientedCmp.lt_of_gt hc)] at hk
        cases hk
      · rw [insertSorted_of_mem (List.pairwise_cons.mp hl).2 hu hk]

namespace MethodSet

variable {m m' : MethodSet} {s t : Signature}

@[ext] theorem ext_toList (h : m.toList = m'.toList) : m = m' := by
  obtain ⟨l, hl⟩ := m
  obtain ⟨l', hl'⟩ := m'
  obtain rfl : l = l' := h
  rfl

theorem nodup (m : MethodSet) : m.toList.Nodup := by
  refine List.Pairwise.imp (fun {s t} hlt heq => ?_) m.sorted
  rw [heq] at hlt
  exact Signature.compare_self_ne_lt t hlt

/-- A key names at most one method. -/
theorem eq_of_sameKey (hs : s ∈ m.toList) (ht : t ∈ m.toList) (hk : s.sameKey t = true) :
    s = t := by
  by_contra hne
  have : Std.Symm fun a b : Signature => a.sameKey b = false :=
    ⟨fun a b h => by rw [Signature.sameKey_comm]; exact h⟩
  have hdiff : m.toList.Pairwise fun a b => a.sameKey b = false :=
    m.sorted.imp Signature.not_sameKey_of_lt
  rw [hdiff.forall hs ht hne] at hk
  cases hk

theorem mem_insert_iff :
    t ∈ (m.insert s).toList ↔ t ∈ m.toList ∨ t = s ∧ ∀ u ∈ m.toList, u.sameKey s = false :=
  Signature.mem_insertSorted_iff m.sorted

theorem contains_iff : m.contains s = true ↔ ∃ t ∈ m.toList, t.sameKey s = true := by
  simp [contains, find?]

/-- A method is found under its own key. -/
theorem find?_of_mem (hs : s ∈ m.toList) : m.find? s = some s := by
  have hsome : (m.find? s).isSome = true := by
    rw [find?, List.find?_isSome]
    exact ⟨s, hs, Signature.sameKey_self s⟩
  obtain ⟨t, ht⟩ := Option.isSome_iff_exists.mp hsome
  have hkey := List.find?_some ht
  rw [ht, eq_of_sameKey (List.mem_of_find?_eq_some ht) hs hkey]

theorem insert_of_sameKey (hs : t ∈ m.toList) (hk : t.sameKey s = true) : m.insert s = m :=
  ext_toList (Signature.insertSorted_of_mem m.sorted hs hk)

theorem insert_of_mem (hs : s ∈ m.toList) : m.insert s = m :=
  insert_of_sameKey hs (Signature.sameKey_self s)

/-- A set has the keys it had, and that of the method put in. -/
theorem contains_insert_iff :
    (m.insert s).contains t = true ↔ m.contains t = true ∨ s.sameKey t = true := by
  rw [contains_iff, contains_iff]
  constructor
  · rintro ⟨u, hu, hut⟩
    rcases mem_insert_iff.mp hu with hu | ⟨rfl, -⟩
    · exact .inl ⟨u, hu, hut⟩
    · exact .inr hut
  · rintro (⟨u, hu, hut⟩ | hst)
    · exact ⟨u, mem_insert_iff.mpr (.inl hu), hut⟩
    · -- a method of the key of `s` was there before, or `s` is put in
      by_cases hold : ∃ u ∈ m.toList, u.sameKey s = true
      · obtain ⟨u, hu, hus⟩ := hold
        obtain ⟨hname, hparams⟩ := Signature.sameKey_iff.mp hus
        refine ⟨u, mem_insert_iff.mpr (.inl hu), Signature.sameKey_iff.mpr ?_⟩
        rw [hname, hparams]
        exact Signature.sameKey_iff.mp hst
      · have hnew : ∀ u ∈ m.toList, u.sameKey s = false := by simpa using hold
        exact ⟨s, mem_insert_iff.mpr (.inr ⟨rfl, hnew⟩), hst⟩

end MethodSet

end ClassLang
