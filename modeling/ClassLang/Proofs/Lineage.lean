import ClassLang.ClassTable.Lineage
import Mathlib.Data.Finset.Card

/-!
# The lineage of a class is complete

`lineage` stops after as many steps as the table has classes, although a walk up a table whose
parents form a ring has no end. Nothing is lost: every class that a walk of any length comes to is
in the lineage (`mem_lineage_of_mem_ancestors`), and above the class if the walk has left it
(`mem_above_iff`). For the classes a walk meets all stand in the table, so after `size + 1` of them
one has come twice, and from there on the walk repeats itself.
-/

namespace ClassLang

namespace ClassTable

/-- One step of a walk. -/
def up (t : ClassTable) (start : Option ClassInfo) : Option ClassInfo := start.bind t.parent?

/-- Where a walk is after `k` steps. -/
def after (t : ClassTable) (start : Option ClassInfo) (k : ℕ) : Option ClassInfo :=
  t.up^[k] start

theorem after_none (t : ClassTable) : ∀ k : ℕ, t.after none k = none
  | 0 => rfl
  | k + 1 => by rw [after, Function.iterate_succ_apply]; exact after_none t k

/-- A walk goes on where its first `n` steps have come to. -/
theorem climb_add (t : ClassTable) (m : ℕ) : ∀ (n : ℕ) (start : Option ClassInfo),
    t.climb (n + m) start = t.climb n start ++ t.climb m (t.after start n)
  | 0, start => by
    rw [Nat.zero_add, climb_zero, List.nil_append]
    rfl
  | n + 1, none => by rw [after_none, climb_none, climb_none, climb_none, List.nil_append]
  | n + 1, some c => by
    rw [Nat.succ_add, climb_succ, climb_succ, climb_add t m n, List.cons_append]
    rfl

theorem mem_climb_iff (t : ClassTable) {c : ClassInfo} :
    ∀ (n : ℕ) (start : Option ClassInfo),
      c ∈ t.climb n start ↔ ∃ k < n, t.after start k = some c
  | 0, _ => by simp
  | n + 1, none => by simp [after_none]
  | n + 1, some d => by
    rw [climb_succ, List.mem_cons, mem_climb_iff t n]
    constructor
    · rintro (rfl | ⟨k, hk, h⟩)
      · exact ⟨0, by omega, rfl⟩
      · exact ⟨k + 1, by omega, h⟩
    · rintro ⟨k, hk, h⟩
      cases k with
      | zero => exact Or.inl (Option.some.inj h).symm
      | succ k => exact Or.inr ⟨k, by omega, h⟩

/-- The records of the table, in no order that matters. -/
def infos (t : ClassTable) : List ClassInfo := t.records.entries.map Prod.snd

theorem mem_infos_of_find? {t : ClassTable} {name : String} {c : ClassInfo}
    (h : t.find? name = some c) : c ∈ t.infos := by
  obtain ⟨l, r, hentries, -⟩ := List.lookup_eq_some_iff.mp h
  rw [infos, hentries]
  simp

/-- Every class a walk comes to stands in the table, if the first one does. -/
theorem mem_of_after {t : ClassTable} {start : Option ClassInfo}
    (hs : ∀ c, start = some c → c ∈ t.infos) :
    ∀ {k : ℕ} {c : ClassInfo}, t.after start k = some c → c ∈ t.infos
  | 0, c, h => hs c h
  | k + 1, c, h => by
    rw [after, Function.iterate_succ_apply'] at h
    obtain ⟨d, -, hd⟩ := Option.bind_eq_some_iff.mp h
    obtain ⟨p, -, hp⟩ := Option.bind_eq_some_iff.mp hd
    exact mem_infos_of_find? hp

/-- A walk that is still going has been going before. -/
theorem exists_of_after {t : ClassTable} {start : Option ClassInfo} {c : ClassInfo} {k : ℕ}
    (h : t.after start k = some c) : ∀ {i : ℕ}, i ≤ k → ∃ d, t.after start i = some d := by
  intro i hi
  rcases hx : t.after start i with _ | d
  · have hk : t.after start k = t.after (t.after start i) (k - i) := by
      rw [after, after, after, ← Function.iterate_add_apply, Nat.sub_add_cancel hi]
    rw [hk, hx, after_none] at h
    cases h
  · exact ⟨d, rfl⟩

/-- A walk that comes back to a class goes on as it did the first time. -/
theorem after_of_repeat {t : ClassTable} {start : Option ClassInfo} {i j k : ℕ}
    (hij : t.after start i = t.after start j) (hjk : j ≤ k) :
    t.after start k = t.after start (k - j + i) := by
  have hk : k = k - j + j := (Nat.sub_add_cancel hjk).symm
  rw [after] at hij
  calc t.after start k = t.up^[k - j] (t.up^[j] start) := by
        rw [after, ← Function.iterate_add_apply, ← hk]
    _ = t.up^[k - j] (t.up^[i] start) := by rw [hij]; rfl
    _ = t.after start (k - j + i) := by rw [after, ← Function.iterate_add_apply]

/-- Among the first `size + 1` classes of a walk that goes on so long, one comes twice. -/
theorem exists_repeat {t : ClassTable} {start : Option ClassInfo} {c : ClassInfo}
    (hs : ∀ c, start = some c → c ∈ t.infos) (h : t.after start t.size = some c) :
    ∃ i j, i < j ∧ j ≤ t.size ∧ t.after start i = t.after start j := by
  classical
  let f : ℕ → ClassInfo := fun k => (t.after start k).getD c
  have hf : ∀ k ≤ t.size, t.after start k = some (f k) := fun k hk => by
    obtain ⟨d, hd⟩ := exists_of_after h hk
    simp [f, hd]
  have hsize : t.infos.length = t.size := List.length_map ..
  have hcard : t.infos.toFinset.card < (Finset.range (t.size + 1)).card := by
    rw [Finset.card_range, ← hsize]
    exact Nat.lt_succ_of_le (List.toFinset_card_le t.infos)
  have hmaps : ∀ k ∈ Finset.range (t.size + 1), f k ∈ t.infos.toFinset := fun k hk => by
    have hk' : k ≤ t.size := by simpa [Nat.lt_succ_iff] using hk
    exact List.mem_toFinset.mpr (mem_of_after hs (hf k hk'))
  obtain ⟨i, hi, j, hj, hne, heq⟩ := Finset.exists_ne_map_eq_of_card_lt_of_maps_to hcard hmaps
  have hi' : i ≤ t.size := by simpa [Nat.lt_succ_iff] using hi
  have hj' : j ≤ t.size := by simpa [Nat.lt_succ_iff] using hj
  have he : t.after start i = t.after start j := by rw [hf i hi', hf j hj', heq]
  rcases Nat.lt_or_gt_of_ne hne with hlt | hlt
  · exact ⟨i, j, hlt, hj', he⟩
  · exact ⟨j, i, hlt, hi', he.symm⟩

/-- What a walk comes to, it comes to in fewer than `size` steps. -/
theorem exists_lt_size {t : ClassTable} {start : Option ClassInfo}
    (hs : ∀ c, start = some c → c ∈ t.infos) {c : ClassInfo} :
    ∀ (k : ℕ), t.after start k = some c → ∃ i < t.size, t.after start i = some c := by
  intro k
  induction k using Nat.strong_induction_on with
  | _ k ih =>
    intro h
    by_cases hk : k < t.size
    · exact ⟨k, hk, h⟩
    · obtain ⟨d, hd⟩ := exists_of_after h (Nat.le_of_not_lt hk)
      obtain ⟨i, j, hij, hj, he⟩ := exists_repeat hs hd
      rw [after_of_repeat he (by omega)] at h
      exact ih _ (by omega) h

/-- Nothing is lost: a class that a walk of any length comes to is in the lineage. -/
theorem mem_lineage_of_mem_ancestors {t : ClassTable} {cls : String} {limit : ℕ} {c : ClassInfo}
    (h : c ∈ t.ancestors cls limit) : c ∈ t.lineage cls := by
  obtain ⟨k, -, hk⟩ := (mem_climb_iff t limit _).mp h
  have hs : ∀ d, t.find? cls = some d → d ∈ t.infos := fun d hd => mem_infos_of_find? hd
  exact (mem_climb_iff t t.size _).mpr (exists_lt_size hs k hk)

/-- A class is above another just if some walk comes to it, in one step or more. -/
theorem mem_above_iff {t : ClassTable} {cls : String} {c : ClassInfo} :
    c ∈ t.above cls ↔ ∃ k, t.after (t.find? cls) (k + 1) = some c := by
  have hs : ∀ d, t.up (t.find? cls) = some d → d ∈ t.infos := by
    intro d hd
    obtain ⟨i, -, hi⟩ := Option.bind_eq_some_iff.mp hd
    obtain ⟨q, -, hq⟩ := Option.bind_eq_some_iff.mp hi
    exact mem_infos_of_find? hq
  constructor
  · intro hc
    obtain ⟨k, -, hk⟩ := (mem_climb_iff t t.size _).mp hc
    exact ⟨k, hk⟩
  · rintro ⟨k, hk⟩
    exact (mem_climb_iff t t.size _).mpr (exists_lt_size hs k hk)

end ClassTable

end ClassLang
