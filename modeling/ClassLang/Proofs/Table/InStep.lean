import ClassLang.ClassTable
import Mathlib.Data.List.Nodup

/-!
# The parts of a class table are in step

A table keeps records under names, and the names in the order of declaration. They are in step if the
order has just the names that have a record, once each, and every record has the name it stands under
(`ClassTable.InStep`). An operation that enters a class changes both, one that changes a class only
its record; either way they stay in step (`InStep.enter`, `InStep.update`).

In a table that is in step a class is found under its name just if it is one of the classes listed
(`InStep.find?_eq_some_iff`), and the list after a change is the list before, changed in that place
(`InStep.classes_enter`, `InStep.classes_update`).
-/

namespace ClassLang

namespace ClassTable

/-- The order has the names with a record, once each, and a record has the name it is kept under. -/
structure InStep (t : ClassTable) : Prop where
  nodup : t.order.Nodup
  listed : ∀ name, name ∈ t.order ↔ t.contains name = true
  named : ∀ name c, t.find? name = some c → c.name = name
  size : t.size = t.order.length

/-- The table with a class entered that has just the name. -/
def extend (t : ClassTable) (name : String) : ClassTable :=
  ⟨t.records.insert name (fresh name), t.order ++ [name], some name⟩

variable {t : ClassTable} {c : ClassInfo} {f : ClassInfo → ClassInfo} {name cls other : String}

/-! ### Looking up a class after a change -/

@[simp] theorem find?_extend :
    (t.extend name).find? other = if other = name then some (fresh name) else t.find? other :=
  NameMap.get?_insert ..

@[simp] theorem find?_update :
    (t.update cls f).find? other = if other = cls then (t.find? other).map f else t.find? other :=
  NameMap.get?_modify ..

@[simp] theorem find?_leave : t.leave.find? other = t.find? other := rfl

@[simp] theorem contains_extend :
    (t.extend name).contains other = (decide (other = name) || t.contains other) := by
  rw [contains, find?_extend]
  by_cases h : other = name <;> simp [h, contains]

@[simp] theorem contains_update : (t.update cls f).contains other = t.contains other := by
  rw [contains, find?_update, contains]
  split <;> simp

namespace InStep

theorem empty : InStep .empty :=
  ⟨List.nodup_nil, fun _ => by simp [ClassTable.empty, contains, find?], fun _ _ h => (nomatch h), rfl⟩

/-- Entering a class of a new name adds the name to the order and a record under it. -/
theorem enter (h : t.InStep) (hnew : t.contains name = false) : (t.extend name).InStep where
  nodup := by
    have hname : name ∉ t.order := by simp [h.listed, hnew]
    rw [extend, ← List.concat_eq_append]
    exact h.nodup.concat hname
  listed := fun other => by
    rw [extend, List.mem_append, List.mem_singleton, h.listed, ← extend, contains_extend]
    simp [or_comm]
  named := fun other c hc => by
    rw [find?_extend] at hc
    split at hc
    next heq => rw [← Option.some.inj hc, heq]; rfl
    next => exact h.named other c hc
  size := by
    have hnone : ¬ (t.records.get? name).isSome = true := by
      rw [Bool.not_eq_true]
      exact hnew
    rw [ClassTable.size, extend, NameMap.size_insert, if_neg hnone, List.length_append]
    exact congrArg (· + 1) h.size

/-- A changed record stays under its name. -/
theorem update (h : t.InStep) (hname : ∀ c, (f c).name = c.name) (cls : String) :
    (t.update cls f).InStep where
  nodup := h.nodup
  listed := fun other => (h.listed other).trans (by rw [contains_update])
  named := fun other c hc => by
    rw [find?_update] at hc
    split at hc
    · obtain ⟨d, hd, rfl⟩ := Option.map_eq_some_iff.mp hc
      exact (hname d).trans (h.named other d hd)
    · exact h.named other c hc
  size := (NameMap.size_modify ..).trans h.size

theorem leave (h : t.InStep) : t.leave.InStep := ⟨h.nodup, h.listed, h.named, h.size⟩

/-! ### The classes listed -/

theorem find?_of_mem_order (h : t.InStep) (hname : name ∈ t.order) :
    ∃ c, t.find? name = some c ∧ c.name = name := by
  obtain ⟨c, hc⟩ := Option.isSome_iff_exists.mp ((h.listed name).mp hname)
  exact ⟨c, hc, h.named name c hc⟩

theorem mem_order_of_find? (h : t.InStep) (hc : t.find? name = some c) : name ∈ t.order := by
  rw [h.listed, contains, hc]
  rfl

theorem find?_eq_some_iff (h : t.InStep) :
    t.find? name = some c ↔ c ∈ t.classes ∧ c.name = name := by
  rw [classes, List.mem_filterMap]
  constructor
  · intro hc
    exact ⟨⟨name, h.mem_order_of_find? hc, hc⟩, h.named name c hc⟩
  · rintro ⟨⟨other, -, hc⟩, rfl⟩
    rwa [h.named other c hc]

/-- The names of the classes are those of the order. -/
theorem names (h : t.InStep) : t.classes.map ClassInfo.name = t.order := by
  have hname : ∀ name ∈ t.order, (t.find? name).map ClassInfo.name = some name := by
    intro name hmem
    obtain ⟨c, hc, hcname⟩ := h.find?_of_mem_order hmem
    rw [hc, Option.map_some, hcname]
  rw [classes, List.map_filterMap, List.filterMap_congr hname, List.filterMap_some]

theorem contains_iff (h : t.InStep) :
    t.contains name = true ↔ name ∈ t.classes.map ClassInfo.name := by
  rw [h.names, h.listed]

theorem find?_eq (h : t.InStep) (name : String) :
    t.find? name = t.classes.find? (·.name == name) := by
  cases hfind : t.classes.find? (·.name == name) with
  | some c =>
    have hname : c.name = name := by simpa using List.find?_some hfind
    exact h.find?_eq_some_iff.mpr ⟨List.mem_of_find?_eq_some hfind, hname⟩
  | none =>
    rw [Option.eq_none_iff_forall_ne_some]
    intro c hc
    obtain ⟨hmem, hname⟩ := h.find?_eq_some_iff.mp hc
    exact List.find?_eq_none.mp hfind c hmem (by simpa using hname)

theorem classes_enter (h : t.InStep) (hnew : t.contains name = false) :
    (t.extend name).classes = t.classes ++ [fresh name] := by
  have hkept : ∀ other ∈ t.order, (t.extend name).find? other = t.find? other := by
    intro other hmem
    have hne : other ≠ name := by
      rintro rfl
      rw [h.listed, hnew] at hmem
      cases hmem
    rw [find?_extend, if_neg hne]
  have hlast : [name].filterMap (t.extend name).find? = [fresh name] := by simp
  rw [classes, show (t.extend name).order = t.order ++ [name] from rfl, List.filterMap_append,
    List.filterMap_congr hkept, hlast, classes]

theorem classes_update (h : t.InStep) (cls : String) (f : ClassInfo → ClassInfo) :
    (t.update cls f).classes = t.classes.map fun c => if c.name = cls then f c else c := by
  rw [classes, classes, List.map_filterMap]
  refine List.filterMap_congr fun name hmem => ?_
  obtain ⟨c, hc, rfl⟩ := h.find?_of_mem_order hmem
  rw [find?_update, hc, Option.map_some, Option.map_some]
  split <;> rfl

end InStep

end ClassTable

end ClassLang
