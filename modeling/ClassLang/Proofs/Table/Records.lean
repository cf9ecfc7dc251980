import ClassLang.Proofs.Lineage
import ClassLang.Proofs.MethodSet
import ClassLang.Proofs.Table.InStep
import ClassLang.Proofs.Typing.Outline

/-!
# A class table that records declarations

A table records a list of outlines if its parts are in step and its classes are those of the outlines,
one by one (`ClassTable.Records`).
Then to find a class in the table is to find its outline, and a search up the lineage of a class
comes to the nearest outline with the property searched for (`find?_lineage_of_nearest`), although
the lineage is cut off after as many steps as there are classes.
-/

namespace ClassLang

/-- The record of a class holds what its outline says. -/
structure ClassInfo.Records (i : ClassInfo) (c : Outline) : Prop where
  name : i.name = c.name
  parent : i.parent = c.parent
  member : ∀ x, i.members.get? x = (c.fields.lookup x).map Entity.value
  order : i.order = c.fields.map Prod.fst
  method : ∀ s, s ∈ i.methods.toList ↔ c.Offers s

namespace ClassTable

/-- The classes of the table are those of the outlines, in their order. -/
structure Records (t : ClassTable) (cs : List Outline) : Prop where
  inStep : t.InStep
  classes : List.Forall₂ ClassInfo.Records t.classes cs

variable {t : ClassTable} {cs : List Outline} {name : String} {i : ClassInfo} {c : Outline}

theorem exists_outline {l : List ClassInfo} (h : List.Forall₂ ClassInfo.Records l cs) (hi : i ∈ l) :
    ∃ c ∈ cs, i.Records c := by
  induction h with
  | nil => simp at hi
  | cons hd _ ih =>
    rcases List.mem_cons.mp hi with rfl | hi
    · exact ⟨_, List.mem_cons_self .., hd⟩
    · obtain ⟨c, hc, hic⟩ := ih hi
      exact ⟨c, List.mem_cons_of_mem _ hc, hic⟩

theorem exists_info {l : List ClassInfo} (h : List.Forall₂ ClassInfo.Records l cs) (hc : c ∈ cs) :
    ∃ i ∈ l, i.Records c := by
  induction h with
  | nil => simp at hc
  | cons hd _ ih =>
    rcases List.mem_cons.mp hc with rfl | hc
    · exact ⟨_, List.mem_cons_self .., hd⟩
    · obtain ⟨i, hi, hic⟩ := ih hc
      exact ⟨i, List.mem_cons_of_mem _ hi, hic⟩

namespace Records

theorem empty : Records .empty [] := ⟨.empty, .nil⟩

theorem leave (h : t.Records cs) : t.leave.Records cs := ⟨h.inStep.leave, h.classes⟩

theorem names_eq (h : t.Records cs) : t.classes.map ClassInfo.name = cs.map Outline.name := by
  have hnames : List.Forall₂ (fun i c => i.name = c.name) t.classes cs :=
    h.classes.imp fun _ _ hi => hi.name
  rw [← List.forall₂_eq_eq_eq, List.forall₂_map_left_iff, List.forall₂_map_right_iff]
  exact hnames

theorem of_find? (h : t.Records cs) (hi : t.find? name = some i) :
    ∃ c ∈ cs, c.name = name ∧ i.Records c := by
  obtain ⟨hmem, hname⟩ := h.inStep.find?_eq_some_iff.mp hi
  obtain ⟨c, hc, hic⟩ := exists_outline h.classes hmem
  exact ⟨c, hc, hic.name.symm.trans hname, hic⟩

theorem find?_of_mem (h : t.Records cs) (hc : c ∈ cs) :
    ∃ i, t.find? c.name = some i ∧ i.Records c := by
  obtain ⟨i, hi, hic⟩ := exists_info h.classes hc
  exact ⟨i, h.inStep.find?_eq_some_iff.mpr ⟨hi, hic.name⟩, hic⟩

theorem contains_iff (h : t.Records cs) :
    t.contains name = true ↔ name ∈ cs.map Outline.name := by
  rw [h.inStep.contains_iff, h.names_eq]

/-! ### The lineage of a class -/

/-- The first class with `p` on a walk is the nearest. -/
theorem nearest_of_climb {p : ClassInfo → Bool} {P : Outline → Prop} (h : t.Records cs)
    (hp : ∀ i c, i.Records c → (p i = true ↔ P c)) :
    ∀ (limit : ℕ) (name : String), (t.climb limit (t.find? name)).find? p = some i →
      ∃ c, i.Records c ∧ Nearest cs P name c
  | 0, _, hi => by simp at hi
  | limit + 1, name, hi => by
    cases hj : t.find? name with
    | none => simp [hj] at hi
    | some j =>
      obtain ⟨d, hd, hdn, hjd⟩ := h.of_find? hj
      rw [hj, climb_succ] at hi
      by_cases hpj : p j = true
      · rw [List.find?_cons_of_pos hpj] at hi
        obtain rfl := Option.some.inj hi
        exact ⟨d, hjd, .here hd hdn ((hp j d hjd).mp hpj)⟩
      · rw [List.find?_cons_of_neg hpj] at hi
        cases hq : j.parent with
        | none => simp [parent?, hq] at hi
        | some q =>
          simp only [parent?, hq, Option.bind_some] at hi
          obtain ⟨c, hic, hc⟩ := nearest_of_climb h hp limit q hi
          exact ⟨c, hic, .up hd hdn (mt (hp j d hjd).mpr hpj) (hjd.parent ▸ hq) hc⟩

/-- A walk that is long enough comes to the nearest class. -/
theorem mem_ancestors_of_nearest {P : Outline → Prop} (h : t.Records cs)
    (hc : Nearest cs P name c) :
    ∃ limit, ∃ i ∈ t.ancestors name limit, i.Records c := by
  induction hc with
  | here hc hname hP =>
    obtain ⟨i, hi, hic⟩ := h.find?_of_mem hc
    refine ⟨1, i, ?_, hic⟩
    rw [ancestors, ← hname, hi]
    exact List.mem_cons_self ..
  | up hd hname hP hq _ ih =>
    obtain ⟨limit, i, hi, hic⟩ := ih
    obtain ⟨j, hj, hjd⟩ := h.find?_of_mem hd
    refine ⟨limit + 1, i, ?_, hic⟩
    rw [ancestors, ← hname, hj, climb_succ, parent?, hjd.parent, hq]
    exact List.mem_cons_of_mem _ hi

/-- **A search up the lineage finds the nearest class.** It rests on the lineage being complete: a
class that a walk comes to at all is among the first `size` on it. -/
theorem find?_lineage_of_nearest {p : ClassInfo → Bool} {P : Outline → Prop} (h : t.Records cs)
    (hcs : Hierarchy cs) (hp : ∀ i c, i.Records c → (p i = true ↔ P c))
    (hc : Nearest cs P name c) : ∃ i, (t.lineage name).find? p = some i ∧ i.Records c := by
  obtain ⟨limit, j, hj, hjc⟩ := h.mem_ancestors_of_nearest hc
  have hsome : ((t.lineage name).find? p).isSome = true := by
    rw [List.find?_isSome]
    exact ⟨j, mem_lineage_of_mem_ancestors hj, (hp j c hjc).mpr hc.holds⟩
  obtain ⟨i, hi⟩ := Option.isSome_iff_exists.mp hsome
  obtain ⟨d, hid, hd⟩ := h.nearest_of_climb hp t.size name hi
  rw [← hd.unique hcs hc]
  exact ⟨i, hi, hid⟩

end Records

end ClassTable

end ClassLang
