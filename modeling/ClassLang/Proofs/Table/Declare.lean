import ClassLang.Proofs.Table.Records
import ClassLang.Proofs.Typing.Rules

/-!
# Declaring into the open class

The open class is the last of the table (`ClassTable.Open`). A step on it leaves the classes before
it as they are and answers from the record of the open class (`ClassTable.Open.onCurrent_eq`,
`ClassTable.Open.update`), so the table goes on recording outlines, the last of which grows with
each member declared.
-/

namespace ClassLang

variable {i : ClassInfo} {c d : Outline} {x : String} {τ : Ty} {s : Signature}

/-! ### The record of one class -/

namespace Outline

theorem offers_iff : c.Offers s ↔ s = .ofConstructor c.name [] ∨ s ∈ c.signatures := by
  constructor
  · intro h
    cases h with
    | initial => exact .inl rfl
    | declared h => exact .inr h
  · rintro (rfl | h)
    · exact .initial
    · exact .declared h

/-- The outline with a further field. -/
def addField (c : Outline) (x : String) (τ : Ty) : Outline :=
  { c with fields := c.fields ++ [(x, τ)] }

/-- The outline with a further signature. -/
def addSignature (c : Outline) (s : Signature) : Outline :=
  { c with signatures := c.signatures ++ [s] }

theorem offers_addSignature_iff {u : Signature} :
    (c.addSignature s).Offers u ↔ c.Offers u ∨ u = s := by
  simp [offers_iff, addSignature, or_assoc]

end Outline

namespace ClassInfo.Records

theorem isSome_get?_iff (h : i.Records c) :
    (i.members.get? x).isSome = true ↔ x ∈ c.fields.map Prod.fst := by
  rw [h.member, Option.isSome_map, List.lookup_isSome_iff]
  simp

theorem contains_iff (h : i.Records c) :
    i.methods.contains s = true ↔ ∃ u, c.Offers u ∧ u.sameKey s = true := by
  simp only [MethodSet.contains_iff, h.method]

theorem fresh (name : String) : (ClassTable.fresh name).Records ⟨name, none, [], []⟩ where
  name := rfl
  parent := rfl
  member := fun _ => rfl
  order := rfl
  method := fun s => by
    rw [ClassTable.fresh, methods_insertMethod, MethodSet.mem_insert_iff, Outline.offers_iff]
    simp [MethodSet.empty]

theorem setParent (h : i.Records c) (q : Option String) :
    ({ i with parent := q } : ClassInfo).Records { c with parent := q } where
  name := h.name
  parent := rfl
  member := h.member
  order := h.order
  method := fun s => (h.method s).trans (by rw [Outline.offers_iff, Outline.offers_iff])

theorem insertMember (h : i.Records c) (hx : x ∉ c.fields.map Prod.fst) :
    (i.insertMember x (.value τ)).2.Records (c.addField x τ) where
  name := h.name
  parent := h.parent
  member := fun y => by
    rw [ClassInfo.get?_insertMember, h.member, Outline.addField, List.lookup_append]
    by_cases hy : y = x
    · have hnone : c.fields.lookup y = none := by
        rw [← Option.not_isSome_iff_eq_none, List.lookup_isSome_iff]
        simpa [hy] using hx
      simp [hy ▸ hnone, hy]
    · have hne : (y == x) = false := beq_eq_false_iff_ne.mpr hy
      simp [hy, List.lookup_cons, hne]
  order := by
    have hnone : ¬ (i.members.get? x).isSome = true := mt h.isSome_get?_iff.mp hx
    simp only [ClassInfo.insertMember, if_neg hnone, h.order, Outline.addField, List.map_append]
    rfl
  method := fun s => (h.method s).trans (by rw [Outline.offers_iff, Outline.offers_iff]; rfl)

/-- A signature is recorded if its key is new, and also if the class offers it already: then it is
the one the class started out with. -/
theorem insertMethod (h : i.Records c)
    (hs : c.Offers s ∨ ∀ u, c.Offers u → u.sameKey s = false) :
    (i.insertMethod s).2.Records (c.addSignature s) where
  name := h.name
  parent := h.parent
  member := h.member
  order := h.order
  method := fun u => by
    rw [methods_insertMethod, Outline.offers_addSignature_iff]
    rcases hs with hs | hs
    · rw [MethodSet.insert_of_mem ((h.method s).mpr hs), h.method]
      exact ⟨.inl, fun hu => hu.elim id fun he => he ▸ hs⟩
    · rw [MethodSet.mem_insert_iff, h.method]
      refine or_congr Iff.rfl ⟨And.left, fun hu => ⟨hu, fun v hv => hs v ((h.method v).mp hv)⟩⟩

/-- Declaring again what the class offers changes nothing. -/
theorem insertMethod_eq (h : i.Records c) (hs : c.Offers s) : (i.insertMethod s).2 = i := by
  rw [ClassInfo.insertMethod, MethodSet.insert_of_mem ((h.method s).mpr hs)]

end ClassInfo.Records

/-! ### The open class -/

/-- Class `c` is open, after the classes `earlier`. -/
structure ClassTable.Open (t : ClassTable) (earlier : List Outline) (c : Outline) : Prop where
  records : t.Records (earlier ++ [c])
  current : t.current = some c.name
  fresh : c.name ∉ earlier.map Outline.name

namespace ClassTable

variable {t : ClassTable} {earlier : List Outline} {name : String}

theorem enter_eq (h : t.Records earlier) (hcur : t.current = none)
    (hfresh : name ∉ earlier.map Outline.name) : ∃ t', enter name t = .ok () t' ∧
      t'.Open earlier ⟨name, none, [], []⟩ := by
  have hnew : t.contains name = false := by
    rw [Bool.eq_false_iff]
    exact mt h.contains_iff.mp hfresh
  refine ⟨t.extend name, ?_, ⟨h.inStep.enter hnew, ?_⟩, rfl, hfresh⟩
  · unfold enter
    simp only [hcur, hnew]
    rfl
  · rw [h.inStep.classes_enter hnew]
    exact List.rel_append h.classes (.cons (.fresh name) .nil)

/-- A change to the last class leaves the others as they are. -/
theorem classes_update_last (h : t.InStep) {l : List ClassInfo} {i : ClassInfo}
    (hl : t.classes = l ++ [i]) (hne : ∀ j ∈ l, j.name ≠ i.name)
    (change : ClassInfo → ClassInfo) : (t.update i.name change).classes = l ++ [change i] := by
  have hkept : (l.map fun j => if j.name = i.name then change j else j) = l := by
    rw [List.map_congr_left fun j hj => if_neg (hne j hj), List.map_id']
  rw [h.classes_update, hl, List.map_append, hkept, List.map_singleton, if_pos rfl]

namespace Open

theorem exists_last (h : t.Open earlier c) : ∃ l i, t.classes = l ++ [i] ∧ i.Records c ∧
    List.Forall₂ ClassInfo.Records l earlier ∧ ∀ j ∈ l, j.name ≠ c.name := by
  have hl := List.forall₂_take_append _ earlier [c] h.records.classes
  obtain ⟨i, rest, hi, hrest, htail⟩ :=
    List.forall₂_cons_right_iff.mp (List.forall₂_drop_append _ earlier [c] h.records.classes)
  rw [List.forall₂_nil_right_iff.mp hrest] at htail
  refine ⟨_, i, ?_, hi, hl, fun j hj hn => h.fresh ?_⟩
  · rw [← htail, List.take_append_drop]
  obtain ⟨d, hd, hjd⟩ := exists_outline hl hj
  exact List.mem_map.mpr ⟨d, hd, hjd.name.symm.trans hn⟩

theorem find?_eq (h : t.Open earlier c) : ∃ i, t.find? c.name = some i ∧ i.Records c :=
  h.records.find?_of_mem (List.mem_append_right _ (List.mem_singleton_self c))

theorem current?_eq (h : t.Open earlier c) : ∃ i, t.current? = some i ∧ i.Records c := by
  obtain ⟨i, hi, hic⟩ := h.find?_eq
  exact ⟨i, by rw [current?, h.current, Option.bind_some, hi], hic⟩

/-- **A step on the open class** answers from its record. -/
theorem onCurrent_eq (h : t.Open earlier c) : ∃ i, i.Records c ∧
    ∀ {α : Type} (operation : String) (change : ClassInfo → α × ClassInfo),
      onCurrent operation change t = .ok (change i).1 (t.update c.name fun j => (change j).2) := by
  obtain ⟨i, hfind, hic⟩ := h.find?_eq
  refine ⟨i, hic, fun operation change => ?_⟩
  unfold onCurrent
  simp only [h.current, hfind]

/-- Changing the open class changes no other. -/
theorem update (h : t.Open earlier c) {change : ClassInfo → ClassInfo}
    (hkept : ∀ i, (change i).name = i.name) (hname : d.name = c.name)
    (hchange : ∀ i, i.Records c → (change i).Records d) :
    (t.update c.name change).Open earlier d := by
  refine ⟨⟨h.records.inStep.update hkept _, ?_⟩, ?_, ?_⟩
  · obtain ⟨l, j, hl, hj, hearlier, hne⟩ := h.exists_last
    rw [← hj.name] at hne ⊢
    rw [classes_update_last h.records.inStep hl hne]
    exact List.rel_append hearlier (.cons (hchange j hj) .nil)
  · rw [hname]
    exact h.current
  · rw [hname]
    exact h.fresh

end Open

end ClassTable

end ClassLang
