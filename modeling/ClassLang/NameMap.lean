/-!
# Finite maps from names

A `NameMap` holds at most one value under each name. Its view is `get?`; the lemmas below say what
each operation does to it.
-/

namespace ClassLang

/-- A finite map from names, as the list of its bindings. -/
structure NameMap (α : Type) where
  entries : List (String × α) := []
deriving DecidableEq

namespace NameMap

variable {α : Type}

def empty : NameMap α := ⟨[]⟩

instance : Inhabited (NameMap α) := ⟨empty⟩

/-- The value under a name. -/
def get? (m : NameMap α) (name : String) : Option α := m.entries.lookup name

/-- The bindings with `a` under `name`, in place of what stood there. -/
def insertEntry (name : String) (a : α) : List (String × α) → List (String × α)
  | [] => [(name, a)]
  | (n, b) :: rest => if n = name then (n, a) :: rest else (n, b) :: insertEntry name a rest

/-- The map with `a` under `name`, in place of what stood there. -/
def insert (m : NameMap α) (name : String) (a : α) : NameMap α :=
  ⟨insertEntry name a m.entries⟩

/-- The bindings with what stands under `name` changed by `f`. -/
def modifyEntry (name : String) (f : α → α) : List (String × α) → List (String × α)
  | [] => []
  | (n, b) :: rest => if n = name then (n, f b) :: rest else (n, b) :: modifyEntry name f rest

/-- The map with what stands under `name` changed by `f`. -/
def modify (m : NameMap α) (name : String) (f : α → α) : NameMap α :=
  ⟨modifyEntry name f m.entries⟩

/-- The map with nothing under `name`. -/
def erase (m : NameMap α) (name : String) : NameMap α :=
  ⟨m.entries.filter fun e => e.1 != name⟩

/-- How many names have a value. -/
def size (m : NameMap α) : Nat := m.entries.length

@[simp] theorem get?_empty (name : String) : (empty : NameMap α).get? name = none := rfl

theorem lookup_insertEntry (name other : String) (a : α) :
    ∀ l : List (String × α),
      (insertEntry name a l).lookup other = if other = name then some a else l.lookup other
  | [] => by
    by_cases h : other = name
    · simp [insertEntry, h]
    · simp [insertEntry, List.lookup_cons, beq_eq_false_iff_ne.mpr h, h]
  | (n, b) :: rest => by
    have ih := lookup_insertEntry name other a rest
    by_cases h : other = n
    · subst h
      by_cases hn : other = name <;> simp [insertEntry, hn]
    · have hb : (other == n) = false := beq_eq_false_iff_ne.mpr h
      by_cases hn : n = name
      · subst hn
        simp [insertEntry, List.lookup_cons, hb, h]
      · simp [insertEntry, hn, List.lookup_cons, hb, ih]

@[simp] theorem get?_insert (m : NameMap α) (name other : String) (a : α) :
    (m.insert name a).get? other = if other = name then some a else m.get? other :=
  lookup_insertEntry name other a m.entries

theorem length_insertEntry (name : String) (a : α) : ∀ l : List (String × α),
    (insertEntry name a l).length = if (l.lookup name).isSome then l.length else l.length + 1
  | [] => rfl
  | (n, b) :: rest => by
    have ih := length_insertEntry name a rest
    by_cases h : n = name
    · simp [insertEntry, h]
    · have hb : (name == n) = false := beq_eq_false_iff_ne.mpr (Ne.symm h)
      rw [insertEntry, if_neg h, List.length_cons, ih, List.lookup_cons, hb]
      split <;> rfl

theorem size_insert (m : NameMap α) (name : String) (a : α) :
    (m.insert name a).size = if (m.get? name).isSome then m.size else m.size + 1 :=
  length_insertEntry name a m.entries

theorem lookup_modifyEntry (name other : String) (f : α → α) : ∀ l : List (String × α),
    (modifyEntry name f l).lookup other =
      if other = name then (l.lookup other).map f else l.lookup other
  | [] => by simp [modifyEntry]
  | (n, b) :: rest => by
    have ih := lookup_modifyEntry name other f rest
    by_cases h : other = n
    · subst h
      by_cases hn : other = name <;> simp [modifyEntry, hn]
    · have hb : (other == n) = false := beq_eq_false_iff_ne.mpr h
      by_cases hn : n = name
      · subst hn
        simp [modifyEntry, List.lookup_cons, hb, h]
      · simp [modifyEntry, hn, List.lookup_cons, hb, ih]

@[simp] theorem get?_modify (m : NameMap α) (name other : String) (f : α → α) :
    (m.modify name f).get? other = if other = name then (m.get? other).map f else m.get? other :=
  lookup_modifyEntry name other f m.entries

theorem keys_modifyEntry (name : String) (f : α → α) : ∀ l : List (String × α),
    (modifyEntry name f l).map Prod.fst = l.map Prod.fst
  | [] => rfl
  | (n, b) :: rest => by
    rw [modifyEntry]
    split
    · rfl
    · rw [List.map_cons, List.map_cons, keys_modifyEntry name f rest]

@[simp] theorem size_modify (m : NameMap α) (name : String) (f : α → α) :
    (m.modify name f).size = m.size := by
  have hkeys := congrArg List.length (keys_modifyEntry name f m.entries)
  rwa [List.length_map, List.length_map] at hkeys

theorem modifyEntry_of_fixed {name : String} {a : α} {f : α → α} (hf : f a = a) :
    ∀ {l : List (String × α)}, l.lookup name = some a → modifyEntry name f l = l
  | [], _ => rfl
  | (n, b) :: rest, h => by
    rw [modifyEntry]
    by_cases hn : n = name
    · subst hn
      obtain rfl : b = a := by simpa using h
      rw [if_pos rfl, hf]
    · have hb : (name == n) = false := beq_eq_false_iff_ne.mpr (Ne.symm hn)
      rw [List.lookup_cons, hb] at h
      rw [if_neg hn, modifyEntry_of_fixed hf h]

/-- A change that leaves what stands there as it is changes nothing. -/
theorem modify_of_fixed {m : NameMap α} {name : String} {a : α} {f : α → α}
    (h : m.get? name = some a) (hf : f a = a) : m.modify name f = m :=
  congrArg NameMap.mk (modifyEntry_of_fixed hf h)

theorem lookup_filter_ne (name other : String) :
    ∀ l : List (String × α), (l.filter fun e => e.1 != name).lookup other =
      if other = name then none else l.lookup other
  | [] => by simp
  | (n, b) :: rest => by
    have ih := lookup_filter_ne name other rest
    by_cases h : other = n
    · subst h
      by_cases hn : other = name
      · simpa [hn] using ih
      · simp [hn]
    · have hb : (other == n) = false := beq_eq_false_iff_ne.mpr h
      by_cases hn : n = name
      · subst hn
        simp [List.lookup_cons, hb, h, ih]
      · simp [hn, List.lookup_cons, hb, ih]

@[simp] theorem get?_erase (m : NameMap α) (name other : String) :
    (m.erase name).get? other = if other = name then none else m.get? other :=
  lookup_filter_ne name other m.entries

end NameMap

end ClassLang
