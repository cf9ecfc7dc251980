import ClassLang.ClassInfo

/-!
# Members put into a class and taken away again

A class lists its members at the places of a list of names that only grows: a name is added when a
member is put in that was not there, and stays when the member is taken away. Whatever is put in and
taken away, the list holds the members that are there, as they were last given, and no others.

How often a member is listed is another matter. It has a place for each time it came to be there, so
a member that was taken away and is there again is listed twice (`ClassInfo.putBack_listed_twice`),
and a class lists each of its members once if and only if it has no such member
(`ClassInfo.listed_once_iff`).
-/

namespace ClassLang

namespace ClassInfo

/-- A change to the members of a class. -/
inductive Edit where
  | insert (x : String) (e : Entity)
  | erase (x : String)
deriving DecidableEq

namespace Edit

def apply (c : ClassInfo) : Edit → ClassInfo
  | insert x e => (c.insertMember x e).2
  | erase x => c.eraseMember x

/-- The name of the member that is changed. -/
def name : Edit → String
  | insert x _ => x
  | erase x => x

/-- What is there under the name afterwards. -/
def content : Edit → Option Entity
  | insert _ e => some e
  | erase _ => none

end Edit

/-- The class after edits, the first of them first. -/
def edited (c : ClassInfo) (edits : List Edit) : ClassInfo := edits.foldl Edit.apply c

/-- What is there under a name after each of its edits. -/
def history (x : String) (edits : List Edit) : List (Option Entity) :=
  (edits.filter (·.name == x)).map Edit.content

/-- What is there under a name after the last of its edits, and nothing if it has none. -/
def latest (x : String) (edits : List Edit) : Option Entity := (history x edits).getLast?.getD none

/-- Whether a member is there after each of its edits. -/
def presence (x : String) (edits : List Edit) : List Bool := (history x edits).map Option.isSome

/-- How often a member comes to be there, by whether it is there at first and after each edit. -/
def arrivals (there : Bool) : List Bool → Nat
  | [] => 0
  | now :: rest => (now && !there).toNat + arrivals now rest

/-- The member was put in, later taken away, and later put in again. -/
def Returns (x : String) (edits : List Edit) : Prop :=
  [true, false, true].Sublist (presence x edits)

instance (x : String) (edits : List Edit) : Decidable (Returns x edits) :=
  inferInstanceAs (Decidable (List.Sublist _ _))

variable {x : String} {e : Entity} {edits : List Edit}

/-! ### One edit -/

theorem Edit.get?_apply (d : Edit) (c : ClassInfo) (x : String) :
    (d.apply c).members.get? x = if x = d.name then d.content else c.members.get? x := by
  cases d with
  | insert y e => exact get?_insertMember c y x e
  | erase y => exact NameMap.get?_erase c.members y x

/-- A name gets another place when a member of that name is put in which is not there. -/
theorem Edit.count_order_apply (d : Edit) (c : ClassInfo) (x : String) :
    (d.apply c).order.count x = c.order.count x +
      if x = d.name then (d.content.isSome && !(c.members.get? x).isSome).toNat else 0 := by
  cases d with
  | erase y =>
    show c.order.count x = _
    simp [content]
  | insert y e =>
    show (if (c.members.get? y).isSome then c.order else c.order ++ [y]).count x = _
    by_cases hx : x = y
    · subst hx
      cases (c.members.get? x).isSome <;> simp [name, content]
    · have hone : [y].count x = 0 := List.count_eq_zero.mpr (by simpa using hx)
      rw [name, if_neg hx]
      split
      · rfl
      · rw [List.count_append, hone]

theorem history_cons (x : String) (d : Edit) (rest : List Edit) :
    history x (d :: rest) =
      if x = d.name then d.content :: history x rest else history x rest := by
  by_cases hx : x = d.name
  · subst hx
    simp [history]
  · have hd : d.name ≠ x := Ne.symm hx
    simp [history, hx, hd]

/-! ### Any edits -/

/-- The members are what their last edits left. -/
theorem get?_edited (x : String) : ∀ (edits : List Edit) (c : ClassInfo),
    (c.edited edits).members.get? x = (history x edits).getLast?.getD (c.members.get? x)
  | [], _ => rfl
  | d :: rest, c => by
    have hrest := get?_edited x rest (d.apply c)
    rw [d.get?_apply] at hrest
    refine hrest.trans ?_
    rw [history_cons]
    split
    · rw [List.getLast?_cons, Option.getD_some]
    · rfl

/-- A name has the places it had, and one for each time its member came to be there. -/
theorem count_order_edited (x : String) : ∀ (edits : List Edit) (c : ClassInfo),
    (c.edited edits).order.count x =
      c.order.count x + arrivals (c.members.get? x).isSome (presence x edits)
  | [], _ => rfl
  | d :: rest, c => by
    -- an edit of `x` decides whether the rest finds it there; any other edit leaves that as it is
    have hrest := count_order_edited x rest (d.apply c)
    rw [d.get?_apply, d.count_order_apply] at hrest
    refine hrest.trans ?_
    rw [presence, presence, history_cons]
    split
    · rw [List.map_cons, arrivals, Nat.add_assoc]
    · rfl

/-- A member is listed at each place of its name, and what is not there is not listed. -/
theorem count_membersInOrder (c : ClassInfo) (x : String) (e : Entity) :
    c.membersInOrder.count (x, e) = if c.members.get? x = some e then c.order.count x else 0 := by
  rw [membersInOrder]
  induction c.order with
  | nil => simp
  | cons y rest ih =>
    rw [List.filterMap_cons, List.count_cons]
    cases hy : c.members.get? y with
    -- where the member named is gone nothing is listed, and then `x` is gone if it is that name
    | none => grind
    | some e' => grind

/-! ### How often a member comes to be there -/

theorem arrivals_pos_iff : ∀ l : List Bool, 0 < arrivals false l ↔ true ∈ l
  | [] => by simp [arrivals]
  | true :: _ => iff_of_true (Nat.add_pos_left Nat.one_pos _) (List.mem_cons_self ..)
  | false :: rest => by simpa [arrivals] using arrivals_pos_iff rest

theorem arrivals_true_pos_iff : ∀ l : List Bool, 0 < arrivals true l ↔ [false, true].Sublist l
  | [] => by simp [arrivals]
  | true :: rest => by
    have hrest := arrivals_true_pos_iff rest
    simpa [arrivals, List.sublist_cons_iff] using hrest
  | false :: rest => by
    have hrest := arrivals_pos_iff rest
    simpa [arrivals] using hrest

/-- A member comes to be there more than once if it is taken away in between. -/
theorem one_lt_arrivals_iff : ∀ l : List Bool,
    1 < arrivals false l ↔ [true, false, true].Sublist l
  | [] => by simp [arrivals]
  | true :: rest => by
    have hrest := arrivals_true_pos_iff rest
    simpa [arrivals] using hrest
  | false :: rest => by
    have hrest := one_lt_arrivals_iff rest
    simpa [arrivals, List.sublist_cons_iff] using hrest

theorem arrivals_pos_of_latest (h : latest x edits = some e) :
    0 < arrivals false (presence x edits) := by
  rw [arrivals_pos_iff, presence, List.mem_map]
  cases hlast : (history x edits).getLast? with
  | none =>
    rw [latest, hlast] at h
    cases h
  | some last =>
    obtain rfl : last = some e := by rwa [latest, hlast] at h
    exact ⟨some e, List.mem_of_getLast? hlast, rfl⟩

/-- **Which members are listed, and how often.** Let members be put into a class that had none, and
be taken away, in any order. The list holds the members that are there, as they were last given, and
no others. Each is listed as often as it came to be there; so each is listed once if and only if none
that is there was taken away before and put in again. -/
theorem listed_once_iff (cls : String) (parent : Option String) (methods : MethodSet)
    (edits : List Edit) :
    let c := edited ⟨cls, parent, .empty, methods, []⟩ edits
    (∀ x, c.members.get? x = latest x edits) ∧
    (∀ x e, (x, e) ∈ c.membersInOrder ↔ latest x edits = some e) ∧
    (∀ x e, c.membersInOrder.count (x, e) =
      if latest x edits = some e then arrivals false (presence x edits) else 0) ∧
    ((∀ x e, c.membersInOrder.count (x, e) = if latest x edits = some e then 1 else 0) ↔
      ∀ x, (latest x edits).isSome → ¬ Returns x edits) := by
  intro c
  have hmembers : ∀ x, c.members.get? x = latest x edits := fun x => get?_edited x edits _
  have hcount : ∀ x e, c.membersInOrder.count (x, e) =
      if latest x edits = some e then arrivals false (presence x edits) else 0 := by
    intro x e
    have horder : c.order.count x = arrivals false (presence x edits) :=
      (count_order_edited x edits _).trans (Nat.zero_add _)
    rw [count_membersInOrder, hmembers, horder]
  refine ⟨hmembers, fun x e => ?_, hcount, fun honce x hx hreturns => ?_, fun hstays x e => ?_⟩
  · rw [← List.count_pos_iff, hcount]
    split
    next h => exact iff_of_true (arrivals_pos_of_latest h) h
    next h => exact iff_of_false (Nat.lt_irrefl 0) h
  · obtain ⟨e, he⟩ := Option.isSome_iff_exists.mp hx
    have hone : arrivals false (presence x edits) = 1 := by
      simpa only [hcount, if_pos he] using honce x e
    have htwice : 1 < arrivals false (presence x edits) := (one_lt_arrivals_iff _).mpr hreturns
    omega
  · rw [hcount]
    split
    next h =>
      have hpos := arrivals_pos_of_latest h
      have hle : ¬ 1 < arrivals false (presence x edits) := by
        rw [one_lt_arrivals_iff]
        exact hstays x (Option.isSome_of_eq_some h)
      omega
    next h => rfl

/-- A member that is replaced, and one that comes back but is taken away once more. -/
def reshaped : List Edit := [
  .erase "x", .insert "y" (.value .int), .insert "x" (.value .int), .insert "y" (.value .bool),
  .erase "x", .insert "x" (.value .bool), .erase "x"]

/-- `x` came to be there twice, but is not there; `y` is listed once, as it was last given. -/
theorem reshaped_listed_once :
    let c := edited ⟨"C", some "B", .empty, .empty, []⟩ reshaped
    Returns "x" reshaped ∧ latest "x" reshaped = none ∧
    c.order = ["y", "x", "x"] ∧ ("y", .value .bool) ∈ c.membersInOrder ∧
    ∀ x e, c.membersInOrder.count (x, e) = if latest x reshaped = some e then 1 else 0 := by
  intro c
  obtain ⟨-, hmem, -, honce⟩ := listed_once_iff "C" (some "B") .empty reshaped
  refine ⟨by decide, by decide, by decide, (hmem _ _).mpr (by decide), honce.mpr fun x hx => ?_⟩
  by_cases hy : x = "y"
  · subst hy
    decide
  · have hnone : latest x reshaped = none := by
      by_cases hx' : x = "x"
      · subst hx'
        decide
      · simp [latest, history, reshaped, Edit.name, Ne.symm hy, Ne.symm hx']
    rw [hnone] at hx
    cases hx

/-- A member that is taken away and put in again, with another type. -/
def putBack : List Edit := [.insert "y" (.value .int), .erase "y", .insert "y" (.value .bool)]

/-- There is one member, and it is listed twice. -/
theorem putBack_listed_twice :
    let c := edited { name := "C" } putBack
    c.members.entries = [("y", .value .bool)] ∧ latest "y" putBack = some (.value .bool) ∧
    c.membersInOrder = [("y", .value .bool), ("y", .value .bool)] ∧
    c.membersInOrder.count ("y", .value .bool) ≠ 1 := by
  decide

end ClassInfo

end ClassLang
