import ClassLang.ClassTable

/-!
# Walking up from a class

The ancestors of a class are the class itself, its parent, its parent's parent, and so on until a
class has no parent or names one that is not declared. A table may hold classes that are their own
ancestors, and then the walk has no end: `ancestors` takes a limit.

A search need not go on for ever, though. The first `size` steps of a walk have met every class the
walk will ever meet, so `lineage` and `above` stop there, and looking a name up in a class and its
ancestors is a search in that list.
-/

namespace ClassLang

/-- Something found in a class or one of its ancestors. -/
structure Located (α : Type) where
  /-- Steps from the class the search began at. -/
  depth : Nat
  /-- The class it was found in. -/
  owner : String
  what : α
deriving DecidableEq

namespace ClassTable

/-- The parent of a class, if it is declared. -/
def parent? (t : ClassTable) (c : ClassInfo) : Option ClassInfo := c.parent.bind t.find?

/-- At most `limit` classes on the way up from `start`. -/
def climb (t : ClassTable) : (limit : Nat) → (start : Option ClassInfo) → List ClassInfo
  | limit + 1, some c => c :: t.climb limit (t.parent? c)
  | _, _ => []

/-- The first `limit` of a class and its ancestors, nearest first. -/
def ancestors (t : ClassTable) (cls : String) (limit : Nat) : List ClassInfo :=
  t.climb limit (t.find? cls)

/-- A class and all its ancestors, nearest first. -/
def lineage (t : ClassTable) (cls : String) : List ClassInfo := t.ancestors cls t.size

/-- The ancestors of a class without the class itself, nearest first. -/
def above (t : ClassTable) (cls : String) : List ClassInfo :=
  t.climb t.size ((t.find? cls).bind t.parent?)

/-- The nearest of a class and its ancestors in which `look` finds something. -/
def nearest? {α : Type} (t : ClassTable) (cls : String) (look : ClassInfo → Option α) :
    Option (Located α) :=
  (t.lineage cls).zipIdx.findSome? fun (c, depth) => (look c).map fun what => ⟨depth, c.name, what⟩

/-- The member of that name, in the class or the nearest ancestor that has one. -/
def findMember? (t : ClassTable) (cls member : String) : Option (Located Entity) :=
  t.nearest? cls (·.members.get? member)

/-- The method with the key of `s`, in the class or the nearest ancestor that has one. -/
def findMethod? (t : ClassTable) (cls : String) (s : Signature) : Option (Located Signature) :=
  t.nearest? cls (·.methods.find? s)

/-- Some method of the class or an ancestor has that name. -/
def hasMethodNamed (t : ClassTable) (cls name : String) : Bool :=
  (t.lineage cls).any (·.methods.hasName name)

@[simp] theorem climb_zero (t : ClassTable) (start : Option ClassInfo) : t.climb 0 start = [] := rfl

@[simp] theorem climb_none (t : ClassTable) (limit : Nat) : t.climb limit none = [] := by
  cases limit <;> rfl

@[simp] theorem climb_succ (t : ClassTable) (limit : Nat) (c : ClassInfo) :
    t.climb (limit + 1) (some c) = c :: t.climb limit (t.parent? c) := rfl

theorem length_climb_le (t : ClassTable) :
    ∀ (limit : Nat) (start : Option ClassInfo), (t.climb limit start).length ≤ limit
  | 0, _ => Nat.le_refl 0
  | _ + 1, none => by simp
  | limit + 1, some c => by simpa using length_climb_le t limit (t.parent? c)

end ClassTable

end ClassLang
