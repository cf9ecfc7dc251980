import ClassLang.ClassInfo
import ClassLang.Outcome

/-!
# The class table

The records of the classes declared so far under their names, the names in the order of their
declaration, and the name of the class being declared. A class is entered, given its parent, fields
and methods, and left; every class starts out with a constructor that takes nothing. Parents are kept
by name and taken as given: whether the name is that of a class, and of one declared before, is for
the caller to see to.

The three are kept apart, and each operation keeps them in step: the order has the names that have a
record, once each, and a record has the name it stands under.
-/

namespace ClassLang

/-- The records of classes by name, the names in the order of declaration, and the name of the class
that is open. -/
structure ClassTable where
  records : NameMap ClassInfo := .empty
  order : List String := []
  current : Option String := none
deriving DecidableEq

namespace ClassTable

def empty : ClassTable := {}

instance : Inhabited ClassTable := ⟨empty⟩

def size (t : ClassTable) : Nat := t.records.size

def find? (t : ClassTable) (name : String) : Option ClassInfo := t.records.get? name

def contains (t : ClassTable) (name : String) : Bool := (t.find? name).isSome

/-- The classes in the order of their declaration. -/
def classes (t : ClassTable) : List ClassInfo := t.order.filterMap t.find?

/-- The class being declared. -/
def current? (t : ClassTable) : Option ClassInfo := t.current.bind t.find?

/-- A class as it is when it has just been entered. -/
def fresh (name : String) : ClassInfo :=
  (ClassInfo.insertMethod { name } (.ofConstructor name [])).2

/-- The table with the record of class `name` changed by `f`. -/
def update (t : ClassTable) (name : String) (f : ClassInfo → ClassInfo) : ClassTable :=
  { t with records := t.records.modify name f }

/-! ### Declaring a class -/

/-- Opens a new class. -/
def enter (name : String) : Step ClassTable Unit := fun t =>
  match t.current with
  | some opened => .error (.misuse (.nestedClass name opened)) t
  | none =>
    if t.contains name then .error (.ofFault (.duplicateClass name)) t
    else .ok () {
      records := t.records.insert name (fresh name)
      order := t.order ++ [name]
      current := some name }

/-- Changes the open class, with the answer that the change gives; `operation` names the caller. -/
def onCurrent {α : Type} (operation : String) (change : ClassInfo → α × ClassInfo) :
    Step ClassTable α := fun t =>
  match t.current with
  | none => .error (.misuse (.noCurrentClass operation)) t
  | some name =>
    match t.find? name with
    | none => .error (.misuse (.unregisteredClass operation name)) t
    | some c => .ok (change c).1 (t.update name fun c => (change c).2)

/-- Gives the open class a parent, or another one. -/
def setParent (parent : String) : Step ClassTable Unit :=
  onCurrent "set_parent" fun c => ((), { c with parent := some parent })

/-- Gives the open class a field; answers with what stood under its name. -/
def addField (name : String) (ty : Ty) : Step ClassTable (Option Entity) :=
  onCurrent "add_var" (·.insertMember name (.value ty))

/-- Gives the open class a method; answers whether its key is new there. -/
def addMethod (s : Signature) : Step ClassTable Bool :=
  onCurrent "add_method" (·.insertMethod s)

/-- Closes the open class, if there is one. -/
def leave (t : ClassTable) : ClassTable := { t with current := none }

end ClassTable

end ClassLang
