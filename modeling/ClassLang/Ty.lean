/-!
# Types

The types of the language are `void`, `int`, `bool` and the classes. A name stands for a value of
one of them or for a method, which has a type of its own: an `Entity` is either.

Types are ordered `void < int < bool <` classes by name, which orders the overloads of a method.
-/

namespace ClassLang

/-- The type of a value. A class is known here by its name only, declared or not. -/
inductive Ty where
  | void
  | int
  | bool
  | cls (name : String)
deriving DecidableEq

namespace Ty

instance : Inhabited Ty := ⟨void⟩

/-- The type a name denotes in a program: a built-in type by its keyword, otherwise a class. -/
def ofName (name : String) : Ty :=
  if name = "int" then int
  else if name = "bool" then bool
  else if name = "void" then void
  else cls name

/-- The name of a type in a program. -/
def name : Ty → String
  | void => "void"
  | int => "int"
  | bool => "bool"
  | cls name => name

/-- The class a type is, if it is one. -/
def className? : Ty → Option String
  | cls name => some name
  | _ => none

def isClass (t : Ty) : Bool := t.className?.isSome

def isBuiltin (t : Ty) : Bool := !t.isClass

def isVoid (t : Ty) : Bool := t == void

/-- A name is read back from the type it denotes. -/
theorem name_ofName (s : String) : (ofName s).name = s := by
  unfold ofName
  split
  · simp_all [name]
  · split
    · simp_all [name]
    · split <;> simp_all [name]

/-- A type is read back from its name, unless it is a class with the name of a built-in type. -/
theorem ofName_name {t : Ty} (h : ∀ c, t = cls c → c ≠ "int" ∧ c ≠ "bool" ∧ c ≠ "void") :
    ofName t.name = t := by
  cases t with
  | cls c =>
    obtain ⟨hint, hbool, hvoid⟩ := h c rfl
    simp [ofName, name, hint, hbool, hvoid]
  | _ => decide

theorem className?_eq_some {t : Ty} {c : String} : t.className? = some c ↔ t = cls c := by
  cases t <;> simp [className?]

/-- The place of a type's kind in the order; all classes share the last. -/
def rank : Ty → Nat
  | void => 0
  | int => 1
  | bool => 2
  | cls _ => 3

instance : Ord Ty where
  compare
    | cls a, cls b => compare a b
    | a, b => compare a.rank b.rank

/-- Types as they stand in a list of parameters. -/
def listText (ts : List Ty) : String := ",".intercalate (ts.map name)

end Ty

/-- The type of a method: what it returns and what it takes. -/
structure MethodTy where
  ret : Ty
  params : List Ty
deriving DecidableEq

/-- A method type as it is shown to a reader: `int(bool,Dog)`. -/
def MethodTy.text (m : MethodTy) : String := m.ret.name ++ "(" ++ Ty.listText m.params ++ ")"

/-- What a name stands for. -/
inductive Entity where
  | value (ty : Ty)
  | method (ty : MethodTy)
deriving DecidableEq

namespace Entity

def value? : Entity → Option Ty
  | value ty => some ty
  | method _ => none

def method? : Entity → Option MethodTy
  | value _ => none
  | method ty => some ty

def text : Entity → String
  | value ty => ty.name
  | method ty => ty.text

end Entity

end ClassLang
