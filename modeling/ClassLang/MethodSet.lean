import ClassLang.Signature.Order

/-!
# Sets of methods

The methods of a class, one for each key, in the order of signatures. A signature whose key is
already there is not put in: the first one stays, with its return type.
-/

namespace ClassLang

/-- Methods in strictly increasing order. -/
structure MethodSet where
  toList : List Signature
  sorted : Signature.Increasing toList
deriving DecidableEq

namespace MethodSet

def empty : MethodSet := ⟨[], List.Pairwise.nil⟩

instance : Inhabited MethodSet := ⟨empty⟩

/-- The method with the key of `s`. -/
def find? (m : MethodSet) (s : Signature) : Option Signature := m.toList.find? (·.sameKey s)

def contains (m : MethodSet) (s : Signature) : Bool := (m.find? s).isSome

/-- The set with `s` in its place, unless its key is there already. -/
def insert (m : MethodSet) (s : Signature) : MethodSet :=
  ⟨s.insertSorted m.toList, Signature.increasing_insertSorted m.sorted⟩

/-- The methods of one name, in order. -/
def overloads (m : MethodSet) (name : String) : List Signature := m.toList.filter (·.name == name)

def hasName (m : MethodSet) (name : String) : Bool := !(m.overloads name).isEmpty

end MethodSet

end ClassLang
