import ClassLang.Reserved
import ClassLang.Ty

/-!
# Signatures

A signature is a method's name with its type. Two methods of a class are the same overload when
name and parameter types agree, whatever they return: that pair is the signature's key, and
comparing and ordering signatures looks at nothing else. So a call, which knows its argument types
only, can be looked up among declarations. Operators are named the same way.
-/

namespace ClassLang

/-- A method's name, parameter types and return type. -/
structure Signature where
  name : String
  params : List Ty
  ret : Ty
deriving DecidableEq

namespace Signature

/-- What is looked up by name and argument types; its return type does not matter. -/
def ofKey (name : String) (params : List Ty) : Signature := ⟨name, params, .void⟩

/-- The constructor of class `cls` that takes `params`. -/
def ofConstructor (cls : String) (params : List Ty) : Signature :=
  ⟨constructorName, params, .cls cls⟩

def methodTy (s : Signature) : MethodTy := ⟨s.ret, s.params⟩

/-- Name and parameter types agree: both name the same overload. -/
def sameKey (s t : Signature) : Bool := s.name == t.name && s.params == t.params

/-- By name, then by parameter types; the return type does not take part. -/
instance : Ord Signature where
  compare s t := (compare s.name t.name).then (compare s.params t.params)

/-- A signature as it is shown to a reader: `bark(int,Dog)`. -/
def text (s : Signature) : String := s.name ++ "(" ++ Ty.listText s.params ++ ")"

theorem sameKey_iff {s t : Signature} :
    s.sameKey t = true ↔ s.name = t.name ∧ s.params = t.params := by
  simp [sameKey]

@[simp] theorem sameKey_self (s : Signature) : s.sameKey s = true := by simp [sameKey]

end Signature

end ClassLang
