import ClassLang.ClassTable.Use
import ClassLang.Env

/-!
# What a name means in a method

A bare name is a local if a frame declares it, and otherwise a member of the receiver's class. The
receiver lies in the argument frame under a name of its own, but that name does not count as a
local.
-/

namespace ClassLang

namespace Env

/-- The type of the receiver. -/
def receiver? (env : Env) : Option Ty := (env.scopes.lookup receiverName).bind Entity.value?

def receiver (env : Env) : Except Failure Ty :=
  match env.receiver? with
  | some ty => .ok ty
  | none => (Fault.undeclaredVariable receiverName).raise

/-- The local of that name. -/
def findLocal? (env : Env) (name : String) : Option Entity :=
  if name = receiverName then none else env.scopes.lookup name

/-- The type of a bare name, and where the name was found. -/
def lookupVar (env : Env) (name : String) : Except Failure (Ty × VarBinding) :=
  match env.findLocal? name with
  | some (.value ty) => .ok (ty, .scope)
  | some (.method _) => (Fault.notAVariable name).raise
  | none =>
    match env.receiver?.bind Ty.className? with
    | none => (Fault.undeclaredVariable name).raise
    | some cls =>
      match env.table.fieldTy cls name with
      | .error e => .error e
      | .ok (ty, owner) => .ok (ty, .member owner)

/-- The type of the method of the open class with the key of `s`. -/
def methodTy (env : Env) (s : Signature) : Except Failure MethodTy :=
  match env.currentClass with
  | .error e => .error e
  | .ok c => env.table.methodTy c.name s

/-- The type of the object that a member or method is asked of, and where the object was found;
without an object it is the receiver. -/
def objectTy (env : Env) (object : Option String) : Except Failure (Ty × VarBinding) :=
  let name := object.getD receiverName
  if name = receiverName then
    match env.receiver with
    | .error e => .error e
    | .ok ty => .ok (ty, .scope)
  else env.lookupVar name

/-- The same, for an object that has to be of a class. -/
def objectClass (env : Env) (object : Option String) : Except Failure (String × VarBinding) :=
  match env.objectTy object with
  | .error e => .error e
  | .ok (.cls name, binding) => .ok (name, binding)
  | .ok (ty, _) => (Fault.notAClass (object.getD receiverName) ty).raise

end Env

end ClassLang
