import ClassLang.ClassTable.Overload
import ClassLang.Tree.Expr

/-!
# What a program may say about its classes

Uses of types, members and methods against the class table, each with the fault it is if the table
does not bear it out.
-/

namespace ClassLang

/-- A value of type `actual` where just `expected` is required. -/
def requireSame (actual expected : Ty) : Except Failure Unit :=
  if actual = expected then .ok () else (Fault.mustBe actual expected).raise

namespace ClassTable

/-! ### Types -/

/-- A type that is a class has to be declared. -/
def requireDeclared (t : ClassTable) (ty : Ty) : Except Failure Unit :=
  match ty with
  | .cls name => if t.contains name then .ok () else (Fault.unknownType name).raise
  | _ => .ok ()

/-- The type of a field, parameter or local `name`: declared, and not `void`. -/
def requireStorage (t : ClassTable) (ty : Ty) (name : String) : Except Failure Unit :=
  match t.requireDeclared ty with
  | .error e => .error e
  | .ok () => if ty.isVoid then (Fault.voidStorage name).raise else .ok ()

def requireParams (t : ClassTable) : List (Ty × String) → Except Failure Unit
  | [] => .ok ()
  | (ty, name) :: rest =>
    match t.requireStorage ty name with
    | .error e => .error e
    | .ok () => t.requireParams rest

/-- A value of type `actual` where `expected` or a class derived from it is required. -/
def requireFits (t : ClassTable) (actual expected : Ty) : Except Failure Unit :=
  if t.isOrBase expected actual then .ok () else (Fault.mustDeriveFrom actual expected).raise

/-- A type of which objects can be created, as the class it is. -/
def requireInstantiable (t : ClassTable) (ty : Ty) : Except Failure String :=
  match t.requireDeclared ty with
  | .error e => .error e
  | .ok () =>
    match ty with
    | .cls name => .ok name
    | ty => (Fault.notInstantiable ty).raise

/-! ### Members and methods -/

/-- The type of a field of class `cls`, with the class that declares it. -/
def fieldTy (t : ClassTable) (cls member : String) : Except Failure (Ty × String) :=
  match t.findMember? cls member with
  | some ⟨_, owner, .value ty⟩ => .ok (ty, owner)
  | some ⟨_, _, .method _⟩ => (Fault.notAVariable member).raise
  | none =>
    if t.hasMethodNamed cls member then (Fault.notAVariable member).raise
    else (Fault.undeclaredMember cls member).raise

/-- The type of the method of class `cls` with the key of `s`. -/
def methodTy (t : ClassTable) (cls : String) (s : Signature) : Except Failure MethodTy :=
  match t.findMethod? cls s with
  | some found => .ok found.what.methodTy
  | none =>
    if (t.findMember? cls s.name).isSome then (Fault.notAMethod cls s.name).raise
    else (Fault.undeclaredMethod cls s.text).raise

/-- A method together with the class it comes from, seen from class `cls`. -/
def bindMethod (t : ClassTable) (cls : String) (s : Signature) : Except Failure MethodBinding :=
  match t.findMethod? cls s with
  | some found => .ok ⟨found.owner, s⟩
  | none => (Misuse.unresolvedCall (cls ++ "::" ++ s.text)).raise

/-- The method that a call means. If there is none, but a member has its name, the fault is that the
member is no method. -/
def resolveCall (t : ClassTable) (cls name : String) (args : List Ty) : Except Failure Signature :=
  match t.resolveMethod cls name args with
  | .error (.fault (.undeclaredMethod c m) span) =>
    if (t.findMember? cls name).isSome then (Fault.notAMethod cls name).raise
    else .error (.fault (.undeclaredMethod c m) span)
  | r => r

/-- What a call of `name` on an object of class `cls` is bound to. -/
def bindCall (t : ClassTable) (cls name : String) (args : List Ty) :
    Except Failure MethodBinding :=
  match t.resolveCall cls name args with
  | .error e => .error e
  | .ok s => t.bindMethod cls s

/-- What the creation of an object of class `cls` is bound to. -/
def bindConstructor (t : ClassTable) (cls : String) (args : List Ty) :
    Except Failure MethodBinding :=
  match t.resolveConstructor cls args with
  | .error e => .error e
  | .ok s => t.bindMethod cls s

end ClassTable

end ClassLang
