import ClassLang.ClassTable
import ClassLang.Scopes

/-!
# The environment of a check

The class table, the open scopes, and the method whose body is being checked. Classes, methods and
scopes are entered and left in this order:

    class ─ enterMethod ─ (enterScope … leaveScope)* ─ leaveMethod ─ leaveClass

A step out of order is a misuse and says so. A method opens the frame of its arguments, in which the
receiver is declared; nothing keeps `leaveScope` from closing that frame too.
-/

namespace ClassLang

/-- The method whose body is being checked, and its class. -/
structure OpenMethod where
  owner : String
  signature : Signature
deriving DecidableEq

/-- What is known at a point of the check. -/
structure Env where
  table : ClassTable := .empty
  scopes : Scopes := .empty
  method : Option OpenMethod := none
deriving DecidableEq

namespace Env

def empty : Env := {}

instance : Inhabited Env := ⟨empty⟩

/-- A step on the class table. -/
def onTable {α : Type} (step : Step ClassTable α) : Step Env α := fun env =>
  (step env.table).wrap fun table => { env with table }

/-- A step on the scopes. -/
def onScopes {α : Type} (step : Step Scopes α) : Step Env α := fun env =>
  (step env.scopes).wrap fun scopes => { env with scopes }

/-! ### Classes -/

def inClass (env : Env) : Bool := env.table.current?.isSome

def currentClass (env : Env) : Except Failure ClassInfo :=
  match env.table.current? with
  | some c => .ok c
  | none => (Misuse.noCurrentClass "cur_class").raise

def enterClass (name : String) : Step Env Unit := onTable (ClassTable.enter name)

def setParent (parent : String) : Step Env Unit := onTable (ClassTable.setParent parent)

def addField (name : String) (ty : Ty) : Step Env (Option Entity) := onTable (ClassTable.addField name ty)

def addMethod (s : Signature) : Step Env Bool := onTable (ClassTable.addMethod s)

def leaveClass : Step Env Unit := fun env =>
  match env.method with
  | some m => .error (.misuse (.methodStillOpen m.signature.text)) env
  | none =>
    if env.inClass then .ok () { env with table := env.table.leave }
    else .error (.misuse (.noCurrentClass "leave_class")) env

/-! ### Methods -/

def inMethod (env : Env) : Bool := env.method.isSome

def currentMethod (env : Env) : Except Failure OpenMethod :=
  match env.method with
  | some m => .ok m
  | none => (Misuse.noCurrentMethod "cur_method").raise

/-- Enters a method of the open class, and declares it there if it is not yet. -/
def enterMethod (s : Signature) : Step Env Unit := fun env =>
  match env.method with
  | some m => .error (.misuse (.nestedMethod s.text m.signature.text)) env
  | none =>
    (Outcome.ofExcept env.currentClass env).andThen id fun c env =>
    (addMethod s env).andThen id fun _ env =>
    (onScopes (Scopes.declare receiverName (.value c.ty)) { env with scopes := env.scopes.push }).andThen
      id fun _ env =>
    .ok () { env with method := some ⟨c.name, s⟩ }

/-- A step that only the body of a method may take; `operation` names it. -/
def inBody {α : Type} (operation : String) (step : Step Env α) : Step Env α := fun env =>
  if env.inMethod then step env else .error (.misuse (.noCurrentMethod operation)) env

/-- Leaves the method and its innermost frame. -/
def leaveMethod : Step Env Unit :=
  inBody "leave_method" fun env =>
    (onScopes Scopes.pop env).andThen id fun _ env => .ok () { env with method := none }

/-! ### Scopes -/

def enterScope : Step Env Unit :=
  inBody "enter_scope" fun env => .ok () { env with scopes := env.scopes.push }

def leaveScope : Step Env Unit := inBody "leave_scope" (onScopes Scopes.pop)

/-- Declares a name in the innermost frame. -/
def declareLocal (name : String) (e : Entity) : Step Env Unit :=
  inBody "declare_local" fun env =>
    (onScopes (Scopes.declare name e) env).andThen id fun _ env => .ok () env

end Env

end ClassLang
