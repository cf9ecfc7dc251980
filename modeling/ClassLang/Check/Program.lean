import ClassLang.Check.Stmt

/-!
# Checking classes and programs

A class is entered, tied to its parent, and checked in two passes: the first declares all fields and
signatures, the second checks the bodies, which can so refer to members declared after them. The
class itself counts as declared from the start, also where its parent is looked for.

The first constructor without parameters takes the place of the one that every class starts out
with; any other signature declared twice is a fault.
-/

namespace ClassLang

/-- Checks a list from front to back, up to the first failure. -/
def checkEach {τ : Type} (check : τ → Env → Checked τ) : List τ → Env → Checked (List τ)
  | [], env => .ok () ([], env)
  | x :: rest, env =>
    (check x env).andThen (fun (x, env) => (x :: rest, env)) fun _ (x, env) =>
    (checkEach check rest env).wrap fun (rest, env) => (x :: rest, env)

/-- The parameters are types that can be stored. -/
def Routine.requireParams (r : Routine) (t : ClassTable) : Except Failure Unit :=
  t.requireParams (r.params.map fun p => (p.ty, p.name))

/-! ### Declaring the members -/

/-- Declares a field. One that replaces another has replaced it also when this is reported. -/
def declareField (cls : String) (span : Span) (ty : Ty) (name : String) (env : Env) :
    Outcome Env Unit :=
  .locate span <|
  (Outcome.ofExcept (env.table.requireStorage ty name) env).andThen id fun _ env =>
  (Env.addField name ty env).andThen id fun replaced env =>
  if replaced.isSome then .error (.ofFault (.duplicateMember cls name)) env else .ok () env

/-- Declares the signature of a method or constructor, and records it in the tree. `mayReplace`
allows for one of its key that is there already. -/
def Routine.declare (r : Routine) (cls : String) (s : Signature) (mayReplace : Bool) (env : Env) :
    Checked Routine :=
  (Env.addMethod s env).andThen (fun env => (r, env)) fun isNew env =>
  if isNew || mayReplace then .ok () ({ r with signature := .filled s }, env)
  else .error (.ofFault (.duplicateMethod cls s.text)) (r, env)

/-- Declares a member of class `cls`. `replaced` says whether a constructor has already taken the
place of the one the class started out with; the answer says the same for the next member. -/
def Member.declare (cls : String) (replaced : Bool) (env : Env) :
    Member → Outcome (Member × Env) Bool
  | .field span ty name =>
    (declareField cls span ty name env).andThen (fun env => (.field span ty name, env))
      fun _ env => .ok replaced (.field span ty name, env)
  | .method ret name r =>
    .locate r.span <|
    (Outcome.ofExcept (env.table.requireDeclared ret) (Member.method ret name r, env)).andThen id
      fun _ _ =>
    (Outcome.ofExcept (r.requireParams env.table) (Member.method ret name r, env)).andThen id
      fun _ _ =>
    (r.declare cls ⟨name, r.paramTypes, ret⟩ false env).andThen
      (fun (r, env) => (.method ret name r, env)) fun _ (r, env) =>
    .ok replaced (.method ret name r, env)
  | .constructor r =>
    .locate r.span <|
    (Outcome.ofExcept (r.requireParams env.table) (Member.constructor r, env)).andThen id
      fun _ _ =>
    (r.declare cls (.ofConstructor cls r.paramTypes) (r.params.isEmpty && !replaced) env).andThen
      (fun (r, env) => (.constructor r, env)) fun _ (r, env) =>
    .ok (replaced || r.params.isEmpty) (.constructor r, env)

/-- Declares the members of class `cls` in their order. -/
def Member.declareList (cls : String) (replaced : Bool) :
    List Member → Env → Checked (List Member)
  | [], env => .ok () ([], env)
  | m :: rest, env =>
    (m.declare cls replaced env).andThen (fun (m, env) => (m :: rest, env))
      fun replaced (m, env) =>
    (Member.declareList cls replaced rest env).wrap fun (rest, env) => (m :: rest, env)

/-! ### Checking the bodies -/

/-- Declares the parameters in the argument frame. -/
def declareParams : List Param → Step Env Unit
  | [], env => .ok () env
  | p :: rest, env =>
    (Env.declareLocal p.name (.value p.ty) env).andThen id fun _ env => declareParams rest env

/-- Checks the statements of a method or constructor with signature `s`. They share the frame of the
arguments. -/
def Routine.checkBody (r : Routine) (s : Signature) (env : Env) : Checked Routine :=
  (Env.enterMethod s env).andThen (fun env => (r, env)) fun _ env =>
  (declareParams r.params env).andThen (fun env => (r, env)) fun _ env =>
  (Outcome.locate r.span (Stmt.checkList r.body env)).andThen
    (fun (body, env) => ({ r with body }, env)) fun _ (body, env) =>
  (Env.leaveMethod env).wrap fun env => ({ r with body }, env)

/-- The signature that the first pass has recorded for the method or constructor called `name`. -/
def Routine.declaredSignature (r : Routine) (name : String) (env : Env) : Except Failure Signature :=
  match r.signature with
  | .filled s => .ok s
  | .empty =>
    match env.currentClass with
    | .error e => .error e
    | .ok c => (Misuse.unresolvedSignature c.name name).raise

/-- Checks a method or constructor called `name` under the signature recorded for it. -/
def Routine.check (r : Routine) (name : String) (env : Env) : Checked Routine :=
  (Outcome.ofExcept (r.declaredSignature name env) (r, env)).andThen id fun s _ =>
  r.checkBody s env

/-- Checks the body of a member that has one. -/
def Member.checkBody (m : Member) (env : Env) : Checked Member :=
  match m with
  | .field span ty name => .ok () (.field span ty name, env)
  | .method ret name r => (r.check name env).wrap fun (r, env) => (.method ret name r, env)
  | .constructor r =>
    (r.check constructorName env).wrap fun (r, env) => (.constructor r, env)

/-! ### Classes and programs -/

/-- Ties the open class to its parent, which has to be declared. -/
def tieParent : Option String → Step Env Unit
  | none, env => .ok () env
  | some parent, env =>
    if env.table.contains parent then Env.setParent parent env
    else .error (.ofFault (.unknownType parent)) env

def ClassDecl.check (c : ClassDecl) (env : Env) : Checked ClassDecl :=
  (Outcome.locate c.span (Env.enterClass c.name env)).andThen (fun env => (c, env)) fun _ env =>
  (Outcome.locate c.span (tieParent c.parent env)).andThen (fun env => (c, env)) fun _ env =>
  (Member.declareList c.name false c.members env).andThen
    (fun (members, env) => ({ c with members }, env)) fun _ (members, env) =>
  (checkEach Member.checkBody members env).andThen
    (fun (members, env) => ({ c with members }, env)) fun _ (members, env) =>
  (Env.leaveClass env).wrap fun env => ({ c with members }, env)

/-- Checks the classes of a program in their order. -/
def Program.check (p : Program) (env : Env) : Checked Program :=
  (checkEach ClassDecl.check p.classes env).wrap fun (classes, env) => (⟨classes⟩, env)

end ClassLang
