import ClassLang.Check.Expr
import ClassLang.Tree.Source

/-!
# Checking statements

`Stmt.check s env` checks a statement in an environment and leaves both the tree and the
environment as they then are. A block has a scope of its own; a declaration adds to the innermost
one, after its initial value has been checked. A failure stops the check where it arises: scopes
that are open stay open.
-/

namespace ClassLang

/-- A tree that is checked, next to the environment it is checked in. -/
abbrev Checked (τ : Type) := Outcome (τ × Env) Unit

/-- Checks an expression and then what it is required to be. -/
def Expr.checkThat (env : Env) (e : Expr) (require : Ty → Except Failure Unit) :
    Outcome Expr Unit :=
  (e.check env).andThen id fun ty e => .locate e.span (Outcome.ofExcept (require ty) e)

/-- A condition is a `bool`. -/
def Expr.checkCondition (env : Env) (e : Expr) : Outcome Expr Unit :=
  e.checkThat env fun ty => requireSame ty .bool

/-- A value that has to fit the type `expected`. -/
def Expr.checkFits (env : Env) (expected : Ty) (e : Expr) : Outcome Expr Unit :=
  e.checkThat env fun ty => env.table.requireFits ty expected

/-- A value that can be printed: an `int` or a `bool`. -/
def Expr.checkPrintable (env : Env) (e : Expr) : Outcome Expr Unit :=
  e.checkThat env fun
    | .int | .bool => .ok ()
    | ty => (Fault.notPrintable ty).raise

/-- An assignment to a variable of a value that fits it. -/
def checkAssign (env : Env) (target value : Expr) : Outcome (Expr × Expr) Unit :=
  if target.isVar then
    (target.check env).andThen (fun target => (target, value)) fun expected target =>
    (value.checkFits env expected).wrap fun value => (target, value)
  else .error (.ofFault (.notAssignable target.source)) (target, value)

/-- The initial value of a variable, if it has one. -/
def checkInit (env : Env) (ty : Ty) : Option Expr → Outcome (Option Expr) Unit
  | none => .ok () none
  | some init => (init.checkFits env ty).wrap some

/-- What a method returns: a value that fits its return type, and nothing if that is `void`. -/
def checkReturn (env : Env) (expected : Ty) : Option Expr → Outcome (Option Expr) Unit
  | none => if expected.isVoid then .ok () none else .error (.ofFault (.missingReturn expected)) none
  | some value =>
    if expected.isVoid then .error (.ofFault (.voidReturn value.source)) (some value)
    else (value.checkFits env expected).wrap some

/-- Runs the check of a block's statements in a scope of its own. -/
def checkInScope (body : List Stmt) (env : Env) (run : Env → Checked (List Stmt)) :
    Checked (List Stmt) :=
  (Env.enterScope env).andThen (fun env => (body, env)) fun _ env =>
  (run env).andThen id fun _ (body, env) =>
  (Env.leaveScope env).wrap fun env => (body, env)

mutual

def Stmt.check : Stmt → Env → Checked Stmt
  | .block s body, env =>
    .locate s <|
    (checkInScope body env fun env => Stmt.checkList body env).wrap fun (body, env) =>
    (.block s body, env)
  | .ifThen s c t, env =>
    .locate s <|
    (c.checkCondition env).andThen (fun c => (.ifThen s c t, env)) fun _ c =>
    (checkInScope t env fun env => Stmt.checkList t env).wrap fun (t, env) =>
    (.ifThen s c t, env)
  | .ifElse s c t f, env =>
    .locate s <|
    (c.checkCondition env).andThen (fun c => (.ifElse s c t f, env)) fun _ c =>
    (checkInScope t env fun env => Stmt.checkList t env).andThen
      (fun (t, env) => (.ifElse s c t f, env)) fun _ (t, env) =>
    (checkInScope f env fun env => Stmt.checkList f env).wrap fun (f, env) =>
    (.ifElse s c t f, env)
  | .loop s c body, env =>
    .locate s <|
    (c.checkCondition env).andThen (fun c => (.loop s c body, env)) fun _ c =>
    (checkInScope body env fun env => Stmt.checkList body env).wrap fun (body, env) =>
    (.loop s c body, env)
  | .assign s target value, env =>
    .locate s <|
    (checkAssign env target value).wrap fun (target, value) => (.assign s target value, env)
  | .declare s ty name init, env =>
    .locate s <|
    (Outcome.ofExcept (env.table.requireStorage ty name) (Stmt.declare s ty name init, env)).andThen
      id fun _ _ =>
    (checkInit env ty init).andThen (fun init => (.declare s ty name init, env)) fun _ init =>
    (Env.declareLocal name (.value ty) env).wrap fun env => (.declare s ty name init, env)
  | .ret s value, env =>
    .locate s <|
    (Outcome.ofExcept env.currentMethod (Stmt.ret s value, env)).andThen id fun m _ =>
    (checkReturn env m.signature.ret value).wrap fun value => (.ret s value, env)
  | .print s value, env =>
    .locate s <| (value.checkPrintable env).wrap fun value => (.print s value, env)
  | .eval s value, env =>
    .locate s <|
    (value.check env).andThen (fun value => (.eval s value, env)) fun _ value =>
    .ok () (.eval s value, env)

def Stmt.checkList : List Stmt → Env → Checked (List Stmt)
  | [], env => .ok () ([], env)
  | s :: rest, env =>
    (s.check env).andThen (fun (s, env) => (s :: rest, env)) fun _ (s, env) =>
    (Stmt.checkList rest env).wrap fun (rest, env) => (s :: rest, env)

end

/-- Checks a block: its statements, in a scope of its own. -/
def Stmt.checkBlock (body : List Stmt) (env : Env) : Checked (List Stmt) :=
  checkInScope body env fun env => Stmt.checkList body env

end ClassLang
