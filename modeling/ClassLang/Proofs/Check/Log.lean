import ClassLang.Compile
import ClassLang.Proofs.Outcome

/-!
# The log of a check

A check moves its environment and fills the slots of expressions with their types, in turns.
`Program.log` lists both in their order, as far as the check gets. The environments in it are the
points that the check comes to (`Program.points`).
-/

namespace ClassLang

open Outcome

variable {σ τ α : Type}

/-- What a check does: it moves its environment, or fills in the type of an expression. -/
inductive Event where
  | moved (env : Env)
  | typed (ty : Ty)

namespace Event

def env? : Event → Option Env
  | moved env => some env
  | typed _ => none

def ty? : Event → Option Ty
  | moved _ => none
  | typed ty => some ty

end Event

/-- The environments of a log. -/
def envsOf (l : List Event) : List Env := l.filterMap Event.env?

/-- The types of a log. -/
def typesOf (l : List Event) : List Ty := l.filterMap Event.ty?

/-! ### Expressions -/

mutual

/-- The types that the check of an expression fills in. -/
def Expr.log (env : Env) : Expr → List Ty
  | .number .. => [.int]
  | .bool .. => [.bool]
  | .this _ => (Outcome.ofExcept env.receiver env).onOk fun ty _ => [ty]
  | .var _ object name _ _ =>
    (Outcome.ofExcept (env.useVar object name) env).onOk fun (ty, _) _ => [ty]
  | .binary _ op l r =>
    l.log env ++ (l.check env).onOk fun lty _ =>
    r.log env ++ (r.check env).onOk fun rty _ =>
    (Outcome.ofExcept (ruleType (op.key lty rty)) env).onOk fun ty _ => [ty]
  | .unary _ op x =>
    x.log env ++ (x.check env).onOk fun xty _ =>
    (Outcome.ofExcept (ruleType (op.key xty)) env).onOk fun ty _ => [ty]
  | .call _ object name args _ _ =>
    (Outcome.ofExcept (env.objectClass object) env).onOk fun (cls, _) _ =>
    Expr.logList env args ++ (Expr.checkList env args).onOk fun tys _ =>
    (Outcome.ofExcept (env.table.bindCall cls name tys) env).onOk fun target _ =>
    [target.method.ret]
  | .create _ cls args _ =>
    (Outcome.ofExcept (env.table.requireInstantiable (.ofName cls)) env).onOk fun name _ =>
    Expr.logList env args ++ (Expr.checkList env args).onOk fun tys _ =>
    (Outcome.ofExcept (env.table.bindConstructor name tys) env).onOk fun _ _ => [.cls name]

def Expr.logList (env : Env) : List Expr → List Ty
  | [] => []
  | e :: rest => e.log env ++ (e.check env).onOk fun _ _ => Expr.logList env rest

end

def Expr.events (env : Env) (e : Expr) : List Event := (e.log env).map .typed

def Expr.eventsOption (env : Env) (e : Option Expr) : List Event :=
  e.toList.flatMap (Expr.events env)

/-! ### Statements -/

/-- The log of a block, from that of its statements. -/
def logInScope (env : Env) (run : Env → Checked (List Stmt)) (log : Env → List Event) :
    List Event :=
  .moved (Env.enterScope env).state :: (Env.enterScope env).onOk fun _ env =>
    log env ++ (run env).onOk fun _ r => [.moved (Env.leaveScope r.2).state]

/-- The log of an assignment. -/
def logAssign (env : Env) (target value : Expr) : List Event :=
  if target.isVar then
    target.events env ++ (target.check env).onOk fun _ _ => value.events env
  else []

/-- The log of what a method returns. Where nothing may be returned, the value is not looked at. -/
def logReturn (env : Env) (expected : Ty) (value : Option Expr) : List Event :=
  if expected.isVoid then [] else Expr.eventsOption env value

mutual

/-- What the check of a statement does. -/
def Stmt.log : Stmt → Env → List Event
  | .block _ body, env => logInScope env (Stmt.checkList body) (Stmt.logList body)
  | .ifThen _ c t, env =>
    c.events env ++ (c.checkCondition env).onOk fun _ _ =>
    logInScope env (Stmt.checkList t) (Stmt.logList t)
  | .ifElse _ c t f, env =>
    c.events env ++ (c.checkCondition env).onOk fun _ _ =>
    logInScope env (Stmt.checkList t) (Stmt.logList t) ++
      (checkInScope t env (Stmt.checkList t)).onOk fun _ r =>
      logInScope r.2 (Stmt.checkList f) (Stmt.logList f)
  | .loop _ c body, env =>
    c.events env ++ (c.checkCondition env).onOk fun _ _ =>
    logInScope env (Stmt.checkList body) (Stmt.logList body)
  | .assign _ target value, env => logAssign env target value
  | .declare _ ty name init, env =>
    (Outcome.ofExcept (env.table.requireStorage ty name) env).onOk fun _ _ =>
    Expr.eventsOption env init ++ (checkInit env ty init).onOk fun _ _ =>
    [.moved (Env.declareLocal name (.value ty) env).state]
  | .ret _ value, env =>
    (Outcome.ofExcept env.currentMethod env).onOk fun m _ => logReturn env m.signature.ret value
  | .print _ value, env => value.events env
  | .eval _ value, env => value.events env

def Stmt.logList : List Stmt → Env → List Event
  | [], _ => []
  | s :: rest, env => s.log env ++ (s.check env).onOk fun _ r => Stmt.logList rest r.2

end

/-! ### Classes -/

/-- The log of a list that is checked from front to back. -/
def logEach (check : τ → Env → Checked τ) (log : τ → Env → List Event) : List τ → Env → List Event
  | [], _ => []
  | x :: rest, env => log x env ++ (check x env).onOk fun _ r => logEach check log rest r.2

/-- The log of declaring a member. -/
def Member.declareLog (cls : String) (env : Env) : Member → List Event
  | .field _ ty name =>
    (Outcome.ofExcept (env.table.requireStorage ty name) env).onOk fun _ _ =>
    [.moved (Env.addField name ty env).state]
  | .method ret name r =>
    (Outcome.ofExcept (env.table.requireDeclared ret) env).onOk fun _ _ =>
    (Outcome.ofExcept (r.requireParams env.table) env).onOk fun _ _ =>
    [.moved (Env.addMethod ⟨name, r.paramTypes, ret⟩ env).state]
  | .constructor r =>
    (Outcome.ofExcept (r.requireParams env.table) env).onOk fun _ _ =>
    [.moved (Env.addMethod (.ofConstructor cls r.paramTypes) env).state]

def Member.declareListLog (cls : String) (replaced : Bool) : List Member → Env → List Event
  | [], _ => []
  | m :: rest, env =>
    m.declareLog cls env ++ (m.declare cls replaced env).onOk fun replaced r =>
    Member.declareListLog cls replaced rest r.2

/-- The log of declaring parameters. -/
def paramLog : List Param → Env → List Event
  | [], _ => []
  | q :: rest, env =>
    .moved (Env.declareLocal q.name (.value q.ty) env).state ::
      (Env.declareLocal q.name (.value q.ty) env).onOk fun _ env => paramLog rest env

/-- The log of checking a body under signature `s`. -/
def Routine.bodyLog (r : Routine) (s : Signature) (env : Env) : List Event :=
  .moved (Env.enterMethod s env).state :: (Env.enterMethod s env).onOk fun _ env =>
    paramLog r.params env ++ (declareParams r.params env).onOk fun _ env =>
    Stmt.logList r.body env ++ (Stmt.checkList r.body env).onOk fun _ b =>
    [.moved (Env.leaveMethod b.2).state]

def Routine.log (r : Routine) (name : String) (env : Env) : List Event :=
  (Outcome.ofExcept (r.declaredSignature name env) env).onOk fun s _ => r.bodyLog s env

def Member.log (m : Member) (env : Env) : List Event :=
  match m with
  | .field .. => []
  | .method _ name r => r.log name env
  | .constructor r => r.log constructorName env

/-- The log of tying a class to its parent. -/
def tieLog : Option String → Env → List Event
  | none, _ => []
  | some q, env => if env.table.contains q then [.moved (Env.setParent q env).state] else []

/-- What the check of a class does. Types are filled in while its bodies are checked. -/
def ClassDecl.log (c : ClassDecl) (env : Env) : List Event :=
  .moved (Env.enterClass c.name env).state :: (Env.enterClass c.name env).onOk fun _ env =>
    tieLog c.parent env ++ (tieParent c.parent env).onOk fun _ env =>
    Member.declareListLog c.name false c.members env ++
      (Member.declareList c.name false c.members env).onOk fun _ r =>
    logEach Member.checkBody Member.log r.1 r.2 ++
      (checkEach Member.checkBody r.1 r.2).onOk fun _ r =>
    [.moved (Env.leaveClass r.2).state]

/-- What the check of a program does, from the empty environment on. -/
def Program.log (p : Program) : List Event := logEach ClassDecl.check ClassDecl.log p.classes .empty

/-- The environments that the check of a program comes to, the first of them the empty one. -/
def Program.points (p : Program) : List Env := .empty :: envsOf p.log

end ClassLang
