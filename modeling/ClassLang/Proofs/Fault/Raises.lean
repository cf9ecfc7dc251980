import ClassLang.Compile
import ClassLang.Proofs.Check.Signed

/-!
# Where a fault arises

A fault arises at one node of the tree. `Program.Raises f path` says that the check of a program comes
to a node, that the fault `f` arises there, and that `path` leads from this node outward through the
expressions and statements around it to the method or constructor. It says nothing of places: what is
reported is read off the path alone (`Node.reported`).

Which node it is depends on the rule that is broken:

* an expression whose own rule fails, after its parts have been given types (`Expr.Fails`);
* an expression that has a type, but not one its statement can use (`Expr.Refused`);
* a statement, for a declared type, a target of an assignment or the form of a return
  (`Stmt.Fails`);
* a member whose declaration is refused (`Member.Fails`);
* a class that is declared already, or whose parent is not (`ClassDecl.Raises`).
-/

namespace ClassLang

/-! ### Paths and places -/

/-- A node of the tree that has a place. -/
inductive Node
  | expr (e : Expr)
  | stmt (s : Stmt)
  | member (m : Member)
  | decl (c : ClassDecl)

def Member.span : Member → Span
  | .field span .. => span
  | .method _ _ r => r.span
  | .constructor r => r.span

namespace Node

def span : Node → Span
  | expr e => e.span
  | stmt s => s.span
  | member m => m.span
  | decl c => c.span

/-- The place that is reported for a path, innermost node first: the first that is known, and that of
the outermost node if none is. -/
def reported (path : List Node) : Span :=
  ((path.map span).find? (!·.isUnknown)).getD ((path.map span).getLastD .unknown)

end Node

/-- One after the other, from the state `s`: all before `x` pass, each leaving the state for the
next, and `x` is come to in the state `s'`. -/
inductive Reached {σ τ : Type} (passes : σ → τ → σ → Prop) : σ → List τ → σ → τ → Prop
  | first {s : σ} {x : τ} {rest : List τ} : Reached passes s (x :: rest) s x
  | next {s s₁ s' : σ} {y x : τ} {rest : List τ} (hy : passes s y s₁)
    (h : Reached passes s₁ rest s' x) : Reached passes s (y :: rest) s' x

/-! ### Expressions -/

namespace Expr

/-- The expression is found to have the type. -/
def Checks (env : Env) (e : Expr) (ty : Ty) : Prop := ∃ e', e.check env = .ok ty e'

def AllCheck (env : Env) (es : List Expr) (tys : List Ty) : Prop :=
  ∃ es', checkList env es = .ok tys es'

/-- The arguments are checked up to `x`. -/
def ArgReached (env : Env) (args : List Expr) (x : Expr) : Prop :=
  Reached (fun _ y _ => ∃ ty, y.Checks env ty) () args () x

/-- The rule of the expression itself fails. -/
inductive Fails (env : Env) : Expr → Fault → Prop
  | this {m : Mark} {f : Fault} (h : env.receiver = f.raise) : Fails env (.this m) f
  | var {m : Mark} {o : Option String} {x : String} {b ob : Slot VarBinding} {f : Fault}
    (h : env.useVar o x = f.raise) : Fails env (.var m o x b ob) f
  | binary {m : Mark} {op : BinOp} {l r : Expr} {lty rty : Ty} {f : Fault} (hl : l.Checks env lty)
    (hr : r.Checks env rty) (h : ruleType (op.key lty rty) = f.raise) : Fails env (.binary m op l r) f
  | unary {m : Mark} {op : UnOp} {x : Expr} {ty : Ty} {f : Fault} (hx : x.Checks env ty)
    (h : ruleType (op.key ty) = f.raise) : Fails env (.unary m op x) f
  | object {m : Mark} {o : Option String} {name : String} {args : List Expr}
    {b : Slot MethodBinding} {ob : Slot VarBinding} {f : Fault} (h : env.objectClass o = f.raise) :
    Fails env (.call m o name args b ob) f
  | call {m : Mark} {o : Option String} {name : String} {args : List Expr}
    {b : Slot MethodBinding} {ob : Slot VarBinding} {found : String × VarBinding} {tys : List Ty}
    {f : Fault} (ho : env.objectClass o = .ok found) (hargs : AllCheck env args tys)
    (h : env.table.bindCall found.1 name tys = f.raise) : Fails env (.call m o name args b ob) f
  | cls {m : Mark} {c : String} {args : List Expr} {b : Slot MethodBinding} {f : Fault}
    (h : env.table.requireInstantiable (.ofName c) = f.raise) : Fails env (.create m c args b) f
  | create {m : Mark} {c name : String} {args : List Expr} {b : Slot MethodBinding}
    {tys : List Ty} {f : Fault} (hc : env.table.requireInstantiable (.ofName c) = .ok name)
    (hargs : AllCheck env args tys) (h : env.table.bindConstructor name tys = f.raise) :
    Fails env (.create m c args b) f

/-- The check of an expression comes to a part of it. -/
inductive Enters (env : Env) : Expr → Expr → Prop
  | left {m : Mark} {op : BinOp} {l r : Expr} : Enters env (.binary m op l r) l
  | right {m : Mark} {op : BinOp} {l r : Expr} {ty : Ty} (hl : l.Checks env ty) :
    Enters env (.binary m op l r) r
  | operand {m : Mark} {op : UnOp} {x : Expr} : Enters env (.unary m op x) x
  | call {m : Mark} {o : Option String} {name : String} {args : List Expr}
    {b : Slot MethodBinding} {ob : Slot VarBinding} {found : String × VarBinding} {x : Expr}
    (ho : env.objectClass o = .ok found) (hx : ArgReached env args x) :
    Enters env (.call m o name args b ob) x
  | create {m : Mark} {c name : String} {args : List Expr} {b : Slot MethodBinding} {x : Expr}
    (hc : env.table.requireInstantiable (.ofName c) = .ok name) (hx : ArgReached env args x) :
    Enters env (.create m c args b) x

/-- The fault arises at the expression or at a part of it. -/
inductive Raises (env : Env) : Expr → Fault → List Node → Prop
  | here {e : Expr} {f : Fault} (h : e.Fails env f) : Raises env e f [.expr e]
  | inner {e x : Expr} {f : Fault} {path : List Node} (hx : e.Enters env x)
    (h : x.Raises env f path) : Raises env e f (path ++ [.expr e])

/-- The fault arises in the expression, or else it is that its type does not meet what is
required. -/
inductive Refused (env : Env) (require : Ty → Except Failure Unit) (e : Expr) :
    Fault → List Node → Prop
  | raised {f : Fault} {path : List Node} (h : e.Raises env f path) : Refused env require e f path
  | unmet {ty : Ty} {f : Fault} (hty : e.Checks env ty) (h : require ty = f.raise) :
    Refused env require e f [.expr e]

end Expr

/-! ### Statements -/

/-- What can be printed. -/
def requirePrintable : Ty → Except Failure Unit
  | .int | .bool => .ok ()
  | ty => (Fault.notPrintable ty).raise

namespace Stmt

/-- The check of the statement comes to its end, and leaves the environment `env'`. -/
def Passes (env : Env) (s : Stmt) (env' : Env) : Prop := ∃ s', s.check env = .ok () (s', env')

/-- The rule of the statement itself fails. -/
inductive Fails (env : Env) : Stmt → Fault → Prop
  | target {s : Span} {target value : Expr} (h : target.isVar = false) :
    Fails env (.assign s target value) (.notAssignable target.source)
  | storage {s : Span} {ty : Ty} {x : String} {init : Option Expr} {f : Fault}
    (h : env.table.requireStorage ty x = f.raise) : Fails env (.declare s ty x init) f
  | missing {s : Span} {m : OpenMethod} (hm : env.currentMethod = .ok m)
    (h : m.signature.ret.isVoid = false) : Fails env (.ret s none) (.missingReturn m.signature.ret)
  | void {s : Span} {value : Expr} {m : OpenMethod} (hm : env.currentMethod = .ok m)
    (h : m.signature.ret.isVoid = true) : Fails env (.ret s (some value)) (.voidReturn value.source)

/-- The check of a statement comes to an expression of it, and requires this of its type. -/
inductive Reads (env : Env) : Stmt → Expr → (Ty → Except Failure Unit) → Prop
  | ifThen {s : Span} {c : Expr} {t : List Stmt} :
    Reads env (.ifThen s c t) c fun ty => requireSame ty .bool
  | ifElse {s : Span} {c : Expr} {t f : List Stmt} :
    Reads env (.ifElse s c t f) c fun ty => requireSame ty .bool
  | loop {s : Span} {c : Expr} {body : List Stmt} :
    Reads env (.loop s c body) c fun ty => requireSame ty .bool
  | target {s : Span} {target value : Expr} (hvar : target.isVar = true) :
    Reads env (.assign s target value) target fun _ => .ok ()
  | assign {s : Span} {target value : Expr} {expected : Ty} (hvar : target.isVar = true)
    (ht : target.Checks env expected) :
    Reads env (.assign s target value) value fun ty => env.table.requireFits ty expected
  | init {s : Span} {expected : Ty} {x : String} {value : Expr}
    (hty : env.table.requireStorage expected x = .ok ()) :
    Reads env (.declare s expected x (some value)) value
      fun ty => env.table.requireFits ty expected
  | ret {s : Span} {value : Expr} {m : OpenMethod} (hm : env.currentMethod = .ok m)
    (hret : m.signature.ret.isVoid = false) :
    Reads env (.ret s (some value)) value fun ty => env.table.requireFits ty m.signature.ret
  | print {s : Span} {value : Expr} : Reads env (.print s value) value requirePrintable
  | eval {s : Span} {value : Expr} : Reads env (.eval s value) value fun _ => .ok ()

/-- The check of a statement comes to a block of it. -/
inductive Opens (env : Env) : Stmt → List Stmt → Prop
  | block {s : Span} {body : List Stmt} : Opens env (.block s body) body
  | ifThen {s : Span} {c : Expr} {t : List Stmt} (hc : c.Checks env .bool) :
    Opens env (.ifThen s c t) t
  | body {s : Span} {c : Expr} {t f : List Stmt} (hc : c.Checks env .bool) :
    Opens env (.ifElse s c t f) t
  | alternative {s : Span} {c : Expr} {t t' f : List Stmt} (hc : c.Checks env .bool)
    (ht : Stmt.checkBlock t env = .ok () (t', env)) : Opens env (.ifElse s c t f) f
  | loop {s : Span} {c : Expr} {body : List Stmt} (hc : c.Checks env .bool) :
    Opens env (.loop s c body) body

/-- The fault arises at the statement, at an expression of it or in a block of it. -/
inductive Raises : Env → Stmt → Fault → List Node → Prop
  | here {env : Env} {s : Stmt} {f : Fault} (h : s.Fails env f) : Raises env s f [.stmt s]
  | value {env : Env} {s : Stmt} {e : Expr} {require : Ty → Except Failure Unit} {f : Fault}
    {path : List Node} (he : s.Reads env e require) (h : e.Refused env require f path) :
    Raises env s f (path ++ [.stmt s])
  | inner {env env₁ env' : Env} {s x : Stmt} {body : List Stmt} {f : Fault} {path : List Node}
    (hbody : s.Opens env body) (hopen : Env.enterScope env = .ok () env₁)
    (hx : Reached Passes env₁ body env' x) (h : Raises env' x f path) :
    Raises env s f (path ++ [.stmt s])

end Stmt

/-! ### Members -/

/-- The fault arises at one of the statements, or in it. -/
def Stmt.SomeRaises (env : Env) (ss : List Stmt) (f : Fault) (path : List Node) : Prop :=
  ∃ env' s, Reached Stmt.Passes env ss env' s ∧ s.Raises env' f path

/-- The fault arises in the statements of a method or constructor with signature `s`. -/
def Routine.Raises (env : Env) (s : Signature) (r : Routine) (f : Fault) (path : List Node) : Prop :=
  ∃ env₁ env₂, Env.enterMethod s env = .ok () env₁ ∧ declareParams r.params env₁ = .ok () env₂ ∧
    Stmt.SomeRaises env₂ r.body f path

namespace Member

/-- The member is declared. The states are the environment and whether a constructor has taken the
place of the one the class started out with. -/
def Declares (cls : String) (s : Bool × Env) (m : Member) (s' : Bool × Env) : Prop :=
  ∃ m', m.declare cls s.1 s.2 = .ok s'.1 (m', s'.2)

/-- The body of the member, once it has been declared, is accepted. -/
def Passes (cls : String) (env : Env) (m : Member) (env' : Env) : Prop :=
  ∃ m', (m.declared cls).checkBody env = .ok () (m', env')

/-- The declaration of the member is refused: for its types, or because there is one like it. -/
inductive Fails (cls : String) : Bool × Env → Member → Fault → Prop
  | fieldType {replaced : Bool} {env : Env} {s : Span} {ty : Ty} {x : String} {f : Fault}
    (h : env.table.requireStorage ty x = f.raise) : Fails cls (replaced, env) (.field s ty x) f
  | field {replaced : Bool} {env env' : Env} {s : Span} {ty : Ty} {x : String} {old : Entity}
    (hty : env.table.requireStorage ty x = .ok ()) (h : Env.addField x ty env = .ok (some old) env') :
    Fails cls (replaced, env) (.field s ty x) (.duplicateMember cls x)
  | ret {replaced : Bool} {env : Env} {ret : Ty} {name : String} {r : Routine} {f : Fault}
    (h : env.table.requireDeclared ret = f.raise) : Fails cls (replaced, env) (.method ret name r) f
  | methodParams {replaced : Bool} {env : Env} {ret : Ty} {name : String} {r : Routine} {f : Fault}
    (hret : env.table.requireDeclared ret = .ok ()) (h : r.requireParams env.table = f.raise) :
    Fails cls (replaced, env) (.method ret name r) f
  | method {replaced : Bool} {env env' : Env} {ret : Ty} {name : String} {r : Routine}
    (hret : env.table.requireDeclared ret = .ok ()) (hparams : r.requireParams env.table = .ok ())
    (h : Env.addMethod ⟨name, r.paramTypes, ret⟩ env = .ok false env') :
    Fails cls (replaced, env) (.method ret name r)
      (.duplicateMethod cls (Signature.text ⟨name, r.paramTypes, ret⟩))
  | params {replaced : Bool} {env : Env} {r : Routine} {f : Fault}
    (h : r.requireParams env.table = f.raise) : Fails cls (replaced, env) (.constructor r) f
  | constructor {replaced : Bool} {env env' : Env} {r : Routine}
    (hparams : r.requireParams env.table = .ok ())
    (h : Env.addMethod (.ofConstructor cls r.paramTypes) env = .ok false env')
    (hlate : (r.params.isEmpty && !replaced) = false) :
    Fails cls (replaced, env) (.constructor r)
      (.duplicateMethod cls (Signature.ofConstructor cls r.paramTypes).text)

/-- The fault arises in the body of the member. -/
inductive Raises (cls : String) (env : Env) : Member → Fault → List Node → Prop
  | method {ret : Ty} {name : String} {r : Routine} {f : Fault} {path : List Node}
    (h : r.Raises env ⟨name, r.paramTypes, ret⟩ f path) :
    Raises cls env (.method ret name r) f (path ++ [.member (.method ret name r)])
  | constructor {r : Routine} {f : Fault} {path : List Node}
    (h : r.Raises env (.ofConstructor cls r.paramTypes) f path) :
    Raises cls env (.constructor r) f (path ++ [.member (.constructor r)])

end Member

/-! ### Classes and programs -/

def ClassDecl.Passes (env : Env) (c : ClassDecl) (env' : Env) : Prop :=
  ∃ c', c.check env = .ok () (c', env')

/-- The fault arises at the class or at a member of it. The bodies are checked only when all members
have been declared. -/
inductive ClassDecl.Raises (env : Env) (c : ClassDecl) : Fault → List Node → Prop
  | duplicate (hclosed : env.table.current = none) (h : env.table.contains c.name = true) :
    ClassDecl.Raises env c (.duplicateClass c.name) [.decl c]
  | parent {env₁ : Env} {q : String} (henter : Env.enterClass c.name env = .ok () env₁)
    (hq : c.parent = some q) (h : env₁.table.contains q = false) :
    ClassDecl.Raises env c (.unknownType q) [.decl c]
  | member {env₁ env₂ : Env} {s : Bool × Env} {m : Member} {f : Fault}
    (henter : Env.enterClass c.name env = .ok () env₁) (htie : tieParent c.parent env₁ = .ok () env₂)
    (hm : Reached (Member.Declares c.name) (false, env₂) c.members s m) (h : m.Fails c.name s f) :
    ClassDecl.Raises env c f [.member m]
  | body {env₁ env₂ env₃ env₄ : Env} {ms : List Member} {m : Member} {f : Fault} {path : List Node}
    (henter : Env.enterClass c.name env = .ok () env₁) (htie : tieParent c.parent env₁ = .ok () env₂)
    (hms : Member.declareList c.name false c.members env₂ = .ok () (ms, env₃))
    (hm : Reached (Member.Passes c.name) env₃ c.members env₄ m) (h : m.Raises c.name env₄ f path) :
    ClassDecl.Raises env c f path

/-- The fault arises in the first class that does not pass. -/
def Program.Raises (p : Program) (f : Fault) (path : List Node) : Prop :=
  ∃ env c, Reached ClassDecl.Passes .empty p.classes env c ∧ c.Raises env f path

end ClassLang
