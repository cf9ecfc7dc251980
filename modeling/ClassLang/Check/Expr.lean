import ClassLang.Env.Lookup
import ClassLang.OperatorRule

/-!
# Checking expressions

`Expr.check env e` finds the type of `e`, parts first, and fills the slots of `e`. It only reads
the environment. At the first failure it stops; the tree then has the slots that were filled until
there, and the others as they were.
-/

namespace ClassLang

/-- The type of `object.name` or of `name`, what the name is bound to, and what the object is bound
to if there is one. -/
def Env.useVar (env : Env) (object : Option String) (name : String) :
    Except Failure (Ty × VarBinding × Option VarBinding) :=
  match object with
  | none =>
    match env.lookupVar name with
    | .error e => .error e
    | .ok (ty, binding) => .ok (ty, binding, none)
  | some _ =>
    match env.objectClass object with
    | .error e => .error e
    | .ok (cls, objectBinding) =>
      match env.table.fieldTy cls name with
      | .error e => .error e
      | .ok (ty, owner) => .ok (ty, .member owner, some objectBinding)

/-- A slot that is filled if there is something to fill it with. -/
def Slot.refill {α : Type} (s : Slot α) : Option α → Slot α
  | none => s
  | some a => .filled a

mutual

def Expr.check (env : Env) : Expr → Outcome Expr Ty
  | .number m n => .ok .int (.number (m.typed .int) n)
  | .bool m b => .ok .bool (.bool (m.typed .bool) b)
  | .this m =>
    .locate m.span <|
    (Outcome.ofExcept env.receiver (.this m)).andThen id fun ty _ =>
    .ok ty (.this (m.typed ty))
  | .var m object name b ob =>
    .locate m.span <|
    (Outcome.ofExcept (env.useVar object name) (.var m object name b ob)).andThen id
      fun (ty, binding, objectBinding) _ =>
    .ok ty (.var (m.typed ty) object name (.filled binding) (ob.refill objectBinding))
  | .binary m op l r =>
    .locate m.span <|
    (l.check env).andThen (fun l => .binary m op l r) fun lty l =>
    (r.check env).andThen (fun r => .binary m op l r) fun rty r =>
    (Outcome.ofExcept (ruleType (op.key lty rty)) (.binary m op l r)).andThen id fun ty _ =>
    .ok ty (.binary (m.typed ty) op l r)
  | .unary m op x =>
    .locate m.span <|
    (x.check env).andThen (fun x => .unary m op x) fun xty x =>
    (Outcome.ofExcept (ruleType (op.key xty)) (.unary m op x)).andThen id fun ty _ =>
    .ok ty (.unary (m.typed ty) op x)
  | .call m object name args b ob =>
    .locate m.span <|
    (Outcome.ofExcept (env.objectClass object) (.call m object name args b ob)).andThen id
      fun (cls, objectBinding) _ =>
    (Expr.checkList env args).andThen (fun args => .call m object name args b ob) fun tys args =>
    (Outcome.ofExcept (env.table.bindCall cls name tys) (.call m object name args b ob)).andThen id
      fun target _ =>
    .ok target.method.ret
      (.call (m.typed target.method.ret) object name args (.filled target)
        (ob.refill (object.map fun _ => objectBinding)))
  | .create m cls args b =>
    .locate m.span <|
    (Outcome.ofExcept (env.table.requireInstantiable (.ofName cls)) (.create m cls args b)).andThen
      id fun name _ =>
    (Expr.checkList env args).andThen (fun args => .create m cls args b) fun tys args =>
    (Outcome.ofExcept (env.table.bindConstructor name tys) (.create m cls args b)).andThen id
      fun target _ =>
    .ok (.cls name) (.create (m.typed (.cls name)) cls args (.filled target))

def Expr.checkList (env : Env) : List Expr → Outcome (List Expr) (List Ty)
  | [] => .ok [] []
  | e :: rest =>
    (e.check env).andThen (fun e => e :: rest) fun ty e =>
    (Expr.checkList env rest).andThen (fun rest => e :: rest) fun tys rest =>
    .ok (ty :: tys) (e :: rest)

end

end ClassLang
