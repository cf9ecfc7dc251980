import ClassLang.Signature
import ClassLang.Span
import ClassLang.Tree.Operator
import ClassLang.Tree.Slot

/-!
# Expressions

Every expression has a mark: its place and, once it is checked, its type. A use of a variable, a
call and the creation of an object also have slots for what their names were found to mean.
-/

namespace ClassLang

/-- Where a variable was found: in a scope, or as a member of the receiver's class or an ancestor of
it. -/
inductive VarBinding where
  | scope
  | member (owner : String)
deriving DecidableEq

/-- The method that a call means, and the class that declares it. -/
structure MethodBinding where
  owner : String
  method : Signature
deriving DecidableEq

/-- The place of an expression and its type. -/
structure Mark where
  span : Span
  ty : Slot Ty
deriving DecidableEq

namespace Mark

/-- The mark of an expression whose type has been found. -/
def typed (m : Mark) (ty : Ty) : Mark := { m with ty := .filled ty }

@[simp] theorem span_typed (m : Mark) (ty : Ty) : (m.typed ty).span = m.span := rfl

@[simp] theorem ty_typed (m : Mark) (ty : Ty) : (m.typed ty).ty = .filled ty := rfl

end Mark

/-- An expression. In `x.y` and `x.f()` the object is a name: that of a variable, or the
receiver's. -/
inductive Expr where
  | number (mark : Mark) (value : Int64)
  | bool (mark : Mark) (value : Bool)
  | this (mark : Mark)
  | var (mark : Mark) (object : Option String) (name : String)
      (binding objectBinding : Slot VarBinding)
  | binary (mark : Mark) (op : BinOp) (lhs rhs : Expr)
  | unary (mark : Mark) (op : UnOp) (operand : Expr)
  | call (mark : Mark) (object : Option String) (name : String) (args : List Expr)
      (binding : Slot MethodBinding) (objectBinding : Slot VarBinding)
  | create (mark : Mark) (cls : String) (args : List Expr) (binding : Slot MethodBinding)

namespace Expr

def mark : Expr → Mark
  | number m _ => m
  | bool m _ => m
  | this m => m
  | var m .. => m
  | binary m .. => m
  | unary m .. => m
  | call m .. => m
  | create m .. => m

def span (e : Expr) : Span := e.mark.span

/-- The type the checker found for the expression. -/
def ty? (e : Expr) : Option Ty := e.mark.ty.get?

def isVar : Expr → Bool
  | var .. => true
  | _ => false

/-- The expression at another place. -/
def moveTo (place : Span) : Expr → Expr
  | number m n => number { m with span := place } n
  | bool m b => bool { m with span := place } b
  | this m => this { m with span := place }
  | var m o x b ob => var { m with span := place } o x b ob
  | binary m op l r => binary { m with span := place } op l r
  | unary m op x => unary { m with span := place } op x
  | call m o f args b ob => call { m with span := place } o f args b ob
  | create m c args b => create { m with span := place } c args b

end Expr

end ClassLang
