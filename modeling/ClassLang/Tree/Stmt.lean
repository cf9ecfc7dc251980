import ClassLang.Tree.Expr

/-!
# Statements

Statements carry no slots of their own; what the checker finds out about them it records in their
expressions.
-/

namespace ClassLang

/-- A statement. A list of statements between braces is a block; a branch without an alternative
differs from one whose alternative is the empty block. -/
inductive Stmt where
  | block (span : Span) (body : List Stmt)
  | ifThen (span : Span) (cond : Expr) (body : List Stmt)
  | ifElse (span : Span) (cond : Expr) (body alternative : List Stmt)
  | loop (span : Span) (cond : Expr) (body : List Stmt)
  | assign (span : Span) (target value : Expr)
  | declare (span : Span) (ty : Ty) (name : String) (init : Option Expr)
  | ret (span : Span) (value : Option Expr)
  | print (span : Span) (value : Expr)
  | eval (span : Span) (value : Expr)

namespace Stmt

def span : Stmt → Span
  | block s _ => s
  | ifThen s .. => s
  | ifElse s .. => s
  | loop s .. => s
  | assign s .. => s
  | declare s .. => s
  | ret s _ => s
  | print s _ => s
  | eval s _ => s

/-- The statement at another place. -/
def moveTo (place : Span) : Stmt → Stmt
  | block _ body => block place body
  | ifThen _ c t => ifThen place c t
  | ifElse _ c t f => ifElse place c t f
  | loop _ c body => loop place c body
  | assign _ t v => assign place t v
  | declare _ ty x init => declare place ty x init
  | ret _ v => ret place v
  | print _ v => print place v
  | eval _ v => eval place v

end Stmt

end ClassLang
