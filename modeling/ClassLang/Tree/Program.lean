import ClassLang.Tree.Stmt

/-!
# Classes and programs

The members of a class are fields, methods and constructors. What a method and a constructor have
in common, parameters and statements, is a `Routine`.
-/

namespace ClassLang

structure Param where
  ty : Ty
  name : String
deriving DecidableEq

/-- Parameters and statements of a method or constructor, its place, and its signature once the
class has declared it. -/
structure Routine where
  span : Span
  params : List Param
  body : List Stmt
  signature : Slot Signature

def Routine.paramTypes (r : Routine) : List Ty := r.params.map Param.ty

inductive Member where
  | field (span : Span) (ty : Ty) (name : String)
  | method (ret : Ty) (name : String) (routine : Routine)
  | constructor (routine : Routine)

structure ClassDecl where
  span : Span
  name : String
  parent : Option String
  members : List Member

def Member.fieldName? : Member → Option String
  | field _ _ name => some name
  | _ => none

/-- The names of the fields, in the order of their declaration. -/
def ClassDecl.fields (c : ClassDecl) : List String := c.members.filterMap Member.fieldName?

structure Program where
  classes : List ClassDecl

end ClassLang
