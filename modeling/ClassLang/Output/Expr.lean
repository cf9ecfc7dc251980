import ClassLang.Failure
import ClassLang.Signature.Symbol
import ClassLang.Tree.Expr

/-!
# Expressions as code

`code` writes an expression with every name inside a macro that says what kind of name it is. What a
name means is taken from the slots of the tree: a variable found as a member is reached through the
receiver, and a call or creation without its binding cannot be written.
-/

namespace ClassLang

/-- A type where a value is declared. Truth values are held as `int`, objects by reference. -/
def Ty.code : Ty → String
  | .int | .bool => "$TYPE(int)"
  | .void => "$TYPE(void)"
  | .cls name => s!"$TYPE({name})*"

/-- A variable of a scope. -/
def varCode (name : String) : String := s!"$VAR({name})"

/-- A member of an object. -/
def memberCode (object name : String) : String := s!"{object}->$MEMBER({name})"

/-- The name of an object, from where it was found. -/
def objectCode (name : String) : Slot VarBinding → String
  | .filled (.member _) => memberCode (varCode receiverName) name
  | _ => varCode name

/-- A use of `object.name` or `name`. -/
def useCode (object : Option String) (name : String) (binding objectBinding : Slot VarBinding) :
    String :=
  match object with
  | none => objectCode name binding
  | some o => memberCode (objectCode o objectBinding) name

/-- The object that a method is called on. -/
def calleeCode (object : Option String) (objectBinding : Slot VarBinding) : String :=
  match object with
  | none => varCode receiverName
  | some o => objectCode o objectBinding

/-- A method or constructor applied to arguments. -/
def applyCode (macroName : String) (target : MethodBinding) (args : List String) : String :=
  s!"{macroName}({target.owner}, {target.method.symbol})(" ++ ", ".intercalate args ++ ")"

mutual

def Expr.code : Expr → Except Failure String
  | .number _ n => .ok (toString n.toInt)
  | .bool _ b => .ok (if b then "1" else "0")
  | .this _ => .ok (varCode receiverName)
  | .var _ object name b ob => .ok (useCode object name b ob)
  | .binary _ op l r => do
    let l ← l.code
    let r ← r.code
    .ok ("(" ++ l ++ op.symbol ++ r ++ ")")
  | .unary _ op x => do
    let x ← x.code
    .ok ("(" ++ op.symbol ++ x ++ ")")
  | .call _ object name args b ob =>
    match b with
    | .empty => (Misuse.unresolvedCall name).raise
    | .filled target => do
      let args ← Expr.codeList args
      .ok (applyCode "$METHOD" target (calleeCode object ob :: args))
  | .create _ cls args b =>
    match b with
    | .empty => (Misuse.unresolvedCall s!"new {cls}").raise
    | .filled target => do
      let args ← Expr.codeList args
      .ok (applyCode "$NEW" target args)

def Expr.codeList : List Expr → Except Failure (List String)
  | [] => .ok []
  | e :: rest => do
    let code ← e.code
    let codes ← Expr.codeList rest
    .ok (code :: codes)

end

end ClassLang
