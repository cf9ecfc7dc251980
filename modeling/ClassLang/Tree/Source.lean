import ClassLang.Tree.Program

/-!
# Trees as source text

`source` writes a tree the way it would stand in a program, on one line for each class. Operators
are always in brackets, so the text shows how an expression is built.
-/

namespace ClassLang

/-- A name after the object it is asked of, or alone: `object.name`, `name`. -/
def qualified (object : Option String) (name : String) : String :=
  match object with
  | none => name
  | some o => o ++ "." ++ name

mutual

def Expr.source : Expr → String
  | .number _ n => toString n.toInt
  | .bool _ b => if b then "true" else "false"
  | .this _ => receiverName
  | .var _ object name _ _ => qualified object name
  | .binary _ op l r => "(" ++ l.source ++ " " ++ op.symbol ++ " " ++ r.source ++ ")"
  | .unary _ op x => "(" ++ op.symbol ++ x.source ++ ")"
  | .call _ object name args _ _ =>
    qualified object name ++ "(" ++ ", ".intercalate (Expr.sources args) ++ ")"
  | .create _ cls args _ => "new " ++ cls ++ "(" ++ ", ".intercalate (Expr.sources args) ++ ")"

def Expr.sources : List Expr → List String
  | [] => []
  | e :: rest => e.source :: Expr.sources rest

end

/-- The texts of statements between braces. -/
def bracedSource (stmts : String) : String := "\x7b" ++ stmts ++ " \x7d"

mutual

def Stmt.source : Stmt → String
  | .block _ body => bracedSource (Stmt.listSource body)
  | .ifThen _ c t => "if (" ++ c.source ++ ") " ++ bracedSource (Stmt.listSource t)
  | .ifElse _ c t f =>
    "if (" ++ c.source ++ ") " ++ bracedSource (Stmt.listSource t) ++
      " else " ++ bracedSource (Stmt.listSource f)
  | .loop _ c body => "while (" ++ c.source ++ ") " ++ bracedSource (Stmt.listSource body)
  | .assign _ t v => t.source ++ " = " ++ v.source ++ ";"
  | .declare _ ty name none => ty.name ++ " " ++ name ++ ";"
  | .declare _ ty name (some init) => ty.name ++ " " ++ name ++ " = " ++ init.source ++ ";"
  | .ret _ none => "return;"
  | .ret _ (some v) => "return " ++ v.source ++ ";"
  | .print _ v => "print(" ++ v.source ++ ");"
  | .eval _ v => v.source ++ ";"

/-- The statements one after the other, each after a blank. -/
def Stmt.listSource : List Stmt → String
  | [] => ""
  | s :: rest => " " ++ s.source ++ Stmt.listSource rest

end

/-- Statements as a block. -/
def Stmt.blockSource (body : List Stmt) : String := bracedSource (Stmt.listSource body)

/-- The parameters and statements after a method's name. -/
def Routine.source (r : Routine) : String :=
  "(" ++ ", ".intercalate (r.params.map fun p => p.ty.name ++ " " ++ p.name) ++ ") " ++
    Stmt.blockSource r.body

def Member.source : Member → String
  | .field _ ty name => ty.name ++ " " ++ name ++ ";"
  | .method ret name r => ret.name ++ " " ++ name ++ r.source
  | .constructor r => constructorName ++ r.source

def ClassDecl.source (c : ClassDecl) : String :=
  "class " ++ c.name ++ (match c.parent with | none => "" | some p => " extends " ++ p) ++
    " \x7b" ++ String.join (c.members.map fun m => " " ++ m.source) ++ " \x7d"

def Program.source (p : Program) : String := "\n".intercalate (p.classes.map ClassDecl.source)

end ClassLang
