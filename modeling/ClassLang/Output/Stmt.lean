import ClassLang.Output.Basic
import ClassLang.Output.Expr
import ClassLang.Tree.Stmt

/-!
# Statements as code

`Stmt.write` adds the lines of a statement to the output. The code of the expressions on a line is
found before the line is written, so a failure leaves whole lines.
-/

namespace ClassLang

/-- Writes one line, made from a piece of code. -/
def writeLine (code : Except Failure String) (line : String → String) : Step Output Unit := fun o =>
  (Outcome.ofExcept code o).andThen id fun code o => .ok () (o.line (line code))

mutual

def Stmt.write : Stmt → Step Output Unit
  | .block _ body, o => Output.braced (fun o => Stmt.writeList body o) o
  | .ifThen _ c t, o =>
    (writeLine c.code (fun c => s!"if ({c})") o).andThen id fun _ o =>
    Output.braced (fun o => Stmt.writeList t o) o
  | .ifElse _ c t f, o =>
    (writeLine c.code (fun c => s!"if ({c})") o).andThen id fun _ o =>
    (Output.braced (fun o => Stmt.writeList t o) o).andThen id fun _ o =>
    Output.braced (fun o => Stmt.writeList f o) (o.line "else")
  | .loop _ c body, o =>
    (writeLine c.code (fun c => s!"while ({c})") o).andThen id fun _ o =>
    Output.braced (fun o => Stmt.writeList body o) o
  | .assign _ target value, o =>
    (Outcome.ofExcept target.code o).andThen id fun target o =>
    writeLine value.code (fun value => s!"{target} = {value};") o
  | .declare _ ty name none, o => .ok () (o.line s!"{ty.code} {varCode name};")
  | .declare _ ty name (some init), o =>
    writeLine init.code (fun init => s!"{ty.code} {varCode name} = {init};") o
  | .ret _ none, o => .ok () (o.line "return;")
  | .ret _ (some value), o => writeLine value.code (fun value => s!"return {value};") o
  | .print _ value, o => writeLine value.code (fun value => s!"$PRINT({value});") o
  | .eval _ value, o => writeLine value.code (fun value => s!"{value};") o

def Stmt.writeList : List Stmt → Step Output Unit
  | [], o => .ok () o
  | s :: rest, o => (s.write o).andThen id fun _ o => Stmt.writeList rest o

end

/-- Writes statements as a block. -/
def Stmt.writeBlock (body : List Stmt) : Step Output Unit :=
  Output.braced fun o => Stmt.writeList body o

end ClassLang
