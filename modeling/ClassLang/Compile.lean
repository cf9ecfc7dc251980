import ClassLang.Check.Program
import ClassLang.Output.Program

/-!
# From programs to code

`analyze` checks a program from an empty environment and gives the class table; `compile` then
writes the checked program as code.
-/

namespace ClassLang

/-- Checks a program. What is left is the program with the slots filled that the check came to. -/
def Program.analyze (p : Program) : Outcome Program ClassTable :=
  (p.check .empty).andThen Prod.fst fun _ (p, env) => .ok env.table p

/-- The code of a program, if it is free of faults. -/
def Program.compile (p : Program) : Except Failure String :=
  match p.analyze with
  | .error e _ => .error e
  | .ok table p =>
    match p.write table .empty with
    | .error e _ => .error e
    | .ok _ o => .ok o.text

end ClassLang
