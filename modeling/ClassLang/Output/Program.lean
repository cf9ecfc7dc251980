import ClassLang.ClassTable
import ClassLang.Output.Stmt
import ClassLang.Tree.Program

/-!
# Classes and programs as code

A class is written as the layout of its objects, taken from the class table, followed by its methods
and constructors, taken from the tree. Both take the receiver as their first parameter.
-/

namespace ClassLang

/-- The parameters of a method of class `cls`, the receiver first. -/
def Routine.paramCode (r : Routine) (cls : String) : String :=
  ", ".intercalate (s!"$TYPE({cls})* {varCode receiverName}" ::
    r.params.map fun p => s!"{p.ty.code} {varCode p.name}")

/-- Writes a method or constructor of class `cls`; `name` is what it is called in the program, `head`
what stands before its symbol. -/
def Routine.write (r : Routine) (cls name head : String) : Step Output Unit := fun o =>
  match r.signature with
  | .empty => .error (.misuse (.unresolvedSignature cls name)) o
  | .filled s =>
    Stmt.writeBlock r.body (o.line s!"{head}({cls}, {s.symbol})({r.paramCode cls})")

/-- Writes a member of class `cls` that has a body, after an empty line. -/
def Member.write (cls : String) : Member → Step Output Unit
  | .field .., o => .ok () o
  | .method ret name r, o => r.write cls name s!"{ret.code} $METHOD" o.newline
  | .constructor r, o => r.write cls constructorName "$CONS" o.newline

def Member.writeList (cls : String) : List Member → Step Output Unit
  | [], o => .ok () o
  | m :: rest, o => (m.write cls o).andThen id fun _ o => Member.writeList cls rest o

/-- The lines of an object's layout: the parent's part, then the fields in their order. -/
def ClassInfo.layout (c : ClassInfo) : List String :=
  (c.parent.map fun p => s!"$BASE({p});").toList ++
    c.membersInOrder.filterMap fun (name, e) => e.value?.map fun ty => s!"{ty.code} $MEMBER({name});"

/-- Writes the layout of a class. -/
def ClassInfo.write (c : ClassInfo) (o : Output) : Output :=
  let o := ((o.line s!"$CLASS({c.name})").line "\x7b").deeper
  (c.layout.foldl Output.line o).shallower.line "\x7d;"

def ClassDecl.write (table : ClassTable) (c : ClassDecl) : Step Output Unit := fun o =>
  match table.find? c.name with
  | none => .error (.misuse (.unregisteredClass "emit_class" c.name)) o
  | some info => Member.writeList c.name c.members (info.write o)

/-- Writes the classes after the first, each after an empty line. -/
def ClassDecl.writeRest (table : ClassTable) : List ClassDecl → Step Output Unit
  | [], o => .ok () o
  | c :: rest, o =>
    (c.write table o.newline).andThen id fun _ o => ClassDecl.writeRest table rest o

/-- Writes the classes of a program, with empty lines between them. -/
def Program.write (table : ClassTable) (p : Program) : Step Output Unit := fun o =>
  match p.classes with
  | [] => .ok () o
  | c :: rest => (c.write table o).andThen id fun _ o => ClassDecl.writeRest table rest o

end ClassLang
