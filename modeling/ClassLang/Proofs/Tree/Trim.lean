import ClassLang.Output.Program
import ClassLang.Proofs.Tree.Blank

/-!
# Trees after a check

The slot that a check leaves alone, for the binding of an object that is not there, may hold
anything in a checked tree. `trim` empties it and keeps all other slots: it is `blank` the other way
round. Nothing is written from that slot, so a tree and its trimmed form are the same code
(`Program.write_trim`).
-/

namespace ClassLang

/-- The slot for the binding of an object means nothing if there is no object. -/
def Slot.trimFor {α : Type} (s : Slot α) : Option String → Slot α
  | none => .empty
  | some _ => s

/-! ### Expressions -/

mutual

def Expr.trim : Expr → Expr
  | .number m n => .number m n
  | .bool m b => .bool m b
  | .this m => .this m
  | .var m o x b ob => .var m o x b (ob.trimFor o)
  | .binary m op l r => .binary m op l.trim r.trim
  | .unary m op x => .unary m op x.trim
  | .call m o f args b ob => .call m o f (Expr.trimList args) b (ob.trimFor o)
  | .create m c args b => .create m c (Expr.trimList args) b

def Expr.trimList : List Expr → List Expr
  | [] => []
  | e :: rest => e.trim :: Expr.trimList rest

end

@[simp] theorem Expr.span_trim (e : Expr) : e.trim.span = e.span := by
  cases e <;> rfl

theorem Expr.span_eq_of_trim {e e' : Expr} (h : e.trim = e'.trim) : e.span = e'.span := by
  rw [← span_trim, h, span_trim]

theorem useCode_trimFor (object : Option String) (name : String) (b ob : Slot VarBinding) :
    useCode object name b (ob.trimFor object) = useCode object name b ob := by
  cases object <;> rfl

theorem calleeCode_trimFor (object : Option String) (ob : Slot VarBinding) :
    calleeCode object (ob.trimFor object) = calleeCode object ob := by
  cases object <;> rfl

mutual

theorem Expr.code_trim : ∀ e : Expr, e.trim.code = e.code
  | .number .. | .bool .. | .this _ => rfl
  | .var m o x b ob => by rw [Expr.trim, Expr.code, Expr.code, useCode_trimFor]
  | .binary m op l r => by
    rw [Expr.trim, Expr.code, Expr.code, Expr.code_trim l, Expr.code_trim r]
  | .unary m op x => by rw [Expr.trim, Expr.code, Expr.code, Expr.code_trim x]
  | .call _ _ _ _ .empty _ | .create _ _ _ .empty => by
    rw [Expr.trim, Expr.code, Expr.code]
  | .call m o f args (.filled b) ob => by
    rw [Expr.trim, Expr.code, Expr.code, Expr.codeList_trimList args, calleeCode_trimFor]
  | .create m c args (.filled b) => by
    rw [Expr.trim, Expr.code, Expr.code, Expr.codeList_trimList args]

theorem Expr.codeList_trimList : ∀ es : List Expr,
    Expr.codeList (Expr.trimList es) = Expr.codeList es
  | [] => rfl
  | e :: es => by
    rw [Expr.trimList, Expr.codeList, Expr.codeList, Expr.code_trim e, Expr.codeList_trimList es]

end

/-! ### Statements -/

mutual

def Stmt.trim : Stmt → Stmt
  | .block s body => .block s (Stmt.trimList body)
  | .ifThen s c t => .ifThen s c.trim (Stmt.trimList t)
  | .ifElse s c t f => .ifElse s c.trim (Stmt.trimList t) (Stmt.trimList f)
  | .loop s c body => .loop s c.trim (Stmt.trimList body)
  | .assign s t v => .assign s t.trim v.trim
  | .declare s ty x init => .declare s ty x (init.map Expr.trim)
  | .ret s v => .ret s (v.map Expr.trim)
  | .print s v => .print s v.trim
  | .eval s v => .eval s v.trim

def Stmt.trimList : List Stmt → List Stmt
  | [] => []
  | s :: rest => s.trim :: Stmt.trimList rest

end

mutual

theorem Stmt.write_trim : ∀ s : Stmt, s.trim.write = s.write
  | .block sp body => by
    funext o
    simp only [Stmt.trim, Stmt.write, Stmt.writeList_trimList body]
  | .ifThen sp c t => by
    funext o
    simp only [Stmt.trim, Stmt.write, Expr.code_trim, Stmt.writeList_trimList t]
  | .ifElse sp c t f => by
    funext o
    simp only [Stmt.trim, Stmt.write, Expr.code_trim, Stmt.writeList_trimList t,
      Stmt.writeList_trimList f]
  | .loop sp c body => by
    funext o
    simp only [Stmt.trim, Stmt.write, Expr.code_trim, Stmt.writeList_trimList body]
  | .assign .. | .print .. | .eval .. => by
    funext o
    simp only [Stmt.trim, Stmt.write, Expr.code_trim]
  | .declare _ _ _ none | .ret _ none => rfl
  | .declare _ _ _ (some _) | .ret _ (some _) => by
    funext o
    simp only [Stmt.trim, Option.map_some, Stmt.write, Expr.code_trim]

theorem Stmt.writeList_trimList : ∀ ss : List Stmt,
    Stmt.writeList (Stmt.trimList ss) = Stmt.writeList ss
  | [] => rfl
  | s :: ss => by
    funext o
    simp only [Stmt.trimList, Stmt.writeList, Stmt.write_trim s, Stmt.writeList_trimList ss]

end

/-! ### Classes -/

def Routine.trim (r : Routine) : Routine := { r with body := Stmt.trimList r.body }

def Member.trim : Member → Member
  | .field s ty x => .field s ty x
  | .method ret f r => .method ret f r.trim
  | .constructor r => .constructor r.trim

def ClassDecl.trim (c : ClassDecl) : ClassDecl := { c with members := c.members.map Member.trim }

def Program.trim (p : Program) : Program := ⟨p.classes.map ClassDecl.trim⟩

theorem Routine.write_trim (r : Routine) : r.trim.write = r.write := by
  funext cls name head o
  simp only [Routine.write, Routine.trim, Routine.paramCode, Stmt.writeBlock,
    Stmt.writeList_trimList]

theorem Member.write_trim (cls : String) (m : Member) : m.trim.write cls = m.write cls := by
  funext o
  cases m with
  | field => rfl
  | method ret f r => rw [Member.trim, Member.write, Member.write, Routine.write_trim]
  | constructor r => rw [Member.trim, Member.write, Member.write, Routine.write_trim]

theorem Member.writeList_trim (cls : String) : ∀ ms : List Member,
    Member.writeList cls (ms.map Member.trim) = Member.writeList cls ms
  | [] => rfl
  | m :: ms => by
    funext o
    simp only [List.map_cons, Member.writeList, Member.write_trim, Member.writeList_trim cls ms]

theorem ClassDecl.write_trim (table : ClassTable) (c : ClassDecl) :
    c.trim.write table = c.write table := by
  funext o
  simp only [ClassDecl.write, ClassDecl.trim, Member.writeList_trim]

theorem ClassDecl.writeRest_trim (table : ClassTable) : ∀ cs : List ClassDecl,
    ClassDecl.writeRest table (cs.map ClassDecl.trim) = ClassDecl.writeRest table cs
  | [] => rfl
  | c :: cs => by
    funext o
    simp only [List.map_cons, ClassDecl.writeRest, ClassDecl.write_trim,
      ClassDecl.writeRest_trim table cs]

/-- **A program and its trimmed form are written as the same code.** -/
theorem Program.write_trim (table : ClassTable) (p : Program) :
    p.trim.write table = p.write table := by
  obtain ⟨classes⟩ := p
  funext o
  cases classes with
  | nil => rfl
  | cons c rest =>
    simp only [Program.trim, List.map_cons, Program.write, ClassDecl.write_trim,
      ClassDecl.writeRest_trim]

end ClassLang
