import ClassLang.Proofs.Tree.Bare

/-!
# Trees before a check

A check fills every slot of a tree but one: where a variable or a call names no object, the slot for
the object's binding is left alone. `blank` empties just the slots that a check would fill. Trees
that are equal when blank are equal when bare (`Program.bare_blank`), but not the other way round.
-/

namespace ClassLang

/-- The slot for the binding of an object is filled if there is an object. -/
def Slot.blankFor {α : Type} (s : Slot α) : Option String → Slot α
  | none => s
  | some _ => .empty

/-! ### Expressions -/

mutual

def Expr.blank : Expr → Expr
  | .number m n => .number m.bare n
  | .bool m b => .bool m.bare b
  | .this m => .this m.bare
  | .var m o x _ ob => .var m.bare o x .empty (ob.blankFor o)
  | .binary m op l r => .binary m.bare op l.blank r.blank
  | .unary m op x => .unary m.bare op x.blank
  | .call m o f args _ ob => .call m.bare o f (Expr.blankList args) .empty (ob.blankFor o)
  | .create m c args _ => .create m.bare c (Expr.blankList args) .empty

def Expr.blankList : List Expr → List Expr
  | [] => []
  | e :: rest => e.blank :: Expr.blankList rest

end

mutual

@[simp] theorem Expr.bare_blank : ∀ e : Expr, e.blank.bare = e.bare
  | .number .. | .bool .. | .this _ | .var .. => rfl
  | .binary m op l r => by simp [Expr.blank, Expr.bare, Expr.bare_blank l, Expr.bare_blank r]
  | .unary m op x => by simp [Expr.blank, Expr.bare, Expr.bare_blank x]
  | .call m o f args b ob => by simp [Expr.blank, Expr.bare, Expr.bareList_blankList args]
  | .create m c args b => by simp [Expr.blank, Expr.bare, Expr.bareList_blankList args]

@[simp] theorem Expr.bareList_blankList : ∀ es : List Expr,
    Expr.bareList (Expr.blankList es) = Expr.bareList es
  | [] => rfl
  | e :: es => by
    simp [Expr.blankList, Expr.bareList, Expr.bare_blank e, Expr.bareList_blankList es]

end

/-! ### Statements -/

mutual

def Stmt.blank : Stmt → Stmt
  | .block s body => .block s (Stmt.blankList body)
  | .ifThen s c t => .ifThen s c.blank (Stmt.blankList t)
  | .ifElse s c t f => .ifElse s c.blank (Stmt.blankList t) (Stmt.blankList f)
  | .loop s c body => .loop s c.blank (Stmt.blankList body)
  | .assign s t v => .assign s t.blank v.blank
  | .declare s ty x init => .declare s ty x (init.map Expr.blank)
  | .ret s v => .ret s (v.map Expr.blank)
  | .print s v => .print s v.blank
  | .eval s v => .eval s v.blank

def Stmt.blankList : List Stmt → List Stmt
  | [] => []
  | s :: rest => s.blank :: Stmt.blankList rest

end

mutual

@[simp] theorem Stmt.bare_blank : ∀ s : Stmt, s.blank.bare = s.bare
  | .block s body => by simp [Stmt.blank, Stmt.bare, Stmt.bareList_blankList body]
  | .ifThen s c t => by simp [Stmt.blank, Stmt.bare, Stmt.bareList_blankList t]
  | .ifElse s c t f => by
    simp [Stmt.blank, Stmt.bare, Stmt.bareList_blankList t, Stmt.bareList_blankList f]
  | .loop s c body => by simp [Stmt.blank, Stmt.bare, Stmt.bareList_blankList body]
  | .assign .. | .print .. | .eval .. => by simp [Stmt.blank, Stmt.bare]
  | .declare .. | .ret .. => by simp [Stmt.blank, Stmt.bare, Function.comp_def]

@[simp] theorem Stmt.bareList_blankList : ∀ ss : List Stmt,
    Stmt.bareList (Stmt.blankList ss) = Stmt.bareList ss
  | [] => rfl
  | s :: ss => by
    simp [Stmt.blankList, Stmt.bareList, Stmt.bare_blank s, Stmt.bareList_blankList ss]

end

/-! ### Classes -/

def Routine.blank (r : Routine) : Routine :=
  { r with body := Stmt.blankList r.body, signature := .empty }

def Member.blank : Member → Member
  | .field s ty x => .field s ty x
  | .method ret f r => .method ret f r.blank
  | .constructor r => .constructor r.blank

def ClassDecl.blank (c : ClassDecl) : ClassDecl := { c with members := c.members.map Member.blank }

def Program.blank (p : Program) : Program := ⟨p.classes.map ClassDecl.blank⟩

@[simp] theorem Member.bare_blank (m : Member) : m.blank.bare = m.bare := by
  cases m <;> simp [Member.blank, Member.bare, Routine.blank, Routine.bare]

@[simp] theorem ClassDecl.bare_blank (c : ClassDecl) : c.blank.bare = c.bare := by
  simp [ClassDecl.blank, ClassDecl.bare, Function.comp_def]

@[simp] theorem Program.bare_blank (p : Program) : p.blank.bare = p.bare := by
  simp [Program.blank, Program.bare, Function.comp_def]

end ClassLang
