import ClassLang.Tree.Same

/-!
# Bare trees

A tree with all its slots emptied. Two trees say the same just if they are equal when bare
(`Program.same_iff`), so what holds of bare trees can be carried over by rewriting.
-/

namespace ClassLang

def Mark.bare (m : Mark) : Mark := { m with ty := .empty }

theorem Mark.bare_eq_iff {m m' : Mark} : m.bare = m'.bare ↔ m.span = m'.span := by
  simp [Mark.bare]

@[simp] theorem Mark.bare_bare (m : Mark) : m.bare.bare = m.bare := rfl

/-! ### Expressions -/

mutual

def Expr.bare : Expr → Expr
  | .number m n => .number m.bare n
  | .bool m b => .bool m.bare b
  | .this m => .this m.bare
  | .var m o x _ _ => .var m.bare o x .empty .empty
  | .binary m op l r => .binary m.bare op l.bare r.bare
  | .unary m op x => .unary m.bare op x.bare
  | .call m o f args _ _ => .call m.bare o f (Expr.bareList args) .empty .empty
  | .create m c args _ => .create m.bare c (Expr.bareList args) .empty

def Expr.bareList : List Expr → List Expr
  | [] => []
  | e :: rest => e.bare :: Expr.bareList rest

end

theorem Expr.isVar_bare (e : Expr) : e.bare.isVar = e.isVar := by
  cases e <;> rfl

mutual

@[simp] theorem Expr.bare_bare : ∀ e : Expr, e.bare.bare = e.bare
  | .number .. | .bool .. | .this _ | .var .. => rfl
  | .binary m op l r => by simp [Expr.bare, Expr.bare_bare l, Expr.bare_bare r]
  | .unary m op x => by simp [Expr.bare, Expr.bare_bare x]
  | .call m o f args b ob => by simp [Expr.bare, Expr.bareList_bareList args]
  | .create m c args b => by simp [Expr.bare, Expr.bareList_bareList args]

@[simp] theorem Expr.bareList_bareList : ∀ es : List Expr,
    Expr.bareList (Expr.bareList es) = Expr.bareList es
  | [] => rfl
  | e :: es => by simp [Expr.bareList, Expr.bare_bare e, Expr.bareList_bareList es]

end

mutual

theorem Expr.same_iff : ∀ e e' : Expr, e.same e' = true ↔ e.bare = e'.bare
  | .number m n, e' => by cases e' <;> simp [Expr.same, Expr.bare, Mark.bare_eq_iff]
  | .bool m b, e' => by cases e' <;> simp [Expr.same, Expr.bare, Mark.bare_eq_iff]
  | .this m, e' => by cases e' <;> simp [Expr.same, Expr.bare, Mark.bare_eq_iff]
  | .var m o x b ob, e' => by
    cases e' <;> simp [Expr.same, Expr.bare, Mark.bare_eq_iff, and_assoc]
  | .binary m op l r, e' => by
    have hl := Expr.same_iff l
    have hr := Expr.same_iff r
    cases e' <;> simp [Expr.same, Expr.bare, Mark.bare_eq_iff, hl, hr, and_assoc]
  | .unary m op x, e' => by
    have hx := Expr.same_iff x
    cases e' <;> simp [Expr.same, Expr.bare, Mark.bare_eq_iff, hx, and_assoc]
  | .call m o f args b ob, e' => by
    have hargs := Expr.sameList_iff args
    cases e' <;> simp [Expr.same, Expr.bare, Mark.bare_eq_iff, hargs, and_assoc]
  | .create m c args b, e' => by
    have hargs := Expr.sameList_iff args
    cases e' <;> simp [Expr.same, Expr.bare, Mark.bare_eq_iff, hargs, and_assoc]

theorem Expr.sameList_iff : ∀ es es' : List Expr,
    Expr.sameList es es' = true ↔ Expr.bareList es = Expr.bareList es'
  | [], es' => by cases es' <;> simp [Expr.sameList, Expr.bareList]
  | e :: es, es' => by
    have he := Expr.same_iff e
    have hes := Expr.sameList_iff es
    cases es' <;> simp [Expr.sameList, Expr.bareList, he, hes]

end

theorem Expr.sameOption_iff : ∀ e e' : Option Expr,
    Expr.sameOption e e' = true ↔ e.map Expr.bare = e'.map Expr.bare
  | none, e' => by cases e' <;> simp [Expr.sameOption]
  | some e, e' => by cases e' <;> simp [Expr.sameOption, Expr.same_iff e]

/-! ### Statements -/

mutual

def Stmt.bare : Stmt → Stmt
  | .block s body => .block s (Stmt.bareList body)
  | .ifThen s c t => .ifThen s c.bare (Stmt.bareList t)
  | .ifElse s c t f => .ifElse s c.bare (Stmt.bareList t) (Stmt.bareList f)
  | .loop s c body => .loop s c.bare (Stmt.bareList body)
  | .assign s t v => .assign s t.bare v.bare
  | .declare s ty x init => .declare s ty x (init.map Expr.bare)
  | .ret s v => .ret s (v.map Expr.bare)
  | .print s v => .print s v.bare
  | .eval s v => .eval s v.bare

def Stmt.bareList : List Stmt → List Stmt
  | [] => []
  | s :: rest => s.bare :: Stmt.bareList rest

end

mutual

@[simp] theorem Stmt.bare_bare : ∀ s : Stmt, s.bare.bare = s.bare
  | .block s body => by simp [Stmt.bare, Stmt.bareList_bareList body]
  | .ifThen s c t => by simp [Stmt.bare, Stmt.bareList_bareList t]
  | .ifElse s c t f => by simp [Stmt.bare, Stmt.bareList_bareList t, Stmt.bareList_bareList f]
  | .loop s c body => by simp [Stmt.bare, Stmt.bareList_bareList body]
  | .assign .. | .print .. | .eval .. => by simp [Stmt.bare]
  | .declare .. | .ret .. => by simp [Stmt.bare, Function.comp_def]

@[simp] theorem Stmt.bareList_bareList : ∀ ss : List Stmt,
    Stmt.bareList (Stmt.bareList ss) = Stmt.bareList ss
  | [] => rfl
  | s :: ss => by simp [Stmt.bareList, Stmt.bare_bare s, Stmt.bareList_bareList ss]

end

mutual

theorem Stmt.same_iff : ∀ s s' : Stmt, s.same s' = true ↔ s.bare = s'.bare
  | .block s body, s' => by
    have hbody := Stmt.sameList_iff body
    cases s' <;> simp [Stmt.same, Stmt.bare, hbody]
  | .ifThen s c t, s' => by
    have ht := Stmt.sameList_iff t
    cases s' <;> simp [Stmt.same, Stmt.bare, Expr.same_iff, ht, and_assoc]
  | .ifElse s c t f, s' => by
    have ht := Stmt.sameList_iff t
    have hf := Stmt.sameList_iff f
    cases s' <;> simp [Stmt.same, Stmt.bare, Expr.same_iff, ht, hf, and_assoc]
  | .loop s c body, s' => by
    have hbody := Stmt.sameList_iff body
    cases s' <;> simp [Stmt.same, Stmt.bare, Expr.same_iff, hbody, and_assoc]
  | .assign s t v, s' => by cases s' <;> simp [Stmt.same, Stmt.bare, Expr.same_iff, and_assoc]
  | .declare s ty x init, s' => by
    cases s' <;> simp [Stmt.same, Stmt.bare, Expr.sameOption_iff, and_assoc]
  | .ret s v, s' => by cases s' <;> simp [Stmt.same, Stmt.bare, Expr.sameOption_iff]
  | .print s v, s' => by cases s' <;> simp [Stmt.same, Stmt.bare, Expr.same_iff]
  | .eval s v, s' => by cases s' <;> simp [Stmt.same, Stmt.bare, Expr.same_iff]

theorem Stmt.sameList_iff : ∀ ss ss' : List Stmt,
    Stmt.sameList ss ss' = true ↔ Stmt.bareList ss = Stmt.bareList ss'
  | [], ss' => by cases ss' <;> simp [Stmt.sameList, Stmt.bareList]
  | s :: ss, ss' => by
    have hs := Stmt.same_iff s
    have hss := Stmt.sameList_iff ss
    cases ss' <;> simp [Stmt.sameList, Stmt.bareList, hs, hss]

end

/-! ### Classes -/

def Routine.bare (r : Routine) : Routine :=
  { r with body := Stmt.bareList r.body, signature := .empty }

def Member.bare : Member → Member
  | .field s ty x => .field s ty x
  | .method ret f r => .method ret f r.bare
  | .constructor r => .constructor r.bare

def ClassDecl.bare (c : ClassDecl) : ClassDecl := { c with members := c.members.map Member.bare }

def Program.bare (p : Program) : Program := ⟨p.classes.map ClassDecl.bare⟩

theorem Routine.same_iff (r r' : Routine) : r.same r' = true ↔ r.bare = r'.bare := by
  simp [Routine.same, Routine.bare, Stmt.sameList_iff, and_assoc]

theorem Member.same_iff (m m' : Member) : m.same m' = true ↔ m.bare = m'.bare := by
  cases m <;> cases m' <;> simp [Member.same, Member.bare, Routine.same_iff, and_assoc]

theorem Member.sameList_iff : ∀ ms ms' : List Member,
    Member.sameList ms ms' = true ↔ ms.map Member.bare = ms'.map Member.bare
  | [], ms' => by cases ms' <;> simp [Member.sameList]
  | m :: ms, ms' => by
    have hms := Member.sameList_iff ms
    cases ms' <;> simp [Member.sameList, Member.same_iff, hms]

theorem ClassDecl.same_iff (c c' : ClassDecl) : c.same c' = true ↔ c.bare = c'.bare := by
  simp [ClassDecl.same, ClassDecl.bare, Member.sameList_iff, and_assoc]

theorem ClassDecl.sameList_iff : ∀ cs cs' : List ClassDecl,
    ClassDecl.sameList cs cs' = true ↔ cs.map ClassDecl.bare = cs'.map ClassDecl.bare
  | [], cs' => by cases cs' <;> simp [ClassDecl.sameList]
  | c :: cs, cs' => by
    have hcs := ClassDecl.sameList_iff cs
    cases cs' <;> simp [ClassDecl.sameList, ClassDecl.same_iff, hcs]

/-- **Programs say the same just if they are equal but for their slots.** -/
theorem Program.same_iff (p p' : Program) : p.same p' = true ↔ p.bare = p'.bare := by
  simp [Program.same, Program.bare, ClassDecl.sameList_iff]

end ClassLang
