import ClassLang.Tree.Source

/-!
# Plain trees

A tree without its places and with all its slots emptied: what is left is what the tree says. The
source text of a tree is that of its plain form (`Program.source_plain`).
-/

namespace ClassLang

/-- The mark of an expression at no known place, not checked yet. -/
def Mark.unset : Mark := ⟨.unknown, .empty⟩

/-! ### Expressions -/

mutual

def Expr.plain : Expr → Expr
  | .number _ n => .number .unset n
  | .bool _ b => .bool .unset b
  | .this _ => .this .unset
  | .var _ o x _ _ => .var .unset o x .empty .empty
  | .binary _ op l r => .binary .unset op l.plain r.plain
  | .unary _ op x => .unary .unset op x.plain
  | .call _ o f args _ _ => .call .unset o f (Expr.plainList args) .empty .empty
  | .create _ c args _ => .create .unset c (Expr.plainList args) .empty

def Expr.plainList : List Expr → List Expr
  | [] => []
  | e :: rest => e.plain :: Expr.plainList rest

end

theorem Expr.plainList_eq_map (es : List Expr) : Expr.plainList es = es.map Expr.plain := by
  induction es with
  | nil => rfl
  | cons e es ih => rw [Expr.plainList, ih, List.map_cons]

mutual

theorem Expr.source_plain : ∀ e : Expr, e.plain.source = e.source
  | .number .. | .bool .. | .this _ | .var .. => rfl
  | .binary m op l r => by simp [Expr.plain, Expr.source, Expr.source_plain l, Expr.source_plain r]
  | .unary m op x => by simp [Expr.plain, Expr.source, Expr.source_plain x]
  | .call m o f args b ob => by simp [Expr.plain, Expr.source, Expr.sources_plainList args]
  | .create m c args b => by simp [Expr.plain, Expr.source, Expr.sources_plainList args]

theorem Expr.sources_plainList : ∀ es : List Expr,
    Expr.sources (Expr.plainList es) = Expr.sources es
  | [] => rfl
  | e :: es => by
    simp [Expr.plainList, Expr.sources, Expr.source_plain e, Expr.sources_plainList es]

end

/-! ### Statements -/

mutual

def Stmt.plain : Stmt → Stmt
  | .block _ body => .block .unknown (Stmt.plainList body)
  | .ifThen _ c t => .ifThen .unknown c.plain (Stmt.plainList t)
  | .ifElse _ c t f => .ifElse .unknown c.plain (Stmt.plainList t) (Stmt.plainList f)
  | .loop _ c body => .loop .unknown c.plain (Stmt.plainList body)
  | .assign _ t v => .assign .unknown t.plain v.plain
  | .declare _ ty x init => .declare .unknown ty x (init.map Expr.plain)
  | .ret _ v => .ret .unknown (v.map Expr.plain)
  | .print _ v => .print .unknown v.plain
  | .eval _ v => .eval .unknown v.plain

def Stmt.plainList : List Stmt → List Stmt
  | [] => []
  | s :: rest => s.plain :: Stmt.plainList rest

end

theorem Stmt.plainList_eq_map (ss : List Stmt) : Stmt.plainList ss = ss.map Stmt.plain := by
  induction ss with
  | nil => rfl
  | cons s ss ih => rw [Stmt.plainList, ih, List.map_cons]

mutual

theorem Stmt.source_plain : ∀ s : Stmt, s.plain.source = s.source
  | .block s body => by simp [Stmt.plain, Stmt.source, Stmt.listSource_plainList body]
  | .ifThen s c t => by
    simp [Stmt.plain, Stmt.source, Expr.source_plain, Stmt.listSource_plainList t]
  | .ifElse s c t f => by
    simp [Stmt.plain, Stmt.source, Expr.source_plain, Stmt.listSource_plainList t,
      Stmt.listSource_plainList f]
  | .loop s c body => by
    simp [Stmt.plain, Stmt.source, Expr.source_plain, Stmt.listSource_plainList body]
  | .declare _ _ _ none | .ret _ none => rfl
  | .assign .. | .declare _ _ _ (some _) | .ret _ (some _) | .print .. | .eval .. => by
    simp [Stmt.plain, Stmt.source, Expr.source_plain]

theorem Stmt.listSource_plainList : ∀ ss : List Stmt,
    Stmt.listSource (Stmt.plainList ss) = Stmt.listSource ss
  | [] => rfl
  | s :: ss => by
    simp [Stmt.plainList, Stmt.listSource, Stmt.source_plain s, Stmt.listSource_plainList ss]

end

/-! ### Classes -/

def Routine.plain (r : Routine) : Routine := ⟨.unknown, r.params, Stmt.plainList r.body, .empty⟩

def Member.plain : Member → Member
  | .field _ ty x => .field .unknown ty x
  | .method ret f r => .method ret f r.plain
  | .constructor r => .constructor r.plain

def ClassDecl.plain (c : ClassDecl) : ClassDecl :=
  ⟨.unknown, c.name, c.parent, c.members.map Member.plain⟩

def Program.plain (p : Program) : Program := ⟨p.classes.map ClassDecl.plain⟩

theorem Member.source_plain (m : Member) : m.plain.source = m.source := by
  cases m <;> simp [Member.plain, Member.source, Routine.plain, Routine.source, Stmt.blockSource,
    Stmt.listSource_plainList]

theorem ClassDecl.source_plain (c : ClassDecl) : c.plain.source = c.source := by
  simp [ClassDecl.plain, ClassDecl.source, Function.comp_def, Member.source_plain]

theorem Program.source_plain (p : Program) : p.plain.source = p.source := by
  simp [Program.plain, Program.source, Function.comp_def, ClassDecl.source_plain]

end ClassLang
