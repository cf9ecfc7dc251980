import ClassLang.Tree.Program

/-!
# When two trees say the same

`same` compares trees node by node, places included. Slots do not count: a tree and the same tree
after a check are the same.
-/

namespace ClassLang

mutual

def Expr.same : Expr → Expr → Bool
  | .number m n, .number m' n' => m.span == m'.span && n == n'
  | .bool m b, .bool m' b' => m.span == m'.span && b == b'
  | .this m, .this m' => m.span == m'.span
  | .var m o x _ _, .var m' o' x' _ _ => m.span == m'.span && o == o' && x == x'
  | .binary m op l r, .binary m' op' l' r' =>
    m.span == m'.span && op == op' && l.same l' && r.same r'
  | .unary m op x, .unary m' op' x' => m.span == m'.span && op == op' && x.same x'
  | .call m o f args _ _, .call m' o' f' args' _ _ =>
    m.span == m'.span && o == o' && f == f' && Expr.sameList args args'
  | .create m c args _, .create m' c' args' _ =>
    m.span == m'.span && c == c' && Expr.sameList args args'
  | _, _ => false

def Expr.sameList : List Expr → List Expr → Bool
  | [], [] => true
  | e :: rest, e' :: rest' => e.same e' && Expr.sameList rest rest'
  | _, _ => false

end

def Expr.sameOption : Option Expr → Option Expr → Bool
  | none, none => true
  | some e, some e' => e.same e'
  | _, _ => false

mutual

def Stmt.same : Stmt → Stmt → Bool
  | .block s body, .block s' body' => s == s' && Stmt.sameList body body'
  | .ifThen s c t, .ifThen s' c' t' => s == s' && c.same c' && Stmt.sameList t t'
  | .ifElse s c t f, .ifElse s' c' t' f' =>
    s == s' && c.same c' && Stmt.sameList t t' && Stmt.sameList f f'
  | .loop s c body, .loop s' c' body' => s == s' && c.same c' && Stmt.sameList body body'
  | .assign s t v, .assign s' t' v' => s == s' && t.same t' && v.same v'
  | .declare s ty x init, .declare s' ty' x' init' =>
    s == s' && ty == ty' && x == x' && Expr.sameOption init init'
  | .ret s v, .ret s' v' => s == s' && Expr.sameOption v v'
  | .print s v, .print s' v' => s == s' && v.same v'
  | .eval s v, .eval s' v' => s == s' && v.same v'
  | _, _ => false

def Stmt.sameList : List Stmt → List Stmt → Bool
  | [], [] => true
  | s :: rest, s' :: rest' => s.same s' && Stmt.sameList rest rest'
  | _, _ => false

end

/-- The same expression, at the same or another place. -/
def Expr.sameForm (a b : Expr) : Bool := (a.moveTo .unknown).same (b.moveTo .unknown)

/-- The same statement, at the same or another place. -/
def Stmt.sameForm (a b : Stmt) : Bool := (a.moveTo .unknown).same (b.moveTo .unknown)

def Routine.same (a b : Routine) : Bool :=
  a.span == b.span && a.params == b.params && Stmt.sameList a.body b.body

def Member.same : Member → Member → Bool
  | .field s ty x, .field s' ty' x' => s == s' && ty == ty' && x == x'
  | .method ret f r, .method ret' f' r' => ret == ret' && f == f' && r.same r'
  | .constructor r, .constructor r' => r.same r'
  | _, _ => false

def Member.sameList : List Member → List Member → Bool
  | [], [] => true
  | m :: rest, m' :: rest' => m.same m' && Member.sameList rest rest'
  | _, _ => false

def ClassDecl.same (a b : ClassDecl) : Bool :=
  a.span == b.span && a.name == b.name && a.parent == b.parent &&
    Member.sameList a.members b.members

def ClassDecl.sameList : List ClassDecl → List ClassDecl → Bool
  | [], [] => true
  | c :: rest, c' :: rest' => c.same c' && ClassDecl.sameList rest rest'
  | _, _ => false

def Program.same (a b : Program) : Bool := ClassDecl.sameList a.classes b.classes

end ClassLang
