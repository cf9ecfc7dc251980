import ClassLang.Proofs.Typing.Outline

/-!
# Which programs are well formed

The rules of the language, as relations on trees. `HasType ρ Γ e τ` says that the expression `e`
has type `τ` where `Γ` is known; `Stmt.Ok`, `Member.Ok`, `ClassDecl.Ok` and `Program.Ok` say that
the larger trees keep to the rules. A context lists the names in scope, innermost first, so a name
means the first entry it has there; blocks do not appear in it, because what a block declares is
in the contexts of its own statements only.

A tree can be read in two ways (`Reading`). Read plainly, its slots do not count, and
`Program.WellFormed` is the plain reading. Read as annotated, every slot that the checker fills
must hold just what the rule of its node finds: the type of an expression, the meaning of a name.
-/

namespace ClassLang

/-- How the slots of a tree are read. -/
inductive Reading
  | plain
  | annotated

/-- The slot agrees with what was found, if slots count. -/
def Slot.Reads {α : Type} (s : Slot α) : Reading → α → Prop
  | .plain, _ => True
  | .annotated, a => s = .filled a

@[simp] theorem Slot.reads_plain {α : Type} (s : Slot α) (a : α) : s.Reads .plain a := trivial

/-! ### Names -/

/-- What is known at a point of a method. -/
structure Context where
  /-- The classes up to the one whose method it is. -/
  classes : List Outline
  /-- What the method returns. -/
  ret : Ty
  /-- The names in scope, innermost first; the receiver is one of them. -/
  locals : List (String × Ty)

namespace Context

def names (Γ : Context) : List String := Γ.classes.map Outline.name

def bind (Γ : Context) (name : String) (ty : Ty) : Context :=
  { Γ with locals := (name, ty) :: Γ.locals }

/-- Where the statements of a method begin. -/
def ofBody (classes : List Outline) (cls : String) (ret : Ty) (params : List Param) : Context where
  classes
  ret
  locals := (params.map fun p => (p.name, p.ty)).reverse ++ [(receiverName, .cls cls)]

/-- The innermost entry of a name. -/
def Declares (Γ : Context) (name : String) (ty : Ty) : Prop := Γ.locals.lookup name = some ty

theorem Declares.unique {Γ : Context} {name : String} {τ σ : Ty} (h : Γ.Declares name τ)
    (h' : Γ.Declares name σ) : τ = σ :=
  Option.some.inj (Eq.trans (Eq.symm h) h')

/-- A bare name stands for a local or, if there is none, for a field of the receiver. The
receiver's own name is no local. -/
inductive Var (Γ : Context) : String → Ty → VarBinding → Prop
  | scope {name : String} {ty : Ty} (hname : name ≠ receiverName) (h : Γ.Declares name ty) :
    Γ.Var name ty .scope
  | member {name cls : String} {owner : Outline} {ty : Ty}
    (hname : name = receiverName ∨ Γ.locals.lookup name = none)
    (hthis : Γ.Declares receiverName (.cls cls)) (h : FieldOf Γ.classes cls name owner ty) :
    Γ.Var name ty (.member owner.name)

/-- The class of the object that a field or method is asked of, and where the object was found. -/
inductive Object (Γ : Context) : Option String → String → VarBinding → Prop
  | implicit {cls : String} (h : Γ.Declares receiverName (.cls cls)) : Γ.Object none cls .scope
  | receiver {cls : String} (h : Γ.Declares receiverName (.cls cls)) :
    Γ.Object (some receiverName) cls .scope
  | named {name cls : String} {b : VarBinding} (hname : name ≠ receiverName)
    (h : Γ.Var name (.cls cls) b) : Γ.Object (some name) cls b

end Context

/-- A call of `name` on an object of class `cls` means the method `b`. -/
def Calls (cs : List Outline) (cls name : String) (args : List Ty) (b : MethodBinding) : Prop :=
  ∃ owner : Outline, Resolves cs cls name args owner b.method ∧ owner.name = b.owner

/-- Creating an object of class `cls` means the constructor `b`. -/
def Creates (cs : List Outline) (cls : String) (args : List Ty) (b : MethodBinding) : Prop :=
  ∃ c ∈ cs, c.name = cls ∧ c.Selects cs constructorName args b.method ∧ b.owner = cls

/-! ### Expressions -/

/-- What a binary operator makes of two types. -/
inductive BinOp.Takes : BinOp → Ty → Ty → Ty → Prop
  | arithmetic {op : BinOp} (h : op ∈ [add, sub, mul, div]) : op.Takes .int .int .int
  | ofInt {op : BinOp} (h : op ∈ [eq, ne, and, or]) : op.Takes .int .int .bool
  | ofBool {op : BinOp} (h : op ∈ [eq, ne, and, or]) : op.Takes .bool .bool .bool

inductive UnOp.Takes : UnOp → Ty → Ty → Prop
  | neg : UnOp.neg.Takes .int .int
  | not : UnOp.not.Takes .bool .bool

/-- The names of the built-in types, of which no object can be created. -/
def builtinNames : List String := ["int", "bool", "void"]

mutual

/-- The expression has the type. -/
inductive HasType (ρ : Reading) (Γ : Context) : Expr → Ty → Prop
  | number {m : Mark} {n : Int64} (hm : m.ty.Reads ρ .int) : HasType ρ Γ (.number m n) .int
  | bool {m : Mark} {b : Bool} (hm : m.ty.Reads ρ .bool) : HasType ρ Γ (.bool m b) .bool
  | this {m : Mark} {τ : Ty} (h : Γ.Declares receiverName τ) (hm : m.ty.Reads ρ τ) :
    HasType ρ Γ (.this m) τ
  | var {m : Mark} {x : String} {b ob : Slot VarBinding} {τ : Ty} {vb : VarBinding}
    (h : Γ.Var x τ vb) (hm : m.ty.Reads ρ τ) (hb : b.Reads ρ vb) :
    HasType ρ Γ (.var m none x b ob) τ
  | field {m : Mark} {o x cls : String} {b ob : Slot VarBinding} {τ : Ty} {vb : VarBinding}
    {owner : Outline} (ho : Γ.Object (some o) cls vb) (h : FieldOf Γ.classes cls x owner τ)
    (hm : m.ty.Reads ρ τ) (hb : b.Reads ρ (.member owner.name)) (hob : ob.Reads ρ vb) :
    HasType ρ Γ (.var m (some o) x b ob) τ
  | binary {m : Mark} {op : BinOp} {l r : Expr} {τ₁ τ₂ τ : Ty} (hl : HasType ρ Γ l τ₁)
    (hr : HasType ρ Γ r τ₂) (h : op.Takes τ₁ τ₂ τ) (hm : m.ty.Reads ρ τ) :
    HasType ρ Γ (.binary m op l r) τ
  | unary {m : Mark} {op : UnOp} {x : Expr} {τ₁ τ : Ty} (hx : HasType ρ Γ x τ₁)
    (h : op.Takes τ₁ τ) (hm : m.ty.Reads ρ τ) : HasType ρ Γ (.unary m op x) τ
  | call {m : Mark} {o : Option String} {f cls : String} {args : List Expr}
    {b : Slot MethodBinding} {ob : Slot VarBinding} {vb : VarBinding} {tys : List Ty}
    {target : MethodBinding} (ho : Γ.Object o cls vb) (hargs : HasTypes ρ Γ args tys)
    (h : Calls Γ.classes cls f tys target) (hm : m.ty.Reads ρ target.method.ret)
    (hb : b.Reads ρ target) (hob : o.isSome → ob.Reads ρ vb) :
    HasType ρ Γ (.call m o f args b ob) target.method.ret
  | create {m : Mark} {cls : String} {args : List Expr} {b : Slot MethodBinding} {tys : List Ty}
    {target : MethodBinding} (hcls : cls ∉ builtinNames) (hargs : HasTypes ρ Γ args tys)
    (h : Creates Γ.classes cls tys target) (hm : m.ty.Reads ρ (.cls cls)) (hb : b.Reads ρ target) :
    HasType ρ Γ (.create m cls args b) (.cls cls)

/-- The expressions have the types, one by one. -/
inductive HasTypes (ρ : Reading) (Γ : Context) : List Expr → List Ty → Prop
  | nil : HasTypes ρ Γ [] []
  | cons {e : Expr} {es : List Expr} {τ : Ty} {τs : List Ty} (he : HasType ρ Γ e τ)
    (hes : HasTypes ρ Γ es τs) : HasTypes ρ Γ (e :: es) (τ :: τs)

end

/-! ### Statements -/

/-- What is known after a statement. -/
def Stmt.after (Γ : Context) : Stmt → Context
  | .declare _ ty name _ => Γ.bind name ty
  | _ => Γ

mutual

/-- The statement keeps to the rules. -/
inductive Stmt.Ok (ρ : Reading) : Context → Stmt → Prop
  | block {Γ : Context} {s : Span} {body : List Stmt} (h : Stmt.AllOk ρ Γ body) :
    Stmt.Ok ρ Γ (.block s body)
  | ifThen {Γ : Context} {s : Span} {c : Expr} {t : List Stmt} (hc : HasType ρ Γ c .bool)
    (ht : Stmt.AllOk ρ Γ t) : Stmt.Ok ρ Γ (.ifThen s c t)
  | ifElse {Γ : Context} {s : Span} {c : Expr} {t f : List Stmt} (hc : HasType ρ Γ c .bool)
    (ht : Stmt.AllOk ρ Γ t) (hf : Stmt.AllOk ρ Γ f) : Stmt.Ok ρ Γ (.ifElse s c t f)
  | loop {Γ : Context} {s : Span} {c : Expr} {body : List Stmt} (hc : HasType ρ Γ c .bool)
    (h : Stmt.AllOk ρ Γ body) : Stmt.Ok ρ Γ (.loop s c body)
  | assign {Γ : Context} {s : Span} {target value : Expr} {τ σ : Ty}
    (hvar : target.isVar = true) (ht : HasType ρ Γ target τ) (hv : HasType ρ Γ value σ)
    (h : σ.Fits Γ.classes τ) : Stmt.Ok ρ Γ (.assign s target value)
  | declare {Γ : Context} {s : Span} {τ : Ty} {x : String} (hτ : τ.Storable Γ.names) :
    Stmt.Ok ρ Γ (.declare s τ x none)
  | init {Γ : Context} {s : Span} {τ σ : Ty} {x : String} {value : Expr}
    (hτ : τ.Storable Γ.names) (hv : HasType ρ Γ value σ) (h : σ.Fits Γ.classes τ) :
    Stmt.Ok ρ Γ (.declare s τ x (some value))
  | leave {Γ : Context} {s : Span} (h : Γ.ret = .void) : Stmt.Ok ρ Γ (.ret s none)
  | ret {Γ : Context} {s : Span} {value : Expr} {σ : Ty} (hret : Γ.ret ≠ .void)
    (hv : HasType ρ Γ value σ) (h : σ.Fits Γ.classes Γ.ret) : Stmt.Ok ρ Γ (.ret s (some value))
  | print {Γ : Context} {s : Span} {value : Expr} {τ : Ty} (hv : HasType ρ Γ value τ)
    (h : τ = .int ∨ τ = .bool) : Stmt.Ok ρ Γ (.print s value)
  | eval {Γ : Context} {s : Span} {value : Expr} {τ : Ty} (hv : HasType ρ Γ value τ) :
    Stmt.Ok ρ Γ (.eval s value)

/-- The statements keep to the rules, each in the context that those before it leave. -/
inductive Stmt.AllOk (ρ : Reading) : Context → List Stmt → Prop
  | nil {Γ : Context} : Stmt.AllOk ρ Γ []
  | cons {Γ : Context} {s : Stmt} {rest : List Stmt} (hs : Stmt.Ok ρ Γ s)
    (hrest : Stmt.AllOk ρ (s.after Γ) rest) : Stmt.AllOk ρ Γ (s :: rest)

end

/-! ### Classes -/

/-- The types a member is declared with may stand there. -/
inductive Member.Typed (classes : List String) : Member → Prop
  | field {s : Span} {τ : Ty} {x : String} (h : τ.Storable classes) :
    Member.Typed classes (.field s τ x)
  | method {ret : Ty} {f : String} {r : Routine} (hret : ret.Known classes)
    (h : ∀ τ ∈ r.paramTypes, τ.Storable classes) : Member.Typed classes (.method ret f r)
  | constructor {r : Routine} (h : ∀ τ ∈ r.paramTypes, τ.Storable classes) :
    Member.Typed classes (.constructor r)

/-- The name and parameter types of a method or constructor. -/
def Member.key? : Member → Option (String × List Ty)
  | .field .. => none
  | .method _ name r => some (name, r.paramTypes)
  | .constructor r => some (constructorName, r.paramTypes)

/-- The members are not two fields of one name, nor two methods or constructors of one key. -/
def Member.Apart (m n : Member) : Prop :=
  (∀ x, m.fieldName? = some x → n.fieldName? ≠ some x) ∧ ∀ k, m.key? = some k → n.key? ≠ some k

/-- Only a constructor may take the place of the constructor that every class starts out with. -/
def Member.SparesInitial : Member → Prop
  | .method _ name r => (name, r.paramTypes) ≠ (constructorName, [])
  | _ => True

/-- The body of a member keeps to the rules. A constructor returns an object of its class. -/
inductive Member.Ok (ρ : Reading) (classes : List Outline) (cls : String) : Member → Prop
  | field {s : Span} {τ : Ty} {x : String} : Member.Ok ρ classes cls (.field s τ x)
  | method {ret : Ty} {f : String} {r : Routine}
    (hs : r.signature.Reads ρ ⟨f, r.paramTypes, ret⟩)
    (h : Stmt.AllOk ρ (.ofBody classes cls ret r.params) r.body) :
    Member.Ok ρ classes cls (.method ret f r)
  | constructor {r : Routine} (hs : r.signature.Reads ρ (.ofConstructor cls r.paramTypes))
    (h : Stmt.AllOk ρ (.ofBody classes cls (.cls cls) r.params) r.body) :
    Member.Ok ρ classes cls (.constructor r)

/-- What a class declares keeps to the rules, after the classes `earlier`. It may refer to them and
to itself, also as its own parent. -/
structure ClassDecl.Formed (earlier : List Outline) (c : ClassDecl) : Prop where
  fresh : c.name ∉ earlier.map Outline.name
  parent : ∀ q, c.parent = some q → q ∈ (earlier ++ [c.outline]).map Outline.name
  typed : ∀ m ∈ c.members, m.Typed ((earlier ++ [c.outline]).map Outline.name)
  apart : c.members.Pairwise Member.Apart
  initial : ∀ m ∈ c.members, m.SparesInitial

/-- A class keeps to the rules: in what it declares, and in the bodies of its members. -/
structure ClassDecl.Ok (ρ : Reading) (earlier : List Outline) (c : ClassDecl) : Prop
    extends c.Formed earlier where
  bodies : ∀ m ∈ c.members, m.Ok ρ (earlier ++ [c.outline]) c.name

/-- The classes keep to the rules, each after those before it. -/
inductive ClassDecl.AllOk (ρ : Reading) : List Outline → List ClassDecl → Prop
  | nil {earlier : List Outline} : ClassDecl.AllOk ρ earlier []
  | cons {earlier : List Outline} {c : ClassDecl} {rest : List ClassDecl} (hc : c.Ok ρ earlier)
    (hrest : ClassDecl.AllOk ρ (earlier ++ [c.outline]) rest) :
    ClassDecl.AllOk ρ earlier (c :: rest)

def Program.Ok (ρ : Reading) (p : Program) : Prop := ClassDecl.AllOk ρ [] p.classes

/-- The program keeps to the rules of the language. -/
def Program.WellFormed (p : Program) : Prop := p.Ok .plain

end ClassLang
