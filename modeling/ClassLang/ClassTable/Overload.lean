import ClassLang.ClassTable.Lineage

/-!
# Which overload a call means

A value fits where its type or a class it derives from is expected; arguments fit parameters
position by position. A call looks at one class after the other, from the object's class up. In a
class an overload with exactly the argument types wins; otherwise the overloads that the arguments
fit are counted: one wins, several are ambiguous, and if there is none the search goes on in the
parent. So what a class declares hides what it inherits as soon as it fits at all.

Constructors are looked for in their class alone.
-/

namespace ClassLang

namespace ClassTable

/-- A value of type `derived` may stand where `base` is expected: the types are equal, or `base` is
an ancestor of `derived`. -/
def isOrBase (t : ClassTable) (base derived : Ty) : Bool :=
  base == derived ||
    match base, derived with
    | .cls b, .cls d => (t.above d).any (·.name == b)
    | _, _ => false

@[simp] theorem isOrBase_self (t : ClassTable) (ty : Ty) : t.isOrBase ty ty = true := by
  simp [isOrBase]

theorem isOrBase_cls (t : ClassTable) (b d : String) :
    t.isOrBase (.cls b) (.cls d) = (b == d || (t.above d).any (·.name == b)) := by
  rw [Bool.eq_iff_iff]
  simp [isOrBase]

/-- Types that are not both classes are compared by equality alone. -/
theorem isOrBase_eq_false {t : ClassTable} {base derived : Ty} (hne : base ≠ derived)
    (h : ∀ b d, ¬ (base = .cls b ∧ derived = .cls d)) : t.isOrBase base derived = false := by
  unfold isOrBase
  rw [beq_eq_false_iff_ne.mpr hne, Bool.false_or]
  split
  · exact absurd ⟨rfl, rfl⟩ (h _ _)
  · rfl

/-- The arguments fit the parameters, position by position. -/
def accepts (t : ClassTable) : (params args : List Ty) → Bool
  | [], [] => true
  | p :: params, a :: args => t.isOrBase p a && t.accepts params args
  | _, _ => false

/-- The overload that one class offers for a call, if it offers any. -/
def overloadIn (t : ClassTable) (c : ClassInfo) (name : String) (args : List Ty) :
    Except Failure (Option Signature) :=
  let named := c.methods.overloads name
  match named.find? (·.params == args) with
  | some exact => .ok (some exact)
  | none =>
    match named.filter fun s => t.accepts s.params args with
    | [] => .ok none
    | [s] => .ok (some s)
    | several =>
      (Fault.ambiguousCall c.name name (", ".intercalate (several.map Signature.text))).raise

/-- The overload offered by the first of the classes that offers one. -/
def overloadAlong (t : ClassTable) (name : String) (args : List Ty) :
    List ClassInfo → Except Failure (Option Signature)
  | [] => .ok none
  | c :: rest =>
    match t.overloadIn c name args with
    | .ok none => t.overloadAlong name args rest
    | found => found

/-- A call that no overload fits. -/
def noOverload (cls name : String) (args : List Ty) : Except Failure Signature :=
  (Fault.undeclaredMethod cls (Signature.ofKey name args).text).raise

/-- The method that a call of `name` on an object of class `cls` means. -/
def resolveMethod (t : ClassTable) (cls name : String) (args : List Ty) :
    Except Failure Signature :=
  if t.contains cls then
    match t.overloadAlong name args (t.lineage cls) with
    | .error e => .error e
    | .ok (some s) => .ok s
    | .ok none => noOverload cls name args
  else (Misuse.unregisteredClass "resolve_method" cls).raise

/-- The constructor that creating an object of class `cls` means. -/
def resolveConstructor (t : ClassTable) (cls : String) (args : List Ty) :
    Except Failure Signature :=
  match t.find? cls with
  | none => (Misuse.unregisteredClass "resolve_constructor" cls).raise
  | some c =>
    match t.overloadIn c constructorName args with
    | .error e => .error e
    | .ok (some s) => .ok s
    | .ok none => noOverload cls constructorName args

end ClassTable

end ClassLang
