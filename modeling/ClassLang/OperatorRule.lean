import ClassLang.Failure
import ClassLang.Tree.Operator

/-!
# Rules of the operators

An operator is typed like a call of an overloaded method: by the signatures listed here, with no
widening. Arithmetic is on `int`; equality and the logical connectives take two of `int` or two of
`bool` and give a `bool`.
-/

namespace ClassLang

def BinOp.rules (op : BinOp) : List Signature :=
  match op with
  | .add | .sub | .mul | .div => [⟨op.symbol, [.int, .int], .int⟩]
  | .eq | .ne | .and | .or =>
    [⟨op.symbol, [.int, .int], .bool⟩, ⟨op.symbol, [.bool, .bool], .bool⟩]

def UnOp.rules (op : UnOp) : List Signature :=
  match op with
  | .neg => [⟨op.symbol, [.int], .int⟩]
  | .not => [⟨op.symbol, [.bool], .bool⟩]

/-- The rule an application of the operator is looked up by. -/
def BinOp.key (op : BinOp) (lhs rhs : Ty) : Signature := .ofKey op.symbol [lhs, rhs]

def UnOp.key (op : UnOp) (operand : Ty) : Signature := .ofKey op.symbol [operand]

/-- All rules. -/
def operatorRules : List Signature :=
  BinOp.all.flatMap BinOp.rules ++ UnOp.all.flatMap UnOp.rules

/-- The type that the rule with the given key gives. -/
def ruleType? (key : Signature) : Option Ty :=
  (operatorRules.find? (·.sameKey key)).map Signature.ret

def ruleType (key : Signature) : Except Failure Ty :=
  match ruleType? key with
  | some ty => .ok ty
  | none => (Fault.invalidOperands key.text).raise

end ClassLang
