import ClassLang.Signature
import ClassLang.Span

/-!
# What can go wrong

A `Fault` is an error in the program under compilation; a `Misuse` is a call that the compiler's
own parts should not have made, such as leaving a method that was never entered. A `Failure` is
one of them, a fault with the place it was found at. `text` is what a reader gets to see.

A fault is raised without a place. On its way out through the tree each node offers its own, and
the first known one stays (`Failure.locate`), so it is the innermost.
-/

namespace ClassLang

/-- An error in the program under compilation. -/
inductive Fault where
  | duplicateClass (name : String)
  | duplicateMember (cls member : String)
  | duplicateMethod (cls method : String)
  | unknownType (name : String)
  | undeclaredVariable (name : String)
  | undeclaredMember (cls member : String)
  | notAVariable (name : String)
  | notAMethod (cls method : String)
  | undeclaredMethod (cls method : String)
  | ambiguousCall (cls method candidates : String)
  | invalidOperands (rule : String)
  | typeMismatch (message : String)
deriving DecidableEq

namespace Fault

def text : Fault → String
  | duplicateClass name => s!"duplicate class declaration '{name}'"
  | duplicateMember cls member => s!"duplicate member '{member}' in class '{cls}'"
  | duplicateMethod cls method => s!"duplicate method '{method}' in class '{cls}'"
  | unknownType name => s!"invalid reference to unknown type '{name}'"
  | undeclaredVariable name => s!"undeclared variable '{name}'"
  | undeclaredMember cls member => s!"undeclared member '{member}' in class '{cls}'"
  | notAVariable name => s!"'{name}' is not a variable"
  | notAMethod cls method => s!"'{method}' in class '{cls}' is not a method"
  | undeclaredMethod cls method => s!"undeclared method '{method}' in class '{cls}'"
  | ambiguousCall cls method candidates =>
    s!"ambiguous overloaded call of '{method}' in class '{cls}': could be {candidates}"
  | invalidOperands rule => s!"invalid operands to operator: {rule}"
  | typeMismatch message => message

/-! ### Mismatches of types -/

def mustBe (actual expected : Ty) : Fault :=
  typeMismatch s!"type '{actual.name}' must be '{expected.name}'"

def mustDeriveFrom (actual expected : Ty) : Fault :=
  typeMismatch s!"type '{actual.name}' must be '{expected.name}' or derive from it"

def voidStorage (name : String) : Fault := typeMismatch s!"'{name}' cannot have type 'void'"

def notAClass (object : String) (ty : Ty) : Fault :=
  typeMismatch s!"'{object}' has type '{ty.name}', which is not a class"

def notInstantiable (ty : Ty) : Fault :=
  typeMismatch s!"cannot instantiate built-in type '{ty.name}'"

def notAssignable (target : String) : Fault := typeMismatch s!"cannot assign to '{target}'"

def voidReturn (value : String) : Fault := typeMismatch s!"void method cannot return '{value}'"

def missingReturn (expected : Ty) : Fault :=
  typeMismatch s!"method must return a value of type '{expected.name}'"

def notPrintable (ty : Ty) : Fault := typeMismatch s!"cannot print a value of type '{ty.name}'"

end Fault

/-- A call that breaks the order in which the compiler's parts are to be used. -/
inductive Misuse where
  | noCurrentClass (operation : String)
  | noCurrentMethod (operation : String)
  | nestedClass (name opened : String)
  | nestedMethod (name opened : String)
  | methodStillOpen (opened : String)
  | emptyScopeStack
  | unregisteredClass (operation name : String)
  | unresolvedCall (method : String)
  | unresolvedSignature (cls method : String)
deriving DecidableEq

def Misuse.text : Misuse → String
  | noCurrentClass operation => s!"{operation}: no current class"
  | noCurrentMethod operation => s!"{operation}: no current method"
  | nestedClass name opened => s!"cannot enter class '{name}' while class '{opened}' is open"
  | nestedMethod name opened => s!"cannot enter method '{name}' while method '{opened}' is open"
  | methodStillOpen opened => s!"cannot leave class while method '{opened}' is open"
  | emptyScopeStack => "scope stack is empty"
  | unregisteredClass operation name => s!"{operation}: no class '{name}'"
  | unresolvedCall method => s!"call to '{method}' has no resolved binding"
  | unresolvedSignature cls method => s!"definition of '{cls}::{method}' has no resolved signature"

/-- Why a step did not succeed. -/
inductive Failure where
  | fault (what : Fault) (span : Span)
  | misuse (what : Misuse)
deriving DecidableEq

namespace Failure

/-- A fault whose place is not known yet. -/
def ofFault (f : Fault) : Failure := fault f .unknown

def isFault : Failure → Bool
  | fault .. => true
  | misuse _ => false

/-- The place of a fault, if it is known. -/
def span? : Failure → Option Span
  | fault _ span => if span.isUnknown then none else some span
  | misuse _ => none

/-- What went wrong, without where. -/
def reason : Failure → String
  | fault f _ => f.text
  | misuse m => m.text

def text : Failure → String
  | fault f span => if span.isUnknown then f.text else s!"at {span.text}: {f.text}"
  | misuse m => s!"internal error: {m.text}"

/-- Puts a fault without a known place at `place`. -/
def locate (place : Span) : Failure → Failure
  | fault f span => if span.isUnknown then fault f place else fault f span
  | misuse m => misuse m

@[simp] theorem locate_misuse (place : Span) (m : Misuse) : (misuse m).locate place = misuse m := rfl

theorem locate_of_known {place span : Span} (f : Fault) (h : span.isUnknown = false) :
    (fault f span).locate place = fault f span := by
  simp [locate, h]

theorem locate_of_unknown {place span : Span} (f : Fault) (h : span.isUnknown = true) :
    (fault f span).locate place = fault f place := by
  simp [locate, h]

@[simp] theorem isFault_locate (place : Span) (e : Failure) :
    (e.locate place).isFault = e.isFault := by
  cases e with
  | fault f span => simp only [locate]; split <;> rfl
  | misuse m => rfl

end Failure

/-- A fault, raised where no place is known. -/
def Fault.raise {α : Type} (f : Fault) : Except Failure α := .error (.ofFault f)

def Misuse.raise {α : Type} (m : Misuse) : Except Failure α := .error (.misuse m)

end ClassLang
