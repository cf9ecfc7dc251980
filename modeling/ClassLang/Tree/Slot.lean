/-!
# Slots

A slot is a place in the tree for something the checker finds out: empty in a tree as it was read,
filled when the node has been checked. Slots are no part of what a tree says, so they never make
two trees differ.
-/

namespace ClassLang

/-- A place in the tree that the checker fills. -/
inductive Slot (α : Type) where
  | empty
  | filled (a : α)
deriving DecidableEq

namespace Slot

variable {α : Type}

instance : Inhabited (Slot α) := ⟨empty⟩

def get? : Slot α → Option α
  | empty => none
  | filled a => some a

def ofOption : Option α → Slot α
  | none => empty
  | some a => filled a

def isFilled (s : Slot α) : Bool := s.get?.isSome

/-- What a slot holds, in the words of `say`. -/
def text (say : α → String) : Slot α → String
  | empty => "_"
  | filled a => say a

/-- Slots count as alike, whatever they hold. -/
def alike (_ _ : Slot α) : Bool := true

end Slot

end ClassLang
