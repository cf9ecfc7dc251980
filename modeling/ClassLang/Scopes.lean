import ClassLang.NameMap
import ClassLang.Outcome
import ClassLang.Ty

/-!
# Scopes

The names declared in a method, frame within frame. A name means what the innermost frame that has
it says; declaring it again in the same frame replaces it there.
-/

namespace ClassLang

/-- The open frames, innermost first. -/
structure Scopes where
  frames : List (NameMap Entity) := []
deriving DecidableEq

namespace Scopes

def empty : Scopes := {}

instance : Inhabited Scopes := ⟨empty⟩

def depth (s : Scopes) : Nat := s.frames.length

/-- Opens an empty frame. -/
def push (s : Scopes) : Scopes := ⟨.empty :: s.frames⟩

/-- Closes the innermost frame. -/
def pop : Step Scopes Unit
  | ⟨[]⟩ => .error (.misuse .emptyScopeStack) ⟨[]⟩
  | ⟨_ :: rest⟩ => .ok () ⟨rest⟩

/-- Declares a name in the innermost frame; answers with what stood under it there. -/
def declare (name : String) (e : Entity) : Step Scopes (Option Entity)
  | ⟨[]⟩ => .error (.misuse .emptyScopeStack) ⟨[]⟩
  | ⟨frame :: rest⟩ => .ok (frame.get? name) ⟨frame.insert name e :: rest⟩

/-- What a name means. -/
def lookup (s : Scopes) (name : String) : Option Entity := s.frames.findSome? (·.get? name)

@[simp] theorem lookup_push (s : Scopes) (name : String) : s.push.lookup name = s.lookup name := rfl

@[simp] theorem depth_push (s : Scopes) : s.push.depth = s.depth + 1 := rfl

end Scopes

end ClassLang
