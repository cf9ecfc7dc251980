/-!
# Places in a source text

A `Span` says where a node of the tree was read: line, column and length. Line 0 stands for
"not known", whatever the other two numbers are; trees that were built rather than read carry
`Span.unknown`.
-/

namespace ClassLang

/-- A place in a source text; lines and columns count from 1. -/
structure Span where
  line : UInt32
  col : UInt32
  len : UInt32
deriving DecidableEq

namespace Span

/-- The place of a node that was not read from a text. -/
def unknown : Span := ⟨0, 0, 0⟩

instance : Inhabited Span := ⟨unknown⟩

/-- A place without extent. -/
def point (line col : UInt32) : Span := ⟨line, col, 0⟩

def isUnknown (s : Span) : Bool := s.line == 0

/-- The place as it is shown to a reader: line and column. -/
def text (s : Span) : String := toString s.line.toNat ++ ":" ++ toString s.col.toNat

end Span

end ClassLang
