import ClassLang.Outcome

/-!
# Written text

The text written so far and the indentation of the next line. Text is only ever added.
-/

namespace ClassLang

/-- The text written so far, and how many tabs the next line starts with. -/
structure Output where
  text : String := ""
  indent : Nat := 0
deriving DecidableEq

namespace Output

def empty : Output := {}

instance : Inhabited Output := ⟨empty⟩

/-- Writes a line at the indentation reached. -/
def line (o : Output) (s : String) : Output :=
  { o with text := o.text ++ String.ofList (List.replicate o.indent '\t') ++ s ++ "\n" }

/-- Ends the line that was begun; at the start of a line, leaves an empty one. -/
def newline (o : Output) : Output := { o with text := o.text ++ "\n" }

def deeper (o : Output) : Output := { o with indent := o.indent + 1 }

def shallower (o : Output) : Output := { o with indent := o.indent - 1 }

/-- Writes something between braces, one tab further in. A failure in between leaves the braces
open and the indentation as it is. -/
def braced (write : Step Output Unit) : Step Output Unit := fun o =>
  (write (o.line "\x7b").deeper).andThen id fun _ o => .ok () (o.shallower.line "\x7d")

@[simp] theorem indent_line (o : Output) (s : String) : (o.line s).indent = o.indent := rfl

@[simp] theorem indent_newline (o : Output) : o.newline.indent = o.indent := rfl

@[simp] theorem shallower_deeper (o : Output) : o.deeper.shallower = o := rfl

end Output

end ClassLang
