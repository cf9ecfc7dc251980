/-!
# Operators

The operators of the language, and the symbols they are written with. A symbol is read back as the
operator it was written for.
-/

namespace ClassLang

inductive BinOp where
  | add
  | sub
  | mul
  | div
  | eq
  | ne
  | and
  | or
deriving DecidableEq

namespace BinOp

def symbol : BinOp → String
  | add => "+"
  | sub => "-"
  | mul => "*"
  | div => "/"
  | eq => "=="
  | ne => "!="
  | and => "&&"
  | or => "||"

def all : List BinOp := [add, sub, mul, div, eq, ne, and, or]

def ofSymbol? (s : String) : Option BinOp := all.find? (·.symbol == s)

theorem ofSymbol?_symbol (op : BinOp) : ofSymbol? op.symbol = some op := by
  cases op <;> decide

end BinOp

inductive UnOp where
  | neg
  | not
deriving DecidableEq

namespace UnOp

def symbol : UnOp → String
  | neg => "-"
  | not => "!"

def all : List UnOp := [neg, not]

def ofSymbol? (s : String) : Option UnOp := all.find? (·.symbol == s)

theorem ofSymbol?_symbol (op : UnOp) : ofSymbol? op.symbol = some op := by
  cases op <;> decide

end UnOp

end ClassLang
