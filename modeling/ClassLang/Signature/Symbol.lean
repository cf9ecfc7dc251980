import ClassLang.Hash.Xxh64
import ClassLang.Signature

/-!
# Symbols of overloads

Overloads share a name, so the text the compiler writes names each by a symbol: the name and a hash
of the signature's key. What is hashed is `hashInput`, the name and the names of the parameter
types with a byte between them that no UTF-8 text contains.
-/

namespace ClassLang

/-- The UTF-8 bytes of a text. -/
def utf8 (s : String) : List UInt8 := s.toList.flatMap String.utf8EncodeChar

/-- The last 4 bits of a number as a digit. -/
def hexDigit (n : UInt64) : Char :=
  "0123456789abcdef".toList.getD (n &&& 15).toNat '0'

/-- A 64-bit number in sixteen hexadecimal digits. -/
def hex16 (n : UInt64) : String :=
  String.ofList ((List.range 16).reverse.map fun i => hexDigit (n >>> (4 * i).toUInt64))

namespace Signature

/-- Stands between the parts of a hash input; it occurs in no UTF-8 text. -/
def separator : UInt8 := 0xFF

/-- The bytes a signature is hashed by. -/
def hashInput (s : Signature) : List UInt8 :=
  utf8 s.name ++ s.params.flatMap fun t => separator :: utf8 t.name

def hash (s : Signature) : UInt64 := xxh64 0 s.hashInput

/-- The name of an overload in the text the compiler writes. -/
def symbol (s : Signature) : String := s.name ++ "_" ++ hex16 s.hash

end Signature

end ClassLang
