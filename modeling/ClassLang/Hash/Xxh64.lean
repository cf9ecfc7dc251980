/-!
# The XXH64 hash

`xxh64 seed bytes` is the 64-bit xxHash of a byte string. The bytes are read as little-endian words
of eight; whole stripes of four words go through four lanes, what is left over goes into the
accumulator word by word, then as one half word if there is one, then byte by byte.
-/

namespace ClassLang

namespace Xxh64

def prime1 : UInt64 := 0x9E3779B185EBCA87
def prime2 : UInt64 := 0xC2B2AE3D27D4EB4F
def prime3 : UInt64 := 0x165667B19E3779F9
def prime4 : UInt64 := 0x85EBCA77C2B2AE63
def prime5 : UInt64 := 0x27D4EB2F165667C5

def rotateLeft (x n : UInt64) : UInt64 := (x <<< n) ||| (x >>> (64 - n))

/-- The number whose bytes are given, lowest first. -/
def littleEndian : List UInt8 → UInt64
  | [] => 0
  | b :: rest => b.toUInt64 ||| (littleEndian rest <<< 8)

/-- The words of eight bytes at the front, and the fewer than eight bytes after them. -/
def words : List UInt8 → List UInt64 × List UInt8
  | a :: b :: c :: d :: e :: f :: g :: h :: rest =>
    let (ws, tail) := words rest
    (littleEndian [a, b, c, d, e, f, g, h] :: ws, tail)
  | tail => ([], tail)

/-- One word mixed into a lane. -/
def mix (lane word : UInt64) : UInt64 := rotateLeft (lane + word * prime2) 31 * prime1

/-- The four lanes that a stripe of four words goes through. -/
structure Lanes where
  a : UInt64
  b : UInt64
  c : UInt64
  d : UInt64

namespace Lanes

def start (seed : UInt64) : Lanes := ⟨seed + prime1 + prime2, seed + prime2, seed, seed - prime1⟩

/-- Every whole stripe mixed in; the words that fill no stripe are left over. -/
def absorb (l : Lanes) : List UInt64 → Lanes × List UInt64
  | w :: x :: y :: z :: rest => absorb ⟨mix l.a w, mix l.b x, mix l.c y, mix l.d z⟩ rest
  | rest => (l, rest)

/-- One lane merged into the accumulator. -/
def merge (acc lane : UInt64) : UInt64 := (acc ^^^ mix 0 lane) * prime1 + prime4

def combine (l : Lanes) : UInt64 :=
  let acc := rotateLeft l.a 1 + rotateLeft l.b 7 + rotateLeft l.c 12 + rotateLeft l.d 18
  merge (merge (merge (merge acc l.a) l.b) l.c) l.d

end Lanes

def addWord (acc word : UInt64) : UInt64 :=
  rotateLeft (acc ^^^ mix 0 word) 27 * prime1 + prime4

def addHalf (acc half : UInt64) : UInt64 :=
  rotateLeft (acc ^^^ (half * prime1)) 23 * prime2 + prime3

def addByte (acc : UInt64) (byte : UInt8) : UInt64 :=
  rotateLeft (acc ^^^ (byte.toUInt64 * prime5)) 11 * prime1

/-- The bytes after the last whole word: four together if there are as many, the rest singly. -/
def addTail (acc : UInt64) : List UInt8 → UInt64
  | a :: b :: c :: d :: rest => rest.foldl addByte (addHalf acc (littleEndian [a, b, c, d]))
  | rest => rest.foldl addByte acc

/-- The last mixing, which spreads every bit of the accumulator over the result. -/
def avalanche (acc : UInt64) : UInt64 :=
  let acc := (acc ^^^ (acc >>> 33)) * prime2
  let acc := (acc ^^^ (acc >>> 29)) * prime3
  acc ^^^ (acc >>> 32)

end Xxh64

open Xxh64 in
/-- The 64-bit xxHash of a byte string. -/
def xxh64 (seed : UInt64) (bytes : List UInt8) : UInt64 :=
  let (ws, tail) := words bytes
  let (lanes, left) := (Lanes.start seed).absorb ws
  let acc := if ws.length < 4 then seed + prime5 else lanes.combine
  avalanche (addTail (left.foldl addWord (acc + bytes.length.toUInt64)) tail)

end ClassLang
