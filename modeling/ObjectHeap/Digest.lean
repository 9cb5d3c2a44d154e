/-! # Digests

The hash function behind key hashing. Nothing in the library depends on which function it
is, so it is a parameter: a number for a word, for a pair of numbers, and for a slice of
elements given by its element count and its bytes.
-/

namespace ObjectHeap

/-- A hash function on words, slices and pairs. -/
class Digest where
  word : UInt64 → UInt64
  slice : (count : Nat) → (bytes : List UInt8) → UInt64
  pair : UInt64 → UInt64 → UInt64

namespace Digest

/-- A signed integer is hashed as its 64 bits. -/
def int [Digest] (n : Int64) : UInt64 := word n.toUInt64

/-- A count is hashed as its 64 bits. -/
def count [Digest] (n : Nat) : UInt64 := word (UInt64.ofNat n)

/-- Bytes are hashed by their number and their values. -/
def bytes [Digest] (data : List UInt8) : UInt64 := slice data.length data

/-- The two bytes of a 16-bit unit, low byte first. -/
def unitBytes (u : UInt16) : List UInt8 :=
  [UInt8.ofNat (u.toNat % 256), UInt8.ofNat (u.toNat / 256)]

/-- Units of 16 bits are hashed by their number and their bytes. -/
def shorts [Digest] (data : List UInt16) : UInt64 :=
  slice data.length (data.flatMap unitBytes)

end Digest

end ObjectHeap
