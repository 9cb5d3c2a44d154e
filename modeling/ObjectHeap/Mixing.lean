import ObjectHeap.Digest

/-! # A mixing digest

The digest that programs run with. Each step of `mix` can be undone, so that different
words have different digests.
-/

namespace ObjectHeap.Mixing

/-- Spreads every bit of a word over the whole word. -/
def mix (z : UInt64) : UInt64 :=
  let z := (z ^^^ (z >>> 30)) * 0xbf58476d1ce4e5b9
  let z := (z ^^^ (z >>> 27)) * 0x94d049bb133111eb
  z ^^^ (z >>> 31)

instance : Digest where
  word w := mix (w + 0x9e3779b97f4a7c15)
  slice count bytes :=
    bytes.foldl (fun acc b => mix (acc + b.toUInt64 + 0x452821e638d01377))
      (mix (UInt64.ofNat count + 0x13198a2e03707344))
  pair a b := mix (mix (a + 0xa4093822299f31d0) + b)

end ObjectHeap.Mixing
