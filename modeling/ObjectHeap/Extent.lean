/-! # Extents

A run of arena bytes, given by its first byte and its length.
-/

namespace ObjectHeap

/-- A contiguous run of arena bytes. -/
structure Extent where
  offset : Nat
  len : Nat
deriving DecidableEq

namespace Extent

def stop (e : Extent) : Nat := e.offset + e.len

end Extent

end ObjectHeap
