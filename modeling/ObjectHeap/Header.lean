import ObjectHeap.Arena

/-! # Block headers

What the collector knows about a block without looking at its payload.
-/

namespace ObjectHeap

/-- The mark of a block: white blocks are unvisited, grey ones are reached but their edges
are not followed yet, black ones are done. -/
inductive Color where
  | white
  | grey
  | black
deriving DecidableEq

/-- The metadata of a block. The length of the extent is the size of the whole block, so a
sweep can give it back without looking at the payload. -/
structure Header where
  kind : Kind
  color : Color
  pinned : Bool
  extent : Extent
deriving DecidableEq

namespace Header

/-- The header of a new block. Inline kinds have no blocks. -/
def new (kind : Kind) (extent : Extent) : Except Fault Header :=
  if kind.isInline then .error (.neverAllocated kind)
  else .ok { kind, color := .white, pinned := false, extent }

def size (h : Header) : Nat := h.extent.len

end Header

end ObjectHeap
