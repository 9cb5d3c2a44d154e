import ObjectHeap.Heap.Collect

/-! # Allocation

A block is allocated from the arena. If the arena has no room, one collection is run
and the request is tried once more. A request for more than the whole arena is refused
at once.
-/

namespace ObjectHeap.Heap

/-- Takes an extent off the arena, if there is room. -/
def tryReserve (size : Nat) : HeapM (Option Extent) := do
  let h ← get
  match ← h.arena.reserve size with
  | some (extent, arena) =>
    set { h with arena }
    return some extent
  | none => return none

/-- Reserves an extent, with a collection if need be. -/
def reserve (roots : List Value) (size : Nat) (awaited : List Value) : HeapM Extent := do
  if let some extent ← tryReserve size then return extent
  let h ← get
  if h.settings.heapSize < size then throw (.refused (h.outOfMemory size))
  let (_, collected) ← h.cycle roots awaited
  set collected
  match ← tryReserve size with
  | some extent => return extent
  | none => throw (.refused (collected.outOfMemory size))

/-- Puts a block into a free slot, or into a new one if there is none. -/
def install (block : Block) : HeapM Value :=
  modifyGet fun h =>
    let liveObjects := h.liveObjects + 1
    match h.freeSlots with
    | slot :: freeSlots =>
      (Value.ofSlot slot,
        { h with slots := h.slots.setIfInBounds slot (some block), freeSlots, liveObjects })
    | [] =>
      (Value.ofSlot h.slots.size, { h with slots := h.slots.push (some block), liveObjects })

/-- A new block of a kind. The values that its payload refers to are kept alive. -/
def allocate (roots : List Value) (kind : Kind) (body : Body) : HeapM Value := do
  require (body.fits kind) .misfit
  let extent ← reserve roots body.blockSize body.edges
  install ⟨← Header.new kind extent, body⟩

/-- Gives the block in a slot an extent of `size` bytes and the payload that `grow` makes of
the one it has. The block and the operands of the operation at hand are kept alive. -/
def resize (roots : List Value) (slot : Nat) (operands : List Value) (size : Nat)
    (grow : Body → Except Fault Body) : HeapM Unit := do
  let old := (← (← get).block slot).header.extent
  let extent ← protecting (Value.ofSlot slot :: operands) (reserve roots size [])
  let h ← get
  let block ← h.block slot
  let arena ← h.arena.release old
  let body ← grow block.body
  require (body.blockSize = size) .misfit
  set ({ h with arena }.modifyBlock slot fun b =>
    ⟨{ b.header with extent }, body⟩)

end ObjectHeap.Heap
