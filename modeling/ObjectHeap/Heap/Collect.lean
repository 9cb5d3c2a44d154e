import ObjectHeap.Heap.Mark

/-! # Collection

A collection marks what can be reached and sweeps the rest: the extent of an unmarked
block goes back to the arena and its slot becomes free. Marked blocks are white again
afterwards and are otherwise unchanged.
-/

namespace ObjectHeap

/-- The state of a sweep. -/
structure Sweep where
  slots : Array (Option Block)
  freeSlots : List Nat
  arena : Arena
  freedObjects : Nat
  freedBytes : Nat

namespace Sweep

/-- Frees the block in a slot if it is unmarked, and clears its mark otherwise. -/
def visit (s : Sweep) (slot : Nat) : Except Fault Sweep := do
  match s.slots[slot]?.join with
  | none => return s
  | some block =>
    match block.header.color with
    | .black =>
      return { s with
        slots := s.slots.setIfInBounds slot (some (Marker.painted block .white)) }
    | .grey => .error .misfit
    | .white =>
      require (block.body.blockSize = block.header.size) .misfit
      return {
        slots := s.slots.setIfInBounds slot none
        freeSlots := slot :: s.freeSlots
        arena := ← s.arena.release block.header.extent
        freedObjects := s.freedObjects + 1
        freedBytes := s.freedBytes + block.header.size }

end Sweep

namespace Heap

/-- Sweeps marked slots in slot order. -/
def sweep (h : Heap) (slots : Array (Option Block)) : Except Fault Sweep :=
  (List.range slots.size).foldlM Sweep.visit
    { slots, freeSlots := h.freeSlots, arena := h.arena, freedObjects := 0, freedBytes := 0 }

/-- A full cycle, with `awaited` kept alive besides the roots, the registers and the pinned
blocks. -/
def cycle (h : Heap) (roots awaited : List Value) : Except Fault (CycleReport × Heap) := do
  require (h.phase = .idle) .misfit
  let marker ← { h with phase := .marking }.mark roots awaited
  let swept ← { h with phase := .sweeping }.sweep marker.slots
  let liveObjects := h.liveObjects - swept.freedObjects
  let report : CycleReport :=
    { marked := marker.marked
      freedObjects := swept.freedObjects
      freedBytes := swept.freedBytes
      rescans := marker.rescans
      liveObjects
      freeBytes := swept.arena.freeBytes }
  return (report, { h with
    slots := swept.slots
    freeSlots := swept.freeSlots
    arena := swept.arena
    markStack := marker.stack
    phase := .idle
    liveObjects
    collections := h.collections + 1
    lastCycle := some report })

/-- Collects everything that cannot be reached from the roots, the registers or the pinned
blocks. -/
def collect (roots : List Value) : HeapM CycleReport := do
  let (report, h) ← (← get).cycle roots []
  set h
  return report

end Heap

end ObjectHeap
