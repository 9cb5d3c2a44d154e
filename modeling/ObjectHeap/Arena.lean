import ObjectHeap.Outcome

/-! # Free space of the arena

The arena is the range of byte offsets `[0, size)`. What no block owns is kept as a
list of free extents in increasing order. A request takes the front of the lowest
extent that is long enough, and a returned extent is joined with its neighbours.
Offsets are 32-bit numbers.
-/

namespace ObjectHeap

/-- The number of 32-bit words. -/
def span32 : Nat := 4294967296

/-- The number of 64-bit words. -/
def span64 : Nat := 18446744073709551616

/-- The end of an extent as a 32-bit number. -/
def Extent.stop32 (e : Extent) : Except Fault Nat := within span32 e.stop

/-- The free extents, lowest first, and the number of free bytes. -/
structure Arena where
  extents : List Extent
  freeBytes : Nat
deriving DecidableEq

namespace Arena

/-- An arena in which every byte is free. -/
def new (size : Nat) : Arena :=
  { extents := if size = 0 then [] else [⟨0, size⟩], freeBytes := size }

/-- The number of free extents. -/
def fragments (a : Arena) : Nat := a.extents.length

/-- The length of the longest free extent. -/
def largest (a : Arena) : Nat := a.extents.foldl (fun n e => max n e.len) 0

/-- What is left of a free extent once `size` bytes are taken off its front. -/
def trim (e : Extent) (size : Nat) : Except Fault (List Extent) := do
  if e.len = size then return []
  return [⟨← within span32 (e.offset + size), e.len - size⟩]

/-- Takes `size` bytes off the first extent that has them. Gives the extent taken and the
extents left, or nothing if all are shorter. -/
def takeFirst (size : Nat) : List Extent → Except Fault (Option (Extent × List Extent))
  | [] => .ok none
  | e :: rest => do
    if size ≤ e.len then
      return some (⟨e.offset, size⟩, (← trim e size) ++ rest)
    match ← takeFirst size rest with
    | some (taken, left) => return some (taken, e :: left)
    | none => return none

/-- First fit: reserves `size` bytes at the lowest offset that has them. No request for zero
bytes, and none for more than 32 bits can count, is met. -/
def reserve (a : Arena) (size : Nat) : Except Fault (Option (Extent × Arena)) := do
  if size = 0 ∨ span32 ≤ size then return none
  match ← takeFirst size a.extents with
  | some (taken, left) => return some (taken, ⟨left, a.freeBytes - size⟩)
  | none => return none

/-- Puts `e` in front of the extents above it, joined with the first of them if they touch. -/
def joinAbove (e : Extent) : List Extent → Except Fault (List Extent)
  | [] => .ok [e]
  | above :: rest => do
    let stop ← e.stop32
    require (stop ≤ above.offset) (.overlap e)
    if stop = above.offset then
      return ⟨e.offset, ← within span32 (e.len + above.len)⟩ :: rest
    return e :: above :: rest

/-- Puts `below` in front of extents that start with `e` or an extension of it, joined with
the first of them if it touches `e`. -/
def joinBelow (below e : Extent) : List Extent → Except Fault (List Extent)
  | [] => .ok [below]
  | joined :: rest => do
    if below.stop = e.offset then
      return ⟨below.offset, ← within span32 (below.len + joined.len)⟩ :: rest
    return below :: joined :: rest

/-- Puts `e` among extents in increasing order. The neighbours of `e` may touch it, but
must not overlap it. -/
def insert (e : Extent) : List Extent → Except Fault (List Extent)
  | [] => joinAbove e []
  | x :: rest =>
    if e.offset ≤ x.offset then joinAbove e (x :: rest)
    else
      match rest with
      | [] => atop x []
      | y :: more =>
        if e.offset ≤ y.offset then atop x (y :: more)
        else do return x :: (← insert e (y :: more))
where
  /-- Places `e` between its lower neighbour and the extents above it. -/
  atop (below : Extent) (above : List Extent) : Except Fault (List Extent) := do
    require ((← below.stop32) ≤ e.offset) (.overlap e)
    joinBelow below e (← joinAbove e above)

/-- Returns an extent. An empty one changes nothing. -/
def release (a : Arena) (e : Extent) : Except Fault Arena := do
  if e.len = 0 then return a
  return ⟨← insert e a.extents, a.freeBytes + e.len⟩

end Arena

end ObjectHeap
