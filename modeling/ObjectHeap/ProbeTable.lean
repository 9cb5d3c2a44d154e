import ObjectHeap.Arena
import ObjectHeap.Binary64
import ObjectHeap.Value

/-! # Probed tables

Storage shared by dicts, sets and frozen sets: a power-of-two number of slots, each
empty, deleted or occupied. A key is looked for from the slot that its hash names
onwards, around the end, until an empty slot is met. A removed entry leaves a
*tombstone*, so that keys beyond it stay in reach; a rehash drops the tombstones.
Hashes are given by the caller.
-/

namespace ObjectHeap

/-- One slot of a table. -/
inductive Entry where
  | empty
  | deleted
  | occupied (hash : UInt64) (key value : Value)
deriving DecidableEq

/-- The answer to a search. -/
inductive Probe where
  /-- The slot that holds the key. -/
  | found (index : Nat)
  /-- The slot that would take the key: the first tombstone on the way, else the empty slot
  that ended the search. -/
  | vacant (index : Nat)
  /-- Every slot is occupied, none by the key. -/
  | full
deriving DecidableEq

/-- A table with counts of its occupied and its deleted slots. A table that keeps no values
is a set. -/
structure ProbeTable where
  entries : Array Entry
  size : Nat
  tombstones : Nat
  keepsValues : Bool
deriving DecidableEq

/-- The least power of two that is not below `n`. -/
def leastPower (n : Nat) : Nat := if n ≤ 1 then 1 else 1 <<< ((n - 1).log2 + 1)

namespace ProbeTable

def blank (slots : Nat) (keepsValues : Bool) : ProbeTable :=
  { entries := Array.replicate slots .empty, size := 0, tombstones := 0, keepsValues }

/-- The least power of two that is not below `n`, if 64 bits can count it. -/
def powerOfTwo? (n : Nat) : Option Nat :=
  if leastPower n < span64 then some (leastPower n) else none

/-- An empty table with at least `capacity` slots. -/
def withCapacity (capacity : Nat) (keepsValues : Bool) : Except Fault ProbeTable :=
  match powerOfTwo? capacity with
  | some slots => .ok (blank slots keepsValues)
  | none => .error .arithmetic

/-- The quotient `elements / load`, rounded to a float and then up to a whole number. Nothing
if that is infinite. A load that is no positive number asks for no slots. -/
def slotsNeeded? (elements : Nat) (load : Binary64) : Option Nat :=
  if load.isNaN || elements == 0 || load.isNegative || load.isInfinite then some 0
  else if load.magnitude = 0 then none
  else
    let amount := Binary64.roundQuotient elements 1
    some (Binary64.roundQuotient amount.magnitude load.magnitude).ceil

/-- The least power-of-two slot count that holds `elements` under `load` with a slot to
spare, and is not below `least`. Nothing if 64 bits cannot count it. -/
def capacityFor? (elements : Nat) (load : Binary64) (least : Nat) : Option Nat := do
  let needed ← slotsNeeded? elements load
  if span64 ≤ needed then none else powerOfTwo? (max (needed + 1) least)

def capacity (t : ProbeTable) : Nat := t.entries.size

def isEmpty (t : ProbeTable) : Bool := t.size == 0

/-- Whether one more insertion would use more than the fraction `load` of the slots. A float
times a power of two is exact, so the comparison is one of whole numbers. -/
def needsRehash (t : ProbeTable) (load : Binary64) : Bool :=
  !load.isNaN && (t.capacity : Int) * load.steps < (t.size + t.tombstones + 1 : Nat) * Binary64.unit

/-- The slot at which the search for a hash starts. -/
def home (t : ProbeTable) (hash : UInt64) : Nat := hash.toNat % t.capacity

/-- The slot after a slot, around the end. -/
def next (t : ProbeTable) (index : Nat) : Nat := (index + 1) % t.capacity

/-- Searches up to `steps` slots from `index` on; `spare` is the first tombstone met before. -/
def probeFrom (t : ProbeTable) (hash : UInt64) (same : Value → Except Fault Bool) :
    (steps index : Nat) → (spare : Option Nat) → Except Fault Probe
  | 0, _, some spare => .ok (.vacant spare)
  | 0, _, none => .ok .full
  | steps + 1, index, spare =>
    match t.entries[index]? with
    | none => .error .outOfBounds
    | some .empty => .ok (.vacant (spare.getD index))
    | some .deleted => t.probeFrom hash same steps (t.next index) (spare.or (some index))
    | some (.occupied stored key _) => do
      if stored = hash then
        if ← same key then
          return .found index
      t.probeFrom hash same steps (t.next index) spare

/-- Looks for a key with the given hash for which `same` holds. -/
def probe (t : ProbeTable) (hash : UInt64) (same : Value → Except Fault Bool) :
    Except Fault Probe :=
  t.probeFrom hash same t.capacity (t.home hash) none

/-- The slot at an index. -/
def entry (t : ProbeTable) (index : Nat) : Except Fault Entry :=
  match t.entries[index]? with
  | some entry => .ok entry
  | none => .error .outOfBounds

/-- Fills a slot that is not occupied. -/
def occupy (t : ProbeTable) (index : Nat) (hash : UInt64) (key value : Value) :
    Except Fault ProbeTable := do
  let entries := t.entries.setIfInBounds index (.occupied hash key value)
  match ← t.entry index with
  | .empty => return { t with entries, size := t.size + 1 }
  | .deleted => return { t with entries, size := t.size + 1, tombstones := t.tombstones - 1 }
  | .occupied .. => .error (.slotOccupied index)

/-- Changes the value at an occupied slot, and nothing at any other. -/
def replaceValue (t : ProbeTable) (index : Nat) (value : Value) : Except Fault ProbeTable := do
  match ← t.entry index with
  | .occupied hash key _ =>
    return { t with entries := t.entries.setIfInBounds index (.occupied hash key value) }
  | _ => return t

/-- Turns an occupied slot into a tombstone and gives its key and value. -/
def remove (t : ProbeTable) (index : Nat) :
    Except Fault (Option (Value × Value) × ProbeTable) := do
  match ← t.entry index with
  | .occupied _ key value =>
    return (some (key, value),
      { t with
        entries := t.entries.setIfInBounds index .deleted
        size := t.size - 1
        tombstones := t.tombstones + 1 })
  | _ => return (none, t)

/-- Looks for a key by its word. -/
def probeWord (t : ProbeTable) (hash : UInt64) (key : Value) : Except Fault Probe :=
  t.probe hash fun k => .ok (k == key)

/-- Adds an entry, or changes the value of the one with the same hash and word. A full table
stays as it is. Gives what the search found as well. -/
def insert (t : ProbeTable) (hash : UInt64) (key value : Value) :
    Except Fault (Probe × ProbeTable) := do
  match ← t.probeWord hash key with
  | .vacant index => return (.vacant index, ← t.occupy index hash key value)
  | .found index => return (.found index, ← t.replaceValue index value)
  | .full => return (.full, t)

/-- Removes the entry with a hash and word, if it is there. Gives what the search found and
the key and value removed as well. -/
def delete (t : ProbeTable) (hash : UInt64) (key : Value) :
    Except Fault (Probe × Option (Value × Value) × ProbeTable) := do
  match ← t.probeWord hash key with
  | .found index => return (.found index, ← t.remove index)
  | other => return (other, none, t)

/-- The hash, key and value of each occupied slot, in slot order. -/
def toList (t : ProbeTable) : List (UInt64 × Value × Value) :=
  t.entries.toList.filterMap fun
    | .occupied hash key value => some (hash, key, value)
    | _ => none

/-- The first empty slot among `steps` slots from `index` on. -/
def emptyFrom? (t : ProbeTable) : (steps index : Nat) → Option Nat
  | 0, _ => none
  | steps + 1, index =>
    match t.entries[index]? with
    | some .empty => some index
    | _ => t.emptyFrom? steps (t.next index)

/-- Puts an entry into the first empty slot from its home on. -/
def settle (t : ProbeTable) (hash : UInt64) (key value : Value) : ProbeTable :=
  match t.emptyFrom? t.capacity (t.home hash) with
  | some index =>
    { t with entries := t.entries.setIfInBounds index (.occupied hash key value),
             size := t.size + 1 }
  | none => t

/-- The same entries in a table of at least `capacity` slots, without tombstones. The new table
must have a slot to spare. -/
def rehashed (t : ProbeTable) (capacity : Nat) : Except Fault ProbeTable := do
  let fresh ← withCapacity capacity t.keepsValues
  require (t.size < fresh.capacity) .misfit
  return t.toList.foldl (fun table (hash, key, value) => table.settle hash key value) fresh

/-- The first occupied slot at or after `start`, with its key and value. -/
def nextOccupied? (t : ProbeTable) (start : Nat) : Option (Nat × Value × Value) :=
  go (t.capacity - start) start
where
  /-- Looks at `steps` slots from `index` on. -/
  go : (steps index : Nat) → Option (Nat × Value × Value)
    | 0, _ => none
    | steps + 1, index =>
      match t.entries[index]? with
      | some (.occupied _ key value) => some (index, key, value)
      | _ => go steps (index + 1)

/-- The values a table refers to: each key, followed by its value if values are kept. -/
def edges (t : ProbeTable) : List Value :=
  t.toList.flatMap fun (_, key, value) => if t.keepsValues then [key, value] else [key]

end ProbeTable

end ObjectHeap
