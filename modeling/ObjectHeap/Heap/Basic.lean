import ObjectHeap.Body
import ObjectHeap.Number
import ObjectHeap.Settings

/-! # The heap

Blocks live in a table of slots, and a reference is the index of a slot. Each block
owns an extent of the arena; what no block owns is free. Objects never move.
Collection runs only from an allocation that cannot be met, or when it is asked for.
Values that must survive a collection are among the roots given to the operation, in
the registers of the heap, or pinned.
-/

namespace ObjectHeap

/-- The phase of the collector. A cycle always runs to its end, so that between operations
the collector is idle. -/
inductive Phase where
  | idle
  | marking
  | sweeping
deriving DecidableEq

/-- What a collection did. -/
structure CycleReport where
  marked : Nat
  freedObjects : Nat
  freedBytes : Nat
  /-- Passes over the slots that a full mark stack made necessary. -/
  rescans : Nat
  liveObjects : Nat
  freeBytes : Nat
deriving DecidableEq

/-- The state of a heap. -/
structure Heap where
  settings : Settings
  /-- A block, or nothing, for each slot ever used. -/
  slots : Array (Option Block)
  /-- The slots without a block, the next one to be used first. -/
  freeSlots : List Nat
  arena : Arena
  registers : Array Value
  markStack : Array Nat
  phase : Phase
  liveObjects : Nat
  /-- The number of cycles so far. It is not bounded: runs are taken to be shorter than the `2 ^ 64`
  cycles that a counter of 64 bits could count. -/
  collections : Nat
  lastCycle : Option CycleReport

/-- A step that may change a heap, be refused or fault. A refusal keeps the state reached. -/
abbrev HeapM (α : Type) : Type := EStateM Stop Heap α

/-- A step that only looks at the heap may be part of one that changes it. -/
instance : MonadLift (Except Stop) (EStateM Stop Heap) where
  monadLift
    | .ok a => pure a
    | .error stop => throw stop

namespace Heap

/-- The most entries that a mark stack can be asked to hold. -/
def markStackLimit : Nat := 2305843009213693952

/-- A heap without blocks. -/
def new (settings : Settings) : Except Stop Heap :=
  match settings.flaw? with
  | some flaw => refuse (.invalidSettings flaw)
  | none => do
    require (settings.markStackSize < markStackLimit) .arithmetic
    return {
      settings
      slots := #[]
      freeSlots := []
      arena := Arena.new settings.heapSize
      registers := #[]
      markStack := #[]
      phase := .idle
      liveObjects := 0
      collections := 0
      lastCycle := none }

def freeBytes (h : Heap) : Nat := h.arena.freeBytes

/-- The number of bytes owned by blocks. -/
def usedBytes (h : Heap) : Nat := h.settings.heapSize - h.arena.freeBytes

/-- The block in a slot, if there is one. -/
def block? (h : Heap) (slot : Nat) : Option Block := h.slots[slot]?.join

/-- The block in a slot. A handle of a slot without a block is a fault. -/
def block (h : Heap) (slot : Nat) : Except Fault Block :=
  match h.block? slot with
  | some block => .ok block
  | none => .error (.dangling slot)

def body (h : Heap) (slot : Nat) : Except Fault Body := Block.body <$> h.block slot

/-- The blocks with their slots, in slot order. -/
def blocks (h : Heap) : List (Nat × Block) :=
  h.slots.toList.zipIdx.filterMap fun (content, slot) => content.map (slot, ·)

/-- Whether a value is inline or refers to a block. -/
def contains (h : Heap) (v : Value) : Bool :=
  match v.slot? with
  | some slot => (h.block? slot).isSome
  | none => true

def kindOf (h : Heap) (v : Value) : Except Fault Kind := do
  match v.slot? with
  | some slot => return (← h.block slot).header.kind
  | none =>
    match ← v.inlineKind? with
    | some kind => return kind
    | none => .error (.malformedTag v.tagBits v.word)

/-- The slot of a value that has to be a block of an accepted kind. -/
def expectSlot (h : Heap) (v : Value) (expected : String) (accept : Kind → Bool) :
    Except Stop Nat := do
  let found ← h.kindOf v
  match v.slot? with
  | some slot => if accept found then return slot else refuse (.typeMismatch expected found)
  | none => refuse (.typeMismatch expected found)

/-- The block of a value that has to be of an accepted kind, with its slot. -/
def expectBlock (h : Heap) (v : Value) (expected : String) (accept : Kind → Bool) :
    Except Stop (Nat × Block) := do
  let slot ← h.expectSlot v expected accept
  return (slot, ← h.block slot)

/-- The refusal of a request for memory. -/
def outOfMemory (h : Heap) (requested : Nat) : Refusal :=
  .outOfMemory requested h.arena.freeBytes h.arena.largest

/-- Admits the size of a block before its payload is built. No size at all stands for one that
64 bits cannot count, and is reported as the largest that they can. -/
def checkSize (h : Heap) (size : Option Nat) : Except Stop Nat :=
  match size with
  | some size =>
    if size ≤ h.settings.heapSize then .ok size else refuse (h.outOfMemory size)
  | none => refuse (h.outOfMemory 18446744073709551615)

/-- Changes the block in a slot, if there is one. -/
def modifyBlock (h : Heap) (slot : Nat) (change : Block → Block) : Heap :=
  { h with slots := h.slots.modify slot (Option.map change) }

def setBody (h : Heap) (slot : Nat) (body : Body) : Heap :=
  h.modifyBlock slot ({ · with body })

/-- Keeps a value alive until the registers are released past it. -/
def protect (h : Heap) (v : Value) : Heap := { h with registers := h.registers.push v }

def registerMark (h : Heap) : Nat := h.registers.size

/-- Releases all registers past the first `mark`. -/
def releaseRegisters (h : Heap) (mark : Nat) : Heap :=
  { h with registers := h.registers.take mark }

/-- Sets or clears the pin of a block. Inline values need none. -/
def setPinned (h : Heap) (v : Value) (pinned : Bool) : Except Fault Heap := do
  match v.slot? with
  | some slot =>
    let _ ← h.block slot
    return h.modifyBlock slot fun b => { b with header := { b.header with pinned } }
  | none => return h

/-- Keeps a block alive across every collection until it is unpinned. -/
def pin (h : Heap) (v : Value) : Except Fault Heap := h.setPinned v true

def unpin (h : Heap) (v : Value) : Except Fault Heap := h.setPinned v false

/-- The numeric view of a value, if it has one. -/
def number? (h : Heap) (v : Value) : Except Fault (Option Number) := do
  match ← v.view with
  | .smallInt n => return some (.int (Int64.ofInt n))
  | .bool b => return some (.int (if b then 1 else 0))
  | .ref slot =>
    match ← h.body slot with
    | .integer n => return some (.int n)
    | .float x => return some (.float x)
    | _ => return none
  | _ => return none

/-- The value of an integer of either width; truth values count as zero and one. -/
def intValue (h : Heap) (v : Value) : Except Stop Int64 := do
  match ← h.number? v with
  | some (.int n) => return n
  | _ => refuse (.typeMismatch "int" (← h.kindOf v))

/-- The value of a float, or of an integer as a float. -/
def floatValue (h : Heap) (v : Value) : Except Stop Binary64 := do
  match ← h.number? v with
  | some n => return n.toBinary64
  | none => refuse (.typeMismatch "float" (← h.kindOf v))

def isFloat (h : Heap) (v : Value) : Except Fault Bool := do
  if v.isRef then return (← h.kindOf v) == .float else return false

/-- How many blocks there are of each kind name that occurs, by name. -/
def census (h : Heap) : List (String × Nat) :=
  let names := h.blocks.map fun (_, b) => b.header.kind.name
  let distinct := (Kind.all.map Kind.name).eraseDups.mergeSort (· ≤ ·)
  distinct.filterMap fun name =>
    let count := names.count name
    if count = 0 then none else some (name, count)

/-- Runs a step with values kept alive in the registers. -/
def protecting {α : Type} (values : List Value) (step : HeapM α) : HeapM α := fun h =>
  let mark := h.registerMark
  match step { h with registers := h.registers ++ values } with
  | .ok a h' => .ok a (h'.releaseRegisters mark)
  | .error stop h' => .error stop (h'.releaseRegisters mark)

end Heap

end ObjectHeap
