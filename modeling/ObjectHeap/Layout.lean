import ObjectHeap.Arena

/-! # Block sizes

A block is an eight-byte header followed by its payload, rounded up to a multiple of
eight bytes. The sizes that depend on a count given by the caller are worked out
before the payload is built, and exist only if 64 bits can count them.
-/

namespace ObjectHeap.Layout

def wordSize : Nat := 8

def headerSize : Nat := 8

/-- Bytes for the capacity and the length of a sequence or table. -/
def countsSize : Nat := 8

/-- Bytes of a table slot: a hash, a key and, if values are kept, a value. -/
def entrySize (keepsValues : Bool) : Nat := if keepsValues then 24 else 16

def frameSize : Nat := 32

/-- The least multiple of eight that is not below `n`. -/
def roundUp (n : Nat) : Nat := (n + 7) / 8 * 8

/-- Rounds a 64-bit size up to a multiple of eight, if there is room above it. -/
def alignUp (n : Nat) : Except Fault Nat := do
  let past ← within span64 (n + 8)
  return (past - 1) / 8 * 8

/-- The size of a block with the given payload. -/
def block (payload : Nat) : Nat := roundUp (headerSize + payload)

/-- The size of a block of `count` units after a fixed part, if 64 bits can count the bytes
before the size is rounded down to a multiple of eight. -/
def countedBlock? (fixed count unit : Nat) : Option Nat :=
  if count * unit < span64 ∧ count * unit + (fixed + headerSize + 7) < span64 then
    some ((count * unit + (fixed + headerSize + 7)) / 8 * 8)
  else
    none

/-- The checks fail just if the size itself is too large. -/
theorem countedBlock?_eq (fixed count unit : Nat) :
    countedBlock? fixed count unit =
      if block (fixed + unit * count) < span64 then some (block (fixed + unit * count))
      else none := by
  have hsize : block (fixed + unit * count) =
      (count * unit + (fixed + headerSize + 7)) / 8 * 8 := by
    rw [block, roundUp, Nat.mul_comm unit count]
    congr 2
    omega
  have hiff : (count * unit < span64 ∧ count * unit + (fixed + headerSize + 7) < span64) ↔
      (count * unit + (fixed + headerSize + 7)) / 8 * 8 < span64 := by
    -- rounding down passes no bound, because the bound is a multiple of eight
    unfold span64
    omega
  rw [countedBlock?, hsize]
  simp only [hiff]

/-- The bytes per element of a sequence kind. -/
def elementSize? (kind : Kind) : Option Nat :=
  match kind.shape with
  | .byteSequence => some 1
  | .shortSequence => some 2
  | .objectSequence => some wordSize
  | _ => none

/-- The size of a sequence block with room for `capacity` elements. -/
def sequenceBlock? (kind : Kind) (capacity : Nat) : Except Fault (Option Nat) :=
  match elementSize? kind with
  | some unit => .ok (countedBlock? countsSize capacity unit)
  | none => .error (.notSequence kind)

/-- The size of a table block with the given number of slots. -/
def hashBlock? (keepsValues : Bool) (slots : Nat) : Option Nat :=
  countedBlock? countsSize slots (entrySize keepsValues)

/-- The size of a frame block with the given numbers of locals and stack cells. -/
def frameBlock? (locals stack : Nat) : Option Nat :=
  if locals + stack < span64 then countedBlock? frameSize (locals + stack) wordSize else none

end ObjectHeap.Layout
