import ObjectHeap.Outcome
import ObjectHeap.ProbeTable

/-! # Heap settings -/

namespace ObjectHeap

/-- What a heap is made with. -/
structure Settings where
  /-- Bytes of the arena. -/
  heapSize : Nat
  /-- Entries of the mark stack. A full stack costs rescans, not correctness. -/
  markStackSize : Nat
  /-- The fraction of table slots, tombstones included, that may be used. -/
  loadFactor : Binary64
  /-- The least number of slots of a table. -/
  minHashCapacity : Nat
deriving DecidableEq

namespace Settings

/-- 64 KiB of arena, a mark stack of 64, and tables of four slots or more, filled to three
quarters. -/
def standard : Settings :=
  { heapSize := 65536, markStackSize := 64, loadFactor := ⟨0x3fe8000000000000⟩,
    minHashCapacity := 4 }

/-- The least load factor, the float nearest to one tenth. -/
def loadFactorMin : Binary64 := ⟨0x3fb999999999999a⟩

/-- The greatest load factor, the float nearest to nine tenths. -/
def loadFactorMax : Binary64 := ⟨0x3feccccccccccccd⟩

/-- The first flaw of the settings, if they have one. -/
def flaw? (s : Settings) : Option SettingsFlaw :=
  if s.heapSize = 0 ∨ s.markStackSize = 0 then some .zeroSize
  else if s.heapSize % 8 ≠ 0 then some .unalignedHeap
  else if 4294967295 < s.heapSize then some .wideHeap
  else if !(loadFactorMin.le s.loadFactor && s.loadFactor.le loadFactorMax) then
    some .loadFactor
  else if leastPower s.minHashCapacity ≠ s.minHashCapacity then some .hashCapacity
  else none

end Settings

end ObjectHeap
