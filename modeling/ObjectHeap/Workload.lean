import ObjectHeap.Mapping
import ObjectHeap.Sequence

/-! # A workload

Builds records one after another, keeps some of them, and lets the rest become garbage. It
shows how often a heap of a given size has to collect, and what is left of it.
-/

namespace ObjectHeap

/-- What a workload is run with. -/
structure Workload where
  heapSize : Nat := 65536
  markStack : Nat := 64
  iterations : Nat := 10000
  /-- Every record whose number this divides is kept. -/
  keepEvery : Nat := 8
  /-- The most records that are kept at once. -/
  retain : Nat := 64
  byType : Bool := false

namespace Workload

/-- The low sixteen bits of a number. -/
def low16 (n : Nat) : Except Fault Value := Value.smallInt (n % 65536 : Nat)

/-- The next number. It faults where a count in 32 signed bits would leave its range. -/
def next32 (n : Nat) : Except Fault Nat := do
  require (n % 4294967296 ≠ 2147483647) .arithmetic
  return n + 1

variable [Digest]

/-- Builds the record `id: n, name: item-n, tags: (n, [n, n + 1]), ratio: n / 3`. What has been
built so far is kept among the roots, oldest first. -/
def makeRecord (kept : List Value) (n : Nat) : HeapM Value := do
  let record ← Heap.newDict kept 4
  let roots := kept ++ [record]
  let key ← Heap.newString roots "id"
  let roots := roots ++ [key]
  let id ← Heap.newInt roots (Int64.ofNat n)
  Heap.dictPut roots record key id
  let key ← Heap.newString roots "name"
  let roots := roots ++ [key]
  let name ← Heap.newString roots s!"item-{n}"
  Heap.dictPut roots record key name
  let list ← Heap.newList roots #[]
  let roots := roots ++ [list]
  Heap.seqAppend roots list (← low16 n)
  Heap.seqAppend roots list (← low16 (← next32 n))
  let tags ← Heap.newTuple roots #[id, list]
  let roots := roots ++ [tags]
  let key ← Heap.newString roots "tags"
  Heap.dictPut roots record key tags
  let ratio ← Heap.newFloat roots (Binary64.ofQuotient n 3)
  let roots := roots ++ [ratio]
  let key ← Heap.newString roots "ratio"
  Heap.dictPut roots record key ratio
  return record

/-- Keeps a record, in place of the oldest one if enough are kept. -/
def keep (w : Workload) (kept : List Value) (record : Value) : List Value :=
  (if kept.length = w.retain then kept.tail else kept) ++ [record]

/-- Builds `count` records from number `n` on. -/
def build (w : Workload) : (count n : Nat) → (kept : List Value) → HeapM (List Value)
  | 0, _, kept => return kept
  | count + 1, n, kept => do
    let record ← makeRecord kept n
    let kept :=
      if 0 < w.retain ∧ n % max w.keepEvery 1 = 0 then w.keep kept record else kept
    w.build count (n + 1) kept

/-- The number of blocks before the last collection, and the heap after it. -/
structure Result where
  liveBefore : Nat
  heap : Heap

/-- Runs a workload and a last collection on a heap. -/
def runOn (w : Workload) : HeapM Nat := do
  let kept ← w.build w.iterations 0 []
  let liveBefore := (← get).liveObjects
  let _ ← Heap.collect kept
  return liveBefore

/-- Runs a workload on a heap of its own. -/
def run (w : Workload) : Except Stop Result := do
  let heap ← Heap.new
    { Settings.standard with heapSize := w.heapSize, markStackSize := w.markStack }
  match w.runOn heap with
  | .ok liveBefore heap => return { liveBefore, heap }
  | .error stop _ => throw stop

end Workload

end ObjectHeap
