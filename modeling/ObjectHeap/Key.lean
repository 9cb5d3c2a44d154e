import ObjectHeap.Digest
import ObjectHeap.Heap.Basic

/-! # Keys

Keys hash and compare by value: integers, truth values and whole floats that are
numerically equal are the same key; strings, bytes and tuples compare by content; frozen
sets by membership. Containers that may change cannot be keys, and all other objects are
keyed by identity.

Both walks go as deep as tuples and sets are nested. A walk that goes deeper than there
are blocks to visit has met a block that contains itself, and faults.
-/

namespace ObjectHeap.Heap

variable [Digest]

/-- The hash of a key, for nesting below a given depth. A tuple is hashed from its length and
then each element in turn; a set from its size and the hashes of its members in no order. -/
def hashWithin (h : Heap) : (depth : Nat) → Value → Except Stop UInt64
  | 0, _ => throw (.fault .endless)
  | depth + 1, key => do
    if let some n ← h.number? key then
      match n.exactInt? with
      | some i => return Digest.int i
      | none => return Digest.word n.toBinary64.bits
    match key.slot? with
    | none => return Digest.word key.word
    | some slot =>
      let block ← h.block slot
      if !block.header.kind.isHashable then refuse (.unhashable block.header.kind)
      match block.body with
      | .bytes seq => return Digest.bytes seq.toList
      | .shorts seq => return Digest.shorts seq.toList
      | .objects seq =>
        seq.toList.foldlM (fun acc item => do
          return Digest.pair acc (← h.hashWithin depth item)) (Digest.count seq.len)
      | .hash table =>
        return table.toList.foldl (fun acc (hash, _, _) => acc ^^^ hash) (Digest.count table.size)
      | _ => return Digest.word key.word

/-- The hash of a key. Equal keys have equal hashes. -/
def hashOf (h : Heap) (key : Value) : Except Stop UInt64 :=
  h.hashWithin (h.slots.size + 1) key

omit [Digest]

/-- The kinds whose objects may be equal to objects of other kinds. -/
def family? : Kind → Option Nat
  | .bytes | .byteArray | .buffer => some 1
  | .set | .frozenSet => some 2
  | .shorts | .shortArray => some 3
  | _ => none

/-- Whether blocks of two kinds are compared by content. -/
def comparable (a b : Kind) : Bool :=
  if a = b then a != .sysObj else (family? a).isSome && family? a == family? b

/-- Equality of keys, for nesting below a given depth. Elements of tuples are compared from
last to first, and members of one set are looked up in the other. -/
def equalWithin (h : Heap) : (depth : Nat) → Value → Value → Except Fault Bool
  | 0, _, _ => .error .endless
  | depth + 1, a, b => do
    if a = b then return true
    let x ← h.number? a
    let y ← h.number? b
    if let (some x, some y) := (x, y) then return x.equals y
    match a.slot?, b.slot? with
    | some slotA, some slotB =>
      let blockA ← h.block slotA
      let blockB ← h.block slotB
      if !comparable blockA.header.kind blockB.header.kind then return false
      match blockA.body, blockB.body with
      | .bytes x, .bytes y => return x.toArray == y.toArray
      | .shorts x, .shorts y => return x.toArray == y.toArray
      | .objects x, .objects y =>
        if blockA.header.kind != .tuple || x.len != y.len then return false
        (x.toList.zip y.toList).reverse.allM fun (p, q) => h.equalWithin depth p q
      | .hash x, .hash y =>
        if x.keepsValues || x.size != y.size then return false
        x.toList.allM fun (hash, key, _) => do
          match ← y.probe hash fun k => h.equalWithin depth k key with
          | .found _ => return true
          | _ => return false
      | _, _ => return false
    | _, _ => return false

def valuesEqual (h : Heap) (a b : Value) : Except Fault Bool :=
  h.equalWithin (h.slots.size * h.slots.size + 1) a b

end ObjectHeap.Heap
