import ObjectHeap.Construct

/-! # Sequences

Access to strings, bytes, 16-bit arrays, lists and tuples. Elements of byte and 16-bit
sequences are read and written as small integers. Appending doubles the block of a full
sequence.
-/

namespace ObjectHeap

namespace Body

def seqLen : Body → Except Fault Nat
  | .bytes seq => .ok seq.len
  | .shorts seq => .ok seq.len
  | .objects seq => .ok seq.len
  | _ => .error .misfit

def seqCapacity : Body → Except Fault Nat
  | .bytes seq => .ok seq.capacity
  | .shorts seq => .ok seq.capacity
  | .objects seq => .ok seq.capacity
  | _ => .error .misfit

/-- A sequence with more cells. -/
def seqGrow (capacity : Nat) : Body → Except Fault Body
  | .bytes seq => .bytes <$> seq.grow capacity
  | .shorts seq => .shorts <$> seq.grow capacity
  | .objects seq => .objects <$> seq.grow capacity
  | _ => .error .misfit

/-- A sequence with another length, if its capacity allows it. -/
def seqSetLen? : Body → Nat → Except Fault (Option Body)
  | .bytes seq, len => .ok (.bytes <$> seq.setLen? len)
  | .shorts seq, len => .ok (.shorts <$> seq.setLen? len)
  | .objects seq, len => .ok (.objects <$> seq.setLen? len)
  | _, _ => .error .misfit

/-- The value of a byte or a 16-bit unit. -/
def unitValue (n : Nat) : Except Fault Value := Value.smallInt n

/-- The byte of a small integer in range. -/
def byteOf (v : Value) : UInt8 := UInt8.ofNat v.payload.toNat

/-- The 16-bit unit of a small integer in range. -/
def shortOf (v : Value) : UInt16 := UInt16.ofNat v.payload.toNat

def seqGet? : Body → Nat → Except Fault (Option Value)
  | .bytes seq, index => (seq.get? index).mapM fun b => unitValue b.toNat
  | .shorts seq, index => (seq.get? index).mapM fun s => unitValue s.toNat
  | .objects seq, index => .ok (seq.get? index)
  | _, _ => .error .misfit

/-- A sequence with another element at an index, if it has one there. -/
def seqSet? : Body → Nat → Value → Except Fault (Option Body)
  | .bytes seq, index, item => .ok (.bytes <$> seq.set? index (byteOf item))
  | .shorts seq, index, item => .ok (.shorts <$> seq.set? index (shortOf item))
  | .objects seq, index, item => .ok (.objects <$> seq.set? index item)
  | _, _, _ => .error .misfit

/-- A sequence with one more element, if it has a cell for it. -/
def seqPush? : Body → Value → Except Fault (Option Body)
  | .bytes seq, item => .ok (.bytes <$> seq.push? (byteOf item))
  | .shorts seq, item => .ok (.shorts <$> seq.push? (shortOf item))
  | .objects seq, item => .ok (.objects <$> seq.push? item)
  | _, _ => .error .misfit

/-- A sequence with more elements. A sequence without cells for them is a fault. -/
def seqPushAll (body : Body) (items : List Value) : Except Fault Body :=
  items.foldlM (fun body item => do
    match ← body.seqPush? item with
    | some pushed => return pushed
    | none => .error .misfit) body

/-- The last element of a sequence and the sequence without it, if it is not empty. -/
def seqPop? : Body → Except Fault (Option (Value × Body))
  | .bytes seq => seq.pop?.mapM fun (b, rest) => do return (← unitValue b.toNat, .bytes rest)
  | .shorts seq => seq.pop?.mapM fun (s, rest) => do return (← unitValue s.toNat, .shorts rest)
  | .objects seq => .ok (seq.pop?.map fun (v, rest) => (v, .objects rest))
  | _ => .error .misfit

end Body

namespace Heap

/-- The slot, block and kind of a sequence that may change. -/
def mutableSequence (h : Heap) (v : Value) : Except Stop (Nat × Block) := do
  let (slot, block) ← h.expectBlock v "sequence" Kind.isSequence
  if !block.header.kind.isMutable then refuse (.immutable block.header.kind)
  return (slot, block)

/-- The slot and block of a sequence that may grow. -/
def growableSequence (h : Heap) (v : Value) : Except Stop (Nat × Block) := do
  let (slot, block) ← h.mutableSequence v
  if !block.header.kind.isGrowable then
    refuse (.typeMismatch "growable sequence" block.header.kind)
  return (slot, block)

/-- The number of elements of a sequence, table or range. -/
def len (h : Heap) (v : Value) : Except Stop Nat := do
  let found ← h.kindOf v
  match v.slot? with
  | none => refuse (.typeMismatch "sized object" found)
  | some slot =>
    match ← h.body slot with
    | .bytes seq => return seq.len
    | .shorts seq => return seq.len
    | .objects seq => return seq.len
    | .hash table => return table.size
    | .range range => range.len
    | _ => refuse (.typeMismatch "sized object" found)

/-- The number of cells of a sequence, or of slots of a table. -/
def capacity (h : Heap) (v : Value) : Except Stop Nat := do
  let (_, block) ← h.expectBlock v "sequence or hash" fun kind => kind.isSequence || kind.isHash
  match block.body with
  | .hash table => return table.capacity
  | body => body.seqCapacity

def seqGet (h : Heap) (v : Value) (index : Nat) : Except Stop Value := do
  let (_, block) ← h.expectBlock v "sequence" Kind.isSequence
  match ← block.body.seqGet? index with
  | some item => return item
  | none => refuse (.indexOutOfRange index (← block.body.seqLen))

/-- The largest element of a sequence kind whose elements are numbers. -/
def elementMax? (kind : Kind) : Option Int :=
  match kind.shape with
  | .byteSequence => some 255
  | .shortSequence => some 65535
  | _ => none

/-- Admits an element of a sequence of a kind. -/
def checkElement (h : Heap) (kind : Kind) (item : Value) : Except Stop Unit := do
  match elementMax? kind with
  | none => return ()
  | some largest =>
    if !(← item.isSmallInt) then refuse (.typeMismatch "int" (← h.kindOf item))
    let n := item.signedPayload
    if !(0 ≤ n && n ≤ largest) then refuse (.valueOutOfRange kind)

/-- Admits elements from first to last. -/
def checkElements (h : Heap) (kind : Kind) (items : List Value) : Except Stop Unit :=
  items.forM (h.checkElement kind)

/-- Replaces an element of a sequence that may change. -/
def seqSet (v : Value) (index : Nat) (item : Value) : HeapM Unit := do
  let h ← get
  let (slot, block) ← h.mutableSequence v
  h.checkElement block.header.kind item
  match ← block.body.seqSet? index item with
  | some body => set (h.setBody slot body)
  | none => throw (.refused (.indexOutOfRange index (← block.body.seqLen)))

/-- The capacity to grow to: at least what is needed, at least double, at least four. -/
def grownCapacity (capacity needed : Nat) : Nat :=
  max (max needed (min (2 * capacity) 18446744073709551615)) 4

/-- Gives a sequence more cells, with the items to be added kept alive. -/
def growSequence (roots : List Value) (slot : Nat) (kind : Kind) (operands : List Value)
    (capacity : Nat) : HeapM Unit := do
  let size ← (← get).checkSequence kind capacity
  resize roots slot operands size (Body.seqGrow capacity)

/-- Adds admitted items to a sequence that has cells for them. -/
def pushItems (slot : Nat) (items : List Value) : HeapM Unit := do
  let h ← get
  let body ← (← h.body slot).seqPushAll items
  set (h.setBody slot body)

/-- Adds items to a sequence that may grow, all or none of them, and grows it at most once. -/
def seqExtend (roots : List Value) (v : Value) (items : List Value) : HeapM Unit := do
  let h ← get
  let (slot, block) ← h.growableSequence v
  h.checkElements block.header.kind items
  let needed := (← block.body.seqLen) + items.length
  let capacity ← block.body.seqCapacity
  if capacity < needed then
    growSequence roots slot block.header.kind items (grownCapacity capacity needed)
  pushItems slot items

/-- Adds an item to a sequence that may grow. -/
def seqAppend (roots : List Value) (v item : Value) : HeapM Unit := seqExtend roots v [item]

/-- Takes the last element off a sequence that may grow. -/
def seqPop (v : Value) : HeapM Value := do
  let h ← get
  let (slot, block) ← h.growableSequence v
  match ← block.body.seqPop? with
  | some (item, body) =>
    set (h.setBody slot body)
    return item
  | none => throw (.refused (.indexOutOfRange 0 0))

/-- Makes room for at least `capacity` elements. -/
def seqReserve (roots : List Value) (v : Value) (capacity : Nat) : HeapM Unit := do
  let (slot, block) ← (← get).growableSequence v
  if (← block.body.seqCapacity) < capacity then
    growSequence roots slot block.header.kind [] capacity

/-- Changes the length of a sequence within its capacity. New elements are zero or absent. -/
def seqSetLen (v : Value) (len : Nat) : HeapM Unit := do
  let h ← get
  let (slot, block) ← h.mutableSequence v
  match ← block.body.seqSetLen? len with
  | some body => set (h.setBody slot body)
  | none => throw (.refused (.indexOutOfRange len (← block.body.seqCapacity)))

def bytes (h : Heap) (v : Value) : Except Stop (Array UInt8) := do
  let (_, block) ← h.expectBlock v "byte sequence" (·.shape == .byteSequence)
  match block.body with
  | .bytes seq => return seq.toArray
  | _ => throw (.fault .misfit)

/-- Replaces each byte of a byte sequence that may change, as its index and the byte ask for. -/
def updateBytes (v : Value) (change : Nat → UInt8 → UInt8) : HeapM Unit := do
  let h ← get
  let (slot, block) ← h.mutableSequence v
  if block.header.kind.shape != .byteSequence then
    throw (.refused (.typeMismatch "byte sequence" block.header.kind))
  match block.body with
  | .bytes seq => set (h.setBody slot (.bytes (seq.mapIdx change)))
  | _ => throw (.fault .misfit)

/-- Replaces each byte of a byte sequence that may change. -/
def mapBytes (v : Value) (change : UInt8 → UInt8) : HeapM Unit := updateBytes v fun _ => change

/-- The text of a string. Bytes that are not UTF-8 have none. -/
def text (h : Heap) (v : Value) : Except Stop String := do
  let _ ← h.expectSlot v "str" (· == .string)
  match String.fromUTF8? ⟨← h.bytes v⟩ with
  | some text => return text
  | none => refuse (.valueOutOfRange .string)

def shorts (h : Heap) (v : Value) : Except Stop (Array UInt16) := do
  let (_, block) ← h.expectBlock v "short sequence" (·.shape == .shortSequence)
  match block.body with
  | .shorts seq => return seq.toArray
  | _ => throw (.fault .misfit)

/-- The elements of a list or tuple. -/
def objects (h : Heap) (v : Value) : Except Stop (Array Value) := do
  let (_, block) ← h.expectBlock v "list or tuple" (·.shape == .objectSequence)
  match block.body with
  | .objects seq => return seq.toArray
  | _ => throw (.fault .misfit)

end Heap

end ObjectHeap
