import ObjectHeap.Heap.Allocate

/-! # Construction

One constructor for each kind of block. A constructor builds a payload and allocates a
block for it. Where the size depends on a count given by the caller, the size is
admitted before the payload is built. The values passed in are kept alive by the
payload itself.
-/

namespace ObjectHeap.Heap

/-- The slot count of a table with room for `hint` entries, admitted against the arena. -/
def hashCapacity (h : Heap) (hint : Nat) (keepsValues : Bool) : Except Stop Nat := do
  match ProbeTable.capacityFor? hint h.settings.loadFactor h.settings.minHashCapacity with
  | none => h.checkSize none
  | some slots =>
    let _ ← h.checkSize (Layout.hashBlock? keepsValues slots)
    return slots

/-- An integer that always gets a block. -/
def newInteger (roots : List Value) (n : Int64) : HeapM Value :=
  allocate roots .integer (.integer n)

/-- An integer, in the value word if it fits. -/
def newInt (roots : List Value) (n : Int64) : HeapM Value := do
  if Value.fitsSmallInt n.toInt then
    let v ← Value.smallInt n.toInt
    return v
  newInteger roots n

def newFloat (roots : List Value) (x : Binary64) : HeapM Value :=
  allocate roots .float (.float x)

/-- Admits a sequence block before its payload is built. -/
def checkSequence (h : Heap) (kind : Kind) (capacity : Nat) : Except Stop Nat := do
  h.checkSize (← Layout.sequenceBlock? kind capacity)

/-- Storage for `len` elements: empty for kinds that change, full of defaults for others. -/
def emptyOrZeroed {α : Type} [Inhabited α] (kind : Kind) (len : Nat) : BoundedSeq α :=
  if kind.isMutable then BoundedSeq.withCapacity len else BoundedSeq.zeroed len

/-- A sequence of a kind, sized for `len` elements. -/
def newSequence (roots : List Value) (kind : Kind) (len : Nat) : HeapM Value := do
  if !kind.isSequence then throw (.refused (.typeMismatch "sequence kind" kind))
  let _ ← (← get).checkSequence kind len
  match kind.shape with
  | .byteSequence => allocate roots kind (.bytes (emptyOrZeroed kind len))
  | .shortSequence => allocate roots kind (.shorts (emptyOrZeroed kind len))
  | _ => allocate roots kind (.objects (emptyOrZeroed kind len))

/-- A byte sequence of a kind with the given bytes and no room to spare. -/
def newBytesOf (roots : List Value) (kind : Kind) (data : Array UInt8) : HeapM Value :=
  allocate roots kind (.bytes (BoundedSeq.filled data))

def newString (roots : List Value) (text : String) : HeapM Value :=
  newBytesOf roots .string text.toUTF8.data

def newBytes (roots : List Value) (data : Array UInt8) : HeapM Value :=
  newBytesOf roots .bytes data

def newByteArray (roots : List Value) (data : Array UInt8) : HeapM Value :=
  newBytesOf roots .byteArray data

/-- Immutable 16-bit units. -/
def newShorts (roots : List Value) (data : Array UInt16) : HeapM Value :=
  allocate roots .shorts (.shorts (BoundedSeq.filled data))

def newShortArray (roots : List Value) (data : Array UInt16) : HeapM Value :=
  allocate roots .shortArray (.shorts (BoundedSeq.filled data))

def newTuple (roots : List Value) (items : Array Value) : HeapM Value :=
  allocate roots .tuple (.objects (BoundedSeq.filled items))

def newList (roots : List Value) (items : Array Value) : HeapM Value :=
  allocate roots .list (.objects (BoundedSeq.filled items))

/-- An empty byte buffer. -/
def newBuffer (roots : List Value) (capacity : Nat) : HeapM Value := do
  let _ ← (← get).checkSequence .buffer capacity
  allocate roots .buffer (.bytes (BoundedSeq.withCapacity capacity))

/-- A zeroed blob of fixed size, owned by a native module. -/
def newSysObj (roots : List Value) (size : Nat) : HeapM Value := do
  let _ ← (← get).checkSequence .sysObj size
  allocate roots .sysObj (.bytes (BoundedSeq.zeroed size))

/-- A dict with room for `hint` entries before its first rehash. -/
def newDict (roots : List Value) (hint : Nat) : HeapM Value := do
  let slots ← (← get).hashCapacity hint true
  allocate roots .dict (.hash (← ProbeTable.withCapacity slots true))

/-- An empty set or frozen set with room for `hint` members. -/
def newSet (roots : List Value) (kind : Kind) (hint : Nat) : HeapM Value := do
  if kind != .set && kind != .frozenSet then
    throw (.refused (.typeMismatch "set kind" kind))
  let slots ← (← get).hashCapacity hint false
  allocate roots kind (.hash (← ProbeTable.withCapacity slots false))

/-- A range. Its step must not be zero. -/
def newRange (roots : List Value) (range : IntRange) : HeapM Value := do
  if range.step = 0 then throw (.refused (.valueOutOfRange .range))
  allocate roots .range (.range range)

def newSlice (roots : List Value) (slice : SliceBody) : HeapM Value :=
  allocate roots .slice (.slice slice)

/-- An iterator at the start of an object. -/
def newIterator (roots : List Value) (iterable : Value) : HeapM Value :=
  allocate roots .iterator (.iterator ⟨iterable, 0⟩)

def newFunction (roots : List Value) (function : FunctionBody) : HeapM Value :=
  allocate roots .function (.function function)

def newMethod (roots : List Value) (method : MethodBody) : HeapM Value :=
  allocate roots .method (.method method)

def newClass (roots : List Value) (body : ClassBody) : HeapM Value :=
  allocate roots .classObj (.classObj body)

/-- An instance with a given attribute dict. -/
def newInstanceWith (roots : List Value) (body : InstanceBody) : HeapM Value :=
  allocate roots .instanceObj (.instanceObj body)

/-- A module with a given dict of globals. -/
def newModuleWith (roots : List Value) (body : ModuleBody) : HeapM Value :=
  allocate roots .moduleObj (.moduleObj body)

/-- A frame with absent locals and an empty stack. -/
def newFrame (roots : List Value) (parent function module : Value) (locals stack : Nat) :
    HeapM Value := do
  let _ ← (← get).checkSize (Layout.frameBlock? locals stack)
  allocate roots .frame (.frame {
    parent, function, module
    pc := 0
    locals := Array.replicate locals Value.nil
    stack := BoundedSeq.withCapacity stack })

/-- A thread without a result. -/
def newThread (roots : List Value) (id : UInt32) (priority : UInt8) (frame : Value) :
    HeapM Value :=
  allocate roots .thread (.thread { id, priority, frame, result := Value.nil })

end ObjectHeap.Heap
