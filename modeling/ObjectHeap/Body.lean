import ObjectHeap.BoundedSeq
import ObjectHeap.Header
import ObjectHeap.IntRange
import ObjectHeap.Layout
import ObjectHeap.ProbeTable

/-! # Payloads

The payload of a block. A payload answers the two questions that the collector asks
of any block: how many bytes it takes (`Body.blockSize`) and which values it refers
to (`Body.edges`).
-/

namespace ObjectHeap

/-- The bounds of a slice expression. -/
structure SliceBody where
  start : Value
  stop : Value
  step : Value
deriving DecidableEq

/-- An iterator over an object, with the place it has reached. -/
structure IteratorBody where
  iterable : Value
  position : Nat
deriving DecidableEq

/-- A function; `code` names its code in the program image. -/
structure FunctionBody where
  name : Value
  code : UInt32
  module : Value
  defaults : Value
  closure : Value
deriving DecidableEq

/-- A function bound to a receiver. -/
structure MethodBody where
  function : Value
  receiver : Value
deriving DecidableEq

/-- A class with its bases and the dict of its attributes. -/
structure ClassBody where
  name : Value
  bases : Value
  methods : Value
deriving DecidableEq

/-- An instance with the dict of its attributes. -/
structure InstanceBody where
  classRef : Value
  attributes : Value
deriving DecidableEq

/-- A module with the dict of its globals. -/
structure ModuleBody where
  name : Value
  globals : Value
deriving DecidableEq

/-- An activation of a function. -/
structure FrameBody where
  parent : Value
  function : Value
  module : Value
  pc : UInt32
  locals : Array Value
  stack : BoundedSeq Value
deriving DecidableEq

/-- A thread with its innermost frame, or its result once it has none. -/
structure ThreadBody where
  id : UInt32
  priority : UInt8
  frame : Value
  result : Value
deriving DecidableEq

/-- The payload of a block. Several kinds may share a form, such as lists and tuples. -/
inductive Body where
  | integer (n : Int64)
  | float (x : Binary64)
  | bytes (seq : BoundedSeq UInt8)
  | shorts (seq : BoundedSeq UInt16)
  | objects (seq : BoundedSeq Value)
  | hash (table : ProbeTable)
  | range (range : IntRange)
  | slice (slice : SliceBody)
  | iterator (iterator : IteratorBody)
  | function (function : FunctionBody)
  | method (method : MethodBody)
  | classObj (body : ClassBody)
  | instanceObj (body : InstanceBody)
  | moduleObj (body : ModuleBody)
  | frame (frame : FrameBody)
  | thread (thread : ThreadBody)
deriving DecidableEq

namespace Body

/-- Whether the payload is a representation of an object of the kind. -/
def fits : Body → Kind → Bool
  | .integer _, kind => kind == .integer
  | .float _, kind => kind == .float
  | .bytes _, kind => kind.shape == .byteSequence
  | .shorts _, kind => kind.shape == .shortSequence
  | .objects _, kind => kind.shape == .objectSequence
  | .hash table, .dict => table.keepsValues
  | .hash table, .set | .hash table, .frozenSet => !table.keepsValues
  | .hash _, _ => false
  | .range _, kind => kind == .range
  | .slice _, kind => kind == .slice
  | .iterator _, kind => kind == .iterator
  | .function _, kind => kind == .function
  | .method _, kind => kind == .method
  | .classObj _, kind => kind == .classObj
  | .instanceObj _, kind => kind == .instanceObj
  | .moduleObj _, kind => kind == .moduleObj
  | .frame _, kind => kind == .frame
  | .thread _, kind => kind == .thread

def payloadSize : Body → Nat
  | .integer _ | .float _ => 8
  | .bytes seq => Layout.countsSize + seq.capacity
  | .shorts seq => Layout.countsSize + 2 * seq.capacity
  | .objects seq => Layout.countsSize + Layout.wordSize * seq.capacity
  | .hash table => Layout.countsSize + Layout.entrySize table.keepsValues * table.capacity
  | .range _ | .slice _ => 24
  | .iterator _ => 16
  | .function _ => 40
  | .method _ | .instanceObj _ | .moduleObj _ => 16
  | .classObj _ => 24
  | .frame f => Layout.frameSize + Layout.wordSize * (f.locals.size + f.stack.capacity)
  | .thread _ => 24

def blockSize (body : Body) : Nat := Layout.block body.payloadSize

/-- The values that the payload refers to, in the order the collector visits them. -/
def edges : Body → List Value
  | .integer _ | .float _ | .bytes _ | .shorts _ | .range _ => []
  | .objects seq => seq.toList
  | .hash table => table.edges
  | .slice s => [s.start, s.stop, s.step]
  | .iterator i => [i.iterable]
  | .function f => [f.name, f.module, f.defaults, f.closure]
  | .method m => [m.function, m.receiver]
  | .classObj c => [c.name, c.bases, c.methods]
  | .instanceObj i => [i.classRef, i.attributes]
  | .moduleObj m => [m.name, m.globals]
  | .frame f => [f.parent, f.function, f.module] ++ f.locals.toList ++ f.stack.toList
  | .thread t => [t.frame, t.result]

end Body

/-- A block: its header and its payload. -/
structure Block where
  header : Header
  body : Body
deriving DecidableEq

end ObjectHeap
