import ObjectHeap.Attribute
import ObjectHeap.Frame
import ObjectHeap.Iteration

/-! # Operations

The public operations that change a heap, as data. A script is a list of them, and running it
applies them in order. Payloads made by hand and direct assignment of record fields are not
among them: those can break what the operations keep.
-/

namespace ObjectHeap

/-- A public operation with its arguments. -/
inductive Operation where
  | newInt (n : Int64)
  | newInteger (n : Int64)
  | newFloat (x : Binary64)
  | newSequence (kind : Kind) (len : Nat)
  | newString (text : String)
  | newBytes (data : Array UInt8)
  | newByteArray (data : Array UInt8)
  | newShorts (data : Array UInt16)
  | newShortArray (data : Array UInt16)
  | newTuple (items : Array Value)
  | newList (items : Array Value)
  | newBuffer (capacity : Nat)
  | newSysObj (size : Nat)
  | newDict (hint : Nat)
  | newSet (kind : Kind) (hint : Nat)
  | newFrozenSet (items : List Value)
  | newRange (range : IntRange)
  | newSlice (slice : SliceBody)
  | newIterator (iterable : Value)
  | newFunction (function : FunctionBody)
  | newMethod (method : MethodBody)
  | newClass (body : ClassBody)
  | newInstanceWith (body : InstanceBody)
  | newModuleWith (body : ModuleBody)
  | newFrame (parent function module : Value) (locals stack : Nat)
  | newThread (id : UInt32) (priority : UInt8) (frame : Value)
  | newInstance (classRef : Value)
  | newModule (name : Value)
  | seqSet (seq : Value) (index : Nat) (item : Value)
  | seqAppend (seq item : Value)
  | seqExtend (seq : Value) (items : List Value)
  | seqPop (seq : Value)
  | seqReserve (seq : Value) (capacity : Nat)
  | seqSetLen (seq : Value) (len : Nat)
  | updateBytes (seq : Value) (change : Nat → UInt8 → UInt8)
  | dictPut (dict key value : Value)
  | dictDel (dict key : Value)
  | setPut (s key : Value)
  | setDel (s key : Value)
  | setAttr (object name value : Value)
  | frameSetLocal (frame : Value) (index : Nat) (value : Value)
  | framePush (frame value : Value)
  | framePop (frame : Value)
  | threadEnter (thread frame : Value)
  | threadReturn (thread result : Value)
  | iterNext (iterator : Value)
  | protect (v : Value)
  | releaseRegisters (mark : Nat)
  | pin (v : Value)
  | unpin (v : Value)
  | collect

namespace Operation

/-- Runs a step for its effect. -/
def effect (step : HeapM Unit) : HeapM (Option Value) := do
  step
  return none

/-- Performs an operation, and gives the value it answers with, if it has one. -/
def perform [Digest] (roots : List Value) : Operation → HeapM (Option Value)
  | .newInt n => some <$> Heap.newInt roots n
  | .newInteger n => some <$> Heap.newInteger roots n
  | .newFloat x => some <$> Heap.newFloat roots x
  | .newSequence kind len => some <$> Heap.newSequence roots kind len
  | .newString text => some <$> Heap.newString roots text
  | .newBytes data => some <$> Heap.newBytes roots data
  | .newByteArray data => some <$> Heap.newByteArray roots data
  | .newShorts data => some <$> Heap.newShorts roots data
  | .newShortArray data => some <$> Heap.newShortArray roots data
  | .newTuple items => some <$> Heap.newTuple roots items
  | .newList items => some <$> Heap.newList roots items
  | .newBuffer capacity => some <$> Heap.newBuffer roots capacity
  | .newSysObj size => some <$> Heap.newSysObj roots size
  | .newDict hint => some <$> Heap.newDict roots hint
  | .newSet kind hint => some <$> Heap.newSet roots kind hint
  | .newFrozenSet items => some <$> Heap.newFrozenSet roots items
  | .newRange range => some <$> Heap.newRange roots range
  | .newSlice slice => some <$> Heap.newSlice roots slice
  | .newIterator iterable => some <$> Heap.newIterator roots iterable
  | .newFunction function => some <$> Heap.newFunction roots function
  | .newMethod method => some <$> Heap.newMethod roots method
  | .newClass body => some <$> Heap.newClass roots body
  | .newInstanceWith body => some <$> Heap.newInstanceWith roots body
  | .newModuleWith body => some <$> Heap.newModuleWith roots body
  | .newFrame parent function module locals stack =>
    some <$> Heap.newFrame roots parent function module locals stack
  | .newThread id priority frame => some <$> Heap.newThread roots id priority frame
  | .newInstance classRef => some <$> Heap.newInstance roots classRef
  | .newModule name => some <$> Heap.newModule roots name
  | .seqSet seq index item => effect (Heap.seqSet seq index item)
  | .seqAppend seq item => effect (Heap.seqAppend roots seq item)
  | .seqExtend seq items => effect (Heap.seqExtend roots seq items)
  | .seqPop seq => some <$> Heap.seqPop seq
  | .seqReserve seq capacity => effect (Heap.seqReserve roots seq capacity)
  | .seqSetLen seq len => effect (Heap.seqSetLen seq len)
  | .updateBytes seq change => effect (Heap.updateBytes seq change)
  | .dictPut dict key value => effect (Heap.dictPut roots dict key value)
  | .dictDel dict key => some <$> Heap.dictDel dict key
  | .setPut s key => effect (Heap.setPut roots s key)
  | .setDel s key => effect (Heap.setDel s key)
  | .setAttr object name value => effect (Heap.setAttr roots object name value)
  | .frameSetLocal frame index value => effect (Heap.frameSetLocal frame index value)
  | .framePush frame value => effect (Heap.framePush frame value)
  | .framePop frame => some <$> Heap.framePop frame
  | .threadEnter thread frame => effect (Heap.threadEnter thread frame)
  | .threadReturn thread result => effect (Heap.threadReturn thread result)
  | .iterNext iterator => Heap.iterNext roots iterator
  | .protect v => effect (modify (·.protect v))
  | .releaseRegisters mark => effect (modify (·.releaseRegisters mark))
  | .pin v => effect do set (← (← get).pin v)
  | .unpin v => effect do set (← (← get).unpin v)
  | .collect => effect do let _ ← Heap.collect roots

end Operation

end ObjectHeap
