/-! # Kinds of objects

Every value has one of thirty-one kinds. A kind fixes where its objects live
(in the value word or in a heap block), how their payload is laid out, and
whether their contents may change once they exist.
-/

namespace ObjectHeap

/-- The kind of an object. The order is the numbering used in tag bits. -/
inductive Kind where
  | smallInt
  | integer
  | float
  | bool
  | string
  | bytes
  | byteArray
  | shorts
  | shortArray
  | list
  | tuple
  | range
  | frozenSet
  | set
  | dict
  | function
  | method
  | classObj
  | instanceObj
  | moduleObj
  | buffer
  | slice
  | iterator
  | frame
  | cell
  | noneType
  | exception
  | native
  | sysObj
  | driver
  | thread
deriving DecidableEq

/-- The layout of a payload. -/
inductive Shape where
  /-- Encoded in the value word, never allocated. -/
  | inline
  /-- A fixed-size number. -/
  | scalar
  /-- Capacity, length and raw bytes. -/
  | byteSequence
  /-- Capacity, length and 16-bit units. -/
  | shortSequence
  /-- Capacity, length and values. -/
  | objectSequence
  /-- Slot count, element count and probed entries. -/
  | hash
  /-- Fixed fields, plus value arrays for frames. -/
  | record
deriving DecidableEq

namespace Kind

/-- All kinds, each at the position of its code. -/
def all : List Kind :=
  [.smallInt, .integer, .float, .bool, .string, .bytes, .byteArray, .shorts, .shortArray,
   .list, .tuple, .range, .frozenSet, .set, .dict, .function, .method, .classObj,
   .instanceObj, .moduleObj, .buffer, .slice, .iterator, .frame, .cell, .noneType, .exception,
   .native, .sysObj, .driver, .thread]

/-- The number a kind has in tag bits. -/
def code (kind : Kind) : Nat := kind.ctorIdx

/-- The kind numbered `code`, if there is one. -/
def ofCode? (code : Nat) : Option Kind := all[code]?

theorem ofCode?_code (kind : Kind) : ofCode? kind.code = some kind := by
  cases kind <;> rfl

/-- The name a program sees. Both integer widths are called `int`. -/
def name : Kind → String
  | .smallInt | .integer => "int"
  | .float => "float"
  | .bool => "bool"
  | .string => "str"
  | .bytes => "bytes"
  | .byteArray => "bytearray"
  | .shorts => "shorts"
  | .shortArray => "shortarray"
  | .list => "list"
  | .tuple => "tuple"
  | .range => "range"
  | .frozenSet => "frozenset"
  | .set => "set"
  | .dict => "dict"
  | .function => "function"
  | .method => "method"
  | .classObj => "class"
  | .instanceObj => "instance"
  | .moduleObj => "module"
  | .buffer => "buffer"
  | .slice => "slice"
  | .iterator => "iterator"
  | .frame => "frame"
  | .cell => "cell"
  | .noneType => "NoneType"
  | .exception => "exception"
  | .native => "native"
  | .sysObj => "sysobj"
  | .driver => "driver"
  | .thread => "thread"

/-- The layout of the objects of a kind. -/
def shape : Kind → Shape
  | .smallInt | .bool | .noneType | .cell | .exception | .native | .driver => .inline
  | .integer | .float => .scalar
  | .string | .bytes | .byteArray | .buffer | .sysObj => .byteSequence
  | .shorts | .shortArray => .shortSequence
  | .list | .tuple => .objectSequence
  | .frozenSet | .set | .dict => .hash
  | .range | .function | .method | .classObj | .instanceObj | .moduleObj | .slice
  | .iterator | .frame | .thread => .record

/-- Whether objects of the kind live in the value word. -/
def isInline (kind : Kind) : Bool := kind.shape == .inline

/-- Whether objects of the kind are sequences of bytes, 16-bit units or values. -/
def isSequence (kind : Kind) : Bool :=
  kind.shape == .byteSequence || kind.shape == .shortSequence || kind.shape == .objectSequence

/-- Whether objects of the kind are probed tables. -/
def isHash (kind : Kind) : Bool := kind.shape == .hash

/-- Sequence and hash kinds whose contents may change after creation. -/
def isMutable : Kind → Bool
  | .byteArray | .shortArray | .list | .set | .dict | .buffer | .sysObj => true
  | _ => false

/-- Mutable sequences that support append and reserve. -/
def isGrowable : Kind → Bool
  | .byteArray | .shortArray | .list | .buffer => true
  | _ => false

/-- Kinds usable as dict keys and set members: exactly those that never change. -/
def isHashable (kind : Kind) : Bool := !kind.isMutable

end Kind

end ObjectHeap
