import ObjectHeap.Outcome

/-! # Value words

A value is one 64-bit word. An odd word is *inline*: its tag bits name an inline
kind and its upper half is the payload. An even word is a *reference*: half of it
is the index of a slot of the heap. `Value.view` decodes a word and
`Value.View.pack` encodes one.
-/

namespace ObjectHeap

/-- A tagged value: an inline object or the handle of a block. -/
structure Value where
  word : UInt64
deriving DecidableEq

namespace Value

def smallIntMin : Int := -1073741824

def smallIntMax : Int := 1073741823

def fitsSmallInt (n : Int) : Bool := smallIntMin ≤ n && n ≤ smallIntMax

/-- Whether the word holds the object itself. -/
def isInline (v : Value) : Bool := v.word % 2 == 1

/-- Whether the word is the handle of a block. -/
def isRef (v : Value) : Bool := !v.isInline

/-- The seven tag bits of an inline word. -/
def tagBits (v : Value) : Nat := (v.word / 2 % 128).toNat

/-- The upper half of an inline word. -/
def payload (v : Value) : UInt32 := (v.word / 4294967296).toUInt32

/-- The inline word of a kind with a payload. -/
def ofInline (kind : Kind) (payload : UInt32) : Value :=
  ⟨payload.toUInt64 * 4294967296 + UInt64.ofNat (2 * kind.code + 1)⟩

/-- The handle of a slot. -/
def ofSlot (slot : Nat) : Value := ⟨UInt64.ofNat (slot % 4294967296) * 2⟩

/-- The slot that a reference names. -/
def slot? (v : Value) : Option Nat :=
  if v.isInline then none else some (v.word / 2 % 4294967296).toNat

/-- The kind in the tag bits of an inline word, and nothing for a reference. -/
def inlineKind? (v : Value) : Except Fault (Option Kind) :=
  if v.isInline then
    match Kind.ofCode? v.tagBits with
    | some kind =>
      if kind.isInline then .ok (some kind) else .error (.malformedTag v.tagBits v.word)
    | none => .error (.malformedTag v.tagBits v.word)
  else
    .ok none

/-- The absent value. -/
def nil : Value := ofInline .noneType 0

def bool (b : Bool) : Value := ofInline .bool (if b then 1 else 0)

/-- A captured variable. -/
def cell (payload : UInt32) : Value := ofInline .cell payload

/-- A builtin function. -/
def native (index : UInt32) : Value := ofInline .native index

/-- A device driver. -/
def driver (id : UInt32) : Value := ofInline .driver id

def exception (kind : ExceptionKind) : Value := ofInline .exception (UInt32.ofNat kind.code)

/-- An integer in a value word. Wider integers need a block. -/
def smallInt (n : Int) : Except Fault Value :=
  if fitsSmallInt n then
    .ok (ofInline .smallInt (UInt32.ofNat (n % 4294967296).toNat))
  else
    .error (.smallIntOverflow n)

instance : Inhabited Value := ⟨Value.nil⟩

def isSmallInt (v : Value) : Except Fault Bool := do
  return (← v.inlineKind?) == some .smallInt

def isBool (v : Value) : Except Fault Bool := do
  return (← v.inlineKind?) == some .bool

def isNil (v : Value) : Bool := v == Value.nil

/-- A payload read as a signed number. -/
def signedPayload (v : Value) : Int :=
  if v.payload.toNat < 2147483648 then v.payload.toNat else v.payload.toNat - 4294967296

/-- A value word decoded into what it stands for. -/
inductive View where
  | smallInt (n : Int)
  | bool (b : Bool)
  | nil
  | cell (payload : UInt32)
  | exception (kind : ExceptionKind)
  | native (index : UInt32)
  | driver (id : UInt32)
  | ref (slot : Nat)
deriving DecidableEq

/-- Decodes a word. Tag bits that name no inline kind, and exception codes that name no
exception, are faults. -/
def view (v : Value) : Except Fault View :=
  match v.slot? with
  | some slot => .ok (.ref slot)
  | none => do
    match ← v.inlineKind? with
    | some .smallInt => return .smallInt v.signedPayload
    | some .bool => return .bool (v.payload != 0)
    | some .noneType => return .nil
    | some .cell => return .cell v.payload
    | some .native => return .native v.payload
    | some .driver => return .driver v.payload
    | some .exception =>
      match ExceptionKind.ofCode? v.payload.toNat with
      | some kind => return .exception kind
      | none => .error (.malformedException v.word)
    | _ => .error (.malformedTag v.tagBits v.word)

namespace View

/-- Encodes what a word stands for. -/
def pack : View → Except Fault Value
  | .smallInt n => Value.smallInt n
  | .bool b => .ok (Value.bool b)
  | .nil => .ok Value.nil
  | .cell payload => .ok (Value.cell payload)
  | .exception kind => .ok (Value.exception kind)
  | .native index => .ok (Value.native index)
  | .driver id => .ok (Value.driver id)
  | .ref slot => .ok (Value.ofSlot slot)

def describe : View → String
  | .smallInt n => s!"SmallInt({n})"
  | .bool b => s!"Bool({b})"
  | .nil => "None"
  | .cell payload => s!"Cell({payload})"
  | .exception kind => "Exception(" ++ kind.name ++ ")"
  | .native index => s!"Native({index})"
  | .driver id => s!"Driver({id})"
  | .ref slot => s!"Ref(#{slot})"

end View

def describe (v : Value) : Except Fault String := View.describe <$> v.view

end Value

end ObjectHeap
