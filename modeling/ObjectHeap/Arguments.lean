import ObjectHeap.Sequence

/-! # Arguments of native functions

A format names one conversion per argument: `l` an integer, `i` an integer of 32 bits, `s`
the bytes of a string, `b` the same with their capacity, `f` a float. A letter in upper case
is optional, and takes the next default if its argument is missing.
-/

namespace ObjectHeap

/-- A converted argument. -/
inductive Argument where
  | long (n : Int64)
  | int (n : Int)
  | bytes (data : Array UInt8)
  /-- Bytes, with the number of bytes that the object can hold. -/
  | buffer (data : Array UInt8) (capacity : Nat)
  | float (x : Binary64)
deriving DecidableEq

namespace Heap

/-- Replaces any refusal of a conversion by the flaw that it shows. -/
def orFlaw {α : Type} (conversion : Except Stop α) (position : Nat) (flaw : ArgumentFlaw) :
    Except Stop α :=
  match conversion with
  | .error (.refused _) => refuse (.argument position flaw)
  | outcome => outcome

/-- The storage of a string, bytes or byte array. -/
def byteSource? (h : Heap) (v : Value) : Except Fault (Option (BoundedSeq UInt8)) := do
  match v.slot? with
  | none => return none
  | some slot =>
    let block ← h.block slot
    if block.header.kind = .string || block.header.kind = .bytes
        || block.header.kind = .byteArray then
      match block.body with
      | .bytes seq => return some seq
      | _ => .error .misfit
    else
      return none

/-- Converts an argument by a format character in lower case. -/
def convert (h : Heap) (position : Nat) (spec : Char) (v : Value) : Except Stop Argument := do
  match spec with
  | 'l' => return .long (← orFlaw (h.intValue v) position .expectedInt)
  | 'i' =>
    let n := (← orFlaw (h.intValue v) position .expectedInt).toInt
    if -2147483648 ≤ n ∧ n ≤ 2147483647 then return .int n
    else refuse (.argument position .intOutOfRange)
  | 's' =>
    match ← h.byteSource? v with
    | some seq => return .bytes seq.toArray
    | none => refuse (.argument position .expectedBytes)
  | 'b' =>
    match ← h.byteSource? v with
    | some seq => return .buffer seq.toArray seq.capacity
    | none => refuse (.argument position .expectedBytes)
  | 'f' =>
    if ← h.isFloat v then
      return .float (← orFlaw (h.floatValue v) position .expectedFloat)
    else
      refuse (.argument position .expectedFloat)
  | _ => refuse (.argument position .unknownFormat)

/-- Converts arguments by the format characters from `position` on. Each character in upper
case uses up a default, whether its argument is there or not. -/
def convertAll (h : Heap) :
    (position : Nat) → List Char → List Value → List Argument → Except Stop (List Argument)
  | _, [], _, _ => return []
  | position, spec :: specs, args, defaults => do
    if spec.isUpper then
      match defaults with
      | [] => refuse (.argument position .missingDefault)
      | fallback :: defaults =>
        match args with
        | [] => return fallback :: (← h.convertAll (position + 1) specs [] defaults)
        | v :: args =>
          let converted ← h.convert position spec.toLower v
          return converted :: (← h.convertAll (position + 1) specs args defaults)
    else
      match args with
      | [] => refuse (.argument position .missingRequired)
      | v :: args =>
        let converted ← h.convert position spec v
        return converted :: (← h.convertAll (position + 1) specs args defaults)

/-- Converts the arguments of a call. There may be no more of them than the format has
bytes. -/
def parseArguments (h : Heap) (format : String) (args : List Value) (defaults : List Argument) :
    Except Stop (List Argument) := do
  if format.utf8ByteSize < args.length then
    refuse (.argument format.utf8ByteSize .tooMany)
  h.convertAll 0 format.toList args defaults

end Heap

end ObjectHeap
