import ObjectHeap.ExceptionKind
import ObjectHeap.Extent
import ObjectHeap.Kind

/-! # Refusals and faults

An operation ends in one of three ways. It succeeds; it is *refused*, which the
caller is told about and which leaves a usable heap; or it *faults*, because the
caller broke a promise such as passing a handle of a block that is gone, and
nothing may be done afterwards.
-/

namespace ObjectHeap

/-- What is wrong with heap settings. -/
inductive SettingsFlaw where
  | zeroSize
  | unalignedHeap
  | wideHeap
  | loadFactor
  | hashCapacity
deriving DecidableEq

def SettingsFlaw.message : SettingsFlaw → String
  | .zeroSize => "sizes must be > 0"
  | .unalignedHeap => "heap_size must be a multiple of 8"
  | .wideHeap => "heap_size must fit in 32 bits"
  | .loadFactor => "hash_load_factor must be between 0.1 and 0.9"
  | .hashCapacity => "min_hash_capacity must be a power of two"

/-- Why a call's arguments do not match its format. -/
inductive ArgumentFlaw where
  | tooMany
  | missingDefault
  | missingRequired
  | expectedInt
  | intOutOfRange
  | expectedBytes
  | expectedFloat
  | unknownFormat
deriving DecidableEq

def ArgumentFlaw.message : ArgumentFlaw → String
  | .tooMany => "too many arguments"
  | .missingDefault => "missing default"
  | .missingRequired => "missing required argument"
  | .expectedInt => "expected int"
  | .intOutOfRange => "int out of range"
  | .expectedBytes => "expected str, bytes or bytearray"
  | .expectedFloat => "expected float"
  | .unknownFormat => "unknown format character"

/-- A failure that the caller can recover from. -/
inductive Refusal where
  | outOfMemory (requested free largest : Nat)
  | indexOutOfRange (index len : Nat)
  | keyNotFound
  | typeMismatch (expected : String) (found : Kind)
  | unhashable (kind : Kind)
  | immutable (kind : Kind)
  | valueOutOfRange (kind : Kind)
  | overflow
  | invalidSettings (flaw : SettingsFlaw)
  | argument (position : Nat) (flaw : ArgumentFlaw)
deriving DecidableEq

namespace Refusal

def message : Refusal → String
  | .outOfMemory requested free largest =>
    s!"out of memory: requested {requested} bytes, {free} free (largest extent {largest})"
  | .indexOutOfRange index len => s!"index {index} out of range for length {len}"
  | .keyNotFound => "key not found"
  | .typeMismatch expected found => "expected " ++ expected ++ ", found " ++ found.name
  | .unhashable kind => "unhashable type: " ++ kind.name
  | .immutable kind => kind.name ++ " object is immutable"
  | .valueOutOfRange kind => "value out of range for " ++ kind.name
  | .overflow => "integer overflow"
  | .invalidSettings flaw => "invalid heap settings: " ++ flaw.message
  | .argument position flaw => s!"argument {position}: " ++ flaw.message

/-- The exception that a running program sees for a refusal. -/
def exception : Refusal → ExceptionKind
  | .outOfMemory .. => .memoryError
  | .indexOutOfRange .. => .indexError
  | .keyNotFound => .keyError
  | .typeMismatch .. | .unhashable _ | .immutable _ | .argument .. => .typeError
  | .valueOutOfRange _ => .valueError
  | .overflow => .overflowError
  | .invalidSettings _ => .runtimeError

end Refusal

/-- A broken promise of the caller, after which nothing may be done. -/
inductive Fault where
  /-- A machine number left its range. -/
  | arithmetic
  /-- An index past the end of a table. -/
  | outOfBounds
  /-- A payload that is no representation of its kind, a size that is not the expected one, or a
  collection that is begun during another. -/
  | misfit
  /-- Blocks that contain themselves, so that a walk over them never ends. -/
  | endless
  | smallIntOverflow (n : Int)
  | malformedTag (tag : Nat) (word : UInt64)
  | malformedException (word : UInt64)
  | dangling (slot : Nat)
  | danglingWhileMarking (slot : Nat)
  | slotOccupied (index : Nat)
  | notSequence (kind : Kind)
  | neverAllocated (kind : Kind)
  | overlap (extent : Extent)
deriving DecidableEq

/-- A word in hexadecimal, without leading zeros. -/
def hexWord (word : UInt64) : String :=
  "0x" ++ String.ofList (Nat.toDigits 16 word.toNat)

/-- The wording of a fault, for those that have one. -/
def Fault.message? : Fault → Option String
  | .arithmetic | .outOfBounds | .misfit | .endless => none
  | .smallIntOverflow n => some s!"small int overflow: {n}"
  | .malformedTag tag word => some (s!"malformed inline tag {tag} in " ++ hexWord word)
  | .malformedException word => some ("malformed exception value " ++ hexWord word)
  | .dangling slot => some s!"dangling heap reference #{slot}"
  | .danglingWhileMarking slot =>
    some s!"dangling heap reference #{slot} reached while marking"
  | .slotOccupied index => some s!"slot {index} already occupied"
  | .notSequence kind => some (kind.name ++ " is not a sequence kind")
  | .neverAllocated kind => some (kind.name ++ " is never heap allocated")
  | .overlap extent =>
    some (s!"released extent Extent \x7b offset: {extent.offset}, len: {extent.len} \x7d" ++
      " overlaps free space")

/-- Everything but success. -/
inductive Stop where
  | refused (refusal : Refusal)
  | fault (fault : Fault)
deriving DecidableEq

/-- A step that can only fault is a step that can be refused as well. -/
instance : MonadLift (Except Fault) (Except Stop) where
  monadLift
    | .ok a => .ok a
    | .error f => .error (.fault f)

/-- Ends an operation with a refusal. -/
def refuse {α : Type} (refusal : Refusal) : Except Stop α := .error (.refused refusal)

/-- Two steps in a row succeed if both do. -/
theorem bind_eq_ok_iff {ε α β : Type} {x : Except ε α} {f : α → Except ε β} {b : β} :
    x >>= f = .ok b ↔ ∃ a, x = .ok a ∧ f a = .ok b := by
  cases x <;> simp [bind, Except.bind]

/-- A number that has to stay below `bound`, such as a result of machine arithmetic. -/
def within (bound n : Nat) : Except Fault Nat :=
  if n < bound then .ok n else .error .arithmetic

@[simp] theorem within_eq_ok_iff {bound n m : Nat} :
    within bound n = .ok m ↔ n < bound ∧ n = m := by
  by_cases h : n < bound <;> simp [within, h]

/-- Goes on only if the condition holds. -/
def require (condition : Bool) (fault : Fault) : Except Fault Unit :=
  if condition then .ok () else .error fault

@[simp] theorem require_eq_ok_iff {condition : Bool} {fault : Fault} {u : Unit} :
    require condition fault = .ok u ↔ condition = true := by
  cases condition <;> simp [require]

end ObjectHeap
