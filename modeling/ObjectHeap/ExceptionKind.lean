/-! # Builtin exceptions

The exception identities that an inline value can carry, and that every
refusal of a heap operation maps to.
-/

namespace ObjectHeap

/-- A builtin exception. The order is the numbering used in value payloads. -/
inductive ExceptionKind where
  | typeError
  | zeroDivisionError
  | attributeError
  | runtimeError
  | valueError
  | indexError
  | keyError
  | notImplementedError
  | unsupportedError
  | overflowError
  | stopIteration
  | nameError
  | ioError
  | connectionRefusedError
  | connectionResetError
  | connectionAbortedError
  | timeoutError
  | peripheralError
  | invalidPinError
  | invalidHardwareStatusError
  | hardwareInitializationError
  | memoryError
deriving DecidableEq

namespace ExceptionKind

/-- All exceptions, each at the position of its code. -/
def all : List ExceptionKind :=
  [.typeError, .zeroDivisionError, .attributeError, .runtimeError, .valueError, .indexError,
   .keyError, .notImplementedError, .unsupportedError, .overflowError, .stopIteration,
   .nameError, .ioError, .connectionRefusedError, .connectionResetError,
   .connectionAbortedError, .timeoutError, .peripheralError, .invalidPinError,
   .invalidHardwareStatusError, .hardwareInitializationError, .memoryError]

/-- The number an exception has in a value payload. -/
def code (kind : ExceptionKind) : Nat := kind.ctorIdx

/-- The exception numbered `code`, if there is one. -/
def ofCode? (code : Nat) : Option ExceptionKind := all[code]?

theorem ofCode?_code (kind : ExceptionKind) : ofCode? kind.code = some kind := by
  cases kind <;> rfl

def name : ExceptionKind → String
  | .typeError => "TypeError"
  | .zeroDivisionError => "ZeroDivisionError"
  | .attributeError => "AttributeError"
  | .runtimeError => "RuntimeError"
  | .valueError => "ValueError"
  | .indexError => "IndexError"
  | .keyError => "KeyError"
  | .notImplementedError => "NotImplementedError"
  | .unsupportedError => "UnsupportedError"
  | .overflowError => "OverflowError"
  | .stopIteration => "StopIteration"
  | .nameError => "NameError"
  | .ioError => "IOError"
  | .connectionRefusedError => "ConnectionRefusedError"
  | .connectionResetError => "ConnectionResetError"
  | .connectionAbortedError => "ConnectionAbortedError"
  | .timeoutError => "TimeoutError"
  | .peripheralError => "PeripheralError"
  | .invalidPinError => "InvalidPinError"
  | .invalidHardwareStatusError => "InvalidHardwareStatusError"
  | .hardwareInitializationError => "HardwareInitializationError"
  | .memoryError => "MemoryError"

end ExceptionKind

end ObjectHeap
