/-!
# Causes of failure

A queue refuses an operation for one of three reasons, a configuration step for one of five,
and a transfer because a direction is full or empty. `Error` is what most driver calls report;
a byte transfer also says how far it came. Each cause has one wording, in its `message`.
-/

set_option autoImplicit false

namespace PolledUart

inductive SetupError where
  | invalidArgument
  | notInitialized
  | notConfigured
  | mappingFailed
  | noFreeDescriptor
  deriving DecidableEq, Repr

inductive QueueError where
  | notInitialized
  | full
  | empty
  deriving DecidableEq, Repr

/-- Capacity outcomes of the data path: a later poll may lift them. -/
inductive CapacityError where
  | txFull
  | txEmpty
  | rxFull
  | rxEmpty
  deriving DecidableEq, Repr

inductive Error where
  | setup (cause : SetupError)
  | capacity (cause : CapacityError)
  deriving DecidableEq, Repr

/-- A byte transfer that stopped early, with the bytes moved before it did. -/
structure TransferError where
  error : Error
  transferred : Nat
  deriving DecidableEq, Repr

inductive PinErrorKind where
  | other
  deriving DecidableEq, Repr

def SetupError.message : SetupError → String
  | .invalidArgument => "invalid argument"
  | .notInitialized => "not initialized"
  | .notConfigured => "not configured for this mode"
  | .mappingFailed => "register mapping failed"
  | .noFreeDescriptor => "no free descriptor"

def QueueError.message : QueueError → String
  | .notInitialized => "queue not initialized"
  | .full => "queue full"
  | .empty => "queue empty"

def CapacityError.message : CapacityError → String
  | .txFull => "transmit queue full"
  | .txEmpty => "transmit queue empty"
  | .rxFull => "receive queue full"
  | .rxEmpty => "no received data"

namespace Error

def message : Error → String
  | .setup cause => "config: " ++ cause.message
  | .capacity cause => "io: " ++ cause.message

def isCapacity : Error → Bool
  | .setup _ => false
  | .capacity _ => true

def pinErrorKind (_ : Error) : PinErrorKind := .other

end Error

def Error.beforeTransfer (error : Error) : TransferError := ⟨error, 0⟩

def TransferError.message (e : TransferError) : String :=
  e.error.message ++ " after " ++ toString e.transferred ++ " bytes"

namespace QueueError

def onTransmit : QueueError → Error
  | .notInitialized => .setup .notInitialized
  | .full => .capacity .txFull
  | .empty => .capacity .txEmpty

def onReceive : QueueError → Error
  | .notInitialized => .setup .notInitialized
  | .full => .capacity .rxFull
  | .empty => .capacity .rxEmpty

end QueueError

end PolledUart
