import Uring.Errno
import Uring.Tag

/-!
# Uring.Error — what can go wrong

`InitError` is about bringing a ring up, `RingError` about using one.  Every failure is a cause with
its data; the wording is in `message` alone.
-/

namespace Uring

/-- Why a ring did not come up. -/
inductive InitError where
  /-- The kernel refused the configuration. -/
  | syscallFailed (errno : Errno)
  /-- A region of the ring could not be mapped. -/
  | mmapFailed (errno : Errno)
  | invalidParameters
  /-- The kernel reported a size that indices cannot be masked with. -/
  | notPowerOfTwo (entries : UInt32)
  deriving DecidableEq, Repr

namespace InitError

def message : InitError → String
  | syscallFailed e => "io_uring_setup failed: " ++ e.message
  | mmapFailed e => "mmap of ring region failed: " ++ e.message
  | invalidParameters => "invalid setup parameters"
  | notPowerOfTwo n => "kernel reported non power-of-two ring size " ++ toString n.toNat

def errno? : InitError → Option Errno
  | syscallFailed e | mmapFailed e => some e
  | invalidParameters | notPowerOfTwo _ => none

end InitError

/-- Why an operation is malformed. -/
inductive InvalidReason where
  | negativeDescriptor
  | bufferTooLong
  | emptyAcceptBuffer
  | acceptLengthTooLong
  | connectAddressTooShort
  | connectAddressTooLong
  | timespecOutOfRange
  /-- A reason given in the caller's own words. -/
  | other (text : String)
  deriving DecidableEq, Repr

def InvalidReason.message : InvalidReason → String
  | negativeDescriptor => "negative file descriptor"
  | bufferTooLong => "buffer longer than u32::MAX"
  | emptyAcceptBuffer => "empty accept address buffer"
  | acceptLengthTooLong => "accept addrlen exceeds address buffer"
  | connectAddressTooShort => "connect address too short"
  | connectAddressTooLong => "connect address too long"
  | timespecOutOfRange => "timespec out of range"
  | other text => text

/-- Why an operation on a ring failed. -/
inductive RingError where
  /-- Entering the kernel failed; the number is passed on, an interruption included. -/
  | enter (errno : Errno)
  | register (errno : Errno)
  /-- The kernel owns every submission slot. -/
  | queueFull
  | invalidParams (why : InvalidReason)
  | destroyed
  | tagKindMismatch (expected found : TagKind)
  /-- More completions were to be consumed than the kernel has published. -/
  | headOverrun (requested ready : UInt32)
  deriving DecidableEq, Repr

namespace RingError

def message : RingError → String
  | enter e => "io_uring_enter failed: " ++ e.message
  | register e => "io_uring_register failed: " ++ e.message
  | queueFull => "submission queue is full"
  | invalidParams why => "invalid operation parameters: " ++ why.message
  | destroyed => "ring has been destroyed"
  | tagKindMismatch expected found =>
    "ring tags use " ++ expected.name ++ " encoding, got " ++ found.name
  | headOverrun requested ready =>
    "completion head advanced by " ++ toString requested.toNat ++ " with only " ++
      toString ready.toNat ++ " ready"

/-- A full queue is a reason to back off; every other failure is final for its call. -/
def recoverable : RingError → Bool
  | queueFull => true
  | _ => false

def errno? : RingError → Option Errno
  | enter e | register e => some e
  | _ => none

/-- The result word of a failed system call; other failures have none. -/
def rawResult? (e : RingError) : Option Int32 := e.errno?.map Errno.negated

end RingError

end Uring
