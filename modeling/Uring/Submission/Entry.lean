import Uring.Abi

/-!
# Uring.Submission.Entry — the record that asks the kernel for an operation

An entry has the caller's part, the tag word and the `Flag` bits, and the operation's part, which is
all the rest.
-/

namespace Uring.Submission

structure Entry where
  opcode : UInt8 := 0
  flags : UInt8 := 0
  ioprio : UInt16 := 0
  fd : Int32 := 0
  off : UInt64 := 0
  addr : UInt64 := 0
  len : UInt32 := 0
  rwFlags : Int32 := 0
  userData : UInt64 := 0
  bufIndex : UInt16 := 0
  personality : UInt16 := 0
  spliceFd : Int32 := 0
  addr3 : UInt64 := 0
  deriving DecidableEq, Repr

/-- All zero. -/
instance : Inhabited Entry := ⟨{}⟩

/-- Zeroes the operation's part and keeps the caller's. -/
def Entry.clearOperation (e : Entry) : Entry := { userData := e.userData, flags := e.flags }

/-- How the kernel is to treat an entry, whatever its operation. -/
inductive Flag where
  | fixedFile
  | drain
  | link
  | hardlink
  | async
  | bufferSelect
  | skipSuccess
  deriving DecidableEq, Repr

namespace Flag

def bits : Flag → UInt8
  | fixedFile => Abi.entryFixedFile
  | drain => Abi.entryDrain
  | link => Abi.entryLink
  | hardlink => Abi.entryHardlink
  | async => Abi.entryAsync
  | bufferSelect => Abi.entryBufferSelect
  | skipSuccess => Abi.entrySkipSuccess

/-- The word in which exactly the given flags are set. -/
def word (flags : List Flag) : UInt8 := flags.foldl (fun w f => w ||| f.bits) 0

end Flag

end Uring.Submission
