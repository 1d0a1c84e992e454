import Uring.Abi
import Uring.Errno
import Uring.Completion.Entry
import Uring.Submission.Entry

/-!
# Uring.Kernel.Call — system calls and what a script answers to them

A `Syscall` records one call with its arguments.  A scripted kernel draws its answers from lists of
replies, one list for each kind of call that can go different ways.
-/

namespace Uring

/-- The three stretches of memory that a ring shares with the kernel. -/
inductive Region where
  | sq
  | cq
  | sqes
  deriving DecidableEq, Repr

namespace Region

def offset : Region → UInt64
  | sq => Abi.offSqRing
  | cq => Abi.offCqRing
  | sqes => Abi.offSqes

/-- The region behind an offset of the ring's descriptor. -/
def ofOffset (offset : UInt64) : Region :=
  if offset = Abi.offSqRing then sq else if offset = Abi.offCqRing then cq else sqes

@[simp] theorem ofOffset_offset (r : Region) : ofOffset r.offset = r := by
  cases r <;> decide

end Region

inductive Syscall where
  | setup (entries cqEntries flags : UInt32)
  | mmap (size : UInt64) (fd : Int32) (offset : UInt64)
  | munmap (region : Region) (size : UInt64)
  | close (fd : Int32)
  /-- The entries that the kernel took, each with its index, unless the call failed. -/
  | enter (fd : Int32) (toSubmit minComplete flags : UInt32)
      (taken : Option (List (UInt32 × Submission.Entry)))
  | register (fd : Int32) (opcode count : UInt32)
  deriving DecidableEq, Repr

/-- What the kernel reports about a ring that it has set up. -/
structure Params where
  sqEntries : UInt32
  cqEntries : UInt32
  flags : UInt32
  features : UInt32
  fd : Int32
  /-- Where the index array begins in the submission ring's memory. -/
  arrayOffset : UInt32
  /-- Where the completions begin in the completion ring's memory. -/
  cqesOffset : UInt32
  deriving DecidableEq, Repr

inductive MapReply where
  | mapped
  | null
  | refused (errno : Errno)
  deriving DecidableEq, Repr

/-- What a kernel does when it is entered. -/
structure Service where
  /-- How many entries it takes at most; without it, as many as are offered. -/
  consume : Option UInt32 := none
  /-- Taken entries stay in flight and post nothing yet. -/
  hold : Bool := false
  /-- Results of the taken entries in order, then zero. -/
  results : List Int32 := []
  /-- Completions of earlier operations. -/
  post : List Completion.Entry := []
  sqFlags : Option UInt32 := none
  /-- What the call returns; without it, the number of entries taken. -/
  ret : Option UInt32 := none
  deriving DecidableEq, Repr

/-- Which opcodes a kernel knows, line by line with flags. -/
structure ProbeTable where
  lastOp : UInt8 := 0
  count : UInt8 := 0
  ops : List (UInt8 × UInt16) := []
  deriving DecidableEq, Repr

end Uring
