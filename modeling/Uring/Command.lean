import Uring.Operation

/-!
# Uring.Command — what an entry tells the kernel to do

The kernel is given an entry and not the operation behind it.  A `Command` is all that an entry can
say: the kind of operation and its parameters, with the caller's memory as addresses.  What is kept
at an address is no part of it, and neither is the kind of a tag.  `Operation.command` is what an
operation asks for, and `Command.ofEntry?` reads a command off an entry.
-/

namespace Uring

namespace Operation

inductive Kind where
  | nop
  | accept
  | connect
  | close
  | shutdown
  | read
  | write
  | recv
  | send
  | timeout
  | pollAdd
  | cancel
  deriving DecidableEq, Repr

namespace Kind

def opcode : Kind → UInt8
  | nop => Abi.opNop
  | accept => Abi.opAccept
  | connect => Abi.opConnect
  | close => Abi.opClose
  | shutdown => Abi.opShutdown
  | read => Abi.opRead
  | write => Abi.opWrite
  | recv => Abi.opRecv
  | send => Abi.opSend
  | timeout => Abi.opTimeout
  | pollAdd => Abi.opPollAdd
  | cancel => Abi.opAsyncCancel

def all : List Kind :=
  [nop, accept, connect, close, shutdown, read, write, recv, send, timeout, pollAdd, cancel]

/-- The kind that an opcode stands for. -/
def ofOpcode? (code : UInt8) : Option Kind := all.find? fun k => k.opcode == code

/-- No two kinds share an opcode. -/
@[simp] theorem ofOpcode?_opcode (k : Kind) : ofOpcode? k.opcode = some k := by
  cases k <;> decide

end Kind

end Operation

namespace Halves

/-- The halves that a number stands for. -/
def ofCode? (n : Int32) : Option Halves := [read, write, both].find? fun h => h.code == n

@[simp] theorem ofCode?_code (h : Halves) : ofCode? h.code = some h := by
  cases h <;> decide

end Halves

inductive Command where
  | nop
  /-- A peer is given as the addresses of its buffer and of its length. -/
  | accept (fd flags : Int32) (peer : Option (UInt64 × UInt64)) (multishot : Bool)
  | connect (fd : Int32) (addr : Buffer)
  | close (fd : Int32)
  | shutdown (fd : Int32) (how : Halves)
  | read (fd : Int32) (buf : Buffer) (offset : UInt64)
  | write (fd : Int32) (buf : Buffer) (offset : UInt64)
  | recv (fd : Int32) (buf : Buffer) (flags : Int32)
  | send (fd : Int32) (buf : Buffer) (flags : Int32)
  | timeout (time : UInt64) (count flags : UInt32)
  | pollAdd (fd : Int32) (mask : UInt32)
  | cancel (target : UInt64) (flags : UInt32)
  deriving DecidableEq, Repr

namespace Command

open Operation (Kind)

def kind : Command → Kind
  | nop => .nop
  | accept .. => .accept
  | connect .. => .connect
  | close .. => .close
  | shutdown .. => .shutdown
  | read .. => .read
  | write .. => .write
  | recv .. => .recv
  | send .. => .send
  | timeout .. => .timeout
  | pollAdd .. => .pollAdd
  | cancel .. => .cancel

/-- The data buffer of an entry. -/
def bufferOf (e : Submission.Entry) : Buffer := ⟨e.addr, e.len.toNat⟩

/-- Where an entry has the peer's address left.  A null address is no place. -/
def peerOf (e : Submission.Entry) : Option (UInt64 × UInt64) :=
  if e.addr = 0 then none else some (e.addr, e.off)

/-- Reads an entry as one of the given kind. -/
def read? (e : Submission.Entry) : Kind → Option Command
  | .nop => some nop
  | .accept =>
    some (accept e.fd e.rwFlags (peerOf e) (e.ioprio &&& Abi.acceptMultishot != 0))
  | .connect => some (connect e.fd ⟨e.addr, e.off.toNat⟩)
  | .close => some (close e.fd)
  | .shutdown => (Halves.ofCode? e.len.toInt32).map (shutdown e.fd)
  | .read => some (read e.fd (bufferOf e) e.off)
  | .write => some (write e.fd (bufferOf e) e.off)
  | .recv => some (recv e.fd (bufferOf e) e.rwFlags)
  | .send => some (send e.fd (bufferOf e) e.rwFlags)
  | .timeout => some (timeout e.addr e.off.toUInt32 e.rwFlags.toUInt32)
  | .pollAdd => some (pollAdd e.fd e.rwFlags.toUInt32)
  | .cancel => some (cancel e.addr e.rwFlags.toUInt32)

/-- The command that an entry gives, if its opcode is known. -/
def ofEntry? (e : Submission.Entry) : Option Command :=
  (Kind.ofOpcode? e.opcode).bind (read? e)

end Command

namespace Operation

/-- What an operation asks the kernel for. -/
def command : Operation → Command
  | nop => .nop
  | accept fd flags peer multishot =>
    .accept fd flags (peer.map fun p => (p.buffer.address, p.length.address)) multishot
  | connect fd addr => .connect fd addr
  | close fd => .close fd
  | shutdown fd how => .shutdown fd how
  | read fd buf offset => .read fd buf offset
  | write fd buf offset => .write fd buf offset
  | recv fd buf flags => .recv fd buf flags
  | send fd buf flags => .send fd buf flags
  | timeout time count flags => .timeout time.address count flags
  | pollAdd fd mask => .pollAdd fd mask
  | cancel target flags => .cancel target.userData flags

/-- The operation with the kind of its target's tag forgotten. -/
def untagged : Operation → Operation
  | cancel target flags => cancel (.data64 target.userData) flags
  | op => op

end Operation

end Uring
