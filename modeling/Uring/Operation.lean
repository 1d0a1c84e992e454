import Uring.Error
import Uring.Timespec
import Uring.Submission.Entry

/-!
# Uring.Operation — the operations and their encoding

An `Operation` names what the kernel is asked to do.  `validate` refuses malformed ones; `encode`
writes the fields of an entry that the operation uses, and no other field.  Memory of the caller
enters as an address only, so it has to stay in place until the operation has completed.
-/

namespace Uring

/-- A stretch of the caller's memory. -/
structure Buffer where
  address : UInt64
  length : Nat
  deriving DecidableEq, Repr

/-- A value that the caller keeps in memory. -/
structure Located (α : Type) where
  address : UInt64
  value : α
  deriving DecidableEq, Repr

/-- Where an accept leaves the peer's address: a buffer, and a cell that holds its usable length
before and the address's length after. -/
structure Peer where
  buffer : Buffer
  length : Located UInt32
  deriving DecidableEq, Repr

/-- Which halves of a connection are shut. -/
inductive Halves where
  | read
  | write
  | both
  deriving DecidableEq, Repr

namespace Halves

def code : Halves → Int32
  | read => Abi.shutRead
  | write => Abi.shutWrite
  | both => Abi.shutBoth

/-- No value when neither half is chosen. -/
def ofSides? : Bool → Bool → Option Halves
  | true, true => some both
  | true, false => some read
  | false, true => some write
  | false, false => none

end Halves

inductive Operation where
  | nop
  | accept (fd flags : Int32) (peer : Option Peer) (multishot : Bool)
  | connect (fd : Int32) (addr : Buffer)
  | close (fd : Int32)
  | shutdown (fd : Int32) (how : Halves)
  /-- Reads at an offset; the highest offset stands for the file position. -/
  | read (fd : Int32) (buf : Buffer) (offset : UInt64)
  | write (fd : Int32) (buf : Buffer) (offset : UInt64)
  | recv (fd : Int32) (buf : Buffer) (flags : Int32)
  | send (fd : Int32) (buf : Buffer) (flags : Int32)
  /-- Completes when the time is up or after `count` other completions, if that is not zero. -/
  | timeout (time : Located Timespec) (count flags : UInt32)
  | pollAdd (fd : Int32) (mask : UInt32)
  /-- Cancels the request that carries the target tag. -/
  | cancel (target : Tag) (flags : UInt32)
  deriving DecidableEq, Repr

namespace Operation

/-- A timeout after a span of time. -/
def relativeTimeout (time : Located Timespec) : Operation := timeout time 0 0

/-- A timeout at a point of the monotonic clock. -/
def absoluteTimeout (time : Located Timespec) : Operation := timeout time 0 Abi.timeoutAbs

/-! ### Shape -/

def checkFd (fd : Int32) : Except InvalidReason Unit :=
  if fd < 0 then .error .negativeDescriptor else .ok ()

/-- A length field has 32 bits. -/
def checkLength (buf : Buffer) : Except InvalidReason Unit :=
  if buf.length < UInt32.size then .ok () else .error .bufferTooLong

/-- At least the family's two bytes, at most what the kernel takes. -/
def checkAddress (addr : Buffer) : Except InvalidReason Unit :=
  if addr.length < 2 then .error .connectAddressTooShort
  else if addr.length > Abi.sockAddrMax then .error .connectAddressTooLong
  else .ok ()

def checkPeer (peer : Peer) : Except InvalidReason Unit :=
  if peer.buffer.length = 0 then .error .emptyAcceptBuffer
  else if peer.length.value.toNat > peer.buffer.length then .error .acceptLengthTooLong
  else .ok ()

/-- Refuses operations that cannot form a well-shaped entry; the descriptor is looked at first. -/
def validate : Operation → Except InvalidReason Unit
  | nop => .ok ()
  | accept fd _ none _ => checkFd fd
  | accept fd _ (some peer) _ => do checkFd fd; checkPeer peer
  | connect fd addr => do checkFd fd; checkAddress addr
  | close fd => checkFd fd
  | shutdown fd _ => checkFd fd
  | read fd buf _ => do checkFd fd; checkLength buf
  | write fd buf _ => do checkFd fd; checkLength buf
  | recv fd buf _ => do checkFd fd; checkLength buf
  | send fd buf _ => do checkFd fd; checkLength buf
  | timeout time _ _ => if time.value.valid then .ok () else .error .timespecOutOfRange
  | pollAdd fd _ => checkFd fd
  | cancel _ _ => .ok ()

/-- The tag of another entry that the operation refers to. -/
def cancelTarget? : Operation → Option Tag
  | cancel target _ => some target
  | _ => none

/-! ### Parts -/

/-- The descriptor that the operation works on. -/
def fd? : Operation → Option Int32
  | accept fd _ _ _ | connect fd _ | close fd | shutdown fd _ => some fd
  | read fd _ _ | write fd _ _ | recv fd _ _ | send fd _ _ => some fd
  | pollAdd fd _ => some fd
  | nop | timeout _ _ _ | cancel _ _ => none

/-- The memory that data is read into or written from. -/
def transfer? : Operation → Option Buffer
  | read _ buf _ | write _ buf _ | recv _ buf _ | send _ buf _ => some buf
  | _ => none

/-- The address to connect to. -/
def address? : Operation → Option Buffer
  | connect _ addr => some addr
  | _ => none

/-- Where the peer's address is to be left. -/
def peer? : Operation → Option Peer
  | accept _ _ peer _ => peer
  | _ => none

def time? : Operation → Option (Located Timespec)
  | timeout time _ _ => some time
  | _ => none

/-! ### Encoding -/

def encode (op : Operation) (e : Submission.Entry) : Submission.Entry :=
  match op with
  | nop => { e with opcode := Abi.opNop, fd := -1 }
  | accept fd flags peer multishot =>
    { e with
      opcode := Abi.opAccept
      fd := fd
      rwFlags := flags
      addr := (peer.map (·.buffer.address)).getD e.addr
      off := (peer.map (·.length.address)).getD e.off
      ioprio := if multishot then e.ioprio ||| Abi.acceptMultishot else e.ioprio }
  | connect fd addr =>
    { e with
      opcode := Abi.opConnect
      fd := fd
      addr := addr.address
      off := UInt64.ofNat addr.length }
  | close fd => { e with opcode := Abi.opClose, fd := fd }
  | shutdown fd how =>
    { e with opcode := Abi.opShutdown, fd := fd, len := how.code.toUInt32 }
  | read fd buf offset =>
    { e with
      opcode := Abi.opRead
      fd := fd
      off := offset
      addr := buf.address
      len := UInt32.ofNat buf.length }
  | write fd buf offset =>
    { e with
      opcode := Abi.opWrite
      fd := fd
      off := offset
      addr := buf.address
      len := UInt32.ofNat buf.length }
  | recv fd buf flags =>
    { e with
      opcode := Abi.opRecv
      fd := fd
      addr := buf.address
      len := UInt32.ofNat buf.length
      rwFlags := flags }
  | send fd buf flags =>
    { e with
      opcode := Abi.opSend
      fd := fd
      addr := buf.address
      len := UInt32.ofNat buf.length
      rwFlags := flags }
  | timeout time count flags =>
    { e with
      opcode := Abi.opTimeout
      fd := -1
      addr := time.address
      len := 1
      off := count.toUInt64
      rwFlags := flags.toInt32 }
  | pollAdd fd mask =>
    { e with opcode := Abi.opPollAdd, fd := fd, rwFlags := mask.toInt32 }
  | cancel target flags =>
    { e with
      opcode := Abi.opAsyncCancel
      fd := -1
      addr := target.userData
      rwFlags := flags.toInt32 }

/-- No encoding touches the caller's part of an entry. -/
theorem encode_userData (op : Operation) (e : Submission.Entry) :
    (op.encode e).userData = e.userData := by
  cases op <;> rfl

theorem encode_flags (op : Operation) (e : Submission.Entry) :
    (op.encode e).flags = e.flags := by
  cases op <;> rfl

end Operation

end Uring
