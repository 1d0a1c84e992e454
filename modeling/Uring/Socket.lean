import Uring.Errno
import Uring.Inet
import Uring.Log
import Uring.Operation

/-!
# Uring.Socket — stream sockets by single system calls

Every operation makes one call and passes its outcome on, with two exceptions: `connect` is repeated
while it is interrupted, and an interrupted `close` counts as done, since the descriptor is gone
either way.  Malformed arguments are refused without a call.  The kernel is a list of replies, and
succeeds once they have run out.
-/

namespace Uring.Socket

/-- A system call on a socket with its arguments. -/
inductive Call where
  | socket (domain : UInt16) (type protocol : Int32)
  | bind (fd : Int32) (addr : Inet.SockAddr)
  | connect (fd : Int32) (addr : Inet.SockAddr)
  | listen (fd backlog : Int32)
  | shutdown (fd : Int32) (how : Halves)
  | close (fd : Int32)
  | getOption (fd level name : Int32)
  | setOption (fd level name value : Int32)
  deriving DecidableEq, Repr

/-- Bytes of an option's value. -/
def optionBytes : Nat := 4

/-- What a call returns when it succeeds. -/
structure Success where
  ret : Int32 := 0
  /-- What was stored for the value of an option, if anything. -/
  value : Option Int32 := none
  deriving DecidableEq, Repr

abbrev Reply := Except Errno Success

/-- What an operation did: its result, its calls in order, and the replies it left over. -/
structure Exchange (α : Type) where
  result : Except Errno α
  calls : List Call
  unused : List Reply
  log : List LogEvent := []

namespace Exchange

variable {α β : Type}

/-- A result without a call. -/
def refuse (e : Errno) (replies : List Reply) : Exchange α := ⟨.error e, [], replies, []⟩

def map (f : α → β) (x : Exchange α) : Exchange β := { x with result := x.result.map f }

end Exchange

/-- One call, answered by the next reply. -/
def call (c : Call) (replies : List Reply) : Exchange Success :=
  ⟨replies.head?.getD (.ok {}), [c], replies.tail, []⟩

/-- One call that returns nothing. -/
def perform (c : Call) (replies : List Reply) : Exchange Unit := (call c replies).map fun _ => ()

/-! ### Arguments -/

def address (ip : List UInt8) (port : UInt16) : Except Errno Inet.SockAddr :=
  match Inet.SockAddr.ofBytes? ip port with
  | some addr => .ok addr
  | none => .error .invalid

def checkFd (fd : Int32) : Except Errno Unit := if fd < 0 then .error .badDescriptor else .ok ()

/-- A call whose arguments were checked, or the refusal. -/
def checked (arguments : Except Errno Call) (make : Call → List Reply → Exchange Unit)
    (replies : List Reply) : Exchange Unit :=
  match arguments with
  | .error e => .refuse e replies
  | .ok c => make c replies

/-! ### Operations -/

/-- A stream socket for IPv4, with the descriptor's two flags as chosen. -/
def create (cloexec nonblock : Bool) (replies : List Reply) : Exchange Int32 :=
  let type := Abi.sockStream ||| (if cloexec then Abi.sockCloexec else 0) |||
    (if nonblock then Abi.sockNonblock else 0)
  let x := (call (.socket Abi.afInet type 0) replies).map (·.ret)
  { x with log := (x.result.toOption.map fun fd => .newSocket fd cloexec nonblock).toList }

/-- The address is looked at before the descriptor. -/
def bind (fd : Int32) (ip : List UInt8) (port : UInt16) : List Reply → Exchange Unit :=
  checked (do let addr ← address ip port; checkFd fd; return .bind fd addr) perform

def listen (fd backlog : Int32) : List Reply → Exchange Unit :=
  checked (do checkFd fd; return .listen fd backlog) perform

/-- Makes a call again and again while it is interrupted. -/
def retry (c : Call) : List Reply → Exchange Unit
  | [] => ⟨.ok (), [c], [], []⟩
  | .ok _ :: rest => ⟨.ok (), [c], rest, []⟩
  | .error e :: rest =>
    if e = .interrupted then
      let x := retry c rest
      { x with calls := c :: x.calls }
    else ⟨.error e, [c], rest, []⟩

def connect (fd : Int32) (ip : List UInt8) (port : UInt16) : List Reply → Exchange Unit :=
  checked (do let addr ← address ip port; checkFd fd; return .connect fd addr) retry

/-- Some half has to be chosen, which is looked at before the descriptor. -/
def shutdown (fd : Int32) (read write : Bool) : List Reply → Exchange Unit :=
  let arguments := match Halves.ofSides? read write with
    | none => .error .invalid
    | some how => do checkFd fd; return .shutdown fd how
  checked arguments perform

/-- The descriptor is not looked at. -/
def close (fd : Int32) (replies : List Reply) : Exchange Unit :=
  let x := perform (.close fd) replies
  { x with result := match x.result with
      | .error e => if e = .interrupted then .ok () else .error e
      | .ok () => .ok () }

/-- Reads a number-valued option, zero if the kernel stored nothing. -/
def getOption (fd level name : Int32) (replies : List Reply) : Exchange Int32 :=
  (call (.getOption fd level name) replies).map fun success => success.value.getD 0

def setOption (fd level name value : Int32) : List Reply → Exchange Unit :=
  perform (.setOption fd level name value)

/-! ### Operations with their arguments -/

inductive Request where
  | create (cloexec nonblock : Bool)
  | bind (fd : Int32) (ip : List UInt8) (port : UInt16)
  | listen (fd backlog : Int32)
  | connect (fd : Int32) (ip : List UInt8) (port : UInt16)
  | shutdown (fd : Int32) (read write : Bool)
  | close (fd : Int32)
  | getOption (fd level name : Int32)
  | setOption (fd level name value : Int32)
  deriving DecidableEq, Repr

namespace Request

/-- What is done for a request; most operations return nothing, the others a number. -/
def exchange : Request → List Reply → Exchange Unit ⊕ Exchange Int32
  | create cloexec nonblock, replies => .inr (Socket.create cloexec nonblock replies)
  | bind fd ip port, replies => .inl (Socket.bind fd ip port replies)
  | listen fd backlog, replies => .inl (Socket.listen fd backlog replies)
  | connect fd ip port, replies => .inl (Socket.connect fd ip port replies)
  | shutdown fd read write, replies => .inl (Socket.shutdown fd read write replies)
  | close fd, replies => .inl (Socket.close fd replies)
  | getOption fd level name, replies => .inr (Socket.getOption fd level name replies)
  | setOption fd level name value, replies => .inl (Socket.setOption fd level name value replies)

/-- The result, in which nothing reads as zero. -/
def result (q : Request) (replies : List Reply) : Except Errno Int32 :=
  match q.exchange replies with
  | .inl x => x.result.map fun _ => 0
  | .inr x => x.result

/-- The calls made, in order. -/
def calls (q : Request) (replies : List Reply) : List Call :=
  (q.exchange replies).elim (·.calls) (·.calls)

/-- The replies left over. -/
def unused (q : Request) (replies : List Reply) : List Reply :=
  (q.exchange replies).elim (·.unused) (·.unused)

/-- The result as one signed word. -/
def word (q : Request) (replies : List Reply) : Int32 :=
  match q.exchange replies with
  | .inl x => Errno.toUnitResult x.result
  | .inr x => Errno.toResult x.result

end Request

end Uring.Socket
