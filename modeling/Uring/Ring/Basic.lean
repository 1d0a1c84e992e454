import Uring.Log
import Uring.Mapping

/-!
# Uring.Ring.Basic — a ring and the machine it runs on

A `Ring` is the caller's side: until it is destroyed it holds the two queues, the mappings and the
descriptor.  A `Machine` puts a ring and its kernel side by side, with the messages logged so far.
Operations on a ring are functions on machines; what fails after `destroy` fails with `destroyed`.
-/

namespace Uring

/-- What a ring holds while it is alive. -/
structure Live where
  sq : Submission.Queue
  cq : Completion.Queue
  /-- In the order in which they were mapped. -/
  maps : List Mapping
  fd : Int32
  deriving DecidableEq, Repr

structure Ring where
  live : Option Live
  /-- The kind of tags in use, fixed by the first tag of a committed entry. -/
  tagKind : Option TagKind
  sqEntries : UInt32
  cqEntries : UInt32
  setupFlags : UInt32
  features : UInt32
  deriving DecidableEq, Repr

namespace Ring

def destroyed (r : Ring) : Bool := r.live.isNone

/-- A thread of the kernel takes published entries without being entered. -/
def polled (r : Ring) : Bool := r.setupFlags &&& Abi.setupSqPoll != 0

/-- What the ring holds, or the failure of every use after `destroy`. -/
def alive (r : Ring) : Except RingError Live :=
  match r.live with
  | none => .error .destroyed
  | some live => .ok live

def rawFd (r : Ring) : Except RingError Int32 := r.alive.map (·.fd)

end Ring

structure Machine where
  ring : Ring
  kernel : Kernel
  log : List LogEvent

namespace Machine

def note (s : Machine) (e : LogEvent) : Machine := { s with log := s.log ++ [e] }

def withLive (s : Machine) (live : Live) : Machine := { s with ring.live := some live }

/-! ### Looking at the queues -/

def sqSpaceLeft (s : Machine) : Except RingError UInt32 :=
  s.ring.alive.map fun live => live.sq.spaceLeft s.kernel.sq

def cqReady (s : Machine) : Except RingError UInt32 :=
  s.ring.alive.map fun _ => s.kernel.cq.ready

def sqInfo (s : Machine) : Except RingError Submission.Queue.Info :=
  s.ring.alive.map fun live => live.sq.info s.kernel.sq

def cqInfo (s : Machine) : Except RingError Completion.Queue.Info :=
  s.ring.alive.map fun live => live.cq.info s.kernel.cq

/-! ### Entering the kernel -/

/-- One enter, never retried. -/
def enterWith (s : Machine) (live : Live) (toSubmit minComplete flags : UInt32) :
    Except RingError UInt32 × Machine :=
  let (reply, kernel) := s.kernel.enter live.fd toSubmit minComplete flags
  (reply.mapError .enter, { s with kernel := kernel })

/-- Enters as the caller says; nothing is published first. -/
def enter (s : Machine) (toSubmit minComplete flags : UInt32) :
    Except RingError UInt32 × Machine :=
  match s.ring.live with
  | none => (.error .destroyed, s)
  | some live => s.enterWith live toSubmit minComplete flags

end Machine

end Uring
