import Uring.Ring.Basic

/-!
# Uring.Ring.Harvest — taking completions, entering the kernel if need be

Completions at hand are taken without a call.  Only when none could be taken, and the caller waits
or the kernel holds completions back, the kernel is entered once and taking is tried once more.
-/

namespace Uring.Machine

/-- Takes what is ready into the buffer. -/
def takeReady (s : Machine) (live : Live) (out : Array Completion.Entry) :
    UInt32 × Array Completion.Entry × Machine :=
  let (count, out, memory) := live.cq.copyReady s.kernel.cq out
  (count, out, { s with kernel.cq := memory })

/-- Fills the front of the buffer with the oldest completions.  The answer is their number; the
buffer comes back in any case. -/
def copyCompletions (s : Machine) (out : Array Completion.Entry) (wait : UInt32) :
    Except RingError UInt32 × Array Completion.Entry × Machine :=
  match s.ring.live with
  | none => (.error .destroyed, out, s)
  | some live =>
    let (count, out, s) := s.takeReady live out
    if count > 0 then (.ok count, out, s.note (.harvested count))
    else if !s.kernel.sq.cqNeedsFlush && wait = 0 then (.ok 0, out, s)
    else
      let s := if s.kernel.sq.cqOverflowed then s.note (.overflowed s.kernel.cq.overflow) else s
      match s.enterWith live 0 wait Abi.enterGetEvents with
      | (.error e, s) => (.error e, out, s)
      | (.ok _, s) =>
        let (count, out, s) := s.takeReady live out
        (.ok count, out, s.note (.harvestedAfterEnter count wait))

/-- A fresh batch of at most `capacity` completions, and never more than the ring holds. -/
def harvest (s : Machine) (capacity : Nat) (wait : UInt32) :
    Except RingError (Array Completion.Entry) × Machine :=
  let buffer := Array.replicate (min capacity s.ring.cqEntries.toNat) default
  match s.copyCompletions buffer wait with
  | (.error e, _, s) => (.error e, s)
  | (.ok count, out, s) => (.ok (out.take count.toNat), s)

/-! ### One at a time -/

/-- Takes what is ready and never enters the kernel. -/
def copyReady (s : Machine) (out : Array Completion.Entry) :
    Except RingError (UInt32 × Array Completion.Entry) × Machine :=
  match s.ring.live with
  | none => (.error .destroyed, s)
  | some live =>
    let (count, out, s) := s.takeReady live out
    (.ok (count, out), s)

def peek (s : Machine) : Except RingError (Option Completion.Entry) :=
  s.ring.alive.map fun live => live.cq.peek? s.kernel.cq

def advance (s : Machine) (count : UInt32) : Except RingError Unit × Machine :=
  match s.ring.live with
  | none => (.error .destroyed, s)
  | some _ =>
    match Completion.Queue.advance s.kernel.cq count with
    | .error e => (.error e, s)
    | .ok memory => (.ok (), { s with kernel.cq := memory })

end Uring.Machine
