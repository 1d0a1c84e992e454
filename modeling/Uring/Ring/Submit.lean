import Uring.Ring.Basic

/-!
# Uring.Ring.Submit — publishing the batch and entering the kernel

All committed entries are published first, so a failed enter loses nothing: the next submit offers
them again.  The kernel is entered at most once, and not at all when there is nothing to ask for.
-/

namespace Uring

/-- What an enter after publishing asks for: events, when the caller waits or the kernel holds
completions back; a wake-up, when the polling thread sleeps. -/
def submitFlags (polled : Bool) (m : Submission.Memory) (wait : UInt32) : UInt32 :=
  (if wait > 0 || m.cqNeedsFlush then Abi.enterGetEvents else 0) |||
    (if polled && m.needsWakeup then Abi.enterSqWakeup else 0)

/-- A polling kernel is entered for its flags alone, any other also to hand entries over. -/
def mustEnter (polled : Bool) (toSubmit flags : UInt32) : Bool :=
  flags != 0 || (!polled && toSubmit > 0)

namespace Machine

/-- Publishes the batch and says how much the kernel now has before it. -/
def publish (s : Machine) (live : Live) : UInt32 × Live × Machine :=
  let (toSubmit, sq, memory) := live.sq.flush s.kernel.sq
  let live := { live with sq := sq }
  (toSubmit, live, { s.withLive live with kernel.sq := memory })

/-- Publishes the batch and waits for completions.  A polling kernel counts as taking all that is
offered. -/
def submitAndWait (s : Machine) (wait : UInt32) : Except RingError UInt32 × Machine :=
  match s.ring.live with
  | none => (.error .destroyed, s)
  | some live =>
    let polled := s.ring.polled
    let (toSubmit, live, s) := s.publish live
    let flags := submitFlags polled s.kernel.sq wait
    let (reply, s) :=
      if mustEnter polled toSubmit flags then s.enterWith live toSubmit wait flags
      else (.ok 0, s)
    match reply with
    | .error e => (.error e, s)
    | .ok taken =>
      let submitted := if polled then toSubmit else taken
      (.ok submitted, s.note (.submitted toSubmit submitted wait))

def submit (s : Machine) : Except RingError UInt32 × Machine := s.submitAndWait 0

end Machine

end Uring
