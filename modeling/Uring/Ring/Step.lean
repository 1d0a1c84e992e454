import Uring.Ring.Harvest
import Uring.Ring.Lifetime
import Uring.Ring.Probe
import Uring.Ring.Slot
import Uring.Ring.Submit

/-!
# Uring.Ring.Step — the life of a ring as a list of steps

A `Step` is something the caller does with the ring or something the kernel does by itself.  `step`
performs one and `run` performs many, so that statements about every possible use of a ring are
statements about lists of steps.
-/

namespace Uring

/-- What a kernel does without being called. -/
inductive KernelEvent where
  | post (completions : List Completion.Entry)
  | consume (n : UInt32) (hold : Bool) (results : List Int32)
  /-- More replies for later calls. -/
  | script (enters : List (Except Errno Service)) (registers : List (Except Errno ProbeTable))
  /-- Counters and flags that the kernel overwrites. -/
  | overwrite (sqFlags dropped overflow : Option UInt32)

inductive Step where
  /-- Claims a slot, performs the acts and drops it. -/
  | slot (acts : List Slot.Act)
  | submit
  | submitAndWait (wait : UInt32)
  | enter (toSubmit minComplete flags : UInt32)
  | harvest (capacity : Nat) (wait : UInt32)
  | copy (out : Array Completion.Entry) (wait : UInt32)
  | copyReady (out : Array Completion.Entry)
  | peek
  | advance (count : UInt32)
  | destroy
  | probe
  | supports (opcode : UInt8)
  | kernel (event : KernelEvent)

inductive Answer where
  | slot (result : Except RingError (UInt32 × List Slot.ActAnswer))
  | done (result : Except RingError Unit)
  | count (result : Except RingError UInt32)
  | batch (result : Except RingError (Array Completion.Entry))
  | copied (result : Except RingError UInt32) (out : Array Completion.Entry)
  | ready (result : Except RingError (UInt32 × Array Completion.Entry))
  | peeked (result : Except RingError (Option Completion.Entry))
  | probed (result : Except RingError ProbeTable)
  | supported (result : Except RingError Bool)
  /-- The entries that the kernel took by itself. -/
  | taken (entries : List (UInt32 × Submission.Entry))
  | silent

/-- The failure that a result is, if it is one. -/
def failure? {α : Type} : Except RingError α → Option RingError
  | .error e => some e
  | .ok _ => none

theorem failure?_eq_some {α : Type} {r : Except RingError α} {e : RingError} :
    failure? r = some e ↔ r = .error e := by
  cases r <;> simp [failure?]

/-- What a step was refused for, if it was. -/
def Answer.error? : Answer → Option RingError
  | .slot r => failure? r
  | .done r => failure? r
  | .count r => failure? r
  | .batch r => failure? r
  | .copied r _ => failure? r
  | .ready r => failure? r
  | .peeked r => failure? r
  | .probed r => failure? r
  | .supported r => failure? r
  | .taken _ | .silent => none

namespace Kernel

def event (k : Kernel) : KernelEvent → List (UInt32 × Submission.Entry) × Kernel
  | .post cs => ([], k.postAll cs)
  | .consume n hold results => k.consume n hold results
  | .script enters registers =>
    ([], { k with
      enterReplies := k.enterReplies ++ enters
      registerReplies := k.registerReplies ++ registers })
  | .overwrite sqFlags dropped overflow =>
    ([], { k.writeFlags sqFlags with
      sq.dropped := dropped.getD k.sq.dropped
      cq.overflow := overflow.getD k.cq.overflow })

end Kernel

namespace Machine

/-- Claims a slot, performs the acts and drops it. -/
def useSlot (s : Machine) (acts : List Slot.Act) :
    Except RingError (UInt32 × List Slot.ActAnswer) × Machine :=
  match s.nextSlot with
  | (.error e, s) => (.error e, s)
  | (.ok slot, s) =>
    let (answers, _, s) := slot.acts s acts
    (.ok (slot.index, answers), s)

def step (s : Machine) : Step → Answer × Machine
  | .slot acts => let (r, s) := s.useSlot acts; (.slot r, s)
  | .submit => let (r, s) := s.submit; (.count r, s)
  | .submitAndWait wait => let (r, s) := s.submitAndWait wait; (.count r, s)
  | .enter toSubmit minComplete flags =>
    let (r, s) := s.enter toSubmit minComplete flags; (.count r, s)
  | .harvest capacity wait => let (r, s) := s.harvest capacity wait; (.batch r, s)
  | .copy out wait => let (r, out, s) := s.copyCompletions out wait; (.copied r out, s)
  | .copyReady out => let (r, s) := s.copyReady out; (.ready r, s)
  | .peek => (.peeked s.peek, s)
  | .advance count => let (r, s) := s.advance count; (.done r, s)
  | .destroy => (.done (.ok ()), s.destroy)
  | .probe => let (r, s) := s.probe; (.probed r, s)
  | .supports opcode => let (r, s) := s.supports opcode; (.supported r, s)
  | .kernel event =>
    let (taken, kernel) := s.kernel.event event
    (match event with | .consume .. => .taken taken | _ => .silent, { s with kernel := kernel })

/-- Performs steps in order. -/
def run (s : Machine) : List Step → List Answer × Machine
  | [] => ([], s)
  | a :: rest =>
    let (answer, s) := s.step a
    let (answers, s) := s.run rest
    (answer :: answers, s)

end Machine

end Uring
