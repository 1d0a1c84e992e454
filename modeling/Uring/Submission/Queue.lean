import Uring.Cells
import Uring.RingSize
import Uring.Submission.Entry

/-!
# Uring.Submission.Queue — handing entries to the kernel

The caller fills entries and counts them in a tail of its own; `flush` publishes that tail, and the
kernel takes entries from the head up to the published tail.  The kernel finds entry `i` through an
index array, which is set up once as the identity.
-/

namespace Uring.Submission

/-- The submission ring's memory and its entries, shared with the kernel. -/
structure Memory where
  entries : UInt32
  mask : UInt32
  head : UInt32
  tail : UInt32
  flags : UInt32
  /-- How many malformed indices the kernel has skipped. -/
  dropped : UInt32
  array : Cells UInt32
  sqes : Cells Entry
  deriving DecidableEq, Repr, Inhabited

namespace Memory

/-! ### The kernel's flag word -/

/-- The kernel's polling thread sleeps and has to be woken by an enter. -/
def needsWakeup (m : Memory) : Bool := m.flags &&& Abi.sqNeedWakeup != 0

/-- Completions are held back until the next enter. -/
def cqOverflowed (m : Memory) : Bool := m.flags &&& Abi.sqCqOverflow != 0

/-- An enter is wanted, for completions held back or for work put off. -/
def cqNeedsFlush (m : Memory) : Bool := m.flags &&& (Abi.sqCqOverflow ||| Abi.sqTaskRun) != 0

/-! ### The kernel's side -/

/-- The entry that the kernel finds at a counter. -/
def entryAt (m : Memory) (counter : UInt32) : Entry := m.sqes.get (m.array.get (counter &&& m.mask))

/-- The entries that the kernel can take, oldest first. -/
def published (m : Memory) : List Entry := span m.entryAt m.head m.tail

/-- The kernel takes up to `n` published entries, each with the index it stands at. -/
def take : Nat → Memory → List (UInt32 × Entry) × Memory
  | 0, m => ([], m)
  | n + 1, m =>
    if m.head = m.tail then ([], m)
    else
      let index := m.array.get (m.head &&& m.mask)
      let (rest, m') := take n { m with head := m.head + 1 }
      ((index, m.sqes.get index) :: rest, m')

end Memory

/-- The caller's handle on a submission ring, whose size has been checked.  Entries from `head` up
to `tail` are committed but not published. -/
structure Queue where
  size : RingSize
  head : UInt32
  tail : UInt32
  deriving DecidableEq, Repr

namespace Queue

/-- The index array as the identity below `n`. -/
def identityArray (n : Nat) (array : Cells UInt32) : Cells UInt32 :=
  (List.range n).foldl (fun a i => a.set (UInt32.ofNat i) (UInt32.ofNat i)) array

/-- Checks the size, sets up the index array and starts at the published tail.  A memory of the
wrong size is not written. -/
def attach (m : Memory) : Except InitError Queue × Memory :=
  match RingSize.ofWords m.entries m.mask with
  | .error e => (.error e, m)
  | .ok size =>
    (.ok ⟨size, m.tail, m.tail⟩, { m with array := identityArray size.entries.toNat m.array })

/-- Entries that the kernel has not taken yet, published or not. -/
def outstanding (q : Queue) (m : Memory) : UInt32 := q.tail - m.head

/-- Those entries as the kernel would read them, oldest first. -/
def toList (q : Queue) (m : Memory) : List Entry := span m.entryAt m.head q.tail

@[simp] theorem length_toList (q : Queue) (m : Memory) :
    (q.toList m).length = (q.outstanding m).toNat :=
  length_span ..

/-- How many entries can still be committed. -/
def spaceLeft (q : Queue) (m : Memory) : UInt32 := q.size.entries - q.outstanding m

def full (q : Queue) (m : Memory) : Bool := q.spaceLeft m = 0

/-- Entries committed but not published. -/
def pending (q : Queue) : UInt32 := q.tail - q.head

/-- Where the next entry goes. -/
def vacant? (q : Queue) (m : Memory) : Option UInt32 :=
  if q.outstanding m ≥ q.size.entries then none else some (q.size.slot q.tail)

/-- The vacant entry joins the batch. -/
def commit (q : Queue) : Queue := { q with tail := q.tail + 1 }

/-- Publishes the batch and says how much the kernel now has before it. -/
def flush (q : Queue) (m : Memory) : UInt32 × Queue × Memory :=
  let m := if q.head = q.tail then m else { m with tail := q.tail }
  let q := { q with head := q.tail }
  (q.outstanding m, q, m)

/-- What a look at the queue tells. -/
structure Info where
  mask : UInt32
  entries : UInt32
  spaceLeft : UInt32
  full : Bool
  pending : UInt32
  needsWakeup : Bool
  cqNeedsFlush : Bool
  cqOverflowed : Bool
  dropped : UInt32
  deriving DecidableEq, Repr

def info (q : Queue) (m : Memory) : Info where
  mask := q.size.mask
  entries := q.size.entries
  spaceLeft := q.spaceLeft m
  full := q.full m
  pending := q.pending
  needsWakeup := m.needsWakeup
  cqNeedsFlush := m.cqNeedsFlush
  cqOverflowed := m.cqOverflowed
  dropped := m.dropped

end Queue

end Uring.Submission
