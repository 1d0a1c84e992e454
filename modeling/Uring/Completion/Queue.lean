import Uring.Cells
import Uring.RingSize
import Uring.Completion.Entry

/-!
# Uring.Completion.Queue — taking completions off their ring

The kernel writes completions at the tail of the shared memory and the caller takes them from the
head.  Both counters run through all words; the completions at hand are those from `head` up to
`tail` (`Queue.toList`).
-/

namespace Uring.Completion

/-- The completion ring's memory, shared with the kernel. -/
structure Memory where
  entries : UInt32
  mask : UInt32
  head : UInt32
  tail : UInt32
  /-- How many completions the kernel had to drop. -/
  overflow : UInt32
  cqes : Cells Entry
  deriving DecidableEq, Repr, Inhabited

namespace Memory

/-- How many completions wait to be taken. -/
def ready (m : Memory) : UInt32 := m.tail - m.head

theorem ready_eq_zero {m : Memory} : m.ready = 0 ↔ m.head = m.tail := distance_eq_zero

/-! ### The kernel's side -/

def hasRoom (m : Memory) : Bool := m.ready < m.entries

def push (m : Memory) (c : Entry) : Memory :=
  { m with cqes := m.cqes.set (m.tail &&& (m.entries - 1)) c, tail := m.tail + 1 }

/-- Publishes completions in order while there is room, and returns those left over. -/
def pushWhileRoom (m : Memory) : List Entry → Memory × List Entry
  | [] => (m, [])
  | c :: cs => if m.hasRoom then (m.push c).pushWhileRoom cs else (m, c :: cs)

end Memory

/-- The caller's handle on a completion ring, whose size has been checked. -/
structure Queue where
  size : RingSize
  deriving DecidableEq, Repr

namespace Queue

/-- Reads and checks the size; the memory is not written. -/
def attach (m : Memory) : Except InitError Queue := (RingSize.ofWords m.entries m.mask).map .mk

/-- The completion at a counter. -/
def entryAt (q : Queue) (m : Memory) (counter : UInt32) : Entry := m.cqes.get (q.size.slot counter)

/-- The completions at hand, oldest first. -/
def toList (q : Queue) (m : Memory) : List Entry := span (q.entryAt m) m.head m.tail

@[simp] theorem length_toList (q : Queue) (m : Memory) :
    (q.toList m).length = m.ready.toNat :=
  length_span ..

/-- The oldest completion, which stays in the ring. -/
def peek? (q : Queue) (m : Memory) : Option Entry :=
  if m.ready = 0 then none else some (q.entryAt m m.head)

theorem peek?_eq_head? (q : Queue) (m : Memory) : q.peek? m = (q.toList m).head? := by
  unfold peek? toList
  by_cases h : m.head = m.tail
  · rw [if_pos (Memory.ready_eq_zero.mpr h), h, span_self, List.head?_nil]
  · rw [if_neg (mt Memory.ready_eq_zero.mp h), span_cons _ h, List.head?_cons]

/-- Takes completions off unread.  No more can be taken than are ready. -/
def advance (m : Memory) (count : UInt32) : Except RingError Memory :=
  if count > m.ready then .error (.headOverrun count m.ready)
  else .ok { m with head := m.head + count }

/-! ### Taking a batch

A batch is copied in at most two runs of slots: up to the end of the ring, then from its start. -/

/-- Consecutive slots and the place in the caller's buffer where they go. -/
structure Run where
  first : Nat
  target : Nat
  length : Nat
  deriving DecidableEq, Repr

def Run.copy (r : Run) (m : Memory) (out : Array Entry) : Array Entry :=
  (List.range r.length).foldl
    (fun out i => out.setIfInBounds (r.target + i) (m.cqes.get (UInt32.ofNat (r.first + i)))) out

/-- The runs that hold the `count` oldest completions. -/
def runs (q : Queue) (m : Memory) (count : Nat) : List Run :=
  let head := (q.size.slot m.head).toNat
  let first := min (q.size.entries.toNat - head) count
  if count = 0 then []
  else if first < count then [⟨head, 0, first⟩, ⟨0, first, count - first⟩]
  else [⟨head, 0, first⟩]

/-- Moves the oldest completions to the front of a buffer, as many as are ready and fit, and says
how many.  The rest of the buffer is left alone. -/
def copyReady (q : Queue) (m : Memory) (out : Array Entry) : UInt32 × Array Entry × Memory :=
  let count := min m.ready.toNat out.size
  let out := (q.runs m count).foldl (fun out r => r.copy m out) out
  (UInt32.ofNat count, out, { m with head := m.head + UInt32.ofNat count })

/-- What a look at the queue tells. -/
structure Info where
  mask : UInt32
  entries : UInt32
  ready : UInt32
  empty : Bool
  overflow : UInt32
  deriving DecidableEq, Repr

def info (q : Queue) (m : Memory) : Info where
  mask := q.size.mask
  entries := q.size.entries
  ready := m.ready
  empty := m.ready = 0
  overflow := m.overflow

end Queue

end Uring.Completion
