import Uring.Completion.Queue

/-!
# Uring.Completion.Fifo — a completion ring by itself, and the list it stands for

A `Use` is one thing that happens to a completion ring: the kernel publishes, the caller looks or
takes, or a new handle is made for the same memory.  `Opened.step` performs it on a handle and its
memory, `Fifo.step` on a list of bounded length that knows nothing of counters and slots.
-/

namespace Uring.Completion

inductive Use where
  /-- The kernel publishes completions until the ring is full. -/
  | post (cs : List Entry)
  | copy (out : Array Entry)
  | peek
  | advance (count : UInt32)
  /-- A new handle is made for the memory as it stands. -/
  | reopen

inductive Use.Answer where
  /-- How many completions found room. -/
  | posted (count : Nat)
  | copied (count : UInt32) (out : Array Entry)
  | peeked (c : Option Entry)
  | advanced (result : Except RingError Unit)
  | reopened (result : Except InitError Unit)

/-! ### The ring -/

/-- A handle with the memory that it was made for. -/
structure Opened where
  queue : Queue
  memory : Memory

namespace Opened

def step (o : Opened) : Use → Use.Answer × Opened
  | .post cs =>
    let (memory, rest) := o.memory.pushWhileRoom cs
    (.posted (cs.length - rest.length), { o with memory := memory })
  | .copy out =>
    let (count, out, memory) := o.queue.copyReady o.memory out
    (.copied count out, { o with memory := memory })
  | .peek => (.peeked (o.queue.peek? o.memory), o)
  | .advance count =>
    match Queue.advance o.memory count with
    | .error e => (.advanced (.error e), o)
    | .ok memory => (.advanced (.ok ()), { o with memory := memory })
  | .reopen =>
    match Queue.attach o.memory with
    | .error e => (.reopened (.error e), o)
    | .ok queue => (.reopened (.ok ()), { o with queue := queue })

def run (o : Opened) : List Use → List Use.Answer × Opened
  | [] => ([], o)
  | u :: rest =>
    let (answer, o) := o.step u
    let (answers, o) := o.run rest
    (answer :: answers, o)

end Opened

/-! ### The list -/

/-- A list of at most `capacity` completions, oldest first. -/
structure Fifo where
  capacity : Nat
  items : List Entry
  length_le : items.length ≤ capacity

namespace Fifo

/-- Appends as many as there is room for. -/
def append (f : Fifo) (cs : List Entry) : Fifo where
  capacity := f.capacity
  items := f.items ++ cs.take (f.capacity - f.items.length)
  length_le := by
    have h := f.length_le
    rw [List.length_append, List.length_take]
    omega

def drop (f : Fifo) (n : Nat) : Fifo where
  capacity := f.capacity
  items := f.items.drop n
  length_le := by
    have h := f.length_le
    rw [List.length_drop]
    omega

/-- A buffer with as many items as fit at its front. -/
def fill (f : Fifo) (out : Array Entry) : Array Entry :=
  (f.items.take out.size ++ out.toList.drop f.items.length).toArray

def step (f : Fifo) : Use → Use.Answer × Fifo
  | .post cs => (.posted (min cs.length (f.capacity - f.items.length)), f.append cs)
  | .copy out =>
    let count := min f.items.length out.size
    (.copied (UInt32.ofNat count) (f.fill out), f.drop count)
  | .peek => (.peeked f.items.head?, f)
  | .advance count =>
    if count.toNat ≤ f.items.length then (.advanced (.ok ()), f.drop count.toNat)
    else (.advanced (.error (.headOverrun count (UInt32.ofNat f.items.length))), f)
  | .reopen => (.reopened (.ok ()), f)

def run (f : Fifo) : List Use → List Use.Answer × Fifo
  | [] => ([], f)
  | u :: rest =>
    let (answer, f) := f.step u
    let (answers, f) := f.run rest
    (answer :: answers, f)

end Fifo

end Uring.Completion
