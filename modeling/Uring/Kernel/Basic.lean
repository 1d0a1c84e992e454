import Uring.Kernel.Call
import Uring.Completion.Queue
import Uring.Submission.Queue

/-!
# Uring.Kernel.Basic — the other side of a ring

A `Kernel` owns the memory that a ring shares with it, a backlog of completions that found no room,
and a script of replies.  It keeps a record of the calls made, of what it took and posted, and of
the flag words it was told to write.  A completion goes to the ring only when the backlog is empty,
so completions never overtake one another.
-/

namespace Uring

structure Kernel where
  setupReply : Except Errno Params
  mapReplies : List MapReply
  enterReplies : List (Except Errno Service)
  registerReplies : List (Except Errno ProbeTable)
  sq : Submission.Memory
  cq : Completion.Memory
  backlog : List Completion.Entry
  /-- The calls made so far, oldest first. -/
  calls : List Syscall
  /-- The entries taken so far, each with its index, oldest first. -/
  taken : List (UInt32 × Submission.Entry) := []
  /-- The completions posted so far, whether published or held back, oldest first. -/
  posted : List Completion.Entry := []
  /-- The flag words written from outside, each with the length of the backlog at the time. -/
  overwritten : List (UInt32 × Nat) := []
  deriving Inhabited

namespace Kernel

def record (k : Kernel) (call : Syscall) : Kernel := { k with calls := k.calls ++ [call] }

/-! ### Completions -/

/-- Publishes a completion, or puts it on the backlog and says so in the flag word. -/
def post (k : Kernel) (c : Completion.Entry) : Kernel :=
  let k := { k with posted := k.posted ++ [c] }
  if k.backlog.isEmpty && k.cq.hasRoom then { k with cq := k.cq.push c }
  else { k with
    backlog := k.backlog ++ [c]
    sq.flags := k.sq.flags ||| Abi.sqCqOverflow }

def postAll (k : Kernel) (cs : List Completion.Entry) : Kernel := cs.foldl post k

/-- Publishes the backlog while there is room; once it is empty the flag word no longer mentions
it. -/
def flushBacklog (k : Kernel) : Kernel :=
  let (cq, rest) := k.cq.pushWhileRoom k.backlog
  { k with
    cq := cq
    backlog := rest
    sq.flags := if rest.isEmpty then k.sq.flags &&& ~~~Abi.sqCqOverflow else k.sq.flags }

/-- Overwrites the flag word, if there is another. -/
def writeFlags (k : Kernel) : Option UInt32 → Kernel
  | none => k
  | some word =>
    { k with
      sq.flags := word
      overwritten := k.overwritten ++ [(word, k.backlog.length)] }

/-! ### Taking entries -/

def take (k : Kernel) (n : Nat) : List (UInt32 × Submission.Entry) × Kernel :=
  let (taken, sq) := k.sq.take n
  (taken, { k with sq := sq, taken := k.taken ++ taken })

/-- The completions of taken entries: each echoes its tag word. -/
def completionsOf (taken : List (UInt32 × Submission.Entry)) (results : List Int32) :
    List Completion.Entry :=
  taken.mapIdx fun i e => ⟨e.2.userData, results[i]?.getD 0, 0⟩

/-- Takes up to `n` published entries and, unless they are held, completes them. -/
def consume (k : Kernel) (n : UInt32) (hold : Bool) (results : List Int32) :
    List (UInt32 × Submission.Entry) × Kernel :=
  let (taken, k) := k.take n.toNat
  (taken, if hold then k else k.postAll (completionsOf taken results))

/-! ### System calls -/

def setup (k : Kernel) (entries cqEntries flags : UInt32) : Except Errno Params × Kernel :=
  (k.setupReply, k.record (.setup entries cqEntries flags))

/-- A mapping may succeed at the null address, which is no region. -/
def mmap (k : Kernel) (size : UInt64) (fd : Int32) (offset : UInt64) :
    Except Errno (Option Region) × Kernel :=
  let reply := match k.mapReplies.head?.getD .mapped with
    | .mapped => .ok (some (Region.ofOffset offset))
    | .null => .ok none
    | .refused e => .error e
  (reply, { k with mapReplies := k.mapReplies.tail }.record (.mmap size fd offset))

def munmap (k : Kernel) (region : Region) (size : UInt64) : Kernel :=
  k.record (.munmap region size)

def close (k : Kernel) (fd : Int32) : Kernel := k.record (.close fd)

/-- Takes entries as the service says, publishes the backlog if events are asked for, posts
completions and sets the flag word. -/
def serve (k : Kernel) (s : Service) (toSubmit flags : UInt32) :
    List (UInt32 × Submission.Entry) × Kernel :=
  let limit := min toSubmit (s.consume.getD toSubmit)
  let (taken, k) := k.consume limit s.hold s.results
  let k := if flags &&& Abi.enterGetEvents != 0 then k.flushBacklog else k
  let k := k.postAll s.post
  (taken, k.writeFlags s.sqFlags)

/-- Entering never blocks: `minComplete` is recorded only. -/
def enter (k : Kernel) (fd : Int32) (toSubmit minComplete flags : UInt32) :
    Except Errno UInt32 × Kernel :=
  let reply := k.enterReplies.head?.getD (.ok {})
  let k := { k with enterReplies := k.enterReplies.tail }
  match reply with
  | .error e => (.error e, k.record (.enter fd toSubmit minComplete flags none))
  | .ok service =>
    let (taken, k) := k.serve service toSubmit flags
    (.ok (service.ret.getD (UInt32.ofNat taken.length)),
      k.record (.enter fd toSubmit minComplete flags (some taken)))

def register (k : Kernel) (fd : Int32) (opcode count : UInt32) :
    Except Errno ProbeTable × Kernel :=
  (k.registerReplies.head?.getD (.ok {}),
    { k with registerReplies := k.registerReplies.tail }.record (.register fd opcode count))

end Kernel

end Uring
