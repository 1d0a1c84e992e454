import Uring.Operation
import Uring.Ring.Basic

/-!
# Uring.Ring.Slot — filling one submission entry

`nextSlot` claims the vacant entry and zeroes it.  The slot joins the batch when an operation is
first encoded into it; a slot dropped before that is handed out again.  A ring uses tags of one
kind: it adopts the kind when a tagged entry or a cancel is committed, and refuses the other kind
from then on.
-/

namespace Uring

/-- A claimed entry. -/
structure Slot where
  index : UInt32
  /-- Whether an operation has been encoded. -/
  committed : Bool := false
  /-- The kind of the tag stamped so far, which the ring adopts at the commit. -/
  pendingKind : Option TagKind := none
  deriving DecidableEq, Repr

namespace Machine

def modifyEntry (s : Machine) (index : UInt32) (f : Submission.Entry → Submission.Entry) :
    Machine :=
  { s with kernel.sq.sqes := s.kernel.sq.sqes.set index (f (s.kernel.sq.sqes.get index)) }

def commit (s : Machine) : Machine :=
  match s.ring.live with
  | none => s
  | some live => s.withLive { live with sq := live.sq.commit }

/-- Fixes the kind of tags, if one is given. -/
def adoptKind (s : Machine) : Option TagKind → Machine
  | none => s
  | some kind => { s with ring.tagKind := some kind }

def nextSlot (s : Machine) : Except RingError Slot × Machine :=
  match s.ring.live with
  | none => (.error .destroyed, s)
  | some live =>
    match live.sq.vacant? s.kernel.sq with
    | none => (.error .queueFull, s)
    | some index => (.ok { index := index }, s.modifyEntry index fun _ => {})

end Machine

namespace Slot

/-- A kind fits when none is fixed yet or the same one is. -/
def checkKind (expected : Option TagKind) (found : TagKind) : Except RingError Unit :=
  match expected with
  | none => .ok ()
  | some kind => if kind = found then .ok () else .error (.tagKindMismatch kind found)

/-- Stamps the tag that the entry's completion echoes. -/
def setTag (slot : Slot) (tag : Tag) (s : Machine) : Except RingError Unit × Slot × Machine :=
  match checkKind s.ring.tagKind tag.kind with
  | .error e => (.error e, slot, s)
  | .ok () =>
    let s := s.modifyEntry slot.index fun e => { e with userData := tag.userData }
    if slot.committed then (.ok (), slot, s.adoptKind (some tag.kind))
    else (.ok (), { slot with pendingKind := some tag.kind }, s)

def setFlags (slot : Slot) (flags : UInt8) (s : Machine) : Machine :=
  s.modifyEntry slot.index fun e => { e with flags := flags }

/-- All that can be wrong with encoding an operation here: its shape, then the kind of the tag that
it refers to. -/
def checkOperation (slot : Slot) (op : Operation) (s : Machine) : Except RingError Unit :=
  match op.validate with
  | .error why => .error (.invalidParams why)
  | .ok () =>
    match op.cancelTarget? with
    | none => .ok ()
    | some target => checkKind (s.ring.tagKind.or slot.pendingKind) target.kind

/-- Writes an operation over whatever was encoded before.  Nothing changes on failure. -/
def encode (slot : Slot) (op : Operation) (s : Machine) : Except RingError Unit × Slot × Machine :=
  match slot.checkOperation op s with
  | .error e => (.error e, slot, s)
  | .ok () =>
    let s := s.modifyEntry slot.index fun e => op.encode e.clearOperation
    let s := if slot.committed then s else s.commit
    let s := s.adoptKind (slot.pendingKind.or (op.cancelTarget?.map Tag.kind))
    (.ok (), { slot with committed := true, pendingKind := none }, s)

/-! ### Acts in a row -/

inductive Act where
  | tag (tag : Tag)
  | flags (word : UInt8)
  | encode (op : Operation)
  deriving DecidableEq, Repr

namespace Act

/-- The tag that an act stamps. -/
def tag? : Act → Option Tag
  | .tag t => some t
  | _ => none

/-- The tag of another entry that an act refers to. -/
def target? : Act → Option Tag
  | .encode op => op.cancelTarget?
  | _ => none

end Act

def act (slot : Slot) (s : Machine) : Act → Except RingError Unit × Slot × Machine
  | .tag t => slot.setTag t s
  | .flags w => (.ok (), slot, slot.setFlags w s)
  | .encode op => slot.encode op s

/-- What an act answered, and whether the slot was committed after it. -/
structure ActAnswer where
  result : Except RingError Unit
  committed : Bool

/-- Performs acts in order; failures do not stop the later ones. -/
def acts (slot : Slot) (s : Machine) : List Act → List ActAnswer × Slot × Machine
  | [] => ([], slot, s)
  | a :: rest =>
    let (result, slot, s) := slot.act s a
    let (answers, last, s) := slot.acts s rest
    (⟨result, slot.committed⟩ :: answers, last, s)

end Slot

end Uring
