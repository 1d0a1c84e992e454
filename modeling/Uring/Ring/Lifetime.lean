import Uring.Ring.Basic

/-!
# Uring.Ring.Lifetime — setting a ring up and taking it down

`Setup.build` asks the kernel for a ring, maps its three regions and attaches the two queues.
Whatever step fails, all that was obtained before is released again, the mappings newest first and
the descriptor last.  `Machine.destroy` releases everything once.
-/

namespace Uring

/-- A configuration to ask the kernel for. -/
structure Setup where
  sqEntries : UInt32
  cqEntries : UInt32 := 0
  flags : UInt32 := 0
  deriving DecidableEq, Repr

namespace Setup

/-- A completion ring of this size, in place of the kernel's choice. -/
def withCqEntries (s : Setup) (n : UInt32) : Setup :=
  { s with cqEntries := n, flags := s.flags ||| Abi.setupCqSize }

/-- Sizes beyond the kernel's maximum are cut to it. -/
def clamp (s : Setup) : Setup := { s with flags := s.flags ||| Abi.setupClamp }

def withFlags (s : Setup) (flags : UInt32) : Setup := { s with flags := s.flags ||| flags }

end Setup

/-! ### Sizes of the regions -/

namespace Params

/-- Bytes up to the end of the index array. -/
def sqBytes (p : Params) : UInt64 :=
  p.arrayOffset.toUInt64 + p.sqEntries.toUInt64 * UInt64.ofNat Abi.indexBytes

/-- Bytes up to the end of the completions. -/
def cqBytes (p : Params) : UInt64 :=
  p.cqesOffset.toUInt64 + p.cqEntries.toUInt64 * UInt64.ofNat Abi.completionBytes

def sqesBytes (p : Params) : UInt64 := p.sqEntries.toUInt64 * UInt64.ofNat Abi.entryBytes

/-- The regions of a ring in the order of mapping. -/
def regions (p : Params) : List (Region × UInt64) :=
  [(.sq, p.sqBytes), (.cq, p.cqBytes), (.sqes, p.sqesBytes)]

end Params

/-- Attaches both queues to the kernel's memory, the submission queue first. -/
def Kernel.attachQueues (k : Kernel) :
    Except InitError (Submission.Queue × Completion.Queue) × Kernel :=
  match Submission.Queue.attach k.sq with
  | (.error e, memory) => (.error e, { k with sq := memory })
  | (.ok sq, memory) =>
    match Completion.Queue.attach k.cq with
    | .error e => (.error e, { k with sq := memory })
    | .ok cq => (.ok (sq, cq), { k with sq := memory })

/-- Maps the regions and attaches the queues.  On failure the mappings are released again; the
descriptor is left to the caller. -/
def Live.acquire (k : Kernel) (p : Params) : Except InitError Live × Kernel :=
  match Mapping.acquireAll k p.fd p.regions with
  | (.error e, k) => (.error e, k)
  | (.ok maps, k) =>
    match k.attachQueues with
    | (.error e, k) => (.error e, Mapping.releaseAll k maps.reverse)
    | (.ok (sq, cq), k) => (.ok ⟨sq, cq, maps, p.fd⟩, k)

/-- A fresh ring, in which no tag has been used. -/
def Ring.fresh (live : Live) (p : Params) : Ring where
  live := some live
  tagKind := none
  sqEntries := p.sqEntries
  cqEntries := p.cqEntries
  setupFlags := p.flags
  features := p.features

/-- Brings a ring up on a kernel. -/
def Setup.build (setup : Setup) (k : Kernel) : Except InitError Ring × Kernel :=
  match k.setup setup.sqEntries setup.cqEntries setup.flags with
  | (.error e, k) => (.error (.syscallFailed e), k)
  | (.ok p, k) =>
    match Live.acquire k p with
    | (.error e, k) => (.error e, k.close p.fd)
    | (.ok live, k) => (.ok (Ring.fresh live p), k)

namespace Machine

/-- The machine right after a ring came up. -/
def start (ring : Ring) (kernel : Kernel) : Machine where
  ring := ring
  kernel := kernel
  log := (ring.live.map fun live =>
    .created live.fd ring.sqEntries ring.cqEntries ring.setupFlags ring.features).toList

/-- Unmaps the regions in the order of mapping and closes the descriptor; nothing the second
time. -/
def destroy (s : Machine) : Machine :=
  match s.ring.live with
  | none => s
  | some live =>
    { ring := { s.ring with live := none }
      kernel := (Mapping.releaseAll s.kernel live.maps).close live.fd
      log := s.log ++ [.destroyed live.fd] }

end Machine

end Uring
