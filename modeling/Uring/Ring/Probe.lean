import Uring.Ring.Basic

/-!
# Uring.Ring.Probe — asking which opcodes the kernel knows

The kernel fills a table of at most `capacity` lines; a line left alone is zero and supports
nothing.
-/

namespace Uring

namespace ProbeTable

/-- Lines that a table has room for. -/
def capacity : Nat := 49

/-- The lines that the kernel says it has filled. -/
def lines (t : ProbeTable) : List (UInt8 × UInt16) := t.ops.take (min t.count.toNat capacity)

def supports (t : ProbeTable) (opcode : UInt8) : Bool :=
  t.lines.any fun line => line.1 == opcode && line.2 &&& Abi.opSupported != 0

end ProbeTable

namespace Machine

def probe (s : Machine) : Except RingError ProbeTable × Machine :=
  match s.ring.live with
  | none => (.error .destroyed, s)
  | some live =>
    let (reply, kernel) :=
      s.kernel.register live.fd Abi.registerProbe (UInt32.ofNat ProbeTable.capacity)
    (reply.mapError .register, { s with kernel := kernel })

def supports (s : Machine) (opcode : UInt8) : Except RingError Bool × Machine :=
  let (table, s) := s.probe
  (table.map (·.supports opcode), s)

end Machine

end Uring
