/-!
# Uring.Timespec — points and spans of time as the kernel reads them

A `Timespec` is two signed words and may be out of range; a `Duration` never is.  Its seconds are
unsigned, so from `2^63` on they turn negative in a timespec, which is then not `valid`.
-/

namespace Uring

/-- Nanoseconds in a second. -/
def nanosPerSec : Nat := 1000000000

/-- A span of time. -/
structure Duration where
  secs : UInt64
  nanos : UInt32
  nanos_lt : nanos.toNat < nanosPerSec
  deriving DecidableEq

/-- Full seconds among the nanoseconds are carried over. -/
def Duration.ofParts (secs : UInt64) (nanos : UInt32) : Duration where
  secs := secs + UInt64.ofNat (nanos.toNat / nanosPerSec)
  nanos := UInt32.ofNat (nanos.toNat % nanosPerSec)
  nanos_lt := by
    have : nanos.toNat % nanosPerSec < nanosPerSec := Nat.mod_lt _ (by decide)
    simp only [UInt32.toNat_ofNat']
    exact Nat.lt_of_le_of_lt (Nat.mod_le _ _) this

structure Timespec where
  sec : Int64
  nsec : Int64
  deriving DecidableEq, Repr, Inhabited

namespace Timespec

/-- No negative seconds, and less than a second of nanoseconds. -/
def valid (t : Timespec) : Bool :=
  decide (0 ≤ t.sec) && decide (0 ≤ t.nsec) && decide (t.nsec < 1000000000)

def ofDuration (d : Duration) : Timespec := ⟨d.secs.toInt64, Int64.ofNat d.nanos.toNat⟩

end Timespec

end Uring
