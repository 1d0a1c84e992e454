import Uring.Ring.Lifetime

/-!
# Uring.Ring.Layout — where the cells of a ring lie in its regions

Each region holds cells of one kind in a row: the index array, the completions or the submission
entries.  The first two come after a header, whose length the kernel reports.  Nothing checks an
access to a cell, so it has to be known that the cell lies in the region as it was mapped.
-/

namespace Uring

namespace Region

/-- Bytes taken by one cell. -/
def cellBytes : Region → Nat
  | sq => Abi.indexBytes
  | cq => Abi.completionBytes
  | sqes => Abi.entryBytes

end Region

namespace Params

/-- The byte of a region at which its cells begin. -/
def cellsStart (p : Params) : Region → Nat
  | .sq => p.arrayOffset.toNat
  | .cq => p.cqesOffset.toNat
  | .sqes => 0

/-- How many cells of a region were reported. -/
def cellCount (p : Params) : Region → Nat
  | .sq => p.sqEntries.toNat
  | .cq => p.cqEntries.toNat
  | .sqes => p.sqEntries.toNat

/-- The byte of a region at which a cell begins, and the one before it has ended. -/
def cellStart (p : Params) (r : Region) (i : Nat) : Nat := p.cellsStart r + i * r.cellBytes

end Params

/-- The ring has mapped all bytes of `count` cells of a region from cell `first` on, and none of
them lies in the header. -/
def Live.Covers (live : Live) (p : Params) (r : Region) (first count : Nat) : Prop :=
  ∃ m ∈ live.maps, m.region = r ∧ p.cellsStart r ≤ p.cellStart r first ∧
    p.cellStart r (first + count) ≤ m.size.toNat

instance (live : Live) (p : Params) (r : Region) (first count : Nat) :
    Decidable (live.Covers p r first count) :=
  inferInstanceAs (Decidable (∃ m ∈ live.maps, _))

end Uring
