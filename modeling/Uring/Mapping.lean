import Uring.Kernel.Basic

/-!
# Uring.Mapping — regions of memory held by a ring

A `Mapping` is a region that was mapped and has to be unmapped once, with the size it was mapped
with.
-/

namespace Uring

structure Mapping where
  region : Region
  size : UInt64
  deriving DecidableEq, Repr

namespace Mapping

/-- Maps memory behind a descriptor.  An empty mapping is refused without a call; the null address
counts as a failure, and nothing is held then. -/
def acquire (k : Kernel) (fd : Int32) (offset size : UInt64) :
    Except InitError Mapping × Kernel :=
  if size = 0 then (.error .invalidParameters, k)
  else
    match k.mmap size fd offset with
    | (.error e, k) => (.error (.mmapFailed e), k)
    | (.ok none, k) => (.error (.mmapFailed .invalid), k)
    | (.ok (some region), k) => (.ok ⟨region, size⟩, k)

def release (k : Kernel) (m : Mapping) : Kernel := k.munmap m.region m.size

/-- Unmaps in the given order. -/
def releaseAll (k : Kernel) (ms : List Mapping) : Kernel := ms.foldl release k

/-- Maps regions one after another.  After the first failure nothing more is mapped, and what was
mapped is unmapped again, newest first. -/
def acquireAll (k : Kernel) (fd : Int32) :
    List (Region × UInt64) → Except InitError (List Mapping) × Kernel
  | [] => (.ok [], k)
  | (region, size) :: rest =>
    match acquire k fd region.offset size with
    | (.error e, k) => (.error e, k)
    | (.ok m, k) =>
      match acquireAll k fd rest with
      | (.error e, k) => (.error e, release k m)
      | (.ok ms, k) => (.ok (m :: ms), k)

end Mapping

end Uring
