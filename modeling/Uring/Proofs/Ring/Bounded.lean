import Uring.Proofs.Ring.Effect
import Uring.Proofs.Ring.SetUp
import Uring.Proofs.Ring.Slot

/-!
# Uring.Proofs.Ring.Bounded — a completion ring is never overfull

The kernel publishes only where there is room, and the caller only takes.  So a ring that comes up
with no more completions at hand than it has slots for stays like that, whatever is done with it.
Its handle, and the size that was reported for it, do not change.

Conservation of completions is not needed for this, so nothing is asked of the kernel's records.
-/

namespace Uring

open Completion (Queue)

namespace Kernel

variable {k k' : Kernel} {q : Queue}

theorem Turn.bounded (h : Turn k k') (hb : q.Bounded k.cq) : q.Bounded k'.cq := by
  rcases h.cq_cases with ⟨c, rfl⟩ | rfl | ⟨-, -, overflow, hcq⟩
  · rcases k.post_cases c with ⟨-, hroom, hpost⟩ | ⟨-, hpost⟩
    · rw [hpost]
      exact hb.push hroom c
    · rw [hpost]
      exact hb
  · exact (hb.pushWhileRoom k.backlog).1
  · rw [hcq]
    exact ⟨hb.entries_eq, hb.ready_le⟩

theorem Turns.bounded (h : Turns k k') (hb : q.Bounded k.cq) : q.Bounded k'.cq :=
  h.invariant (P := fun k => q.Bounded k.cq) (fun _ _ hturn hk => hturn.bounded hk) hb

end Kernel

/-! ### Machines -/

/-- The ring lives, with `q` for its completions, and `reported` is the size it was told of. -/
structure Machine.Sized (s : Machine) (q : Queue) (reported : UInt32) : Prop where
  live_eq : ∃ live, s.ring.live = some live ∧ live.cq = q
  bounded : q.Bounded s.kernel.cq
  reported_eq : s.ring.cqEntries = reported

namespace Machine.Sized

variable {s t : Machine} {live : Live} {q : Queue} {reported : UInt32}
variable {passed : List Completion.Entry}

theorem effect (h : s.Sized q reported) (heff : Effect s passed t) : t.Sized q reported := by
  refine ⟨?_, ?_, heff.cqEntries_eq.trans h.reported_eq⟩
  · obtain ⟨live, hlive, hq⟩ := h.live_eq
    cases heff with
    | note e => exact ⟨live, hlive, hq⟩
    | turn hturn => exact ⟨live, hlive, hq⟩
    | publish hlive' =>
      obtain rfl := Option.some.inj (hlive.symm.trans hlive')
      exact ⟨_, rfl, hq⟩
    | pass hlive' hn hp => exact ⟨live, hlive, hq⟩
  · cases heff with
    | note e => exact h.bounded
    | turn hturn => exact hturn.bounded h.bounded
    | publish hlive => exact ⟨h.bounded.entries_eq, h.bounded.ready_le⟩
    | pass hlive hn hp => exact h.bounded.skip hn

theorem path (h : s.Sized q reported) (hpath : Path s passed t) : t.Sized q reported :=
  hpath.invariant (P := fun _ m => m.Sized q reported) (fun heff hm => hm.effect heff) [] h

/-- Slots have no part in it. -/
theorem fill (h : s.Sized q reported) (hlive : s.ring.live = some live)
    (hfill : t.FillsFrom s live) : t.Sized q reported := by
  obtain ⟨sqes, hkernel⟩ := hfill.kernel_eq
  obtain ⟨sq, hlive'⟩ := hfill.live_eq
  obtain ⟨live', h', hq⟩ := h.live_eq
  obtain rfl := Option.some.inj (hlive.symm.trans h')
  refine ⟨⟨_, hlive', hq⟩, ?_, hfill.cqEntries_eq.trans h.reported_eq⟩
  rw [hkernel]
  exact ⟨h.bounded.entries_eq, h.bounded.ready_le⟩

end Machine.Sized

/-! ### Sessions -/

theorem Live.Fresh.sized {k : Kernel} {live : Live} (hfresh : live.Fresh k) {ring : Ring}
    (hlive : ring.live = some live) (hfits : k.cq.ready ≤ k.cq.entries) :
    (Machine.start ring k).Sized live.cq ring.cqEntries := by
  refine ⟨⟨live, hlive, rfl⟩, ⟨hfresh.entries_eq, ?_⟩, rfl⟩
  rw [← hfresh.entries_eq]
  exact UInt32.le_iff_toNat_le.mp hfits

namespace Session

theorem step_sized {s : Session} {q : Queue} {reported : UInt32}
    (h : s.machine.Sized q reported) (a : Move) : (s.step a).machine.Sized q reported := by
  obtain ⟨live, hlive, -⟩ := h.live_eq
  cases a with
  | claim => exact h.fill hlive (claim_fillsFrom hlive)
  | act a => exact h.fill hlive (act_fillsFrom hlive a)
  | drop => exact h
  | call a ha => exact h.path (Machine.call_path hlive a ha)
  | kernel event => exact h.path (Machine.Path.turns (Kernel.event_turns _ event))

/-- A run of a ring that did not come up overfull, with the size that the kernel's memory stated. -/
theorem run_sized {setup : Setup} {k : Kernel} {ring : Ring} (h : (setup.build k).1 = .ok ring)
    (hfits : k.cq.ready ≤ k.cq.entries) (moves : List Move) :
    let s := ((start ring (setup.build k).2).run moves).machine
    ∃ live, s.ring.live = some live ∧ live.cq.size.entries = k.cq.entries ∧
      s.Sized live.cq ring.cqEntries := by
  intro s
  obtain ⟨p, live, -, rfl, hfresh, replies, calls, array, hk⟩ := Setup.build_ok h
  have hentries := hfresh.entries_eq
  rw [hk] at hentries
  have hstart :
      (Machine.start (Ring.fresh live p) (setup.build k).2).Sized live.cq p.cqEntries := by
    refine hfresh.sized rfl ?_
    rw [hk]
    exact hfits
  have hs : s.Sized live.cq p.cqEntries :=
    run_induction (P := fun s => s.machine.Sized live.cq p.cqEntries) (fun s a h => step_sized h a)
      hstart moves
  obtain ⟨live', hlive', hcq⟩ := hs.live_eq
  rw [← hcq] at hs hentries
  exact ⟨live', hlive', hentries.symm, hs⟩

end Session

end Uring
