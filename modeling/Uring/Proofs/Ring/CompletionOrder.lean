import Uring.Proofs.Ring.Effect
import Uring.Proofs.Ring.SetUp
import Uring.Proofs.Ring.Slot

/-!
# Uring.Proofs.Ring.CompletionOrder — every completion is handed over once and in order

`Kernel.Accounts k q delivered` says that all completions ever posted are, in posting order, those
handed over, those in the ring and those on the backlog.  A post adds to the end of one of the last
two, publishing the backlog moves their border, and whatever takes completions off the ring moves
the first border by exactly what it hands over.
-/

namespace Uring

/-! ### The kernel's side -/

structure Kernel.Accounts (k : Kernel) (q : Completion.Queue)
    (delivered : List Completion.Entry) : Prop where
  bounded : q.Bounded k.cq
  account : k.posted = delivered ++ q.toList k.cq ++ k.backlog

namespace Kernel.Accounts

variable {k k' : Kernel} {q : Completion.Queue} {delivered : List Completion.Entry}

theorem post (h : k.Accounts q delivered) (c : Completion.Entry) :
    (k.post c).Accounts q delivered := by
  rcases k.post_cases c with ⟨hnil, hroom, hpost⟩ | ⟨-, hpost⟩
  · rw [hpost]
    refine ⟨h.bounded.push hroom c, ?_⟩
    show k.posted ++ [c] = delivered ++ q.toList (k.cq.push c) ++ k.backlog
    rw [h.account, h.bounded.toList_push hroom, hnil]
    simp
  · rw [hpost]
    refine ⟨h.bounded, ?_⟩
    show k.posted ++ [c] = delivered ++ q.toList k.cq ++ (k.backlog ++ [c])
    rw [h.account, List.append_assoc _ k.backlog]

theorem flushBacklog (h : k.Accounts q delivered) : k.flushBacklog.Accounts q delivered := by
  obtain ⟨hbounded, hlist, -⟩ := h.bounded.pushWhileRoom k.backlog
  refine ⟨hbounded, ?_⟩
  show k.posted = delivered ++ q.toList (k.cq.pushWhileRoom k.backlog).1 ++
    (k.cq.pushWhileRoom k.backlog).2
  rw [h.account, List.append_assoc, List.append_assoc, hlist]

/-- No turn of the kernel loses a completion or lets one overtake another. -/
theorem turn (h : k.Accounts q delivered) (hturn : Turn k k') : k'.Accounts q delivered := by
  rcases hturn.cq_cases with ⟨c, rfl⟩ | rfl | ⟨hposted, hbacklog, overflow, hcq⟩
  · exact h.post c
  · exact h.flushBacklog
  · refine ⟨?_, ?_⟩
    · rw [hcq]
      exact ⟨h.bounded.entries_eq, h.bounded.ready_le⟩
    · rw [hposted, hbacklog, hcq]
      exact h.account

theorem turns (h : k.Accounts q delivered) (hturns : Turns k k') : k'.Accounts q delivered :=
  hturns.invariant (P := (Accounts · q delivered)) (fun _ _ hturn hk => hk.turn hturn) h

end Kernel.Accounts

/-! ### Machines and sessions -/

structure Machine.Accounts (s : Machine) (q : Completion.Queue)
    (delivered : List Completion.Entry) : Prop where
  live_eq : ∃ live, s.ring.live = some live ∧ live.cq = q
  kernel : s.kernel.Accounts q delivered

namespace Machine.Accounts

variable {s t : Machine} {live : Live} {q : Completion.Queue}
variable {delivered passed : List Completion.Entry}

/-- An effect passes completions from the ring to the caller, and none is lost on the way. -/
theorem effect (h : s.Accounts q delivered) (heff : Effect s passed t) :
    t.Accounts q (delivered ++ passed) := by
  obtain ⟨⟨live, hlive, rfl⟩, hkernel⟩ := h
  cases heff with
  | note e => exact ⟨⟨live, hlive, rfl⟩, by rw [List.append_nil]; exact hkernel⟩
  | turn hturn => exact ⟨⟨live, hlive, rfl⟩, by rw [List.append_nil]; exact hkernel.turn hturn⟩
  | publish hlive' =>
    obtain rfl := Option.some.inj (hlive.symm.trans hlive')
    refine ⟨⟨_, rfl, rfl⟩, ?_⟩
    rw [List.append_nil]
    exact ⟨hkernel.bounded, hkernel.account⟩
  | @pass live' n _ hlive' hn hp =>
    obtain rfl := Option.some.inj (hlive.symm.trans hlive')
    refine ⟨⟨live, hlive, rfl⟩, hkernel.bounded.skip hn, ?_⟩
    show s.kernel.posted = delivered ++ passed ++
      live.cq.toList (Completion.Queue.skip s.kernel.cq n) ++ s.kernel.backlog
    -- what is passed on is the front of what was at hand
    have htake := Completion.Queue.take_append_toList_skip (q := live.cq) hn
    rw [hkernel.account, hp hkernel.bounded, List.append_assoc delivered (List.take _ _), htake]

/-- Slots have no part in it. -/
theorem fill (h : s.Accounts q delivered) (hlive : s.ring.live = some live)
    (hfill : t.FillsFrom s live) : t.Accounts q delivered := by
  obtain ⟨⟨sqes, hkernel⟩, ⟨sq, hlive'⟩, -⟩ := hfill
  obtain ⟨⟨live, h', rfl⟩, hk⟩ := h
  obtain rfl := Option.some.inj (hlive.symm.trans h')
  refine ⟨⟨_, hlive', rfl⟩, ?_⟩
  rw [hkernel]
  exact ⟨hk.bounded, hk.account⟩

theorem path (h : s.Accounts q delivered) (hpath : Path s passed t) :
    t.Accounts q (delivered ++ passed) :=
  hpath.invariant (P := fun ds m => m.Accounts q ds) (fun heff h => h.effect heff) delivered h

theorem call (h : s.Accounts q delivered) (a : Step) (ha : a.isCall = true) :
    (s.step a).2.Accounts q (delivered ++ s.delivers a) := by
  obtain ⟨live, hlive, -⟩ := h.live_eq
  exact h.path (call_path hlive a ha)

end Machine.Accounts

theorem Live.Fresh.accounts {k : Kernel} {live : Live} (hfresh : live.Fresh k) {ring : Ring}
    (hlive : ring.live = some live) (hidle : k.cq.head = k.cq.tail) (hbacklog : k.backlog = []) :
    (Machine.start ring k).Accounts live.cq k.posted := by
  refine ⟨⟨live, hlive, rfl⟩, ⟨hfresh.entries_eq, ?_⟩, ?_⟩
  · show k.cq.ready.toNat ≤ _
    rw [Completion.Memory.ready_eq_zero.mpr hidle]
    exact Nat.zero_le _
  · show k.posted = k.posted ++ span (live.cq.entryAt k.cq) k.cq.head k.cq.tail ++ k.backlog
    rw [hbacklog, hidle, span_self, List.append_nil, List.append_nil]

namespace Session

/-- Every move keeps the account. -/
theorem step_accounts {s : Session} {q : Completion.Queue} {earlier : List Completion.Entry}
    (h : s.machine.Accounts q (earlier ++ s.delivered)) (a : Move) :
    (s.step a).machine.Accounts q (earlier ++ (s.step a).delivered) := by
  obtain ⟨live, hlive, -⟩ := h.live_eq
  cases a with
  | claim =>
    rw [step, claim_delivered]
    exact h.fill hlive (claim_fillsFrom hlive)
  | act a =>
    rw [step, act_delivered]
    exact h.fill hlive (act_fillsFrom hlive a)
  | drop => exact h
  | call a ha =>
    show Machine.Accounts _ q (earlier ++ (s.delivered ++ s.machine.delivers a))
    rw [← List.append_assoc]
    exact h.call a ha
  | kernel event => exact ⟨h.live_eq, h.kernel.turns (Kernel.event_turns _ event)⟩

/-- A run of a ring that came up with nothing at hand keeps the account of what was posted since. -/
theorem run_accounts {setup : Setup} {k : Kernel} {ring : Ring} (h : (setup.build k).1 = .ok ring)
    (hidle : k.cq.head = k.cq.tail) (hbacklog : k.backlog = []) (moves : List Move) :
    let s := (start ring (setup.build k).2).run moves
    ∃ live, s.machine.ring.live = some live ∧
      s.machine.Accounts live.cq (k.posted ++ s.delivered) := by
  intro s
  obtain ⟨p, live, -, rfl, hfresh, replies, calls, array, hk⟩ := Setup.build_ok h
  have hstart : (Machine.start (Ring.fresh live p) (setup.build k).2).Accounts live.cq
      (k.posted ++ []) := by
    rw [hk] at hfresh ⊢
    rw [List.append_nil]
    have hlive : (Ring.fresh live p).live = some live := rfl
    exact hfresh.accounts hlive hidle hbacklog
  have hs : s.machine.Accounts live.cq (k.posted ++ s.delivered) :=
    run_induction (P := fun s => s.machine.Accounts live.cq (k.posted ++ s.delivered))
      (fun s a h => step_accounts h a) hstart moves
  obtain ⟨live', hlive', hcq⟩ := hs.live_eq
  rw [← hcq] at hs
  exact ⟨live', hlive', hs⟩

/-- Whatever is done with a ring, and whatever the kernel does meanwhile: the completions that the
kernel has posted are, in posting order, those handed over to the caller, those at hand in the ring,
and those on the backlog.  The ring is never overfull. -/
theorem posted_eq_delivered_append {setup : Setup} {k : Kernel} {ring : Ring}
    (h : (setup.build k).1 = .ok ring) (hidle : k.cq.head = k.cq.tail) (hbacklog : k.backlog = [])
    (hnew : k.posted = []) (moves : List Move) :
    let s := (start ring (setup.build k).2).run moves
    ∃ live, s.machine.ring.live = some live ∧
      s.machine.kernel.posted =
        s.delivered ++ live.cq.toList s.machine.kernel.cq ++ s.machine.kernel.backlog ∧
      s.machine.kernel.cq.ready.toNat ≤ live.cq.size.entries.toNat := by
  intro s
  obtain ⟨live, hlive, haccounts⟩ := run_accounts h hidle hbacklog moves
  rw [hnew, List.nil_append] at haccounts
  exact ⟨live, hlive, haccounts.kernel.account, haccounts.kernel.bounded.ready_le⟩

/-- Three completions on a ring of two, across the wrap of the counters. -/
theorem posted_eq_delivered_append_at_wrap :
    ∃ ring, (Setup.build ⟨2, 0, 0⟩ (.idle ⟨1⟩ 0xffffffff)).1 = .ok ring ∧
      let s := (start ring (Setup.build ⟨2, 0, 0⟩ (.idle ⟨1⟩ 0xffffffff)).2).run
        [.kernel (.post [⟨1, 0, 0⟩, ⟨2, 0, 0⟩, ⟨3, 0, 0⟩]), .call (.harvest 1 0),
          .call (.advance 1), .call (.harvest 4 0)]
      ∃ live, s.machine.ring.live = some live ∧
        s.machine.kernel.posted =
          s.delivered ++ live.cq.toList s.machine.kernel.cq ++ s.machine.kernel.backlog ∧
        s.machine.kernel.cq.ready.toNat ≤ live.cq.size.entries.toNat :=
  ⟨_, rfl, posted_eq_delivered_append rfl rfl rfl rfl _⟩

end Session

end Uring
