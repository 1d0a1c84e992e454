import Uring.Proofs.Ring.Effect
import Uring.Proofs.Ring.SetUp
import Uring.Proofs.Ring.Written

/-!
# Uring.Proofs.Ring.SubmissionOrder — every committed entry reaches the kernel once and in order

The invariant is `Session.InOrder s live base`.  All entries that were let go lie before counter
`base`, and the slot that is open, if one is, stands at `base` itself: in a cell that the kernel has
done with and that nothing published reaches.  So an act on the slot changes no entry that is still
to be taken, and the kernel never sees a slot that is still open.
-/

namespace Uring

open Submission (Queue Memory)

/-! ### Machines -/

/-- The kernel has taken, or will find before `base`, the entries `es`. -/
structure Machine.Delivers (s : Machine) (live : Live) (base : UInt32)
    (es : List Submission.Entry) : Prop where
  live_eq : s.ring.live = some live
  queue : live.sq.Delivers s.kernel.sq base (s.kernel.taken.map Prod.snd) es

namespace Machine.Delivers

variable {s : Machine} {live : Live} {base : UInt32} {es : List Submission.Entry}

/-- One turn of the kernel keeps the order, and takes no room away. -/
theorem turn (h : s.Delivers live base es) {k : Kernel} (hturn : Kernel.Turn s.kernel k) :
    ({ s with kernel := k } : Machine).Delivers live base es ∧
      (base - k.sq.head).toNat ≤ (base - s.kernel.sq.head).toNat := by
  rcases hturn.sq_cases with ⟨n, rfl⟩ | ⟨htaken, flags, dropped, hsq⟩
  · have htake := h.queue.take n
    rw [← List.map_append] at htake
    exact ⟨⟨h.live_eq, htake⟩, h.queue.take_room n⟩
  · refine ⟨⟨h.live_eq, ?_⟩, ?_⟩
    · show live.sq.Delivers k.sq base (k.taken.map Prod.snd) es
      rw [htaken, hsq]
      exact h.queue.overwrite flags dropped
    · exact Nat.le_of_eq (by rw [hsq])

theorem turns (h : s.Delivers live base es) {k : Kernel} (hturns : Kernel.Turns s.kernel k) :
    ({ s with kernel := k } : Machine).Delivers live base es ∧
      (base - k.sq.head).toNat ≤ (base - s.kernel.sq.head).toNat := by
  refine hturns.invariant (P := fun k => ({ s with kernel := k } : Machine).Delivers live base es ∧
    (base - k.sq.head).toNat ≤ (base - s.kernel.sq.head).toNat) ?_ ⟨h, Nat.le_refl _⟩
  rintro k k' hturn ⟨hk, hle⟩
  obtain ⟨hk', hle'⟩ := hk.turn hturn
  exact ⟨hk', Nat.le_trans hle' hle⟩

/-- One effect of a call keeps the order, up to the caller's own tail. -/
theorem effect (h : s.Delivers live live.sq.tail es) {passed : List Completion.Entry}
    {t : Machine} (heff : Machine.Effect s passed t) :
    ∃ live', t.Delivers live' live'.sq.tail es := by
  cases heff with
  | note e => exact ⟨live, h.live_eq, h.queue⟩
  | turn hturn => exact ⟨live, (h.turn hturn).1⟩
  | publish hlive =>
    obtain rfl := Option.some.inj (h.live_eq.symm.trans hlive)
    exact ⟨_, rfl, h.queue.flush rfl⟩
  | pass hlive hn hp => exact ⟨live, h.live_eq, h.queue⟩

theorem path (h : s.Delivers live live.sq.tail es) {passed : List Completion.Entry}
    {t : Machine} (hpath : Machine.Path s passed t) :
    ∃ live', t.Delivers live' live'.sq.tail es := by
  refine hpath.invariant (P := fun _ m => ∃ live', m.Delivers live' live'.sq.tail es) ?_ []
    ⟨live, h⟩
  rintro - s passed t heff ⟨live', h'⟩
  exact h'.effect heff

end Machine.Delivers

/-! ### Sessions -/

/-- The open slot stands at `base`, in a free cell, and the tail counts it once it is committed. -/
structure Draft.At (d : Draft) (q : Queue) (m : Memory) (base : UInt32) : Prop where
  index_eq : d.slot.index = q.size.slot base
  room : (base - m.head).toNat < q.size.entries.toNat
  tail_eq : q.tail = if d.slot.committed then base + 1 else base

namespace Session

structure InOrder (s : Session) (live : Live) (base : UInt32) : Prop where
  machine : s.machine.Delivers live base (s.commits.map Commit.entry)
  closed : s.draft = none → live.sq.tail = base
  opened : ∀ d, s.draft = some d → d.At live.sq s.machine.kernel.sq base

namespace InOrder

variable {s : Session} {live : Live} {base : UInt32}

/-- The entries up to the caller's tail are those let go and that of the open slot. -/
theorem committed (h : s.InOrder live base) :
    s.machine.Delivers live live.sq.tail (s.committed.map Commit.entry) := by
  cases hd : s.draft with
  | none =>
    have hnone : s.committed = s.commits := by simp [Session.committed, openCommit, hd]
    rw [hnone, h.closed hd]
    exact h.machine
  | some d =>
    obtain ⟨hindex, hroom, htail⟩ := h.opened d hd
    cases hc : d.slot.committed with
    | false =>
      have hnone : s.committed = s.commits := by
        simp [Session.committed, openCommit, hd, Draft.commit?, hc]
      rw [hnone, htail, hc]
      exact h.machine
    | true =>
      -- the entry of the open slot stands at `base`, right behind those let go
      have hsome : s.committed.map Commit.entry = s.commits.map Commit.entry ++
          [s.machine.kernel.sq.sqes.get (live.sq.size.slot base)] := by
        simp [Session.committed, openCommit, hd, Draft.commit?, Draft.asCommit, hc, hindex]
      rw [hsome, htail, hc]
      exact ⟨h.machine.live_eq, h.machine.queue.extend hroom⟩

theorem letGo (h : s.InOrder live base) : s.letGo.InOrder live live.sq.tail :=
  ⟨h.committed, fun _ => rfl, by rintro d ⟨⟩⟩

theorem claim (h : s.InOrder live base) : s.claim.InOrder live live.sq.tail := by
  have hgo := h.letGo
  rcases s.claim_cases with hclaim | ⟨live', index, hlive, hvacant, hclaim⟩
  · rw [hclaim]
    exact hgo
  · rw [hclaim]
    obtain rfl := Option.some.inj (hlive.symm.trans h.machine.live_eq)
    obtain ⟨hroom, rfl⟩ := Queue.vacant?_eq_some_iff.mp hvacant
    refine ⟨⟨hlive, hgo.machine.queue.write hroom {}⟩, by rintro ⟨⟩, ?_⟩
    rintro d ⟨⟩
    exact ⟨rfl, hroom, rfl⟩

/-- Acts write to the free cell at `base`, and to no other. -/
theorem act (h : s.InOrder live base) (a : Slot.Act) : ∃ live, (s.act a).InOrder live base := by
  rcases s.act_cases a with hact | ⟨d, hd, -, hact⟩
  · rw [hact]
    exact ⟨live, h⟩
  · rw [hact]
    obtain ⟨hindex, hroom, htail⟩ := h.opened d hd
    have hwrite := h.machine.queue.write hroom
      (a.write (s.machine.kernel.sq.sqes.get d.slot.index))
    rw [← hindex] at hwrite
    refine ⟨_, ⟨d.slot.perform_live _ h.machine.live_eq a, ?_⟩, by rintro ⟨⟩, ?_⟩
    · rw [Slot.perform_kernel]
      split
      · exact hwrite.commit
      · exact hwrite
    · rintro d' ⟨⟩
      refine ⟨?_, ?_, ?_⟩
      · show (d.slot.after a).index = _
        rw [Slot.after_index, hindex]
        split <;> rfl
      · rw [Slot.perform_kernel]
        split <;> exact hroom
      · show _ = if (d.slot.after a).committed then base + 1 else base
        rw [Slot.after_committed]
        cases a.encodes <;> cases hc : d.slot.committed <;> simp [hc, htail, Queue.commit]

theorem kernel (h : s.InOrder live base) {k : Kernel}
    (hturns : Kernel.Turns s.machine.kernel k) :
    InOrder { s with machine.kernel := k } live base := by
  obtain ⟨hmachine, hle⟩ := h.machine.turns hturns
  refine ⟨hmachine, h.closed, ?_⟩
  intro d hd
  obtain ⟨hindex, hroom, htail⟩ := h.opened d hd
  exact ⟨hindex, Nat.lt_of_le_of_lt hle hroom, htail⟩

/-- Every move keeps the order. -/
theorem step (h : s.InOrder live base) (a : Move) : ∃ live base, (s.step a).InOrder live base := by
  cases a with
  | claim => exact ⟨live, _, h.claim⟩
  | act a =>
    obtain ⟨live, h'⟩ := h.act a
    exact ⟨live, base, h'⟩
  | drop => exact ⟨live, _, h.letGo⟩
  | call a ha =>
    obtain ⟨live', h'⟩ := h.committed.path (Machine.call_path h.machine.live_eq a ha)
    exact ⟨live', _, h', fun _ => rfl, by rintro d ⟨⟩⟩
  | kernel event => exact ⟨live, base, h.kernel (Kernel.event_turns _ event)⟩

/-- A ring that has just come up on an idle kernel has nothing to hand over. -/
theorem start {ring : Ring} {k : Kernel} {live : Live} (hlive : ring.live = some live)
    (hfresh : live.Fresh k) (hidle : k.sq.head = k.sq.tail) (hnew : k.taken = []) :
    (Session.start ring k).InOrder live k.sq.tail := by
  refine ⟨⟨hlive, hfresh.attached, hfresh.head_eq.symm, Nat.le_refl _, ?_, ?_⟩,
    fun _ => hfresh.tail_eq, by rintro d ⟨⟩⟩
  · show (k.sq.tail - k.sq.head).toNat ≤ _
    rw [hidle, UInt32.sub_self]
    exact Nat.zero_le _
  · show k.taken.map Prod.snd ++ span k.sq.entryAt k.sq.head k.sq.tail = []
    rw [hnew, hidle, span_self]
    rfl

/-- Setting up a ring leaves counters and entries alone, so the order holds from the start. -/
theorem of_build {setup : Setup} {k : Kernel} {ring : Ring} (h : (setup.build k).1 = .ok ring)
    (hidle : k.sq.head = k.sq.tail) (hnew : k.taken = []) :
    ∃ live base, (Session.start ring (setup.build k).2).InOrder live base ∧
      live.sq.size.entries = k.sq.entries := by
  obtain ⟨p, live, -, rfl, hfresh, replies, calls, array, hk⟩ := Setup.build_ok h
  rw [hk] at hfresh ⊢
  exact ⟨live, _, .start rfl hfresh hidle hnew, hfresh.sq_entries_eq⟩

end InOrder

/-- Whatever is done with a ring, and whatever the kernel does meanwhile: the entries that the
kernel has taken, followed by those that it would find up to the caller's tail, are the committed
entries in commit order, each as it was when its slot was let go, and as its acts made it.  So none
is lost, doubled, reordered or overwritten.  What the kernel has taken and what it can take are
entries whose slots were let go. -/
theorem taken_append_toList {setup : Setup} {k : Kernel} {ring : Ring}
    (h : (setup.build k).1 = .ok ring) (hidle : k.sq.head = k.sq.tail) (hnew : k.taken = [])
    (moves : List Move) :
    let s := (start ring (setup.build k).2).run moves
    ∃ live, s.machine.ring.live = some live ∧
      s.machine.kernel.taken.map Prod.snd ++ live.sq.toList s.machine.kernel.sq =
        s.committed.map Commit.entry ∧
      (∀ c ∈ s.committed, c.entry = c.built) ∧
      s.machine.kernel.taken.map Prod.snd ++ s.machine.kernel.sq.published <+:
        s.commits.map Commit.entry := by
  intro s
  obtain ⟨live, base, hstart, -⟩ := InOrder.of_build h hidle hnew
  obtain ⟨live', base', hs⟩ := run_induction (P := fun s => ∃ live base, s.InOrder live base)
    (by rintro s a ⟨live, base, h⟩; exact h.step a) ⟨live, base, hstart⟩ moves
  have hwritten := (Written.start ring (setup.build k).2).run moves
  exact ⟨live', hs.machine.live_eq, hs.committed.queue.account,
    fun _ hc => hwritten.committed hc, hs.machine.queue.published_prefix⟩

/-- Two entries across the wrap of the counters, the second in a slot that is still open. -/
theorem taken_append_toList_at_wrap :
    ∃ ring, (Setup.build ⟨2, 0, 0⟩ (.idle ⟨1⟩ 0xffffffff)).1 = .ok ring ∧
      let s := (start ring (Setup.build ⟨2, 0, 0⟩ (.idle ⟨1⟩ 0xffffffff)).2).run
        [.claim, .act (.tag (.data64 7)), .act (.encode .nop), .call .submit,
          .claim, .act (.encode .nop)]
      ∃ live, s.machine.ring.live = some live ∧
        s.machine.kernel.taken.map Prod.snd ++ live.sq.toList s.machine.kernel.sq =
          s.committed.map Commit.entry ∧
        (∀ c ∈ s.committed, c.entry = c.built) ∧
        s.machine.kernel.taken.map Prod.snd ++ s.machine.kernel.sq.published <+:
          s.commits.map Commit.entry :=
  ⟨_, rfl, taken_append_toList rfl rfl rfl _⟩

end Session

end Uring
