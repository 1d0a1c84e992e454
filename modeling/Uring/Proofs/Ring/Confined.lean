import Uring.Proofs.Ring.Bounded
import Uring.Proofs.Ring.Entries
import Uring.Proofs.Ring.Lifelong
import Uring.Proofs.Ring.Release
import Uring.Ring.Layout

/-!
# Uring.Proofs.Ring.Confined — every access lies in a mapping

Cells are found by adding to a pointer, and nothing checks the result.  It is the sizes that keep
every access where it belongs: the regions are mapped up to the end of their last cell, counters are
masked to less than a ring, and a batch is no longer than the ring.  This needs the ring to be as
large as was reported, for the reported sizes are mapped and those of the memory are used.
-/

namespace Uring

/-! ### Sizes of the regions -/

namespace Params

theorem toNat_cells (count : UInt32) {bytes : Nat} (h : bytes ≤ 64) :
    (count.toUInt64 * UInt64.ofNat bytes).toNat = count.toNat * bytes := by
  have hcount := count.toNat_lt
  have hcells : count.toNat * bytes ≤ 2 ^ 32 * 64 := Nat.mul_le_mul (Nat.le_of_lt hcount) h
  have hbytes : (UInt64.ofNat bytes).toNat = bytes := by
    rw [UInt64.toNat_ofNat', Nat.mod_eq_of_lt (by omega)]
  rw [UInt64.toNat_mul, UInt32.toNat_toUInt64, hbytes, Nat.mod_eq_of_lt (by omega)]

/-- A header and the cells behind it take far less than `2^64` bytes, whatever is reported. -/
theorem toNat_header_add_cells (header count : UInt32) {bytes : Nat} (h : bytes ≤ 64) :
    (header.toUInt64 + count.toUInt64 * UInt64.ofNat bytes).toNat =
      header.toNat + count.toNat * bytes := by
  have hheader := header.toNat_lt
  have hcells : count.toNat * bytes ≤ 2 ^ 32 * 64 :=
    Nat.mul_le_mul (Nat.le_of_lt count.toNat_lt) h
  rw [UInt64.toNat_add, UInt32.toNat_toUInt64, toNat_cells count h, Nat.mod_eq_of_lt (by omega)]

/-- A region is mapped exactly up to the end of its last cell. -/
theorem toNat_size {p : Params} {m : Mapping} (h : m ∈ p.mappings) :
    m.size.toNat = p.cellStart m.region (p.cellCount m.region) := by
  simp only [mappings, regions, List.map_cons, List.map_nil, List.mem_cons, List.not_mem_nil,
    or_false] at h
  rcases h with rfl | rfl | rfl
  · exact toNat_header_add_cells p.arrayOffset p.sqEntries (by decide)
  · exact toNat_header_add_cells p.cqesOffset p.cqEntries (by decide)
  · exact (toNat_cells p.sqEntries (by decide)).trans (Nat.zero_add _).symm

end Params

theorem Live.covers_of_le {live : Live} {p : Params} (hmaps : live.maps = p.mappings) {r : Region}
    {first count : Nat} (h : first + count ≤ p.cellCount r) : live.Covers p r first count := by
  obtain ⟨m, hm, rfl⟩ : ∃ m ∈ p.mappings, m.region = r := by
    cases r <;> simp [Params.mappings, Params.regions, Mapping.ofRegion]
  refine ⟨m, hmaps ▸ hm, rfl, Nat.le_add_right .., ?_⟩
  rw [Params.toNat_size hm]
  exact Nat.add_le_add_left (Nat.mul_le_mul_right _ h) _

/-! ### Completions -/

namespace Completion.Queue

variable {q : Queue} {m : Memory}

/-- The runs of a batch stay below the size of the ring, and go to the front of the buffer. -/
theorem runs_within {n : Nat} (hn : n ≤ q.size.entries.toNat) {r : Run} (hr : r ∈ q.runs m n) :
    r.first + r.length ≤ q.size.entries.toNat ∧ r.target + r.length ≤ n := by
  have hslot := q.size.slot_lt m.head
  unfold runs at hr
  by_cases hzero : n = 0
  · simp [hzero] at hr
  · by_cases hwrap : min (q.size.entries.toNat - (q.size.slot m.head).toNat) n < n
    · simp only [hzero, hwrap, if_true, if_false, List.mem_cons, List.not_mem_nil, or_false] at hr
      rcases hr with rfl | rfl
      · dsimp only
        omega
      · dsimp only
        omega
    · simp only [hzero, hwrap, if_false, List.mem_cons, List.not_mem_nil, or_false] at hr
      subst hr
      dsimp only
      omega

/-- The runs leave out no place of the batch. -/
theorem exists_mem_runs {n j : Nat} (hj : j < n) :
    ∃ r ∈ q.runs m n, r.target ≤ j ∧ j < r.target + r.length := by
  unfold runs
  dsimp only
  generalize hfirst : min (q.size.entries.toNat - (q.size.slot m.head).toNat) n = first
  rw [if_neg (by omega)]
  by_cases hwrap : first < n
  · rw [if_pos hwrap]
    by_cases hlate : first ≤ j
    · refine ⟨_, List.mem_cons_of_mem _ (List.mem_singleton_self _), hlate, ?_⟩
      dsimp only
      omega
    · refine ⟨_, List.mem_cons_self .., Nat.zero_le _, ?_⟩
      dsimp only
      omega
  · rw [if_neg hwrap]
    refine ⟨_, List.mem_singleton_self _, Nat.zero_le _, ?_⟩
    dsimp only
    omega

section

variable {cqes : Cells Entry}

/-- Slots that no counter falls on are not looked at. -/
theorem entryAt_congr
    (h : ∀ i : UInt32, i.toNat < q.size.entries.toNat → cqes.get i = m.cqes.get i)
    (counter : UInt32) : q.entryAt { m with cqes := cqes } counter = q.entryAt m counter :=
  h _ (q.size.slot_lt counter)

theorem peek?_congr
    (h : ∀ i : UInt32, i.toNat < q.size.entries.toNat → cqes.get i = m.cqes.get i) :
    q.peek? { m with cqes := cqes } = q.peek? m := by
  unfold peek?
  rw [entryAt_congr h]
  rfl

theorem Bounded.copyReady_congr (hb : q.Bounded m)
    (h : ∀ i : UInt32, i.toNat < q.size.entries.toNat → cqes.get i = m.cqes.get i)
    (out : Array Entry) :
    (q.copyReady { m with cqes := cqes } out).2.1 = (q.copyReady m out).2.1 := by
  have hb' : q.Bounded { m with cqes := cqes } := ⟨hb.entries_eq, hb.ready_le⟩
  apply Array.ext_getElem?
  intro j
  rw [getElem?_copyReady hb, getElem?_copyReady hb', entryAt_congr h]
  rfl

end

end Completion.Queue

/-! ### Submission entries -/

theorem RingSize.le_mask {size : RingSize} {i : UInt32} (h : i.toNat < size.entries.toNat) :
    i ≤ size.mask := by
  rw [UInt32.le_iff_toNat_le, size.toNat_mask]
  omega

/-- What no turn of the kernel and no publishing does: writing an entry. -/
theorem Machine.Path.sqes_eq {s t : Machine} {ds : List Completion.Entry} (h : Path s ds t) :
    t.kernel.sq.sqes = s.kernel.sq.sqes := by
  induction h with
  | refl => rfl
  | tail _ heff ih =>
    rw [← ih]
    cases heff with
    | note e => rfl
    | turn hturn => exact hturn.sqes_eq
    | @publish live hlive =>
      rcases publish_sq _ live with hsq | hsq
      · rw [hsq]
      · rw [hsq]
    | pass hlive hn hp => rfl

theorem Machine.nextSlot_index {s : Machine} {live : Live} {slot : Slot}
    (hlive : s.ring.live = some live) (h : s.nextSlot.1 = .ok slot) :
    live.sq.vacant? s.kernel.sq = some slot.index := by
  unfold nextSlot at h
  rw [hlive] at h
  dsimp only at h
  cases hvacant : live.sq.vacant? s.kernel.sq with
  | none =>
    rw [hvacant] at h
    cases h
  | some index =>
    rw [hvacant] at h
    cases h
    rfl

namespace Session

variable {s : Session} {size : RingSize}

/-- The ring lives, with a submission queue of this size, and an open slot is one of its entries. -/
structure InRange (s : Session) (size : RingSize) : Prop where
  size_eq : s.machine.shape.2 = some size
  index_lt : ∀ d, s.draft = some d → d.slot.index.toNat < size.entries.toNat

theorem InRange.live (h : s.InRange size) :
    ∃ live, s.machine.ring.live = some live ∧ live.sq.size = size :=
  Option.map_eq_some_iff.mp h.size_eq

theorem InRange.vacant {live : Live} {index : UInt32} (h : s.InRange size)
    (hlive : s.machine.ring.live = some live)
    (hvacant : live.sq.vacant? s.machine.kernel.sq = some index) :
    index.toNat < size.entries.toNat := by
  obtain ⟨live', hlive', hsize⟩ := h.live
  obtain rfl := Option.some.inj (hlive.symm.trans hlive')
  obtain ⟨-, rfl⟩ := Submission.Queue.vacant?_eq_some_iff.mp hvacant
  rw [← hsize]
  exact live.sq.size.slot_lt live.sq.tail

theorem InRange.step (h : s.InRange size) (a : Move) : (s.step a).InRange size := by
  obtain ⟨live, hlive, hsize⟩ := h.live
  refine ⟨(congrArg Prod.snd (step_advances hlive a).shape).trans h.size_eq, ?_⟩
  intro d hd
  cases a with
  | claim =>
    rcases s.claim_cases with hclaim | ⟨live', index, hlive', hvacant, hclaim⟩
    · rw [Session.step, hclaim] at hd
      cases hd
    · rw [Session.step, hclaim] at hd
      cases hd
      exact h.vacant hlive' hvacant
  | act a =>
    rcases s.act_cases a with hact | ⟨d', hd', -, hact⟩
    · rw [Session.step, hact] at hd
      exact h.index_lt d hd
    · rw [Session.step, hact] at hd
      cases hd
      have hindex := d'.slot.after_index a
      show (d'.slot.after a).index.toNat < _
      rw [hindex]
      exact h.index_lt d' hd'
  | drop => cases hd
  | call a ha => cases hd
  | kernel event => exact h.index_lt d hd

/-- A ring that came up keeps the size that the kernel's memory stated, and no slot leaves it. -/
theorem run_inRange {setup : Setup} {k : Kernel} {ring : Ring} (h : (setup.build k).1 = .ok ring)
    (moves : List Move) :
    ∃ size, size.entries = k.sq.entries ∧
      ((start ring (setup.build k).2).run moves).InRange size := by
  obtain ⟨p, live, -, rfl, hfresh, replies, calls, array, hk⟩ := Setup.build_ok h
  have hentries := hfresh.sq_entries_eq
  rw [hk] at hentries
  have hstart : (start (Ring.fresh live p) (setup.build k).2).InRange live.sq.size :=
    ⟨rfl, fun d hd => by cases hd⟩
  have hrun := run_induction (P := fun s => s.InRange live.sq.size) (fun _ a hs => hs.step a) hstart
    moves
  exact ⟨live.sq.size, hentries, hrun⟩

/-- A move writes no entry but the one that it claims or that is open. -/
theorem InRange.written (h : s.InRange size) (a : Move) {i : UInt32}
    (hi : (s.step a).machine.kernel.sq.sqes.get i ≠ s.machine.kernel.sq.sqes.get i) :
    i.toNat < size.entries.toNat := by
  obtain ⟨live, hlive, hsize⟩ := h.live
  cases a with
  | claim =>
    rcases s.claim_cases with hclaim | ⟨live', index, hlive', hvacant, hclaim⟩
    · rw [Session.step, hclaim] at hi
      exact absurd rfl hi
    · rw [Session.step, hclaim] at hi
      by_cases hindex : index = i
      · exact hindex ▸ h.vacant hlive' hvacant
      · exact absurd (Cells.get_set_of_ne _ _ hindex) hi
  | act a =>
    rcases s.act_cases a with hact | ⟨d, hd, -, hact⟩
    · rw [Session.step, hact] at hi
      exact absurd rfl hi
    · rw [Session.step, hact] at hi
      by_cases hindex : d.slot.index = i
      · exact hindex ▸ h.index_lt d hd
      · dsimp only at hi
        rw [Slot.perform_kernel] at hi
        exact absurd (Cells.get_set_of_ne _ _ hindex) hi
  | drop => exact absurd rfl hi
  | call a ha => exact absurd (congrArg (·.get i) (Machine.call_path hlive a ha).sqes_eq) hi
  | kernel event =>
    exact absurd (congrArg (·.get i) (Kernel.event_turns s.machine.kernel event).sqes_eq) hi

end Session

/-! ### The index array -/

theorem Submission.Queue.attach_array {m : Memory} {q : Queue} (h : (attach m).1 = .ok q) :
    (attach m).2.array = identityArray m.entries.toNat m.array := by
  unfold attach at h ⊢
  cases hw : RingSize.ofWords m.entries m.mask with
  | error e =>
    rw [hw] at h
    cases h
  | ok size =>
    rw [(RingSize.eq_of_ofWords hw).1]

theorem Kernel.attachQueues_array {k : Kernel} {queues : Submission.Queue × Completion.Queue}
    (h : k.attachQueues.1 = .ok queues) :
    k.attachQueues.2.sq.array =
      Submission.Queue.identityArray k.sq.entries.toNat k.sq.array := by
  have harray := @Submission.Queue.attach_array k.sq
  unfold attachQueues at h ⊢
  generalize Submission.Queue.attach k.sq = r at harray h ⊢
  obtain ⟨_ | sq, memory⟩ := r
  · cases h
  · cases hcq : Completion.Queue.attach k.cq with
    | error e =>
      rw [hcq] at h
      cases h
    | ok cq => exact harray rfl

theorem Setup.build_ok_array {setup : Setup} {k : Kernel} {p : Params} {ring : Ring}
    (hp : k.setupReply = .ok p) (h : (setup.build k).1 = .ok ring) :
    (setup.build k).2.sq.array =
      Submission.Queue.identityArray k.sq.entries.toNat k.sq.array := by
  have hmaps := Mapping.acquireAll_sameMemory (k.record setup.call) p.fd p.regions
  rw [build_of_granted hp] at h ⊢
  unfold Live.acquire at h ⊢
  generalize Mapping.acquireAll (k.record setup.call) p.fd p.regions = r at hmaps h ⊢
  obtain ⟨_ | maps, k'⟩ := r
  · cases h
  · have harray := @Kernel.attachQueues_array k'
    dsimp only at h ⊢
    generalize k'.attachQueues = r at harray h ⊢
    obtain ⟨_ | queues, k''⟩ := r
    · cases h
    · obtain ⟨replies, calls, rfl⟩ := hmaps
      exact harray rfl

/-! ### Rings in use -/

/-- An index is in reach of the mask, and its entry lies in the mapping of the entries. -/
def Live.HasEntry (live : Live) (p : Params) (index : UInt32) : Prop :=
  index ≤ live.sq.size.mask ∧ live.Covers p .sqes index.toNat 1

/-- All that is accessed in a session, now or by the next move, lies in the mappings. -/
structure Session.Confined (s : Session) (live : Live) (p : Params) : Prop where
  live_eq : s.machine.ring.live = some live
  sizes : ∀ m ∈ live.maps, m.size.toNat = p.cellStart m.region (p.cellCount m.region)
  /-- A claim zeroes an entry, and what is done with a slot goes to the entry claimed. -/
  claimed : ∀ slot, s.machine.nextSlot.1 = .ok slot → live.HasEntry p slot.index
  opened : ∀ d, s.draft = some d → live.HasEntry p d.slot.index
  written : ∀ a i, (s.step a).machine.kernel.sq.sqes.get i ≠ s.machine.kernel.sq.sqes.get i →
    live.HasEntry p i
  peeked : live.Covers p .cq (live.cq.size.slot s.machine.kernel.cq.head).toNat 1
  /-- A batch is copied at once, or after the one enter that a copy makes. -/
  copied : ∀ wait k, k = s.machine.kernel ∨
      k = (s.machine.kernel.enter live.fd 0 wait Abi.enterGetEvents).2 →
    ∀ out : Array Completion.Entry,
      let count := min k.cq.ready.toNat out.size
      (∀ j < count, ∃ r ∈ live.cq.runs k.cq count, r.target ≤ j ∧ j < r.target + r.length) ∧
        ∀ r ∈ live.cq.runs k.cq count,
          live.Covers p .cq r.first r.length ∧ r.target + r.length ≤ out.size
  /-- Those are all the completions that matter: cells outside the mapping may hold anything. -/
  unread : ∀ cqes, (∀ i : UInt32, live.Covers p .cq i.toNat 1 →
      cqes.get i = s.machine.kernel.cq.cqes.get i) →
    let m := { s.machine.kernel.cq with cqes := cqes }
    live.cq.peek? m = live.cq.peek? s.machine.kernel.cq ∧
      ∀ out, (live.cq.copyReady m out).2.1 = (live.cq.copyReady s.machine.kernel.cq out).2.1

namespace Session

/-- Sizes that agree confine everything. -/
theorem InRange.confined {s : Session} {live : Live} {p : Params}
    (h : s.InRange live.sq.size) (hlive : s.machine.ring.live = some live)
    (hbounded : live.cq.Bounded s.machine.kernel.cq) (hmaps : live.maps = p.mappings)
    (hsq : p.sqEntries = live.sq.size.entries) (hcq : p.cqEntries = live.cq.size.entries) :
    s.Confined live p := by
  have hentry {i : UInt32} (hi : i.toNat < live.sq.size.entries.toNat) : live.HasEntry p i := by
    refine ⟨RingSize.le_mask hi, Live.covers_of_le hmaps ?_⟩
    show i.toNat + 1 ≤ p.sqEntries.toNat
    rw [hsq]
    exact hi
  have hcells {first count : Nat} (hle : first + count ≤ live.cq.size.entries.toNat) :
      live.Covers p .cq first count := by
    refine Live.covers_of_le hmaps ?_
    show first + count ≤ p.cqEntries.toNat
    rw [hcq]
    exact hle
  refine ⟨hlive, ?_, ?_, ?_, ?_, hcells (live.cq.size.slot_lt _), ?_, ?_⟩
  · intro m hm
    rw [hmaps] at hm
    exact Params.toNat_size hm
  · intro slot hslot
    exact hentry (h.vacant hlive (Machine.nextSlot_index hlive hslot))
  · intro d hd
    exact hentry (h.index_lt d hd)
  · intro a i hi
    exact hentry (h.written a hi)
  · intro wait k hk out
    -- the enter in between may have posted, but has not overfilled the ring
    have hk' : live.cq.Bounded k.cq := by
      rcases hk with rfl | rfl
      · exact hbounded
      · exact (Kernel.enter_turns _ _ _ _ _).bounded hbounded
    have hready := hk'.ready_le
    refine ⟨fun j hj => Completion.Queue.exists_mem_runs hj, fun r hr => ?_⟩
    obtain ⟨hfirst, htarget⟩ := Completion.Queue.runs_within (by omega) hr
    exact ⟨hcells hfirst, by omega⟩
  · intro cqes hcqes m
    have hsame (i : UInt32) (hi : i.toNat < live.cq.size.entries.toNat) :
        cqes.get i = s.machine.kernel.cq.cqes.get i :=
      hcqes i (hcells hi)
    exact ⟨Completion.Queue.peek?_congr hsame, hbounded.copyReady_congr hsame⟩

/-- A ring that comes up as large as was reported keeps to its mappings.  Setting up the index array
writes the cells of that array and no others.  Whatever is done then, the caller reads and writes
only entries and completions that are mapped, and copies completions only into the buffer given. -/
theorem accesses_mapped {setup : Setup} {k : Kernel} {p : Params} {ring : Ring}
    (hp : k.setupReply = .ok p) (h : (setup.build k).1 = .ok ring)
    (hsq : p.sqEntries = k.sq.entries) (hcq : p.cqEntries = k.cq.entries)
    (hfits : k.cq.ready ≤ k.cq.entries) (moves : List Move) :
    ∃ live, ((start ring (setup.build k).2).run moves).Confined live p ∧
      (setup.build k).2.sq.array =
        Submission.Queue.identityArray k.sq.entries.toNat k.sq.array ∧
      ∀ i < k.sq.entries.toNat, live.Covers p .sq i 1 := by
  -- three accounts of the same run: of its completions, of its slots and of its mappings
  obtain ⟨live, hlive, hentries, hsized⟩ := run_sized h hfits moves
  obtain ⟨size, hsize, hinRange⟩ := run_inRange h moves
  obtain ⟨live', hlive', rfl⟩ := hinRange.live
  obtain rfl := Option.some.inj (hlive.symm.trans hlive')
  obtain ⟨hholds, -, -⟩ := Setup.build_ok_calls hp h
  obtain ⟨-, live', hlive', hmaps, -⟩ :=
    run_retains (s := start ring (setup.build k).2) hholds moves
  obtain rfl := Option.some.inj (hlive.symm.trans hlive')
  refine ⟨live, hinRange.confined hlive hsized.bounded hmaps (hsq.trans hsize.symm)
    (hcq.trans hentries.symm), Setup.build_ok_array hp h, fun i hi => ?_⟩
  refine Live.covers_of_le hmaps ?_
  show i + 1 ≤ p.sqEntries.toNat
  rw [hsq]
  exact hi

/-- A full ring of two just before the wrap of its counters, on which a slot is claimed.  The
regions take 72, 96 and 128 bytes, the slot is the second entry, and a batch is the second
completion and then the first. -/
theorem accesses_mapped_wrap :
    ∃ ring, (Setup.build ⟨2, 0, 0⟩ (.idle ⟨1⟩ 0xffffffff)).1 = .ok ring ∧
      let s := (start ring (Setup.build ⟨2, 0, 0⟩ (.idle ⟨1⟩ 0xffffffff)).2).run
        [.kernel (.post [⟨1, 0, 0⟩, ⟨2, 0, 0⟩]), .claim]
      ∃ live, s.Confined live ⟨2, 2, 0, 0, 3, 64, 64⟩ ∧
        live.maps = [⟨.sq, 72⟩, ⟨.cq, 96⟩, ⟨.sqes, 128⟩] ∧
        s.draft.map (·.slot.index) = some 1 ∧
        live.cq.runs s.machine.kernel.cq 2 = [⟨1, 0, 1⟩, ⟨0, 1, 1⟩] ∧
        live.Covers ⟨2, 2, 0, 0, 3, 64, 64⟩ .cq 1 1 ∧
        ¬ live.Covers ⟨2, 2, 0, 0, 3, 64, 64⟩ .cq 1 2 := by
  have hbuild : (Setup.build ⟨2, 0, 0⟩ (.idle ⟨1⟩ 0xffffffff)).1 = .ok _ := rfl
  refine ⟨_, hbuild, ?_⟩
  intro s
  obtain ⟨live, hconfined, -⟩ := accesses_mapped rfl hbuild rfl rfl (by decide)
    [.kernel (.post [⟨1, 0, 0⟩, ⟨2, 0, 0⟩]), .claim]
  have hlive : s.machine.ring.live = some _ := rfl
  obtain rfl := Option.some.inj (hconfined.live_eq.symm.trans hlive)
  exact ⟨_, hconfined, by decide, by decide, by decide, by decide, by decide⟩

end Session

end Uring
