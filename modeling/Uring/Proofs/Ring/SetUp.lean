import Uring.Proofs.Submission.Queue
import Uring.Proofs.Completion.Queue
import Uring.Ring.Lifetime

/-!
# Uring.Proofs.Ring.SetUp — the state of a ring that has just come up

Mapping memory leaves its content alone, so after a successful set-up the kernel is as before except
for the index array and its records, and the ring's queues fit its memory.
-/

namespace Uring

/-- Only the answers to mapping and the record of calls differ. -/
def Kernel.SameMemory (k k' : Kernel) : Prop :=
  ∃ replies calls, k' = { k with mapReplies := replies, calls := calls }

namespace Kernel.SameMemory

theorem refl (k : Kernel) : k.SameMemory k := ⟨k.mapReplies, k.calls, rfl⟩

theorem trans {k k' k'' : Kernel} (h : k.SameMemory k') (h' : k'.SameMemory k'') :
    k.SameMemory k'' := by
  obtain ⟨_, _, rfl⟩ := h
  obtain ⟨replies, calls, rfl⟩ := h'
  exact ⟨replies, calls, rfl⟩

end Kernel.SameMemory

namespace Mapping

theorem acquire_sameMemory (k : Kernel) (fd : Int32) (offset size : UInt64) :
    k.SameMemory (acquire k fd offset size).2 := by
  have hmmap : k.SameMemory (k.mmap size fd offset).2 := ⟨_, _, rfl⟩
  unfold acquire
  by_cases h : size = 0
  · rw [if_pos h]
    exact .refl k
  · rw [if_neg h]
    generalize k.mmap size fd offset = r at hmmap ⊢
    obtain ⟨_ | _ | _, k'⟩ := r
    · exact hmmap
    · exact hmmap
    · exact hmmap

theorem acquireAll_sameMemory (k : Kernel) (fd : Int32) (regions : List (Region × UInt64)) :
    k.SameMemory (acquireAll k fd regions).2 := by
  induction regions generalizing k with
  | nil => exact .refl k
  | cons first rest ih =>
    obtain ⟨region, size⟩ := first
    have hfirst := acquire_sameMemory k fd region.offset size
    unfold acquireAll
    generalize acquire k fd region.offset size = r at hfirst ⊢
    obtain ⟨_ | m, k'⟩ := r
    · exact hfirst
    · have hrest := hfirst.trans (ih k')
      dsimp only
      generalize acquireAll k' fd rest = r at hrest ⊢
      obtain ⟨_ | ms, k''⟩ := r
      · exact hrest.trans ⟨_, _, rfl⟩
      · exact hrest

end Mapping

/-- A ring whose queues fit the kernel's memory, nothing of which is committed yet. -/
structure Live.Fresh (live : Live) (k : Kernel) : Prop where
  attached : live.sq.Attached k.sq
  head_eq : live.sq.head = k.sq.tail
  tail_eq : live.sq.tail = k.sq.tail
  sq_entries_eq : live.sq.size.entries = k.sq.entries
  entries_eq : k.cq.entries = live.cq.size.entries

theorem Kernel.attachQueues_ok {k : Kernel} {sq : Submission.Queue} {cq : Completion.Queue}
    (h : k.attachQueues.1 = .ok (sq, cq)) (maps : List Mapping) (fd : Int32) :
    (⟨sq, cq, maps, fd⟩ : Live).Fresh k.attachQueues.2 ∧
      ∃ array, k.attachQueues.2 = { k with sq.array := array } := by
  have hsq (q : Submission.Queue) := Submission.Queue.attach_ok (m := k.sq) (q := q)
  unfold attachQueues at h ⊢
  generalize Submission.Queue.attach k.sq = r at hsq h ⊢
  obtain ⟨_ | sq', memory⟩ := r
  · cases h
  · cases hcq : Completion.Queue.attach k.cq with
    | error e => rw [hcq] at h; cases h
    | ok cq' =>
      rw [hcq] at h
      cases h
      obtain ⟨hA, hhead, htail, hsize, hmem⟩ := hsq sq rfl
      dsimp only at hA hmem ⊢
      have hentries : k.cq.entries = cq.size.entries := by
        unfold Completion.Queue.attach at hcq
        cases hw : RingSize.ofWords k.cq.entries k.cq.mask with
        | error e => rw [hw] at hcq; cases hcq
        | ok size =>
          rw [hw] at hcq
          cases hcq
          exact (RingSize.eq_of_ofWords hw).1
      have htail' : memory.tail = k.sq.tail := by rw [hmem]
      have hsize' : memory.entries = k.sq.entries := by rw [hmem]
      exact ⟨⟨hA, hhead.trans htail'.symm, htail.trans htail'.symm, hsize.trans hsize'.symm,
        hentries⟩, memory.array, by rw [← hmem]⟩

/-- What a successful set-up leaves behind. -/
theorem Setup.build_ok {setup : Setup} {k : Kernel} {ring : Ring}
    (h : (setup.build k).1 = .ok ring) :
    ∃ p live, k.setupReply = .ok p ∧ ring = Ring.fresh live p ∧ live.Fresh (setup.build k).2 ∧
      ∃ replies calls array, (setup.build k).2 =
        { k with mapReplies := replies, calls := calls, sq.array := array } := by
  have hsetup : k.SameMemory (k.setup setup.sqEntries setup.cqEntries setup.flags).2 :=
    ⟨_, _, rfl⟩
  have hreply : (k.setup setup.sqEntries setup.cqEntries setup.flags).1 = k.setupReply := rfl
  -- each way out before the last gives an error and no ring
  unfold build at h ⊢
  generalize k.setup setup.sqEntries setup.cqEntries setup.flags = r at hsetup hreply h ⊢
  obtain ⟨_ | p, k₁⟩ := r
  · cases h
  · have hmaps := hsetup.trans (Mapping.acquireAll_sameMemory k₁ p.fd p.regions)
    unfold Live.acquire at h ⊢
    dsimp only at h hmaps ⊢
    generalize Mapping.acquireAll k₁ p.fd p.regions = r at hmaps h ⊢
    obtain ⟨_ | maps, k₂⟩ := r
    · cases h
    · dsimp only at h hmaps ⊢
      have hqueues := @Kernel.attachQueues_ok k₂
      generalize k₂.attachQueues = r at hqueues h ⊢
      obtain ⟨_ | ⟨sq, cq⟩, k₃⟩ := r
      · cases h
      · cases h
        obtain ⟨hfresh, array, hk₃⟩ := hqueues rfl maps p.fd
        obtain ⟨replies, calls, rfl⟩ := hmaps
        exact ⟨p, _, hreply.symm, rfl, hfresh, replies, calls, array, hk₃⟩

/-- A kernel before any call: it grants rings of one size, whose counters all stand at `c`. -/
def Kernel.idle (size : RingSize) (c : UInt32) : Kernel where
  setupReply := .ok ⟨size.entries, size.entries, 0, 0, 3, 64, 64⟩
  mapReplies := []
  enterReplies := []
  registerReplies := []
  sq := ⟨size.entries, size.mask, c, c, 0, 0, .empty, .empty⟩
  cq := ⟨size.entries, size.mask, c, c, 0, .empty⟩
  backlog := []
  calls := []

end Uring
