import Mathlib.Data.Nat.ModEq
import Mathlib.Logic.ExistsUnique
import Uring.Completion.Queue
import Uring.Submission.Queue

/-!
# Uring.Proofs.Masking — the sizes that are let through are those that can be masked with

Both queues read their size from two words of the ring's memory and refuse it unless it is a power
of two with the mask that belongs to it.  A power of two divides the number of counters, so masking
and counting on commute even where the counter wraps, and a ring's worth of counters in a row meets
every slot once.
-/

namespace Uring

/-- The entries are a power of two that fits a word, and the mask is one less. -/
def Maskable (entries mask : UInt32) : Prop :=
  ∃ k < 32, entries.toNat = 2 ^ k ∧ mask.toNat + 1 = entries.toNat

/-- Masking takes the counters round the slots: counting on moves from slot to slot modulo the
entries, and from any counter on each slot is met by exactly one of the next `entries`. -/
structure GoesRound (entries mask : UInt32) : Prop where
  modulo : ∀ (c : UInt32) (n : Nat),
    ((c + .ofNat n) &&& mask).toNat = ((c &&& mask).toNat + n) % entries.toNat
  once : ∀ c i : UInt32, i < entries → ∃! n, n < entries.toNat ∧ (c + .ofNat n) &&& mask = i

namespace RingSize

variable (s : RingSize)

/-- The decrement never goes below zero. -/
theorem toNat_mask_succ : s.mask.toNat + 1 = s.entries.toNat := by
  have hpos := s.entries_pos
  have hmask := s.toNat_mask
  omega

theorem maskable : Maskable s.entries s.mask :=
  ⟨s.exponent, s.exponent.isLt, by rw [toNat_entries, Nat.one_shiftLeft], s.toNat_mask_succ⟩

/-! ### A ring's worth of counters -/

theorem slot_add_eq_iff (c i : UInt32) (hi : i < s.entries) {n : Nat} :
    s.slot (c + .ofNat n) = i ↔ (s.slot c).toNat + n ≡ i.toNat [MOD s.entries.toNat] := by
  have hlt : i.toNat < s.entries.toNat := UInt32.lt_iff_toNat_lt.mp hi
  rw [← UInt32.toNat_inj, toNat_slot_add, Nat.ModEq, Nat.mod_eq_of_lt hlt]

theorem exists_slot_add_eq (c i : UInt32) (hi : i < s.entries) :
    ∃ n < s.entries.toNat, s.slot (c + .ofNat n) = i := by
  have hslot := s.slot_lt c
  -- the way from the slot of `c` up to the end of the ring, and on from its start to `i`
  refine ⟨(s.entries.toNat - (s.slot c).toNat + i.toNat) % s.entries.toNat,
    Nat.mod_lt _ s.entries_pos, ?_⟩
  rw [slot_add_eq_iff _ _ _ hi]
  calc (s.slot c).toNat + (s.entries.toNat - (s.slot c).toNat + i.toNat) % s.entries.toNat
      ≡ (s.slot c).toNat + (s.entries.toNat - (s.slot c).toNat + i.toNat)
          [MOD s.entries.toNat] := (Nat.mod_modEq _ _).add_left _
    _ = s.entries.toNat + i.toNat := by omega
    _ ≡ i.toNat [MOD s.entries.toNat] := Nat.add_modEq_left

theorem slot_add_injective (c : UInt32) {n n' : Nat} (hn : n < s.entries.toNat)
    (hn' : n' < s.entries.toNat) (h : s.slot (c + .ofNat n) = s.slot (c + .ofNat n')) : n = n' := by
  have hmod : (s.slot c).toNat + n ≡ (s.slot c).toNat + n' [MOD s.entries.toNat] := by
    rw [Nat.ModEq, ← toNat_slot_add, ← toNat_slot_add, h]
  exact (Nat.ModEq.add_left_cancel' _ hmod).eq_of_lt_of_lt hn hn'

theorem goesRound : GoesRound s.entries s.mask := by
  refine ⟨s.toNat_slot_add, fun c i hi => ?_⟩
  obtain ⟨n, hn, hslot⟩ := s.exists_slot_add_eq c i hi
  exact ⟨n, ⟨hn, hslot⟩, fun n' ⟨hn', hslot'⟩ =>
    s.slot_add_injective c hn' hn (hslot'.trans hslot.symm)⟩

end RingSize

theorem maskable_iff {entries mask : UInt32} :
    Maskable entries mask ↔ ∃ s : RingSize, entries = s.entries ∧ mask = s.mask := by
  constructor
  · rintro ⟨k, hk, hentries, hmask⟩
    have heq : entries = RingSize.entries ⟨⟨k, hk⟩⟩ := by
      rw [← UInt32.toNat_inj, RingSize.toNat_entries, hentries, Nat.one_shiftLeft]
    refine ⟨⟨⟨k, hk⟩⟩, heq, ?_⟩
    rw [← UInt32.toNat_inj, RingSize.toNat_mask, ← heq, ← hmask, Nat.add_sub_cancel]
  · rintro ⟨s, rfl, rfl⟩
    exact s.maskable

theorem Maskable.goesRound {entries mask : UInt32} (h : Maskable entries mask) :
    GoesRound entries mask := by
  obtain ⟨s, rfl, rfl⟩ := maskable_iff.mp h
  exact s.goesRound

theorem not_maskable_zero (mask : UInt32) : ¬ Maskable 0 mask := by
  rintro ⟨k, -, hentries, -⟩
  have hpos := Nat.two_pow_pos k
  rw [UInt32.toNat_zero] at hentries
  omega

/-! ### The gate -/

section Gate

variable {α : Type} {entries mask : UInt32} {size : α → RingSize} {answer : Except InitError α}

/-- What is made of the two words: a handle that masks as they do, exactly if they allow it. -/
structure Gate (entries mask : UInt32) (size : α → RingSize) (answer : Except InitError α) :
    Prop where
  opens : (∃ q, answer = .ok q) ↔ Maskable entries mask
  size_eq : ∀ q, answer = .ok q → (size q).entries = entries ∧ ∀ c, (size q).slot c = c &&& mask
  refuses : ¬ Maskable entries mask → answer = .error (.notPowerOfTwo entries)

/-- It is enough that the handle's size is the one that the words were read as. -/
theorem Gate.of_map_size (h : answer.map size = RingSize.ofWords entries mask) :
    Gate entries mask size answer := by
  cases answer with
  | ok q =>
    obtain ⟨rfl, rfl⟩ := RingSize.eq_of_ofWords h.symm
    refine ⟨iff_of_true ⟨q, rfl⟩ (size q).maskable, ?_, fun hnot => absurd (size q).maskable hnot⟩
    rintro _ ⟨⟩
    exact ⟨rfl, fun _ => rfl⟩
  | error e =>
    obtain rfl := RingSize.ofWords_error h.symm
    have hnot : ¬ Maskable entries mask := by
      intro hmaskable
      obtain ⟨s, rfl, rfl⟩ := maskable_iff.mp hmaskable
      rw [RingSize.ofWords_entries_mask] at h
      cases h
    refine ⟨iff_of_false ?_ hnot, ?_, fun _ => rfl⟩
    · rintro ⟨q, ⟨⟩⟩
    · rintro q ⟨⟩

end Gate

theorem Submission.Queue.gate_attach (m : Submission.Memory) :
    Gate m.entries m.mask size (attach m).1 := by
  apply Gate.of_map_size
  unfold attach
  cases RingSize.ofWords m.entries m.mask <;> rfl

theorem Submission.Queue.attach_of_not_maskable {m : Submission.Memory}
    (h : ¬ Maskable m.entries m.mask) : attach m = (.error (.notPowerOfTwo m.entries), m) := by
  have hrefused := (gate_attach m).refuses h
  unfold attach at hrefused ⊢
  cases hwords : RingSize.ofWords m.entries m.mask with
  | ok s => rw [hwords] at hrefused; cases hrefused
  | error e => rw [RingSize.ofWords_error hwords]

theorem Completion.Queue.gate_attach (m : Completion.Memory) :
    Gate m.entries m.mask size (attach m) := by
  apply Gate.of_map_size
  unfold attach
  cases RingSize.ofWords m.entries m.mask <;> rfl

/-- Either queue attaches exactly to memory whose size words can be masked with, and refuses all
other memory for its entries without writing to it; the decrement that makes a mask never goes
below zero.  Masking with such words takes the counters round the slots, across the wrap too. -/
theorem attach_goes_round (sq : Submission.Memory) (cq : Completion.Memory) :
    Gate sq.entries sq.mask Submission.Queue.size (Submission.Queue.attach sq).1 ∧
    (¬ Maskable sq.entries sq.mask → (Submission.Queue.attach sq).2 = sq) ∧
    Gate cq.entries cq.mask Completion.Queue.size (Completion.Queue.attach cq) ∧
    (∀ mask, ¬ Maskable 0 mask) ∧ (∀ s : RingSize, s.mask.toNat + 1 = s.entries.toNat) ∧
    ∀ entries mask, Maskable entries mask → GoesRound entries mask := by
  refine ⟨Submission.Queue.gate_attach sq, fun hnot => ?_, Completion.Queue.gate_attach cq,
    not_maskable_zero, RingSize.toNat_mask_succ, fun _ _ h => h.goesRound⟩
  rw [Submission.Queue.attach_of_not_maskable hnot]

/-- The last counter before the wrap and the three after it meet each of four slots once.  A ring of
six entries is refused, and so is one without entries whose mask is zero taken down by one. -/
theorem attach_goes_round_across_wrap :
    let four : Submission.Memory := { (default : Submission.Memory) with entries := 4, mask := 3 }
    let six : Submission.Memory := { (default : Submission.Memory) with entries := 6, mask := 5 }
    let zero : Completion.Memory :=
      { (default : Completion.Memory) with entries := 0, mask := 0xffffffff }
    (∃ q, (Submission.Queue.attach four).1 = .ok q) ∧
      ((0xffffffff + .ofNat 2) &&& 3 : UInt32).toNat = (3 + 2) % 4 ∧
      (∃! n, n < 4 ∧ (0xffffffff + UInt32.ofNat n) &&& 3 = 2) ∧
      (Submission.Queue.attach six).2 = six ∧
      Completion.Queue.attach zero = .error (.notPowerOfTwo 0) := by
  intro four six zero
  have hfour : Maskable 4 3 := ⟨2, by decide, rfl, rfl⟩
  have hsix : ¬ Maskable 6 5 := by
    rintro ⟨k, hk, hentries, -⟩
    have hnone : ∀ k < 32, 6 ≠ 2 ^ k := by decide
    exact hnone k hk hentries
  obtain ⟨hgate, -, hzero, hnone, -, hround⟩ := attach_goes_round four zero
  have hturn := hround 4 3 hfour
  exact ⟨hgate.opens.mpr hfour, hturn.modulo 0xffffffff 2, hturn.once 0xffffffff 2 (by decide),
    (attach_goes_round six zero).2.1 hsix, hzero.refuses (hnone _)⟩

end Uring
