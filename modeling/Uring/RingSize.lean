import Uring.Error
import Uring.Span

/-!
# Uring.RingSize — sizes that counters can be masked with

Ring counters run through all 32-bit words and wrap.  A counter finds its slot by masking, which is
a remainder exactly because the size is a power of two.
-/

namespace Uring

/-- A power of two below `2^32`, kept as its exponent. -/
structure RingSize where
  exponent : Fin 32
  deriving DecidableEq, Repr, Inhabited

namespace RingSize

def entries (s : RingSize) : UInt32 := UInt32.ofNat (1 <<< s.exponent.val)

def mask (s : RingSize) : UInt32 := s.entries - 1

/-- The slot that a counter falls on. -/
def slot (s : RingSize) (counter : UInt32) : UInt32 := counter &&& s.mask

/-- The size that a ring's memory states: its entries must be a power of two, and its mask one
less. -/
def ofWords (entries mask : UInt32) : Except InitError RingSize :=
  match ((List.finRange 32).map RingSize.mk).find? fun s => s.entries == entries with
  | some s => if mask = s.mask then .ok s else .error (.notPowerOfTwo entries)
  | none => .error (.notPowerOfTwo entries)

/-! ### Words as numbers -/

theorem toNat_entries (s : RingSize) : s.entries.toNat = 1 <<< s.exponent.val := by
  have h : 2 ^ s.exponent.val < 2 ^ 32 := Nat.pow_lt_pow_right (by decide) s.exponent.isLt
  rw [entries, UInt32.toNat_ofNat', Nat.one_shiftLeft]
  exact Nat.mod_eq_of_lt h

theorem entries_pos (s : RingSize) : 0 < s.entries.toNat := by
  rw [toNat_entries, Nat.one_shiftLeft]; exact Nat.two_pow_pos _

theorem toNat_mask (s : RingSize) : s.mask.toNat = s.entries.toNat - 1 := by
  have h := s.entries_pos
  have h1 : (1 : UInt32) ≤ s.entries := UInt32.le_iff_toNat_le.mpr h
  rw [mask, UInt32.toNat_sub_of_le _ _ h1]
  rfl

theorem toNat_slot (s : RingSize) (c : UInt32) :
    (s.slot c).toNat = c.toNat % s.entries.toNat := by
  rw [slot, UInt32.toNat_and, toNat_mask, toNat_entries, Nat.one_shiftLeft,
    Nat.and_two_pow_sub_one_eq_mod]

theorem slot_lt (s : RingSize) (c : UInt32) : (s.slot c).toNat < s.entries.toNat := by
  rw [toNat_slot]; exact Nat.mod_lt _ s.entries_pos

theorem entries_inj {s t : RingSize} : s.entries = t.entries ↔ s = t := by
  refine ⟨fun h => ?_, fun h => h ▸ rfl⟩
  have h' := congrArg UInt32.toNat h
  rw [toNat_entries, toNat_entries, Nat.one_shiftLeft, Nat.one_shiftLeft] at h'
  have he := Nat.pow_right_inj (a := 2) (by decide) |>.mp h'
  cases s; cases t
  exact congrArg RingSize.mk (Fin.ext he)

/-! ### Slots of neighbouring counters -/

theorem entries_dvd (s : RingSize) : s.entries.toNat ∣ UInt32.size := by
  rw [toNat_entries, Nat.one_shiftLeft]
  show _ ∣ 2 ^ 32
  exact Nat.pow_dvd_pow 2 (Nat.le_of_lt s.exponent.isLt)

/-- Masking commutes with counting on, also where the counter wraps. -/
theorem toNat_slot_add (s : RingSize) (c : UInt32) (n : Nat) :
    (s.slot (c + UInt32.ofNat n)).toNat = ((s.slot c).toNat + n) % s.entries.toNat := by
  rw [toNat_slot, toNat_slot, UInt32.toNat_add, UInt32.toNat_ofNat', Nat.add_mod_mod,
    Nat.mod_mod_of_dvd _ s.entries_dvd, Nat.mod_add_mod]

theorem slot_add_of_lt (s : RingSize) (c : UInt32) {n : Nat}
    (h : (s.slot c).toNat + n < s.entries.toNat) :
    s.slot (c + UInt32.ofNat n) = UInt32.ofNat ((s.slot c).toNat + n) := by
  rw [← UInt32.ofNat_toNat (x := s.slot (c + UInt32.ofNat n)), toNat_slot_add, Nat.mod_eq_of_lt h]

theorem slot_add_of_ge (s : RingSize) (c : UInt32) {n : Nat}
    (h : s.entries.toNat ≤ (s.slot c).toNat + n) (hn : n < s.entries.toNat) :
    s.slot (c + UInt32.ofNat n) = UInt32.ofNat ((s.slot c).toNat + n - s.entries.toNat) := by
  have hslot := s.slot_lt c
  rw [← UInt32.ofNat_toNat (x := s.slot (c + UInt32.ofNat n)), toNat_slot_add,
    Nat.mod_eq_sub_mod h, Nat.mod_eq_of_lt (by omega)]

/-- Two counters less than a ring apart fall on different slots. -/
theorem slot_ne (s : RingSize) {a b : UInt32} (hne : a ≠ b)
    (hlt : (b - a).toNat < s.entries.toNat) : s.slot a ≠ s.slot b := by
  intro h
  have hslot := s.slot_lt a
  have hadd := s.toNat_slot_add a (b - a).toNat
  rw [add_ofNat_toNat_sub, ← h] at hadd
  have hpos := toNat_sub_pos hne
  rcases Nat.lt_or_ge ((s.slot a).toNat + (b - a).toNat) s.entries.toNat with hin | hout
  · rw [Nat.mod_eq_of_lt hin] at hadd
    omega
  · rw [Nat.mod_eq_sub_mod hout, Nat.mod_eq_of_lt (by omega)] at hadd
    omega

/-! ### The gate -/

theorem ofWords_entries_mask (s : RingSize) : ofWords s.entries s.mask = .ok s := by
  have hs : s ∈ (List.finRange 32).map RingSize.mk := List.mem_map.mpr ⟨_, List.mem_finRange _, rfl⟩
  unfold ofWords
  split
  · rename_i t ht
    have he := List.find?_some ht
    have : t = s := entries_inj.mp (by simpa using he)
    simp [this]
  · rename_i hn
    exact absurd (List.find?_eq_none.mp hn s hs) (by simp)

theorem eq_of_ofWords {e m : UInt32} {s : RingSize} (h : ofWords e m = .ok s) :
    e = s.entries ∧ m = s.mask := by
  unfold ofWords at h
  split at h
  · rename_i t ht
    have he := List.find?_some ht
    split at h
    · cases h
      exact ⟨by simpa using (beq_iff_eq.mp he).symm, by assumption⟩
    · cases h
  · cases h

theorem ofWords_eq_ok_iff {e m : UInt32} {s : RingSize} :
    ofWords e m = .ok s ↔ e = s.entries ∧ m = s.mask :=
  ⟨eq_of_ofWords, fun ⟨he, hm⟩ => he ▸ hm ▸ ofWords_entries_mask s⟩

theorem ofWords_error {e m : UInt32} {err : InitError} (h : ofWords e m = .error err) :
    err = .notPowerOfTwo e := by
  unfold ofWords at h
  split at h
  · split at h <;> cases h; rfl
  · cases h; rfl

end RingSize

end Uring
