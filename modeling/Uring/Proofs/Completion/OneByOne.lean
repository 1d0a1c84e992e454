import Uring.Proofs.Completion.Fifo

/-!
# Uring.Proofs.Completion.OneByOne — a batch is taken as if one by one

The obvious way to empty a completion ring into a buffer looks at the oldest completion, stores it
and moves the head by one, for as long as there is room and anything is ready.  Each round finds its
slot by masking the head anew.  A batch is copied in two runs of slots and moves the head once, and
that comes to the same: the same count, the same buffer and the same memory, wherever the head
stands.
-/

namespace Uring.Completion.Queue

/-- Taking completions one by one, after `stored` of them: each goes to the next place of the
buffer, until there is no room or nothing is ready. -/
def takeEach (q : Queue) (m : Memory) (out : Array Entry) (stored : Nat) :
    Except RingError (Nat × Array Entry × Memory) :=
  if stored < out.size then
    match q.peek? m with
    | none => .ok (stored, out, m)
    | some c =>
      match advance m 1 with
      | .error e => .error e
      | .ok m => q.takeEach m (out.setIfInBounds stored c) (stored + 1)
  else .ok (stored, out, m)
termination_by out.size - stored
decreasing_by
  rw [Array.size_setIfInBounds]
  omega

variable {q : Queue} {m : Memory}

/-! ### One round -/

theorem peek?_eq_none_iff : q.peek? m = none ↔ m.ready.toNat = 0 := by
  rw [← UInt32.toNat_zero, UInt32.toNat_inj]
  simp [peek?]

theorem peek?_eq_some_iff {c : Entry} :
    q.peek? m = some c ↔ 0 < m.ready.toNat ∧ c = q.entryAt m m.head := by
  rw [Nat.pos_iff_ne_zero, ne_eq, ← UInt32.toNat_zero, UInt32.toNat_inj]
  simp [peek?, eq_comm]

/-- What was looked at can be taken off. -/
theorem advance_one (h : 0 < m.ready.toNat) : advance m 1 = .ok (skip m 1) :=
  advance_ok_iff.mpr ⟨UInt32.le_iff_toNat_le.mpr h, rfl⟩

theorem skip_zero (m : Memory) : skip m 0 = m := by
  simp [skip]

theorem skip_skip (m : Memory) (i j : Nat) : skip (skip m i) j = skip m (i + j) := by
  simp [skip, UInt32.add_assoc]

/-- Skipping moves the head and no slot. -/
theorem entryAt_skip (q : Queue) (m : Memory) (n i : Nat) :
    q.entryAt (skip m n) ((skip m n).head + UInt32.ofNat i) =
      q.entryAt m (m.head + UInt32.ofNat (n + i)) := by
  simp [entryAt, skip, UInt32.add_assoc]

/-! ### All rounds -/

/-- The places from `first` on hold the `count` oldest completions, the others what they held. -/
def StoredAt (q : Queue) (m : Memory) (out : Array Entry) (first count : Nat)
    (out' : Array Entry) : Prop :=
  ∀ j : Nat, out'[j]? =
    if first ≤ j ∧ j < first + count then some (q.entryAt m (m.head + UInt32.ofNat (j - first)))
    else out[j]?

theorem storedAt_none (q : Queue) (m : Memory) (out : Array Entry) (first : Nat) :
    q.StoredAt m out first 0 out := by
  intro j
  rw [if_neg (by omega)]

/-- The oldest completion goes first, the rest behind it. -/
theorem StoredAt.cons {out out' : Array Entry} {first count : Nat} (hroom : first < out.size)
    (h : q.StoredAt (skip m 1) (out.setIfInBounds first (q.entryAt m m.head)) (first + 1) count
      out') : q.StoredAt m out first (count + 1) out' := by
  intro j
  rw [h j, Array.getElem?_setIfInBounds, entryAt_skip]
  by_cases hj : first = j
  · subst hj
    rw [if_neg (by omega), if_pos rfl, if_pos hroom, if_pos (by omega)]
    simp
  · rw [if_neg hj]
    by_cases hin : first + 1 ≤ j ∧ j < first + 1 + count
    · rw [if_pos hin, if_pos (by omega)]
      congr 4
      omega
    · rw [if_neg hin, if_neg (by omega)]

/-- The loop ends well.  It takes what is ready, as much as there is room for. -/
theorem takeEach_ok (q : Queue) (m : Memory) (out : Array Entry) (stored : Nat) :
    let count := min m.ready.toNat (out.size - stored)
    ∃ out', q.takeEach m out stored = .ok (stored + count, out', skip m count) ∧
      q.StoredAt m out stored count out' := by
  fun_induction takeEach q m out stored with
  | case1 m out stored hroom hpeek =>
    have hready := peek?_eq_none_iff.mp hpeek
    refine ⟨out, ?_, ?_⟩
    · rw [hready, Nat.zero_min, skip_zero, Nat.add_zero]
    · rw [hready, Nat.zero_min]
      exact q.storedAt_none m out stored
  | case2 m out stored hroom c hpeek e hadvance =>
    obtain ⟨hready, -⟩ := peek?_eq_some_iff.mp hpeek
    rw [advance_one hready] at hadvance
    cases hadvance
  | case3 m out stored hroom c hpeek m' hadvance ih =>
    obtain ⟨hready, rfl⟩ := peek?_eq_some_iff.mp hpeek
    rw [advance_one hready] at hadvance
    cases hadvance
    obtain ⟨out', htake, hstored⟩ := ih
    rw [toNat_ready_skip hready, Array.size_setIfInBounds] at htake hstored
    -- one completion and one place fewer for the rounds to come
    have hcount : min m.ready.toNat (out.size - stored) =
        min (m.ready.toNat - 1) (out.size - (stored + 1)) + 1 := by
      omega
    rw [hcount]
    generalize min (m.ready.toNat - 1) (out.size - (stored + 1)) = count at htake hstored ⊢
    refine ⟨out', ?_, hstored.cons hroom⟩
    rw [htake, skip_skip, Nat.add_comm 1 count, Nat.add_assoc, Nat.add_comm 1 count]
  | case4 m out stored hroom =>
    have hfull : out.size - stored = 0 := by omega
    refine ⟨out, ?_, ?_⟩
    · rw [hfull, Nat.min_zero, skip_zero, Nat.add_zero]
    · rw [hfull, Nat.min_zero]
      exact q.storedAt_none m out stored

/-- A batch out of a ring that is not overfull: taking completions one by one, from the start of a
buffer, never fails and gives what copying them gives, the count, the whole buffer and the whole
memory. -/
theorem takeEach_eq_copyReady (h : attach m = .ok q) (hle : m.ready ≤ m.entries)
    (out : Array Entry) :
    q.takeEach m out 0 =
      .ok ((q.copyReady m out).1.toNat, (q.copyReady m out).2.1, (q.copyReady m out).2.2) := by
  have hentries := (attach_eq_ok_iff.mp h).1
  have hbounded : q.Bounded m := by
    refine ⟨hentries, ?_⟩
    rw [← hentries]
    exact UInt32.le_iff_toNat_le.mp hle
  obtain ⟨out', htake, hstored⟩ := q.takeEach_ok m out 0
  rw [Nat.sub_zero, Nat.zero_add, ← q.toNat_copyReady_count m out] at htake
  have hout : out' = (q.copyReady m out).2.1 := by
    apply Array.ext_getElem?
    intro j
    rw [hstored j, getElem?_copyReady hbounded]
    simp
  have hmemory : skip m (q.copyReady m out).1.toNat = (q.copyReady m out).2.2 := by
    rw [skip, UInt32.ofNat_toNat]
    rfl
  rw [htake, hout, hmemory]

/-- A full ring whose head stands just before the wrap of its counter, at the last slot.  Of its two
completions, the first comes from there and the second from the first slot. -/
theorem takeEach_eq_copyReady_wrap :
    attach ⟨2, 1, 0xffffffff, 1, 0, .ofList [⟨2, 0, 0⟩, ⟨1, 0, 0⟩]⟩ = .ok ⟨⟨1⟩⟩ ∧
      takeEach ⟨⟨1⟩⟩ ⟨2, 1, 0xffffffff, 1, 0, .ofList [⟨2, 0, 0⟩, ⟨1, 0, 0⟩]⟩
          (.replicate 3 default) 0 =
        .ok (2, #[⟨1, 0, 0⟩, ⟨2, 0, 0⟩, default],
          ⟨2, 1, 1, 1, 0, .ofList [⟨2, 0, 0⟩, ⟨1, 0, 0⟩]⟩) := by
  refine ⟨rfl, ?_⟩
  rw [@takeEach_eq_copyReady ⟨⟨1⟩⟩ ⟨2, 1, 0xffffffff, 1, 0, .ofList [⟨2, 0, 0⟩, ⟨1, 0, 0⟩]⟩ rfl
    (by decide)]
  rfl

end Uring.Completion.Queue
