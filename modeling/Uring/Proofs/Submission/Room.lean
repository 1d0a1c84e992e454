import Uring.Proofs.Submission.Queue

/-!
# Uring.Proofs.Submission.Room — every slot is pending, published or free

`Queue.InRange q m`: the kernel's head, the published tail and the caller's own tail follow one
another, and no more than a ring of entries lies between the first and the last.  Then the parts of
`Queue.usage` add up to the size of the ring, and the subtractions that compute them never pass
below zero.  Committing an entry, publishing and the kernel's taking each move an amount from one
part to the next.
-/

namespace Uring.Submission

/-! ### Taking -/

theorem Memory.length_published (m : Memory) : m.published.length = (m.tail - m.head).toNat :=
  length_span ..

/-- The kernel takes what it was asked to take, or all that is published. -/
theorem Memory.length_take (m : Memory) (n : Nat) :
    (m.take n).1.length = min n m.published.length := by
  induction n generalizing m with
  | zero => simp [take]
  | succ n ih =>
    by_cases hempty : m.head = m.tail
    · rw [take_of_empty hempty, length_published, hempty]
      simp
    · have hrest := ih { m with head := m.head + 1 }
      have hpos := toNat_sub_pos hempty
      have hdist := toNat_sub_succ hempty
      rw [take_succ hempty, List.length_cons, hrest, length_published, length_published]
      dsimp only
      omega

/-- The kernel takes entries off what is published. -/
theorem Memory.length_take_add (m : Memory) (n : Nat) :
    (m.take n).1.length + (m.take n).2.published.length = m.published.length := by
  obtain ⟨head, hm, -, -, haccount⟩ := m.take_spec n (Nat.le_refl (m.tail - m.head).toNat)
  have hlen := congrArg List.length haccount
  rw [List.length_append, List.length_map] at hlen
  rw [hm]
  exact hlen

/-- How many slots of a queue are in which use. -/
structure Usage where
  /-- Committed, and not published. -/
  pending : Nat
  /-- Published, and not taken by the kernel. -/
  published : Nat
  free : Nat
  deriving DecidableEq, Repr

def Usage.total (u : Usage) : Nat := u.pending + u.published + u.free

namespace Queue

variable {q : Queue} {m : Memory}

def usage (q : Queue) (m : Memory) : Usage :=
  ⟨q.pending.toNat, m.published.length, (q.spaceLeft m).toNat⟩

structure InRange (q : Queue) (m : Memory) : Prop where
  tail_eq : m.tail = q.head
  behind : (m.tail - m.head).toNat ≤ (q.outstanding m).toNat
  fits : (q.outstanding m).toNat ≤ q.size.entries.toNat

theorem Delivers.inRange {taken es : List Entry} (h : q.Delivers m q.tail taken es) :
    q.InRange m :=
  ⟨h.tail_eq, h.behind, h.fits⟩

/-- The entries taken and those outstanding are all that there are. -/
theorem Delivers.length_eq {taken es : List Entry} (h : q.Delivers m q.tail taken es) :
    taken.length + (q.outstanding m).toNat = es.length := by
  have hlen := congrArg List.length h.account
  rw [List.length_append, length_span] at hlen
  exact hlen

theorem spaceLeft_congr {m' : Memory} (hhead : m'.head = m.head) :
    q.spaceLeft m' = q.spaceLeft m := by
  unfold spaceLeft outstanding
  rw [hhead]

/-- Entries and the kernel's words have no part in it. -/
theorem usage_congr {m' : Memory} (hhead : m'.head = m.head) (htail : m'.tail = m.tail) :
    q.usage m' = q.usage m := by
  rw [usage, usage, spaceLeft_congr hhead, m.length_published, m'.length_published, hhead, htail]

theorem full_eq_true_iff (q : Queue) (m : Memory) : q.full m = true ↔ q.spaceLeft m = 0 :=
  decide_eq_true_iff

theorem outstanding_flush (q : Queue) (m : Memory) :
    (q.flush m).2.1.outstanding (q.flush m).2.2 = q.outstanding m := by
  unfold flush
  dsimp only
  split <;> rfl

/-- What a flush answers is what was outstanding before. -/
theorem flush_count (q : Queue) (m : Memory) : (q.flush m).1 = q.outstanding m :=
  q.outstanding_flush m

namespace InRange

theorem of_counters {m' : Memory} (h : q.InRange m) (hhead : m'.head = m.head)
    (htail : m'.tail = m.tail) : q.InRange m' := by
  have hout : q.outstanding m' = q.outstanding m := congrArg (q.tail - ·) hhead
  refine ⟨htail.trans h.tail_eq, ?_, ?_⟩
  · rw [hout, hhead, htail]
    exact h.behind
  · rw [hout]
    exact h.fits

/-- The space left is a difference that does not wrap. -/
theorem toNat_spaceLeft (h : q.InRange m) :
    (q.spaceLeft m).toNat + (q.outstanding m).toNat = q.size.entries.toNat := by
  have hfits := h.fits
  have hle : q.outstanding m ≤ q.size.entries := UInt32.le_iff_toNat_le.mpr hfits
  have hsub : (q.spaceLeft m).toNat = q.size.entries.toNat - (q.outstanding m).toNat :=
    UInt32.toNat_sub_of_le _ _ hle
  omega

theorem pending_add_published (h : q.InRange m) :
    q.pending.toNat + m.published.length = (q.outstanding m).toNat := by
  have hbehind := h.behind
  have hdist := toNat_sub_add (a := m.head) (b := q.tail) hbehind
  rw [add_ofNat_toNat_sub] at hdist
  have hpending : q.pending.toNat = (q.outstanding m).toNat - (m.tail - m.head).toNat := by
    rw [pending, ← h.tail_eq]
    exact hdist
  have hlen := m.length_published
  omega

/-- Every slot is pending, published or free. -/
theorem total_usage (h : q.InRange m) : (q.usage m).total = q.size.entries.toNat := by
  have hspace := h.toNat_spaceLeft
  have hpending := h.pending_add_published
  show q.pending.toNat + m.published.length + (q.spaceLeft m).toNat = _
  omega

theorem spaceLeft_eq_zero_iff (h : q.InRange m) :
    q.spaceLeft m = 0 ↔ q.size.entries.toNat ≤ (q.outstanding m).toNat := by
  have hspace := h.toNat_spaceLeft
  rw [← UInt32.toNat_inj, UInt32.toNat_zero]
  omega

/-- The test for a vacant slot and the space left agree. -/
theorem vacant?_eq_none_iff (h : q.InRange m) : q.vacant? m = none ↔ q.spaceLeft m = 0 := by
  rw [h.spaceLeft_eq_zero_iff]
  unfold vacant?
  rw [ite_eq_left_iff, ge_iff_le, UInt32.le_iff_toNat_le]
  simp

theorem vacant?_of_room (h : q.InRange m) (hroom : 0 < (q.spaceLeft m).toNat) :
    q.vacant? m = some (q.size.slot q.tail) := by
  have hspace := h.toNat_spaceLeft
  refine vacant?_eq_some_iff.mpr ⟨?_, rfl⟩
  show (q.outstanding m).toNat < q.size.entries.toNat
  omega

/-! ### What moves from one use to the next -/

theorem outstanding_commit (h : q.InRange m) (hroom : 0 < (q.spaceLeft m).toNat) :
    (q.commit.outstanding m).toNat = (q.outstanding m).toNat + 1 := by
  have hlt := q.size.entries.toNat_lt_size
  have hspace := h.toNat_spaceLeft
  have hfits : (q.tail - m.head).toNat + 1 < UInt32.size := by
    show (q.outstanding m).toNat + 1 < _
    omega
  exact toNat_succ_sub hfits

theorem commit (h : q.InRange m) (hroom : 0 < (q.spaceLeft m).toNat) : q.commit.InRange m := by
  have hspace := h.toNat_spaceLeft
  have hbehind := h.behind
  have hout := h.outstanding_commit hroom
  refine ⟨h.tail_eq, by omega, ?_⟩
  show _ ≤ q.size.entries.toNat
  omega

/-- A free slot becomes pending. -/
theorem usage_commit (h : q.InRange m) (hroom : 0 < (q.spaceLeft m).toNat) :
    (q.commit.usage m).pending = (q.usage m).pending + 1 ∧
      (q.commit.usage m).published = (q.usage m).published ∧
      (q.commit.usage m).free + 1 = (q.usage m).free := by
  have hcommit := h.commit hroom
  have hspace := h.toNat_spaceLeft
  have hspace' : (q.commit.spaceLeft m).toNat + (q.commit.outstanding m).toNat =
      q.size.entries.toNat := hcommit.toNat_spaceLeft
  have hpending := h.pending_add_published
  have hpending' := hcommit.pending_add_published
  have hout := h.outstanding_commit hroom
  unfold usage
  dsimp only
  exact ⟨by omega, rfl, by omega⟩

/-- All that is pending becomes published. -/
theorem usage_flush (h : q.InRange m) :
    (q.flush m).2.1.usage (q.flush m).2.2 =
      ⟨0, (q.usage m).published + (q.usage m).pending, (q.usage m).free⟩ := by
  have hsum := h.pending_add_published
  have hnone : (q.flush m).2.1.pending = 0 := UInt32.sub_self _
  have hfree : (q.flush m).2.1.spaceLeft (q.flush m).2.2 = q.spaceLeft m := by
    show q.size.entries - (q.flush m).2.1.outstanding (q.flush m).2.2 = _
    rw [outstanding_flush]
    rfl
  have hpublished : (q.flush m).2.2.published.length = (q.outstanding m).toNat := by
    unfold Queue.flush
    by_cases hsame : q.head = q.tail
    · simp only [if_pos hsame]
      rw [m.length_published, h.tail_eq, hsame]
      rfl
    · simp only [if_neg hsame]
      exact Memory.length_published _
  rw [usage, usage, Usage.mk.injEq, hnone, hfree, hpublished]
  dsimp only
  exact ⟨rfl, by omega, rfl⟩

theorem take (h : q.InRange m) (n : Nat) : q.InRange (m.take n).2 := by
  obtain ⟨head, hm, hbehind, hle, -⟩ := Memory.take_spec n m h.behind
  rw [hm]
  exact ⟨h.tail_eq, hbehind, Nat.le_trans hle h.fits⟩

/-- What the kernel takes becomes free. -/
theorem usage_take (h : q.InRange m) (n : Nat) :
    (q.usage (m.take n).2).pending = (q.usage m).pending ∧
      (q.usage (m.take n).2).published + (m.take n).1.length = (q.usage m).published ∧
      (q.usage (m.take n).2).free = (q.usage m).free + (m.take n).1.length := by
  have hleft := m.length_take_add n
  have htotal := h.total_usage
  have htotal' := (h.take n).total_usage
  unfold usage Usage.total at htotal htotal'
  unfold usage
  dsimp only at htotal htotal' ⊢
  exact ⟨rfl, by omega, by omega⟩

end InRange

end Queue

end Uring.Submission
