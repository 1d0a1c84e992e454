import Uring.Completion.Queue

/-!
# Uring.Proofs.Completion.Queue — a completion queue as a list

What publishing, skipping and taking a batch do to the list of completions at hand.  A batch is
copied in two runs of slots at most, and comes out as the front of the list at every position of the
head.
-/

namespace Uring.Completion

/-- Publishing leaves the head to the caller. -/
theorem Memory.pushWhileRoom_head (m : Memory) (cs : List Entry) :
    (m.pushWhileRoom cs).1.head = m.head := by
  induction cs generalizing m with
  | nil => rfl
  | cons c cs ih =>
    unfold pushWhileRoom
    by_cases hroom : m.hasRoom
    · rw [if_pos hroom]
      exact ih (m.push c)
    · rw [if_neg hroom]

namespace Queue

/-- The handle and the memory agree on the size, and no more is published than fits. -/
structure Bounded (q : Queue) (m : Memory) : Prop where
  entries_eq : m.entries = q.size.entries
  ready_le : m.ready.toNat ≤ q.size.entries.toNat

variable {q : Queue} {m : Memory}

/-! ### Publishing -/

theorem Bounded.hasRoom_iff (h : q.Bounded m) :
    m.hasRoom = true ↔ m.ready.toNat < q.size.entries.toNat := by
  unfold Memory.hasRoom
  rw [decide_eq_true_iff, UInt32.lt_iff_toNat_lt, h.entries_eq]

theorem Bounded.push (h : q.Bounded m) (hroom : m.hasRoom = true) (c : Entry) :
    q.Bounded (m.push c) := by
  refine ⟨h.entries_eq, ?_⟩
  have hlt := h.hasRoom_iff.mp hroom
  have hentries := q.size.entries.toNat_lt_size
  have hsucc : (m.push c).ready.toNat = m.ready.toNat + 1 :=
    toNat_succ_sub (a := m.head) (b := m.tail) (by simp only [Memory.ready] at hlt; omega)
  omega

theorem Bounded.toList_push (h : q.Bounded m) (hroom : m.hasRoom = true) (c : Entry) :
    q.toList (m.push c) = q.toList m ++ [c] := by
  have hlt := h.hasRoom_iff.mp hroom
  have hentries := q.size.entries.toNat_lt_size
  have hslot : m.tail &&& (m.entries - 1) = q.size.slot m.tail := by
    rw [h.entries_eq]
    rfl
  have hdist : (m.tail - m.head).toNat + 1 < UInt32.size := by
    simp only [Memory.ready] at hlt
    omega
  show span (q.entryAt (m.push c)) m.head (m.tail + 1) = _
  rw [span_concat _ hdist]
  congr 1
  · apply span_congr
    intro i hi
    -- a completion at hand lies less than a ring before the tail
    have hi' := toNat_sub_add (Nat.le_of_lt hi)
    have hne : m.head + UInt32.ofNat i ≠ m.tail := by
      intro e
      rw [e, UInt32.sub_self, UInt32.toNat_zero] at hi'
      omega
    simp only [Memory.ready] at hlt
    simp only [entryAt, Memory.push, hslot]
    exact Cells.get_set_of_ne _ _ (q.size.slot_ne hne (by omega)).symm
  · simp [entryAt, Memory.push, hslot]

/-- What is published goes behind the list, what is left over keeps its order, and only a full ring
leaves anything over. -/
theorem Bounded.pushWhileRoom (h : q.Bounded m) (cs : List Entry) :
    q.Bounded (m.pushWhileRoom cs).1 ∧
      q.toList (m.pushWhileRoom cs).1 ++ (m.pushWhileRoom cs).2 = q.toList m ++ cs ∧
      ((m.pushWhileRoom cs).2 ≠ [] →
        (m.pushWhileRoom cs).1.ready.toNat = q.size.entries.toNat) := by
  induction cs generalizing m with
  | nil => exact ⟨h, rfl, fun hne => absurd rfl hne⟩
  | cons c cs ih =>
    unfold Memory.pushWhileRoom
    by_cases hroom : m.hasRoom
    · rw [if_pos hroom]
      obtain ⟨hbounded, hlist, hfull⟩ := ih (h.push hroom c)
      refine ⟨hbounded, ?_, hfull⟩
      rw [hlist, h.toList_push hroom, List.append_assoc, List.singleton_append]
    · rw [if_neg hroom]
      refine ⟨h, rfl, ?_⟩
      intro _
      have hfull := mt h.hasRoom_iff.mpr hroom
      have hle := h.ready_le
      dsimp only
      omega

/-! ### Skipping -/

/-- The head moves on; what it passes is free for the kernel. -/
def skip (m : Memory) (n : Nat) : Memory := { m with head := m.head + UInt32.ofNat n }

theorem toNat_ready_skip {n : Nat} (hn : n ≤ m.ready.toNat) :
    (skip m n).ready.toNat = m.ready.toNat - n :=
  toNat_sub_add hn

theorem Bounded.skip (h : q.Bounded m) {n : Nat} (hn : n ≤ m.ready.toNat) :
    q.Bounded (skip m n) := by
  refine ⟨h.entries_eq, ?_⟩
  have hle := h.ready_le
  rw [toNat_ready_skip hn]
  omega

theorem take_append_toList_skip {n : Nat} (hn : n ≤ m.ready.toNat) :
    (q.toList m).take n ++ q.toList (skip m n) = q.toList m := by
  unfold toList
  rw [take_span _ hn]
  exact span_append _ hn

theorem advance_ok_iff {count : UInt32} {m' : Memory} :
    advance m count = .ok m' ↔ count ≤ m.ready ∧ m' = skip m count.toNat := by
  unfold advance skip
  rw [UInt32.ofNat_toNat]
  by_cases h : count > m.ready
  · rw [if_pos h]
    simp [UInt32.not_le.mpr h]
  · rw [if_neg h]
    simp [UInt32.not_lt.mp h, eq_comm]

/-! ### Taking a batch -/

theorem Run.copy_succ (r : Run) (m : Memory) (out : Array Entry) (n : Nat) :
    { r with length := n + 1 }.copy m out =
      ({ r with length := n }.copy m out).setIfInBounds (r.target + n)
        (m.cqes.get (UInt32.ofNat (r.first + n))) := by
  simp [Run.copy, List.range_succ, List.foldl_append]

theorem Run.size_copy (r : Run) (m : Memory) (out : Array Entry) :
    (r.copy m out).size = out.size := by
  obtain ⟨first, target, length⟩ := r
  induction length with
  | zero => rfl
  | succ n ih => rw [Run.copy_succ ⟨first, target, n⟩, Array.size_setIfInBounds, ih]

/-- A run writes its own places of the buffer and no others. -/
theorem Run.getElem?_copy (r : Run) (m : Memory) (out : Array Entry) (j : Nat) :
    (r.copy m out)[j]? =
      if r.target ≤ j ∧ j < r.target + r.length ∧ j < out.size then
        some (m.cqes.get (UInt32.ofNat (r.first + (j - r.target))))
      else out[j]? := by
  obtain ⟨first, target, length⟩ := r
  induction length with
  | zero => exact (if_neg (by dsimp only; omega)).symm
  | succ n ih =>
    rw [Run.copy_succ ⟨first, target, n⟩, Array.getElem?_setIfInBounds, Run.size_copy, ih]
    dsimp only
    by_cases hj : target + n = j
    · subst hj
      rw [if_pos rfl, Nat.add_sub_cancel_left]
      by_cases hin : target + n < out.size
      · rw [if_pos hin, if_pos (by omega)]
      · rw [if_neg hin, if_neg (by omega), Array.getElem?_eq_none (by omega)]
    · rw [if_neg hj]
      by_cases hin : target ≤ j ∧ j < target + n ∧ j < out.size
      · rw [if_pos hin, if_pos (by omega)]
      · rw [if_neg hin, if_neg (by omega)]

/-- The buffer after a batch was taken: the oldest completions in front, the rest as it was. -/
theorem getElem?_copyReady (hb : q.Bounded m) (out : Array Entry) (j : Nat) :
    (q.copyReady m out).2.1[j]? =
      if j < min m.ready.toNat out.size then some (q.entryAt m (m.head + UInt32.ofNat j))
      else out[j]? := by
  have hready := hb.ready_le
  have hslot := q.size.slot_lt m.head
  have hcount : min m.ready.toNat out.size ≤ out.size := Nat.min_le_right ..
  have hcount' : min m.ready.toNat out.size ≤ m.ready.toNat := Nat.min_le_left ..
  unfold copyReady runs
  dsimp only
  generalize min m.ready.toNat out.size = count at hcount hcount' ⊢
  by_cases hzero : count = 0
  · rw [if_pos hzero, if_neg (by omega)]
    rfl
  · rw [if_neg hzero]
    by_cases hwrap : min (q.size.entries.toNat - (q.size.slot m.head).toNat) count < count
    · -- two runs, up to the end of the ring and on from its start
      rw [if_pos hwrap]
      simp only [List.foldl_cons, List.foldl_nil, Run.getElem?_copy, Run.size_copy]
      rw [Nat.min_eq_left (by omega)] at hwrap ⊢
      by_cases hin : j < count
      · rw [if_pos hin]
        by_cases hlate : q.size.entries.toNat - (q.size.slot m.head).toNat ≤ j
        · rw [if_pos (by omega), entryAt, q.size.slot_add_of_ge _ (by omega) (by omega)]
          congr 3
          omega
        · rw [if_neg (by omega), if_pos (by omega), entryAt, q.size.slot_add_of_lt _ (by omega)]
          congr 3
      · rw [if_neg hin, if_neg (by omega), if_neg (by omega)]
    · -- one run
      rw [if_neg hwrap]
      simp only [List.foldl_cons, List.foldl_nil, Run.getElem?_copy]
      rw [Nat.min_eq_right (by omega)]
      by_cases hin : j < count
      · rw [if_pos hin, if_pos (by omega), entryAt, q.size.slot_add_of_lt _ (by omega)]
        congr 3
      · rw [if_neg hin, if_neg (by omega)]

theorem toNat_copyReady_count (q : Queue) (m : Memory) (out : Array Entry) :
    (q.copyReady m out).1.toNat = min m.ready.toNat out.size := by
  have hlt := m.ready.toNat_lt
  have hle : min m.ready.toNat out.size ≤ m.ready.toNat := Nat.min_le_left ..
  show (UInt32.ofNat _).toNat = _
  rw [UInt32.toNat_ofNat', Nat.mod_eq_of_lt (by omega)]

theorem size_copyReady (q : Queue) (m : Memory) (out : Array Entry) :
    (q.copyReady m out).2.1.size = out.size := by
  unfold copyReady
  dsimp only
  generalize q.runs m (min m.ready.toNat out.size) = rs
  induction rs generalizing out with
  | nil => rfl
  | cons r rs ih => rw [List.foldl_cons, ih, Run.size_copy]

/-- A batch is the front of the list. -/
theorem take_toList_copyReady (hb : q.Bounded m) (out : Array Entry) :
    (q.copyReady m out).2.1.toList.take (min m.ready.toNat out.size) =
      (q.toList m).take (min m.ready.toNat out.size) := by
  apply List.ext_getElem?
  intro j
  rw [List.getElem?_take, List.getElem?_take, Array.getElem?_toList, getElem?_copyReady hb]
  by_cases hj : j < min m.ready.toNat out.size
  · rw [if_pos hj, if_pos hj, if_pos hj]
    have hj' : j < (m.tail - m.head).toNat := Nat.lt_of_lt_of_le hj (Nat.min_le_left ..)
    simp [toList, span, hj']
  · rw [if_neg hj, if_neg hj]

end Queue

end Uring.Completion
