import Uring.Submission.Queue

/-!
# Uring.Proofs.Submission.Queue — what a submission queue hands over, and in which order

`Delivers q m base taken es`: the entries taken so far, followed by those that the kernel finds from
its head up to counter `base`, are the list `es`.  The kernel's taking, the caller's writing at
`base` and publishing keep it; committing the entry at `base` appends it.  Everything holds at every
value of the counters.

The flag word has a bit for completions held back, which is among those that call for an enter.
-/

namespace Uring.Submission

/-! ### The index array -/

namespace Queue

theorem get_identityArray {n : Nat} (hn : n ≤ UInt32.size) (array : Cells UInt32) (i : UInt32) :
    (identityArray n array).get i = if i.toNat < n then i else array.get i := by
  induction n with
  | zero => simp [identityArray]
  | succ n ih =>
    have hs : identityArray (n + 1) array =
        (identityArray n array).set (UInt32.ofNat n) (UInt32.ofNat n) := by
      simp [identityArray, List.range_succ, List.foldl_append]
    have hword : (UInt32.ofNat n).toNat = n := by
      rw [UInt32.toNat_ofNat', Nat.mod_eq_of_lt (Nat.lt_of_succ_le hn)]
    rw [hs, Cells.get_set, ih (by omega)]
    by_cases h : UInt32.ofNat n = i
    · subst h
      rw [if_pos rfl, if_pos (by omega)]
    · have hne : i.toNat ≠ n := fun e => h (UInt32.toNat_inj.mp (hword.trans e.symm))
      rw [if_neg h]
      by_cases hlt : i.toNat < n
      · rw [if_pos hlt, if_pos (by omega)]
      · rw [if_neg hlt, if_neg (by omega)]

/-- The handle was made for this memory: the sizes agree, and the array is the identity. -/
structure Attached (q : Queue) (m : Memory) : Prop where
  mask_eq : m.mask = q.size.mask
  identity : ∀ i, i.toNat < q.size.entries.toNat → m.array.get i = i

theorem attach_ok {m : Memory} {q : Queue} (h : (attach m).1 = .ok q) :
    q.Attached (attach m).2 ∧ q.head = m.tail ∧ q.tail = m.tail ∧ q.size.entries = m.entries ∧
      (attach m).2 = { m with array := (attach m).2.array } := by
  unfold attach at h ⊢
  cases hw : RingSize.ofWords m.entries m.mask with
  | error e => rw [hw] at h; cases h
  | ok size =>
    rw [hw] at h
    simp only [Except.ok.injEq] at h
    subst h
    obtain ⟨hentries, hmask⟩ := RingSize.eq_of_ofWords hw
    refine ⟨⟨hmask, ?_⟩, rfl, rfl, hentries.symm, rfl⟩
    intro i hi
    have hle := Nat.le_of_lt size.entries.toNat_lt_size
    exact (get_identityArray hle m.array i).trans (if_pos hi)

theorem Attached.entryAt {q : Queue} {m : Memory} (h : q.Attached m) (c : UInt32) :
    m.entryAt c = m.sqes.get (q.size.slot c) := by
  unfold Memory.entryAt
  rw [h.mask_eq]
  exact congrArg m.sqes.get (h.identity _ (q.size.slot_lt c))

end Queue

/-! ### The flag word -/

namespace Memory

theorem or_and_self (word mask : UInt32) : (word ||| mask) &&& mask = mask := by
  rw [← UInt32.toBitVec_inj]
  ext i hi
  simpa using fun h => Or.inr h

/-- A word has a bit of two masks together exactly if it has a bit of one of them. -/
theorem and_or_ne_zero (word a b : UInt32) :
    word &&& (a ||| b) ≠ 0 ↔ word &&& a ≠ 0 ∨ word &&& b ≠ 0 := by
  have hdistrib : word &&& (a ||| b) = (word &&& a) ||| (word &&& b) := by
    rw [← UInt32.toBitVec_inj]
    ext i hi
    simp [Bool.and_or_distrib_left]
  rw [hdistrib, Ne, UInt32.or_eq_zero_iff, Decidable.not_and_iff_not_or_not]

/-- An enter is wanted for either of two reasons. -/
theorem cqNeedsFlush_iff {m : Memory} :
    m.cqNeedsFlush = true ↔
      m.flags &&& Abi.sqCqOverflow ≠ 0 ∨ m.flags &&& Abi.sqTaskRun ≠ 0 := by
  unfold cqNeedsFlush
  rw [bne_iff_ne, and_or_ne_zero]

/-- Completions held back call for an enter. -/
theorem cqNeedsFlush_of_cqOverflowed {m : Memory} (h : m.cqOverflowed = true) :
    m.cqNeedsFlush = true :=
  cqNeedsFlush_iff.mpr (.inl (bne_iff_ne.mp h))

/-! ### Taking -/

theorem take_of_empty {m : Memory} (h : m.head = m.tail) (n : Nat) : m.take n = ([], m) := by
  cases n with
  | zero => rfl
  | succ n => rw [take, if_pos h]

theorem take_succ {m : Memory} (h : m.head ≠ m.tail) (n : Nat) :
    m.take (n + 1) =
      ((m.array.get (m.head &&& m.mask), m.entryAt m.head) ::
        (take n { m with head := m.head + 1 }).1, (take n { m with head := m.head + 1 }).2) := by
  rw [take, if_neg h]
  rfl

/-- Taking moves the head and nothing else. -/
theorem take_memory (m : Memory) (n : Nat) : ∃ head, (m.take n).2 = { m with head := head } := by
  induction n generalizing m with
  | zero => exact ⟨m.head, rfl⟩
  | succ n ih =>
    by_cases hempty : m.head = m.tail
    · rw [take_of_empty hempty]
      exact ⟨m.head, rfl⟩
    · rw [take_succ hempty]
      exact ih { m with head := m.head + 1 }

/-- The kernel takes entries off the front of everything up to a counter `base`, provided that the
published tail is not beyond `base`. -/
theorem take_spec {base : UInt32} (n : Nat) (m : Memory)
    (h : (m.tail - m.head).toNat ≤ (base - m.head).toNat) :
    ∃ head, (m.take n).2 = { m with head := head } ∧
      (m.tail - head).toNat ≤ (base - head).toNat ∧
      (base - head).toNat ≤ (base - m.head).toNat ∧
      (m.take n).1.map Prod.snd ++ span m.entryAt head base = span m.entryAt m.head base := by
  induction n generalizing m with
  | zero => exact ⟨m.head, rfl, h, Nat.le_refl _, rfl⟩
  | succ n ih =>
    by_cases hempty : m.head = m.tail
    · rw [take_of_empty hempty]
      exact ⟨m.head, rfl, h, Nat.le_refl _, rfl⟩
    · have hpos := toNat_sub_pos hempty
      have hne : m.head ≠ base := by
        intro e
        rw [← e, UInt32.sub_self, UInt32.toNat_zero] at h
        omega
      have ht := toNat_sub_succ hempty
      have hb := toNat_sub_succ hne
      obtain ⟨head, h1, h2, h3, h4⟩ := ih { m with head := m.head + 1 } (by dsimp only; omega)
      dsimp only at h1 h2 h3 h4
      rw [take_succ hempty, span_cons _ hne]
      refine ⟨head, h1, h2, by omega, ?_⟩
      exact congrArg (m.entryAt m.head :: ·) h4

end Memory

namespace Queue

/-- A slot is given out while less than a ring is outstanding. -/
theorem vacant?_eq_some_iff {q : Queue} {m : Memory} {index : UInt32} :
    q.vacant? m = some index ↔
      (q.tail - m.head).toNat < q.size.entries.toNat ∧ q.size.slot q.tail = index := by
  unfold vacant? outstanding
  by_cases h : q.tail - m.head ≥ q.size.entries
  · have hle := UInt32.le_iff_toNat_le.mp h
    rw [if_pos h]
    constructor
    · rintro ⟨⟩
    · rintro ⟨hlt, -⟩
      omega
  · have hlt := UInt32.lt_iff_toNat_lt.mp (UInt32.not_le.mp h)
    rw [if_neg h, Option.some.injEq]
    exact ⟨fun e => ⟨hlt, e⟩, fun e => e.2⟩

/-! ### The order of entries -/

structure Delivers (q : Queue) (m : Memory) (base : UInt32) (taken es : List Entry) : Prop where
  attached : q.Attached m
  tail_eq : m.tail = q.head
  behind : (m.tail - m.head).toNat ≤ (base - m.head).toNat
  fits : (base - m.head).toNat ≤ q.size.entries.toNat
  account : taken ++ span m.entryAt m.head base = es

namespace Delivers

variable {q : Queue} {m : Memory} {base : UInt32} {taken es : List Entry}

theorem take (h : q.Delivers m base taken es) (n : Nat) :
    q.Delivers (m.take n).2 base (taken ++ (m.take n).1.map Prod.snd) es := by
  obtain ⟨head, h1, h2, h3, h4⟩ := Memory.take_spec n m h.behind
  rw [h1]
  refine ⟨⟨h.attached.mask_eq, h.attached.identity⟩, h.tail_eq, h2, Nat.le_trans h3 h.fits, ?_⟩
  rw [List.append_assoc]
  exact (congrArg (taken ++ ·) h4).trans h.account

/-- Taking only makes room. -/
theorem take_room (h : q.Delivers m base taken es) (n : Nat) :
    (base - (m.take n).2.head).toNat ≤ (base - m.head).toNat := by
  obtain ⟨head, h1, -, h3, -⟩ := Memory.take_spec n m h.behind
  rw [h1]
  exact h3

/-- What the kernel has taken and can take ends at `base` or before. -/
theorem published_prefix (h : q.Delivers m base taken es) : taken ++ m.published <+: es := by
  have htake := take_span m.entryAt h.behind
  rw [add_ofNat_toNat_sub] at htake
  rw [← h.account, List.prefix_append_right_inj]
  show span m.entryAt m.head m.tail <+: span m.entryAt m.head base
  rw [← htake]
  exact List.take_prefix _ _

/-- Flags and counts of the kernel have no part in it. -/
theorem overwrite (h : q.Delivers m base taken es) (flags dropped : UInt32) :
    q.Delivers { m with flags := flags, dropped := dropped } base taken es :=
  ⟨⟨h.attached.mask_eq, h.attached.identity⟩, h.tail_eq, h.behind, h.fits, h.account⟩

/-- While there is room, the entry at `base` may be written over and over. -/
theorem write (h : q.Delivers m base taken es)
    (hroom : (base - m.head).toNat < q.size.entries.toNat) (e : Entry) :
    q.Delivers { m with sqes := m.sqes.set (q.size.slot base) e } base taken es := by
  have hA : q.Attached { m with sqes := m.sqes.set (q.size.slot base) e } :=
    ⟨h.attached.mask_eq, h.attached.identity⟩
  refine ⟨hA, h.tail_eq, h.behind, h.fits, ?_⟩
  rw [← h.account]
  apply congrArg (taken ++ ·)
  apply span_congr
  intro i hi
  -- an entry that is still to be taken lies less than a ring before `base`
  dsimp only at hi
  have hdist := toNat_sub_add (Nat.le_of_lt hi)
  have hne : m.head + UInt32.ofNat i ≠ base := by
    intro e'
    rw [e', UInt32.sub_self] at hdist
    simp only [UInt32.toNat_zero] at hdist
    omega
  rw [hA.entryAt, h.attached.entryAt]
  exact Cells.get_set_of_ne _ _ (q.size.slot_ne hne (by omega)).symm

/-- The entry at `base` joins the batch. -/
theorem extend (h : q.Delivers m base taken es)
    (hroom : (base - m.head).toNat < q.size.entries.toNat) :
    q.Delivers m (base + 1) taken (es ++ [m.sqes.get (q.size.slot base)]) := by
  have hlt := q.size.entries.toNat_lt_size
  have hsucc := toNat_succ_sub (a := m.head) (b := base) (by omega)
  refine ⟨h.attached, h.tail_eq, by have := h.behind; omega, by omega, ?_⟩
  rw [span_concat _ (by omega), ← List.append_assoc, h.account, h.attached.entryAt]

/-- The batch is published up to `base`. -/
theorem flush (h : q.Delivers m base taken es) (htail : q.tail = base) :
    (q.flush m).2.1.Delivers (q.flush m).2.2 base taken es := by
  have hmem : (q.flush m).2.2 = { m with tail := base } := by
    have hp := h.tail_eq
    unfold Queue.flush
    by_cases hq : q.head = q.tail
    · simp only [if_pos hq]
      rw [← htail, ← hq, ← hp]
    · simp only [if_neg hq]
      rw [htail]
  rw [hmem]
  exact ⟨⟨h.attached.mask_eq, h.attached.identity⟩, htail.symm, Nat.le_refl _, h.fits, h.account⟩

/-- Changes of the caller's own tail have no part in it. -/
theorem commit (h : q.Delivers m base taken es) : q.commit.Delivers m base taken es :=
  ⟨⟨h.attached.mask_eq, h.attached.identity⟩, h.tail_eq, h.behind, h.fits, h.account⟩

end Delivers

end Queue

end Uring.Submission
