import Uring.Proofs.Kernel.Turn

/-!
# Uring.Proofs.Kernel.Entries — what a kernel reads of the entries

A kernel finds entries only from its head up to the published tail.  `Memory.Agrees m base x` says
that entries `x` are those of `m` from the head up to a counter `base` that the tail has not passed.
A kernel that has `x` in place of its own entries then answers all the same, and the memories differ
in nothing else afterwards.
-/

namespace Uring

namespace Submission.Memory

/-- The memory with other entries in it. -/
def withEntries (m : Memory) (x : Cells Entry) : Memory := { m with sqes := x }

/-- What lies ahead of the kernel before counter `base` is the same in `x`.  Counters are told by
their distance to `base`, so that taking entries leaves fewer of them. -/
structure Agrees (m : Memory) (base : UInt32) (x : Cells Entry) : Prop where
  behind : (m.tail - m.head).toNat ≤ (base - m.head).toNat
  entryAt_eq : ∀ c, c ≠ base → (base - c).toNat ≤ (base - m.head).toNat →
    (m.withEntries x).entryAt c = m.entryAt c

theorem entryAt_withEntries {q : Queue} {m : Memory} (hq : q.Attached m) (x : Cells Entry)
    (c : UInt32) : (m.withEntries x).entryAt c = x.get (q.size.slot c) := by
  have hx : q.Attached (m.withEntries x) := ⟨hq.mask_eq, hq.identity⟩
  exact hx.entryAt c

namespace Agrees

variable {m : Memory} {base : UInt32} {x : Cells Entry}

/-- Taking one entry leaves the rest ahead. -/
theorem tail (h : m.Agrees base x) (hne : m.head ≠ m.tail) :
    m.head ≠ base ∧ ({ m with head := m.head + 1 } : Memory).Agrees base x := by
  have hbehind := h.behind
  have hpos := toNat_sub_pos hne
  have hbase : m.head ≠ base := by
    intro e
    rw [← e, UInt32.sub_self, UInt32.toNat_zero] at hbehind
    omega
  have htail' := toNat_sub_succ hne
  have hbase' := toNat_sub_succ hbase
  refine ⟨hbase, ?_, ?_⟩
  · dsimp only
    omega
  · intro c hc hle
    refine h.entryAt_eq c hc ?_
    dsimp only at hle
    omega

theorem take_withEntries (h : m.Agrees base x) (n : Nat) :
    (m.withEntries x).take n = ((m.take n).1, (m.take n).2.withEntries x) := by
  induction n generalizing m with
  | zero => rfl
  | succ n ih =>
    by_cases hempty : m.head = m.tail
    · rw [take_of_empty hempty]
      exact take_of_empty (m := m.withEntries x) hempty (n + 1)
    · obtain ⟨hbase, hrest⟩ := h.tail hempty
      have hfirst := h.entryAt_eq m.head hbase (Nat.le_refl _)
      have htake := ih hrest
      rw [take_succ hempty]
      refine (take_succ (m := m.withEntries x) hempty n).trans ?_
      show ((_, (m.withEntries x).entryAt m.head) ::
          (take n (withEntries { m with head := m.head + 1 } x)).1,
        (take n (withEntries { m with head := m.head + 1 } x)).2) = _
      rw [hfirst, htake]
      rfl

theorem take (h : m.Agrees base x) (n : Nat) :
    (m.take n).2.Agrees base x ∧ (base - (m.take n).2.head).toNat ≤ (base - m.head).toNat := by
  obtain ⟨head, hm, hbehind, hle, -⟩ := take_spec n m h.behind
  rw [hm]
  exact ⟨⟨hbehind, fun c hc hc' => h.entryAt_eq c hc (Nat.le_trans hc' hle)⟩, hle⟩

/-- Flags and counts of the kernel have no part in it. -/
theorem overwrite (h : m.Agrees base x) (flags dropped : UInt32) :
    ({ m with flags := flags, dropped := dropped } : Memory).Agrees base x :=
  ⟨h.behind, h.entryAt_eq⟩

/-- Publishing everything up to `base`. -/
theorem publish (h : m.Agrees base x) : ({ m with tail := base } : Memory).Agrees base x :=
  ⟨Nat.le_refl _, h.entryAt_eq⟩

/-- Where both have the same entry, the same may be written into both. -/
theorem write (h : m.Agrees base x) (index : UInt32) (e : Entry) :
    ({ m with sqes := m.sqes.set index e } : Memory).Agrees base (x.set index e) := by
  refine ⟨h.behind, ?_⟩
  intro c hc hle
  have hold := h.entryAt_eq c hc hle
  unfold entryAt withEntries at hold ⊢
  dsimp only at hold ⊢
  rw [Cells.get_set, Cells.get_set, hold]

/-- A cell that nothing ahead falls on may be written in `x` alone. -/
theorem mark {q : Queue} (h : m.Agrees base x) (hq : q.Attached m)
    (hroom : (base - m.head).toNat < q.size.entries.toNat) (e : Entry) :
    m.Agrees base (x.set (q.size.slot base) e) := by
  refine ⟨h.behind, ?_⟩
  intro c hc hle
  -- a counter ahead is less than a ring from `base`, so it falls on another cell
  rw [← h.entryAt_eq c hc hle, entryAt_withEntries hq, entryAt_withEntries hq]
  exact Cells.get_set_of_ne _ _ (q.size.slot_ne hc (Nat.lt_of_le_of_lt hle hroom)).symm

/-- An entry that is the same in `x` joins those ahead. -/
theorem extend {q : Queue} (h : m.Agrees base x) (hq : q.Attached m)
    (hroom : (base - m.head).toNat < q.size.entries.toNat)
    (hentry : x.get (q.size.slot base) = m.sqes.get (q.size.slot base)) :
    m.Agrees (base + 1) x := by
  have hlt := q.size.entries.toNat_lt_size
  have hhead := toNat_succ_sub (a := m.head) (b := base) (by omega)
  refine ⟨by have := h.behind; omega, ?_⟩
  intro c hc hle
  -- `base` is now ahead as well, and every other counter was so before
  by_cases hbase : c = base
  · rw [hbase, entryAt_withEntries hq, hentry, hq.entryAt]
  · refine h.entryAt_eq c hbase ?_
    have hdist := toNat_succ_sub (toNat_sub_add_one_lt hc)
    omega

end Agrees

end Submission.Memory

namespace Kernel

open Submission (Entry)

/-- The kernel with other entries in its memory. -/
def withEntries (k : Kernel) (x : Cells Entry) : Kernel := { k with sq := k.sq.withEntries x }

variable {k k' : Kernel} {base : UInt32} {x : Cells Entry}

/-! ### What every turn keeps -/

theorem Turn.attached {q : Submission.Queue} (h : Turn k k') (hq : q.Attached k.sq) :
    q.Attached k'.sq := by
  rcases h.sq_cases with ⟨n, rfl⟩ | ⟨-, flags, dropped, hsq⟩
  · obtain ⟨head, hsq⟩ := k.sq.take_memory n
    show q.Attached (k.sq.take n).2
    rw [hsq]
    exact ⟨hq.mask_eq, hq.identity⟩
  · rw [hsq]
    exact ⟨hq.mask_eq, hq.identity⟩

theorem Turn.agrees (h : Turn k k') (hx : k.sq.Agrees base x) :
    k'.sq.Agrees base x ∧ (base - k'.sq.head).toNat ≤ (base - k.sq.head).toNat := by
  rcases h.sq_cases with ⟨n, rfl⟩ | ⟨-, flags, dropped, hsq⟩
  · exact hx.take n
  · rw [hsq]
    exact ⟨hx.overwrite flags dropped, Nat.le_refl _⟩

theorem Turns.agrees (h : Turns k k') (hx : k.sq.Agrees base x) :
    k'.sq.Agrees base x ∧ (base - k'.sq.head).toNat ≤ (base - k.sq.head).toNat := by
  refine h.invariant (P := fun k' => k'.sq.Agrees base x ∧
    (base - k'.sq.head).toNat ≤ (base - k.sq.head).toNat) ?_ ⟨hx, Nat.le_refl _⟩
  rintro k₁ k₂ hturn ⟨hx₁, hle₁⟩
  obtain ⟨hx₂, hle₂⟩ := hturn.agrees hx₁
  exact ⟨hx₂, Nat.le_trans hle₂ hle₁⟩

/-! ### What does not look at the entries -/

theorem post_withEntries (k : Kernel) (x : Cells Entry) (c : Completion.Entry) :
    (k.withEntries x).post c = (k.post c).withEntries x := by
  have hcases (k : Kernel) : k.post c = if k.backlog.isEmpty && k.cq.hasRoom then
      { k with posted := k.posted ++ [c], cq := k.cq.push c }
    else { k with
      posted := k.posted ++ [c]
      backlog := k.backlog ++ [c]
      sq.flags := k.sq.flags ||| Abi.sqCqOverflow } := rfl
  rw [hcases, hcases, apply_ite (withEntries · x)]
  rfl

theorem postAll_withEntries (k : Kernel) (x : Cells Entry) (cs : List Completion.Entry) :
    (k.withEntries x).postAll cs = (k.postAll cs).withEntries x := by
  induction cs generalizing k with
  | nil => rfl
  | cons c cs ih =>
    show ((k.withEntries x).post c).postAll cs = ((k.post c).postAll cs).withEntries x
    rw [post_withEntries, ih]

theorem flushBacklog_withEntries (k : Kernel) (x : Cells Entry) :
    (k.withEntries x).flushBacklog = k.flushBacklog.withEntries x := rfl

theorem writeFlags_withEntries (k : Kernel) (x : Cells Entry) (word : Option UInt32) :
    (k.withEntries x).writeFlags word = (k.writeFlags word).withEntries x := by
  cases word <;> rfl

/-! ### What takes entries -/

theorem take_withEntries (h : k.sq.Agrees base x) (n : Nat) :
    (k.withEntries x).take n = ((k.take n).1, (k.take n).2.withEntries x) := by
  unfold take
  show (((k.sq.withEntries x).take n).1, { k with
    sq := ((k.sq.withEntries x).take n).2
    taken := k.taken ++ ((k.sq.withEntries x).take n).1 }) = _
  rw [h.take_withEntries]
  rfl

theorem consume_withEntries (h : k.sq.Agrees base x) (n : UInt32) (hold : Bool)
    (results : List Int32) :
    (k.withEntries x).consume n hold results =
      ((k.consume n hold results).1, (k.consume n hold results).2.withEntries x) := by
  unfold consume
  rw [take_withEntries h]
  cases hold with
  | true => rfl
  | false => exact congrArg (Prod.mk _) (postAll_withEntries ..)

theorem serve_withEntries (h : k.sq.Agrees base x) (s : Service) (toSubmit flags : UInt32) :
    (k.withEntries x).serve s toSubmit flags =
      ((k.serve s toSubmit flags).1, (k.serve s toSubmit flags).2.withEntries x) := by
  unfold serve
  dsimp only
  rw [consume_withEntries h]
  generalize k.consume (min toSubmit (s.consume.getD toSubmit)) s.hold s.results = r
  by_cases hflags : (flags &&& Abi.enterGetEvents != 0) = true
  · simp only [if_pos hflags]
    rw [flushBacklog_withEntries, postAll_withEntries, writeFlags_withEntries]
  · simp only [if_neg hflags]
    rw [postAll_withEntries, writeFlags_withEntries]

theorem enter_withEntries (h : k.sq.Agrees base x) (fd : Int32)
    (toSubmit minComplete flags : UInt32) :
    (k.withEntries x).enter fd toSubmit minComplete flags =
      ((k.enter fd toSubmit minComplete flags).1,
        (k.enter fd toSubmit minComplete flags).2.withEntries x) := by
  have hpop : { k.withEntries x with enterReplies := (k.withEntries x).enterReplies.tail } =
      ({ k with enterReplies := k.enterReplies.tail } : Kernel).withEntries x := rfl
  have hreplies : (k.withEntries x).enterReplies = k.enterReplies := rfl
  unfold enter
  rw [hpop, hreplies]
  dsimp only
  cases k.enterReplies.head?.getD (.ok {}) with
  | error e => rfl
  | ok service =>
    have hmemory : ({ k with enterReplies := k.enterReplies.tail } : Kernel).sq.Agrees base x := h
    dsimp only
    rw [serve_withEntries hmemory]
    rfl

theorem event_withEntries (h : k.sq.Agrees base x) (e : KernelEvent) :
    (k.withEntries x).event e = ((k.event e).1, (k.event e).2.withEntries x) := by
  cases e with
  | post cs => exact congrArg (Prod.mk _) (postAll_withEntries ..)
  | consume n hold results => exact consume_withEntries h n hold results
  | script enters registers => rfl
  | overwrite sqFlags dropped overflow => cases sqFlags <;> rfl

end Kernel

end Uring
