import Uring.Proofs.Completion.Queue
import Uring.Proofs.Kernel.Turn

/-!
# Uring.Proofs.Kernel.Backlog — completions that are held back

The caller learns of a backlog from the flag word alone.  The word announces it after every turn of
the kernel, unless it is overwritten with one that does not (`Turn.announces`).  Entering for events
publishes the backlog as far as there is room, so what is left of it stands behind a ring that has
something in it (`enter_offers`).
-/

namespace Uring

namespace Kernel

variable {k k' : Kernel} {q : Completion.Queue}

/-! ### The flag word -/

/-- No flag word written from outside denied a backlog that there was. -/
def NeverDenied (k : Kernel) : Prop :=
  ∀ o ∈ k.overwritten, o.2 ≠ 0 → o.1 &&& Abi.sqCqOverflow ≠ 0

instance (k : Kernel) : Decidable k.NeverDenied := by
  unfold NeverDenied
  infer_instance

theorem Grows.neverDenied (h : k.Grows k') (hk' : k'.NeverDenied) : k.NeverDenied :=
  fun o ho => hk' o (h.overwritten.subset ho)

/-- The flag word tells of a backlog. -/
def Announces (k : Kernel) : Prop := k.backlog ≠ [] → k.sq.cqOverflowed = true

theorem post_announces (h : k.Announces) (c : Completion.Entry) : (k.post c).Announces := by
  rcases k.post_cases c with ⟨-, -, hpost⟩ | ⟨-, hpost⟩
  · rw [hpost]
    exact h
  · rw [hpost]
    intro _
    show ((k.sq.flags ||| Abi.sqCqOverflow) &&& Abi.sqCqOverflow != 0) = true
    rw [Submission.Memory.or_and_self]
    rfl

theorem flushBacklog_announces (h : k.Announces) : k.flushBacklog.Announces := by
  intro hrest
  have hne : (k.cq.pushWhileRoom k.backlog).2 ≠ [] := hrest
  have hbacklog : k.backlog ≠ [] := by
    intro hnil
    rw [hnil] at hne
    exact hne rfl
  -- the bit is cleared only when the last completion was published
  have hflags : k.flushBacklog.sq.flags = k.sq.flags :=
    if_neg (mt List.isEmpty_iff.mp hne)
  unfold Submission.Memory.cqOverflowed
  rw [hflags]
  exact h hbacklog

theorem Turn.announces (hturn : Turn k k') (hk' : k'.NeverDenied) (h : k.Announces) :
    k'.Announces := by
  cases hturn with
  | post c => exact post_announces h c
  | flushBacklog => exact flushBacklog_announces h
  | writeFlags word =>
    cases word with
    | none => exact h
    | some word =>
      intro hbacklog
      -- the word is on record together with the length of the backlog at the time
      have hlast : (word, k.backlog.length) ∈ (k.writeFlags (some word)).overwritten :=
        List.mem_append_right _ (List.mem_singleton_self _)
      have hword := hk' _ hlast (mt List.eq_nil_of_length_eq_zero hbacklog)
      exact bne_iff_ne.mpr hword
  | take n =>
    obtain ⟨head, hsq⟩ := k.sq.take_memory n
    intro hbacklog
    show (k.sq.take n).2.cqOverflowed = true
    rw [hsq]
    exact h hbacklog
  | writeCounts dropped overflow => exact h
  | replies enters registers => exact h
  | entered => exact h
  | registered => exact h

/-! ### After an enter for events -/

/-- A backlog stands behind a ring that is not empty. -/
structure Offers (k : Kernel) (q : Completion.Queue) : Prop where
  bounded : q.Bounded k.cq
  ready_pos : k.backlog ≠ [] → 0 < k.cq.ready.toNat

theorem flushBacklog_offers (h : q.Bounded k.cq) : k.flushBacklog.Offers q := by
  obtain ⟨hbounded, -, hfull⟩ := h.pushWhileRoom k.backlog
  refine ⟨hbounded, ?_⟩
  intro hrest
  have hready := hfull hrest
  have hpos := q.size.entries_pos
  show 0 < (k.cq.pushWhileRoom k.backlog).1.ready.toNat
  omega

theorem Offers.post (h : k.Offers q) (c : Completion.Entry) : (k.post c).Offers q := by
  rcases k.post_cases c with ⟨hempty, hroom, hpost⟩ | ⟨hor, hpost⟩
  · rw [hpost]
    exact ⟨h.bounded.push hroom c, fun hne => absurd hempty hne⟩
  · rw [hpost]
    refine ⟨h.bounded, ?_⟩
    intro _
    by_cases hbacklog : k.backlog = []
    · -- the backlog begins here, so it was the ring that had no room
      have hfull : ¬ k.cq.hasRoom = true := fun hroom => hor ⟨hbacklog, hroom⟩
      have hready := mt h.bounded.hasRoom_iff.mpr hfull
      have hpos := q.size.entries_pos
      dsimp only
      omega
    · exact h.ready_pos hbacklog

theorem Offers.postAll (h : k.Offers q) (cs : List Completion.Entry) :
    (k.postAll cs).Offers q := by
  induction cs generalizing k with
  | nil => exact h
  | cons c cs ih => exact ih (h.post c)

theorem consume_zero (k : Kernel) (hold : Bool) (results : List Int32) :
    k.consume 0 hold results = ([], k) := by
  have htake : k.take 0 = ([], k) := by
    unfold Kernel.take Submission.Memory.take
    dsimp only
    rw [List.append_nil]
  unfold consume
  rw [UInt32.toNat_zero, htake]
  cases hold <;> rfl

theorem serve_offers (h : q.Bounded k.cq) (s : Service) :
    (k.serve s 0 Abi.enterGetEvents).2.Offers q := by
  -- no entry is offered, so none is consumed, and serving begins with the backlog
  have hlimit : min 0 (s.consume.getD 0) = 0 := if_pos UInt32.zero_le
  have hposted := (flushBacklog_offers h).postAll s.post
  unfold serve
  dsimp only
  rw [hlimit, consume_zero]
  cases s.sqFlags with
  | none => exact hposted
  | some word => exact ⟨hposted.bounded, hposted.ready_pos⟩

theorem enter_offers (h : q.Bounded k.cq) (fd : Int32) (wait : UInt32) {n : UInt32}
    (hok : (k.enter fd 0 wait Abi.enterGetEvents).1 = .ok n) :
    (k.enter fd 0 wait Abi.enterGetEvents).2.Offers q := by
  unfold enter at hok ⊢
  dsimp only at hok ⊢
  cases hreply : k.enterReplies.head?.getD (.ok {}) with
  | error e => rw [hreply] at hok; cases hok
  | ok service =>
    have hserve := serve_offers (k := { k with enterReplies := k.enterReplies.tail }) h service
    exact ⟨hserve.bounded, hserve.ready_pos⟩

end Kernel

end Uring
