import Uring.Proofs.Kernel.Enter
import Uring.Proofs.Ring.Harvest
import Uring.Ring.Submit

/-!
# Uring.Proofs.Ring.Submit — the ways in which a submit can go

`SubmitOutcome` lists them: the batch is published, and then there is nothing to call for, or the
kernel is entered and refuses, or it is entered and answers how much it took.
-/

namespace Uring

/-! ### What is asked for -/

namespace Machine

variable {s : Machine} {live : Live}

/-- Events are asked for when they are wanted, a wake-up when the polling thread sleeps, and nothing
else. -/
structure Asks (s : Machine) (wait flags : UInt32) : Prop where
  events : flags &&& Abi.enterGetEvents ≠ 0 ↔ s.WantsEvents wait
  wakeup : flags &&& Abi.enterSqWakeup ≠ 0 ↔
    s.ring.polled = true ∧ s.kernel.sq.flags &&& Abi.sqNeedWakeup ≠ 0
  rest : flags &&& ~~~(Abi.enterGetEvents ||| Abi.enterSqWakeup) = 0

theorem asks_submitFlags (s : Machine) (wait : UInt32) :
    s.Asks wait (submitFlags s.ring.polled s.kernel.sq wait) := by
  have hwakeup : s.ring.polled = true ∧ s.kernel.sq.flags &&& Abi.sqNeedWakeup ≠ 0 ↔
      (s.ring.polled && s.kernel.sq.needsWakeup) = true := by
    unfold Submission.Memory.needsWakeup
    rw [Bool.and_eq_true, bne_iff_ne]
  have hevents := @wantsEvents_iff s wait
  unfold submitFlags
  generalize (wait > 0 || s.kernel.sq.cqNeedsFlush) = events at hevents ⊢
  generalize (s.ring.polled && s.kernel.sq.needsWakeup) = wakeup at hwakeup ⊢
  refine ⟨?_, ?_, ?_⟩
  · rw [hevents]
    cases events <;> cases wakeup <;> decide
  · rw [hwakeup]
    cases events <;> cases wakeup <;> decide
  · cases events <;> cases wakeup <;> decide

theorem mustEnter_iff {polled : Bool} {n flags : UInt32} :
    mustEnter polled n flags = true ↔ flags ≠ 0 ∨ polled = false ∧ n ≠ 0 := by
  unfold mustEnter
  simp [UInt32.pos_iff_ne_zero]

/-! ### Publishing -/

/-- The machine after the batch was published, and nothing else. -/
def flushed (s : Machine) (live : Live) : Machine :=
  { s with
    ring.live := some { live with sq.head := live.sq.tail }
    kernel.sq.tail := live.sq.tail }

/-- The published tail is the one up to which the caller has published. -/
def Published (s : Machine) (live : Live) : Prop :=
  s.ring.live = some live ∧ s.kernel.sq.tail = live.sq.head

theorem publish_eq (h : s.Published live) : (s.publish live).2.2 = s.flushed live := by
  unfold publish Submission.Queue.flush flushed withLive
  dsimp only
  by_cases hempty : live.sq.head = live.sq.tail
  · rw [if_pos hempty, ← hempty, ← h.2]
  · rw [if_neg hempty]

/-! ### One submit -/

/-- How a submit goes on from `s`, where the batch is published and the kernel has `n` entries before
it. -/
inductive SubmitOutcome (s : Machine) (live : Live) (n wait flags : UInt32) :
    Except RingError UInt32 × Machine → Prop
  | idle (hmust : ¬ mustEnter s.ring.polled n flags = true) (e : LogEvent) :
      SubmitOutcome s live n wait flags (.ok (if s.ring.polled then n else 0), s.note e)
  | refused {errno : Errno} {k : Kernel} (hmust : mustEnter s.ring.polled n flags = true)
      (henter : s.kernel.enter live.fd n wait flags = (.error errno, k)) :
      SubmitOutcome s live n wait flags (.error (.enter errno), { s with kernel := k })
  | entered {count : UInt32} {k : Kernel} (hmust : mustEnter s.ring.polled n flags = true)
      (henter : s.kernel.enter live.fd n wait flags = (.ok count, k)) (e : LogEvent) :
      SubmitOutcome s live n wait flags
        (.ok (if s.ring.polled then n else count), { s with kernel := k }.note e)

theorem submitAndWait_outcome (h : s.Published live) (wait : UInt32) :
    (s.flushed live).SubmitOutcome live (live.sq.outstanding s.kernel.sq) wait
      (submitFlags s.ring.polled s.kernel.sq wait) (s.submitAndWait wait) := by
  have hpublish := publish_eq h
  have hcount : (s.publish live).1 = live.sq.outstanding s.kernel.sq :=
    live.sq.flush_count s.kernel.sq
  -- publishing leaves the descriptor, the way of serving and the flag word alone
  have hfd : (s.publish live).2.1.fd = live.fd := rfl
  have hpolled : s.ring.polled = (s.flushed live).ring.polled := rfl
  have hflags (polled : Bool) : submitFlags polled (s.flushed live).kernel.sq wait =
      submitFlags polled s.kernel.sq wait := rfl
  unfold submitAndWait enterWith
  rw [h.1]
  dsimp only
  rw [hpublish, hcount, hfd, hflags, hpolled]
  generalize submitFlags (s.flushed live).ring.polled s.kernel.sq wait = flags
  generalize live.sq.outstanding s.kernel.sq = n
  by_cases hmust : mustEnter (s.flushed live).ring.polled n flags = true
  · rw [if_pos hmust]
    cases henter : (s.flushed live).kernel.enter live.fd n wait flags with
    | mk reply k =>
      cases reply with
      | error errno => exact .refused hmust henter
      | ok count => exact .entered hmust henter _
  · rw [if_neg hmust]
    exact .idle hmust _

/-- What a submit comes to, from `s` where the batch is published and the kernel has `n` entries
before it: one call if there is something to ask for or, unless the kernel polls, to hand over, and
otherwise none. -/
structure Submits (s : Machine) (live : Live) (n wait flags : UInt32)
    (r : Except RingError UInt32 × Machine) : Prop where
  ring_eq : r.2.ring = s.ring
  idle : ¬ (flags ≠ 0 ∨ s.ring.polled = false ∧ n ≠ 0) →
    r.1 = .ok (if s.ring.polled then n else 0) ∧ r.2.kernel = s.kernel
  entered : flags ≠ 0 ∨ s.ring.polled = false ∧ n ≠ 0 → ∃ reply taken,
    s.kernel.enter live.fd n wait flags = (reply, r.2.kernel) ∧
      r.1 = (reply.mapError .enter).map (fun count => if s.ring.polled then n else count) ∧
      r.2.kernel.calls = s.kernel.calls ++ [.enter live.fd n wait flags taken] ∧
      r.2.kernel.taken = s.kernel.taken ++ taken.getD [] ∧
      (taken = none ↔ ∃ errno, reply = .error errno)

theorem SubmitOutcome.submits {n wait flags : UInt32} {r : Except RingError UInt32 × Machine}
    (h : s.SubmitOutcome live n wait flags r) : s.Submits live n wait flags r := by
  have hrecord := s.kernel.enter_entered live.fd n wait flags
  cases h with
  | idle hmust e =>
    exact ⟨rfl, fun _ => ⟨rfl, rfl⟩, fun hneed => absurd (mustEnter_iff.mpr hneed) hmust⟩
  | @refused errno k hmust henter =>
    refine ⟨rfl, fun hnone => absurd (mustEnter_iff.mp hmust) hnone, ?_⟩
    intro _
    rw [henter] at hrecord
    cases hrecord with
    | refused =>
      exact ⟨.error errno, none, henter, rfl, rfl, (List.append_nil _).symm, by simp⟩
  | @entered count k hmust henter e =>
    refine ⟨rfl, fun hnone => absurd (mustEnter_iff.mp hmust) hnone, ?_⟩
    intro _
    rw [henter] at hrecord
    cases hrecord with
    | @served _ taken _ htaken hle hcalls =>
      exact ⟨.ok count, some taken, henter, rfl, hcalls, htaken, by simp⟩

/-- A submit that fails hands nothing over. -/
theorem Submits.taken_of_error {n wait flags : UInt32} {r : Except RingError UInt32 × Machine}
    {e : RingError} (h : s.Submits live n wait flags r) (he : r.1 = .error e) :
    r.2.kernel.taken = s.kernel.taken := by
  by_cases hneed : flags ≠ 0 ∨ s.ring.polled = false ∧ n ≠ 0
  · obtain ⟨reply, taken, -, hr, -, htaken, hnone⟩ := h.entered hneed
    cases reply with
    | error errno =>
      obtain rfl := hnone.mpr ⟨errno, rfl⟩
      simpa using htaken
    | ok count => cases hr.symm.trans he
  · cases (h.idle hneed).1.symm.trans he

end Machine

end Uring
