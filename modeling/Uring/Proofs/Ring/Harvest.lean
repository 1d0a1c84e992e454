import Uring.Proofs.Completion.Queue
import Uring.Proofs.Submission.Queue
import Uring.Ring.Harvest

/-!
# Uring.Proofs.Ring.Harvest — the ways in which taking completions can go

`CopyOutcome` lists them: completions are at hand, or there are none and nothing calls for an enter,
or the kernel is entered and refuses, or it is entered and taking is tried once more.  What can be
taken and what is wanted decide between them (`of_pos`, `of_wants`).
-/

namespace Uring.Machine

variable {s : Machine} {live : Live}

/-- The kernel has to be entered for events: the caller waits, or completions are held back, or work
is put off. -/
def WantsEvents (s : Machine) (wait : UInt32) : Prop :=
  0 < wait ∨ s.kernel.sq.flags &&& Abi.sqCqOverflow ≠ 0 ∨ s.kernel.sq.flags &&& Abi.sqTaskRun ≠ 0

theorem wantsEvents_iff {wait : UInt32} :
    s.WantsEvents wait ↔ (wait > 0 || s.kernel.sq.cqNeedsFlush) = true := by
  rw [Bool.or_eq_true, decide_eq_true_iff, Submission.Memory.cqNeedsFlush_iff]
  rfl

theorem takeReady_of_none (s : Machine) (live : Live) {out : Array Completion.Entry}
    (h : min s.kernel.cq.ready.toNat out.size = 0) : s.takeReady live out = (0, out, s) := by
  have hcopy : live.cq.copyReady s.kernel.cq out = (0, out, s.kernel.cq) := by
    unfold Completion.Queue.copyReady Completion.Queue.runs
    rw [h]
    simp
  unfold takeReady
  rw [hcopy]

theorem toNat_takeReady_count (s : Machine) (live : Live) (out : Array Completion.Entry) :
    (s.takeReady live out).1.toNat = min s.kernel.cq.ready.toNat out.size :=
  live.cq.toNat_copyReady_count s.kernel.cq out

theorem size_takeReady (s : Machine) (live : Live) (out : Array Completion.Entry) :
    (s.takeReady live out).2.1.size = out.size :=
  live.cq.size_copyReady s.kernel.cq out

theorem takeReady_of_zero {out : Array Completion.Entry} (h : (s.takeReady live out).1 = 0) :
    s.takeReady live out = (0, out, s) := by
  apply takeReady_of_none
  rw [← toNat_takeReady_count s live out, h, UInt32.toNat_zero]

/-- The warning about completions held back is the only thing that may precede an enter. -/
def Warns (s u : Machine) : Prop := u = s ∨ ∃ e, u = s.note e

inductive CopyOutcome (s : Machine) (live : Live) (out : Array Completion.Entry) (wait : UInt32) :
    Except RingError UInt32 × Array Completion.Entry × Machine → Prop
  | atHand {count : UInt32} {out' : Array Completion.Entry} {t : Machine}
      (htake : s.takeReady live out = (count, out', t)) (hpos : 0 < count) :
      CopyOutcome s live out wait (.ok count, out', t.note (.harvested count))
  | idle (htake : s.takeReady live out = (0, out, s)) (hflush : s.kernel.sq.cqNeedsFlush = false)
      (hwait : wait = 0) : CopyOutcome s live out wait (.ok 0, out, s)
  | refused {u v : Machine} {e : RingError} (htake : s.takeReady live out = (0, out, s))
      (hwarn : s.Warns u) (henter : u.enterWith live 0 wait Abi.enterGetEvents = (.error e, v)) :
      CopyOutcome s live out wait (.error e, out, v)
  | entered {u v t : Machine} {n count : UInt32} {out' : Array Completion.Entry}
      (htake : s.takeReady live out = (0, out, s)) (hwarn : s.Warns u)
      (henter : u.enterWith live 0 wait Abi.enterGetEvents = (.ok n, v))
      (hagain : v.takeReady live out = (count, out', t)) :
      CopyOutcome s live out wait (.ok count, out', t.note (.harvestedAfterEnter count wait))

theorem copyCompletions_outcome (h : s.ring.live = some live) (out : Array Completion.Entry)
    (wait : UInt32) : CopyOutcome s live out wait (s.copyCompletions out wait) := by
  have hzero := @takeReady_of_zero s live out
  unfold copyCompletions
  rw [h]
  dsimp only
  cases htake : s.takeReady live out with
  | mk count rest =>
    obtain ⟨out', t⟩ := rest
    dsimp only
    by_cases hpos : count > 0
    · rw [if_pos hpos]
      exact .atHand htake hpos
    · -- an attempt that takes nothing leaves everything as it was
      have hcount : count = 0 := by simpa using hpos
      have hempty := hzero (by rw [htake]; exact hcount)
      obtain ⟨-, rfl, rfl⟩ : count = 0 ∧ out' = out ∧ t = s := by
        simpa using htake.symm.trans hempty
      rw [if_neg hpos]
      by_cases hidle : (!t.kernel.sq.cqNeedsFlush && wait = 0) = true
      · rw [if_pos hidle]
        obtain ⟨hflush, hwait⟩ := Bool.and_eq_true_iff.mp hidle
        exact .idle hempty (by simpa using hflush) (by simpa using hwait)
      · rw [if_neg hidle]
        have hwarn : t.Warns (if t.kernel.sq.cqOverflowed then
            t.note (.overflowed t.kernel.cq.overflow) else t) := by
          split
          · exact .inr ⟨_, rfl⟩
          · exact .inl rfl
        generalize (if t.kernel.sq.cqOverflowed then t.note (.overflowed t.kernel.cq.overflow)
          else t) = u at hwarn ⊢
        cases henter : u.enterWith live 0 wait Abi.enterGetEvents with
        | mk reply v =>
          cases reply with
          | error e => exact .refused hempty hwarn henter
          | ok n => exact .entered hempty hwarn henter rfl

namespace CopyOutcome

variable {out : Array Completion.Entry} {wait : UInt32}
variable {r : Except RingError UInt32 × Array Completion.Entry × Machine}

/-- With something to take there is one way only. -/
theorem of_pos (h : CopyOutcome s live out wait r)
    (hpos : 0 < min s.kernel.cq.ready.toNat out.size) :
    ∃ count out' t, s.takeReady live out = (count, out', t) ∧
      r = (.ok count, out', t.note (.harvested count)) := by
  cases h with
  | atHand htake _ => exact ⟨_, _, _, htake, rfl⟩
  | idle htake | refused htake | entered htake =>
    have hcount := toNat_takeReady_count s live out
    rw [htake, UInt32.toNat_zero] at hcount
    exact absurd hpos (hcount ▸ Nat.lt_irrefl 0)

/-- With nothing to take and events wanted the kernel is entered. -/
theorem of_wants (h : CopyOutcome s live out wait r)
    (hzero : min s.kernel.cq.ready.toNat out.size = 0) (hwants : s.WantsEvents wait) :
    ∃ u reply v, s.Warns u ∧ u.enterWith live 0 wait Abi.enterGetEvents = (reply, v) ∧
      match reply with
      | .error e => r = (.error e, out, v)
      | .ok _ => ∃ count out' t, v.takeReady live out = (count, out', t) ∧
          r = (.ok count, out', t.note (.harvestedAfterEnter count wait)) := by
  cases h with
  | atHand htake hpos =>
    have hcount := toNat_takeReady_count s live out
    rw [htake, hzero] at hcount
    exact absurd hcount (Nat.ne_of_gt (UInt32.lt_iff_toNat_lt.mp hpos))
  | idle htake hflush hwait =>
    rw [wantsEvents_iff, hflush, hwait] at hwants
    cases hwants
  | refused htake hwarn henter => exact ⟨_, _, _, hwarn, henter, rfl⟩
  | entered htake hwarn henter hagain => exact ⟨_, _, _, hwarn, henter, _, _, _, hagain, rfl⟩

end CopyOutcome

end Uring.Machine
