import Uring.Proofs.Kernel.Entries
import Uring.Proofs.Ring.Effect
import Uring.Proofs.Ring.Release

/-!
# Uring.Proofs.Ring.Entries — what a call reads of the entries

A call reads entries only through the kernel, which finds them up to the published tail.  So with
other entries in memory that agree up to the caller's tail, every call answers the same, and
afterwards the machines again differ in the entries alone.
-/

namespace Uring

open Submission (Entry)

namespace Machine

/-- The machine with other entries in the kernel's memory. -/
def withEntries (s : Machine) (x : Cells Entry) : Machine :=
  { s with kernel := s.kernel.withEntries x }

/-- Up to `base`, which is the caller's tail while the ring is alive, entries `x` are as good as
those in memory. -/
structure Agrees (s : Machine) (base : UInt32) (x : Cells Entry) : Prop where
  memory : s.kernel.sq.Agrees base x
  live : ∀ live, s.ring.live = some live → live.sq.tail = base ∧ live.sq.Attached s.kernel.sq

variable {s t : Machine} {live : Live} {base : UInt32} {x : Cells Entry}

@[simp] theorem withEntries_ring (s : Machine) (x : Cells Entry) :
    (s.withEntries x).ring = s.ring := rfl

@[simp] theorem withEntries_kernel (s : Machine) (x : Cells Entry) :
    (s.withEntries x).kernel = s.kernel.withEntries x := rfl

/-! ### What calls keep -/

/-- Publishing writes the tail, if it writes at all. -/
theorem publish_sq (s : Machine) (live : Live) :
    (s.publish live).2.2.kernel.sq = s.kernel.sq ∨
      (s.publish live).2.2.kernel.sq = { s.kernel.sq with tail := live.sq.tail } := by
  unfold publish Submission.Queue.flush
  dsimp only
  split
  · exact .inl rfl
  · exact .inr rfl

theorem Effect.agrees {ds : List Completion.Entry} (h : Effect s ds t) (hx : s.Agrees base x) :
    t.Agrees base x := by
  cases h with
  | note e => exact ⟨hx.memory, hx.live⟩
  | turn hturn =>
    refine ⟨(hturn.agrees hx.memory).1, ?_⟩
    intro live hlive
    obtain ⟨htail, hattached⟩ := hx.live live hlive
    exact ⟨htail, hturn.attached hattached⟩
  | @publish live hlive =>
    obtain ⟨htail, hattached⟩ := hx.live live hlive
    refine ⟨?_, ?_⟩
    · rcases s.publish_sq live with hsq | hsq
      · rw [hsq]
        exact hx.memory
      · -- the kernel may now read up to `base`, where both have the same entries
        rw [hsq, htail]
        exact hx.memory.publish
    · rintro _ ⟨⟩
      refine ⟨htail, ?_⟩
      rcases s.publish_sq live with hsq | hsq
      · rw [hsq]
        exact ⟨hattached.mask_eq, hattached.identity⟩
      · rw [hsq]
        exact ⟨hattached.mask_eq, hattached.identity⟩
  | pass hlive hn hp => exact ⟨hx.memory, hx.live⟩

theorem Path.agrees {ds : List Completion.Entry} (h : Path s ds t) (hx : s.Agrees base x) :
    t.Agrees base x := by
  induction h with
  | refl => exact hx
  | tail _ heff ih => exact heff.agrees ih

/-! ### What calls answer -/

theorem enterWith_withEntries (h : s.kernel.sq.Agrees base x) (live : Live)
    (toSubmit minComplete flags : UInt32) :
    (s.withEntries x).enterWith live toSubmit minComplete flags =
      ((s.enterWith live toSubmit minComplete flags).1,
        (s.enterWith live toSubmit minComplete flags).2.withEntries x) := by
  have henter := Kernel.enter_withEntries h live.fd toSubmit minComplete flags
  unfold enterWith
  rw [withEntries_kernel, henter]
  rfl

theorem publish_withEntries (s : Machine) (x : Cells Entry) (live : Live) :
    (s.withEntries x).publish live =
      ((s.publish live).1, (s.publish live).2.1, (s.publish live).2.2.withEntries x) := by
  unfold publish Submission.Queue.flush
  dsimp only
  by_cases hempty : live.sq.head = live.sq.tail
  · simp only [if_pos hempty]
    rfl
  · simp only [if_neg hempty]
    rfl

theorem submitAndWait_withEntries (h : s.Agrees base x) (wait : UInt32) :
    (s.withEntries x).submitAndWait wait =
      ((s.submitAndWait wait).1, (s.submitAndWait wait).2.withEntries x) := by
  unfold submitAndWait
  rw [withEntries_ring]
  cases hlive : s.ring.live with
  | none => rfl
  | some live =>
    -- the enter reads what was just published, so it needs the agreement after that
    have hpublished := ((Effect.publish hlive).agrees h).memory
    dsimp only
    rw [publish_withEntries]
    generalize s.publish live = r at hpublished ⊢
    obtain ⟨toSubmit, live', t⟩ := r
    have hflags : submitFlags s.ring.polled (t.withEntries x).kernel.sq wait =
        submitFlags s.ring.polled t.kernel.sq wait := rfl
    dsimp only at hpublished ⊢
    rw [hflags, enterWith_withEntries hpublished]
    generalize submitFlags s.ring.polled t.kernel.sq wait = flags
    by_cases hmust : mustEnter s.ring.polled toSubmit flags
    · simp only [if_pos hmust]
      generalize t.enterWith live' toSubmit wait flags = r
      obtain ⟨reply, u⟩ := r
      cases reply <;> rfl
    · simp only [if_neg hmust]
      rfl

theorem takeReady_withEntries (s : Machine) (x : Cells Entry) (live : Live)
    (out : Array Completion.Entry) :
    (s.withEntries x).takeReady live out =
      ((s.takeReady live out).1, (s.takeReady live out).2.1,
        (s.takeReady live out).2.2.withEntries x) := rfl

theorem copyCompletions_withEntries (h : s.Agrees base x) (out : Array Completion.Entry)
    (wait : UInt32) :
    (s.withEntries x).copyCompletions out wait =
      ((s.copyCompletions out wait).1, (s.copyCompletions out wait).2.1,
        (s.copyCompletions out wait).2.2.withEntries x) := by
  unfold copyCompletions
  rw [withEntries_ring]
  cases hlive : s.ring.live with
  | none => rfl
  | some live =>
    have htaken : (s.takeReady live out).2.2.Agrees base x :=
      (takeReady_effect hlive out).agrees h
    dsimp only
    rw [takeReady_withEntries]
    generalize s.takeReady live out = r at htaken ⊢
    obtain ⟨count, out', t⟩ := r
    dsimp only at htaken ⊢
    by_cases hpos : count > 0
    · -- completions at hand
      simp only [if_pos hpos]
      rfl
    · have hflush : (t.withEntries x).kernel.sq.cqNeedsFlush = t.kernel.sq.cqNeedsFlush := rfl
      simp only [if_neg hpos]
      rw [hflush]
      by_cases hidle : (!t.kernel.sq.cqNeedsFlush && wait = 0) = true
      · -- nothing to enter for
        simp only [if_pos hidle]
      · -- an enter, with a warning before it if completions are held back
        have hwarn : (if (t.withEntries x).kernel.sq.cqOverflowed then
            (t.withEntries x).note (.overflowed (t.withEntries x).kernel.cq.overflow)
              else t.withEntries x) =
            (if t.kernel.sq.cqOverflowed then t.note (.overflowed t.kernel.cq.overflow)
              else t).withEntries x := by
          rw [apply_ite (withEntries · x)]
          rfl
        have hsame : (if t.kernel.sq.cqOverflowed then t.note (.overflowed t.kernel.cq.overflow)
            else t).kernel.sq.Agrees base x := by
          split <;> exact htaken.memory
        simp only [if_neg hidle]
        rw [hwarn, enterWith_withEntries hsame]
        generalize (if t.kernel.sq.cqOverflowed then t.note (.overflowed t.kernel.cq.overflow)
          else t).enterWith live 0 wait Abi.enterGetEvents = r
        obtain ⟨reply, u⟩ := r
        cases reply with
        | error e => rfl
        | ok n => rfl

theorem harvest_withEntries (h : s.Agrees base x) (capacity : Nat) (wait : UInt32) :
    (s.withEntries x).harvest capacity wait =
      ((s.harvest capacity wait).1, (s.harvest capacity wait).2.withEntries x) := by
  unfold harvest
  rw [withEntries_ring]
  dsimp only
  rw [copyCompletions_withEntries h]
  generalize s.copyCompletions _ wait = r
  obtain ⟨result, out, t⟩ := r
  cases result <;> rfl

theorem copyReady_withEntries (s : Machine) (x : Cells Entry) (out : Array Completion.Entry) :
    (s.withEntries x).copyReady out =
      ((s.copyReady out).1, (s.copyReady out).2.withEntries x) := by
  unfold copyReady
  rw [withEntries_ring]
  cases s.ring.live <;> rfl

theorem advance_withEntries (s : Machine) (x : Cells Entry) (count : UInt32) :
    (s.withEntries x).advance count = ((s.advance count).1, (s.advance count).2.withEntries x) := by
  have hcq : (s.withEntries x).kernel.cq = s.kernel.cq := rfl
  unfold advance
  rw [withEntries_ring, hcq]
  cases s.ring.live with
  | none => rfl
  | some live =>
    dsimp only
    cases Completion.Queue.advance s.kernel.cq count <;> rfl

theorem probe_withEntries (s : Machine) (x : Cells Entry) :
    (s.withEntries x).probe = (s.probe.1, s.probe.2.withEntries x) := by
  unfold probe
  rw [withEntries_ring]
  cases s.ring.live <;> rfl

theorem enter_withEntries (h : s.Agrees base x) (toSubmit minComplete flags : UInt32) :
    (s.withEntries x).enter toSubmit minComplete flags =
      ((s.enter toSubmit minComplete flags).1,
        (s.enter toSubmit minComplete flags).2.withEntries x) := by
  unfold enter
  rw [withEntries_ring]
  cases s.ring.live with
  | none => rfl
  | some live => exact enterWith_withEntries h.memory live toSubmit minComplete flags

/-- A call answers as it would with entries `x` in memory, and they stay as good. -/
theorem Agrees.call (h : s.Agrees base x) {a : Step} (ha : a.isCall = true) :
    (s.withEntries x).step a = ((s.step a).1, (s.step a).2.withEntries x) ∧
      (s.step a).2.Agrees base x := by
  refine ⟨?_, ?_⟩
  · cases a with
    | slot acts => cases ha
    | submit => simp only [step, submit, submitAndWait_withEntries h]
    | submitAndWait wait => simp only [step, submitAndWait_withEntries h]
    | enter toSubmit minComplete flags => simp only [step, enter_withEntries h]
    | harvest capacity wait => simp only [step, harvest_withEntries h]
    | copy out wait => simp only [step, copyCompletions_withEntries h]
    | copyReady out => simp only [step, copyReady_withEntries]
    | peek => rfl
    | advance count => simp only [step, advance_withEntries]
    | destroy => cases ha
    | probe => simp only [step, probe_withEntries]
    | supports opcode => simp only [step, supports, probe_withEntries]
    | kernel event => cases ha
  · cases hlive : s.ring.live with
    | none =>
      -- there are no effects to follow: the call is refused, and the machine is the same
      rw [(step_destroyed hlive (Step.usesRing_of_isCall ha)).2]
      exact h
    | some live => exact (call_path hlive a ha).agrees h

/-! ### What is no call -/

theorem Agrees.destroy (h : s.Agrees base x) :
    (s.withEntries x).destroy = s.destroy.withEntries x ∧ s.destroy.Agrees base x := by
  unfold Machine.destroy
  rw [withEntries_ring]
  cases hlive : s.ring.live with
  | none => exact ⟨rfl, h⟩
  | some live =>
    dsimp only
    rw [Mapping.releaseAll_eq, Mapping.releaseAll_eq]
    refine ⟨rfl, h.memory, ?_⟩
    rintro _ ⟨⟩

theorem Agrees.turns (h : s.Agrees base x) {k : Kernel} (hturns : Kernel.Turns s.kernel k) :
    ({ s with kernel := k } : Machine).Agrees base x :=
  (Path.turns hturns).agrees h

theorem Agrees.event (h : s.Agrees base x) (e : KernelEvent) :
    (s.withEntries x).step (.kernel e) =
      ((s.step (.kernel e)).1, (s.step (.kernel e)).2.withEntries x) ∧
      (s.step (.kernel e)).2.Agrees base x := by
  have hevent := Kernel.event_withEntries h.memory e
  refine ⟨?_, h.turns (Kernel.event_turns _ e)⟩
  simp only [step, withEntries_kernel, hevent]
  cases e <;> rfl

end Machine

end Uring
