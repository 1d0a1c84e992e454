import Uring.Proofs.Completion.Queue
import Uring.Proofs.Kernel.Turn
import Uring.Proofs.Ring.Harvest
import Uring.Ring.Session

/-!
# Uring.Proofs.Ring.Effect — all that a call does to a machine

Every call on a live ring is a row of effects: it publishes the batch, lets the kernel take turns,
passes completions at the head, or logs a message.  `call_path` says so once for all calls, and says
which completions each row hands over; what every effect keeps is then kept by every call.
-/

namespace Uring.Machine

open Completion.Queue (skip)

/-- One effect, with the completions that it passes at the head of their ring. -/
inductive Effect : Machine → List Completion.Entry → Machine → Prop
  | note (s : Machine) (e : LogEvent) : Effect s [] (s.note e)
  | turn {s : Machine} {k : Kernel} (h : Kernel.Turn s.kernel k) :
      Effect s [] { s with kernel := k }
  | publish {s : Machine} {live : Live} (h : s.ring.live = some live) :
      Effect s [] (s.publish live).2.2
  /-- What is passed is the front of the list at hand, if the ring is not overfull. -/
  | pass {s : Machine} {live : Live} {n : Nat} {passed : List Completion.Entry}
      (h : s.ring.live = some live) (hn : n ≤ s.kernel.cq.ready.toNat)
      (hp : live.cq.Bounded s.kernel.cq → passed = (live.cq.toList s.kernel.cq).take n) :
      Effect s passed { s with kernel.cq := skip s.kernel.cq n }

inductive Path : Machine → List Completion.Entry → Machine → Prop
  | refl (s : Machine) : Path s [] s
  | tail {s t u : Machine} {ds es : List Completion.Entry} :
      Path s ds t → Effect t es u → Path s (ds ++ es) u

namespace Path

variable {s t u : Machine} {ds es : List Completion.Entry}

theorem single (h : Effect s ds t) : Path s ds t := (refl s).tail h

theorem trans (h₁ : Path s ds t) (h₂ : Path t es u) : Path s (ds ++ es) u := by
  induction h₂ with
  | refl => simpa using h₁
  | tail _ heff ih => simpa using ih.tail heff

/-- A path goes on with an effect that passes nothing. -/
theorem andThen (h₁ : Path s ds t) (h₂ : Path t [] u) : Path s ds u := by
  simpa using h₁.trans h₂

theorem turns {k : Kernel} (h : Kernel.Turns s.kernel k) : Path s [] { s with kernel := k } := by
  induction h with
  | refl => exact refl s
  | @tail k k' _ hturn ih =>
    have hlast : Effect { s with kernel := k } [] { s with kernel := k' } := .turn hturn
    exact ih.andThen (.single hlast)

/-- What every effect keeps, a path keeps. -/
theorem invariant {P : List Completion.Entry → Machine → Prop}
    (step : ∀ {ds s es t}, Effect s es t → P ds s → P (ds ++ es) t)
    (h : Path s es t) (ds : List Completion.Entry) (hP : P ds s) : P (ds ++ es) t := by
  induction h with
  | refl => simpa using hP
  | tail _ heff ih => simpa using step heff ih

end Path

/-! ### What no effect touches -/

section

variable {s t : Machine} {ds : List Completion.Entry}

theorem Effect.cqEntries_eq (h : Effect s ds t) : t.ring.cqEntries = s.ring.cqEntries := by
  cases h <;> rfl

theorem Effect.tagKind_eq (h : Effect s ds t) : t.ring.tagKind = s.ring.tagKind := by
  cases h <;> rfl

theorem Effect.alive (h : Effect s ds t) (hs : ∃ live, s.ring.live = some live) :
    ∃ live, t.ring.live = some live := by
  cases h with
  | note e => exact hs
  | turn hturn => exact hs
  | publish hlive => exact ⟨_, rfl⟩
  | pass hlive hn hp => exact hs

theorem Effect.grows (h : Effect s ds t) : s.kernel.Grows t.kernel := by
  cases h with
  | note e => exact .of_eq rfl rfl rfl
  | turn hturn => exact hturn.grows
  | publish hlive => exact .of_eq rfl rfl rfl
  | pass hlive hn hp => exact .of_eq rfl rfl rfl

theorem Path.tagKind_eq (h : Path s ds t) : t.ring.tagKind = s.ring.tagKind := by
  induction h with
  | refl => rfl
  | tail _ heff ih => exact heff.tagKind_eq.trans ih

theorem Path.alive (h : Path s ds t) (hs : ∃ live, s.ring.live = some live) :
    ∃ live, t.ring.live = some live := by
  induction h with
  | refl => exact hs
  | tail _ heff ih => exact heff.alive ih

theorem Path.grows (h : Path s ds t) : s.kernel.Grows t.kernel := by
  induction h with
  | refl => exact .of_eq rfl rfl rfl
  | tail _ heff ih => exact ih.trans heff.grows

end

/-! ### Operations as paths -/

variable {s : Machine} {live : Live}

theorem enterWith_path (live : Live) (toSubmit minComplete flags : UInt32) :
    Path s [] (s.enterWith live toSubmit minComplete flags).2 :=
  Path.turns (Kernel.enter_turns ..)

theorem submitAndWait_path (h : s.ring.live = some live) (wait : UInt32) :
    Path s [] (s.submitAndWait wait).2 := by
  have hpublish : Path s [] (s.publish live).2.2 := .single (.publish h)
  unfold submitAndWait
  rw [h]
  dsimp only
  generalize submitFlags s.ring.polled (s.publish live).2.2.kernel.sq wait = flags
  by_cases hmust : mustEnter s.ring.polled (s.publish live).1 flags
  · rw [if_pos hmust]
    have henter := hpublish.andThen
      (enterWith_path (s.publish live).2.1 (s.publish live).1 wait flags)
    generalize (s.publish live).2.2.enterWith (s.publish live).2.1 (s.publish live).1 wait flags = r
      at henter
    obtain ⟨reply, t⟩ := r
    cases reply with
    | error e => exact henter
    | ok taken => exact henter.andThen (.single (.note ..))
  · rw [if_neg hmust]
    exact hpublish.andThen (.single (.note ..))

theorem takeReady_effect (h : s.ring.live = some live) (out : Array Completion.Entry) :
    Effect s (filled (s.takeReady live out).2.1 (.ok (s.takeReady live out).1))
      (s.takeReady live out).2.2 := by
  refine .pass h (n := min s.kernel.cq.ready.toNat out.size) (Nat.min_le_left ..) fun hb => ?_
  show ((live.cq.copyReady s.kernel.cq out).2.1.toList.take
    (live.cq.copyReady s.kernel.cq out).1.toNat) = _
  rw [Completion.Queue.toNat_copyReady_count, Completion.Queue.take_toList_copyReady hb]

theorem Warns.path {u : Machine} (h : s.Warns u) : Path s [] u := by
  rcases h with rfl | ⟨e, rfl⟩
  · exact .refl u
  · exact .single (.note s e)

theorem Warns.live_eq {u : Machine} (h : s.Warns u) : u.ring.live = s.ring.live := by
  rcases h with rfl | ⟨e, rfl⟩ <;> rfl

theorem copyCompletions_path (h : s.ring.live = some live) (out : Array Completion.Entry)
    (wait : UInt32) :
    Path s (filled (s.copyCompletions out wait).2.1 (s.copyCompletions out wait).1)
      (s.copyCompletions out wait).2.2 := by
  have hentered {u v : Machine} {reply : Except RingError UInt32} (hwarn : s.Warns u)
      (henter : u.enterWith live 0 wait Abi.enterGetEvents = (reply, v)) :
      Path s [] v ∧ v.ring.live = some live := by
    have hpath := enterWith_path (s := u) live 0 wait Abi.enterGetEvents
    have hlive : (u.enterWith live 0 wait Abi.enterGetEvents).2.ring.live = some live :=
      hwarn.live_eq.trans h
    rw [henter] at hpath hlive
    exact ⟨hwarn.path.andThen hpath, hlive⟩
  have houtcome := copyCompletions_outcome h out wait
  generalize s.copyCompletions out wait = r at houtcome ⊢
  cases houtcome with
  | atHand htake hpos =>
    have htaken := takeReady_effect h out
    rw [htake] at htaken
    exact (Path.single htaken).andThen (.single (.note ..))
  | idle htake hflush hwait => simpa [filled] using Path.refl s
  | refused htake hwarn henter => exact (hentered hwarn henter).1
  | entered htake hwarn henter hagain =>
    obtain ⟨hpath, hlive⟩ := hentered hwarn henter
    have htaken := takeReady_effect hlive out
    rw [hagain] at htaken
    exact (hpath.trans (.single htaken)).andThen (.single (.note ..))

theorem harvest_path (h : s.ring.live = some live) (capacity : Nat) (wait : UInt32) :
    Path s (s.delivers (.harvest capacity wait)) (s.harvest capacity wait).2 := by
  have hcopy := copyCompletions_path h
    (Array.replicate (min capacity s.ring.cqEntries.toNat) default) wait
  unfold delivers
  simp only [step]
  unfold harvest
  dsimp only
  generalize s.copyCompletions _ wait = r at hcopy ⊢
  obtain ⟨result, out, t⟩ := r
  cases result with
  | error e => exact hcopy
  | ok count => simpa [filled] using hcopy

theorem advance_path (h : s.ring.live = some live) (count : UInt32) :
    Path s (s.delivers (.advance count)) (s.advance count).2 := by
  unfold delivers
  simp only [step]
  unfold advance
  rw [h]
  dsimp only
  cases hadv : Completion.Queue.advance s.kernel.cq count with
  | error e => exact .refl s
  | ok m =>
    obtain ⟨hle, rfl⟩ := Completion.Queue.advance_ok_iff.mp hadv
    refine .single (.pass h (UInt32.le_iff_toNat_le.mp hle) fun _ => ?_)
    simp [ready, h]

theorem probe_path : Path s [] s.probe.2 := by
  unfold probe
  cases s.ring.live with
  | none => exact .refl s
  | some live => exact Path.turns (Kernel.register_turns ..)

/-- A call is a row of effects, and what they pass is what the call hands over. -/
theorem call_path (h : s.ring.live = some live) (a : Step) (ha : a.isCall = true) :
    Path s (s.delivers a) (s.step a).2 := by
  cases a with
  | slot acts => cases ha
  | submit => exact submitAndWait_path h 0
  | submitAndWait wait => exact submitAndWait_path h wait
  | enter toSubmit minComplete flags =>
    show Path s [] (s.enter toSubmit minComplete flags).2
    unfold enter
    rw [h]
    exact enterWith_path live toSubmit minComplete flags
  | harvest capacity wait => exact harvest_path h capacity wait
  | copy out wait => exact copyCompletions_path h out wait
  | copyReady out =>
    unfold delivers
    simp only [step]
    unfold copyReady
    rw [h]
    exact .single (takeReady_effect h out)
  | peek => exact .refl s
  | advance count => exact advance_path h count
  | destroy => cases ha
  | probe => exact probe_path
  | supports opcode => exact probe_path
  | kernel event => cases ha

end Uring.Machine
