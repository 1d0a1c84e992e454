import Uring.Proofs.Ring.Effect
import Uring.Proofs.Ring.SetUp
import Uring.Proofs.Ring.Slot
import Uring.Proofs.Ring.Submit

/-!
# Uring.Proofs.Ring.Refusal — what is refused leaves the ring as it was

A use that fails changes neither the ring nor the memory that it shares with the kernel: a slot
checks before it writes, and a call that the kernel refuses has done nothing before.  A submit is
different, for it publishes the batch first.  When it fails, the batch stays published, and further
failures change nothing.
-/

namespace Uring

/-! ### What a use can be refused for -/

/-- Why an act on a slot can be refused: its operation is malformed, or a tag is of the other
kind. -/
inductive Slot.Act.Refused : Slot.Act → RingError → Prop
  | tag (t : Tag) (expected : TagKind) : Refused (.tag t) (.tagKindMismatch expected t.kind)
  | malformed {op : Operation} {why : InvalidReason} (h : op.validate = .error why) :
      Refused (.encode op) (.invalidParams why)
  | target {op : Operation} {t : Tag} (h : op.cancelTarget? = some t) (expected : TagKind) :
      Refused (.encode op) (.tagKindMismatch expected t.kind)

/-- A step that publishes the batch. -/
def Step.submits : Step → Bool
  | .submit | .submitAndWait _ => true
  | _ => false

/-- Why a call that submits nothing can be refused, while `ready` completions are at hand: the
kernel refuses, or more completions are to be passed than there are. -/
inductive Step.Refused (ready : UInt32) : Step → RingError → Prop
  | enter (toSubmit minComplete flags : UInt32) (errno : Errno) :
      Refused ready (.enter toSubmit minComplete flags) (.enter errno)
  | harvest (capacity : Nat) (wait : UInt32) (errno : Errno) :
      Refused ready (.harvest capacity wait) (.enter errno)
  | copy (out : Array Completion.Entry) (wait : UInt32) (errno : Errno) :
      Refused ready (.copy out wait) (.enter errno)
  | advance {count : UInt32} (h : ready < count) :
      Refused ready (.advance count) (.headOverrun count ready)
  | probe (errno : Errno) : Refused ready .probe (.register errno)
  | supports (opcode : UInt8) (errno : Errno) : Refused ready (.supports opcode) (.register errno)

/-! ### Slots -/

namespace Slot

theorem checkKind_error {expected : Option TagKind} {found : TagKind} {e : RingError}
    (h : checkKind expected found = .error e) : ∃ kind, e = .tagKindMismatch kind found := by
  unfold checkKind at h
  cases expected with
  | none => cases h
  | some kind =>
    dsimp only at h
    split at h <;> cases h
    exact ⟨kind, rfl⟩

theorem check_error {slot : Slot} {s : Machine} {a : Act} {e : RingError}
    (h : slot.check s a = .error e) : a.Refused e := by
  cases a with
  | tag t =>
    obtain ⟨kind, rfl⟩ := checkKind_error h
    exact .tag t kind
  | flags word => cases h
  | encode op =>
    simp only [check, checkOperation] at h
    cases hvalid : op.validate with
    | error why =>
      rw [hvalid] at h
      cases h
      exact .malformed hvalid
    | ok _ =>
      rw [hvalid] at h
      -- a well-formed operation is refused for the tag that it cancels, and for nothing else
      cases htarget : op.cancelTarget? with
      | none => rw [htarget] at h; cases h
      | some t =>
        rw [htarget] at h
        obtain ⟨kind, rfl⟩ := checkKind_error h
        exact .target htarget kind

/-- An act that is refused leaves the slot and the machine as they were. -/
theorem act_refused {slot : Slot} {s : Machine} {a : Act} {e : RingError}
    (h : (slot.act s a).1 = .error e) : a.Refused e ∧ (slot.act s a).2 = (slot, s) := by
  rw [act_eq] at h ⊢
  cases hcheck : slot.check s a with
  | error e' =>
    rw [hcheck] at h
    cases h
    exact ⟨check_error hcheck, rfl⟩
  | ok _ => rw [hcheck] at h; cases h

end Slot

namespace Machine

variable {s t u : Machine} {live : Live} {e : RingError}

theorem nextSlot_refused (hlive : s.ring.live = some live) (h : s.nextSlot.1 = .error e) :
    e = .queueFull ∧ s.nextSlot.2 = s := by
  unfold nextSlot at h ⊢
  rw [hlive] at h ⊢
  dsimp only at h ⊢
  cases hvacant : live.sq.vacant? s.kernel.sq with
  | none =>
    rw [hvacant] at h
    cases h
    exact ⟨rfl, rfl⟩
  | some index => rw [hvacant] at h; cases h

/-! ### Calls -/

/-- From `s` to `t` the ring and the kernel's memory are the same.  Only the kernel's record of
calls, its answers to come, and the log may differ. -/
def Untouched (s t : Machine) : Prop :=
  t.ring = s.ring ∧ ∃ enters registers calls,
    t.kernel = { s.kernel with
      enterReplies := enters
      registerReplies := registers
      calls := calls }

namespace Untouched

theorem refl (s : Machine) : s.Untouched s := ⟨rfl, _, _, _, rfl⟩

theorem trans (h : s.Untouched t) (h' : t.Untouched u) : s.Untouched u := by
  obtain ⟨hring, _, _, _, hkernel⟩ := h
  obtain ⟨hring', enters, registers, calls, hkernel'⟩ := h'
  exact ⟨hring'.trans hring, enters, registers, calls, by rw [hkernel', hkernel]⟩

theorem of_warns (h : s.Warns u) : s.Untouched u := by
  rcases h with rfl | ⟨e, rfl⟩ <;> exact ⟨rfl, _, _, _, rfl⟩

end Untouched

theorem enterWith_refused {toSubmit minComplete flags : UInt32}
    (h : (s.enterWith live toSubmit minComplete flags).1 = .error e) :
    (∃ errno, e = .enter errno) ∧
      s.Untouched (s.enterWith live toSubmit minComplete flags).2 := by
  have hentered := s.kernel.enter_entered live.fd toSubmit minComplete flags
  unfold enterWith at h ⊢
  dsimp only at h ⊢
  generalize s.kernel.enter live.fd toSubmit minComplete flags = r at h hentered ⊢
  cases hentered with
  | refused errno =>
    cases h
    exact ⟨⟨errno, rfl⟩, rfl, _, _, _, rfl⟩
  | served => cases h

theorem copyCompletions_refused (hlive : s.ring.live = some live) {out : Array Completion.Entry}
    {wait : UInt32} (h : (s.copyCompletions out wait).1 = .error e) :
    (∃ errno, e = .enter errno) ∧ (s.copyCompletions out wait).2.1 = out ∧
      s.Untouched (s.copyCompletions out wait).2.2 := by
  have houtcome := copyCompletions_outcome hlive out wait
  generalize s.copyCompletions out wait = r at houtcome h ⊢
  cases houtcome with
  | atHand htake hpos => cases h
  | idle htake hflush hwait => cases h
  | @refused u v e' htake hwarn henter =>
    cases h
    -- nothing was at hand, so the enter was made from `s` itself, or from `s` with a warning
    have hrefused := @enterWith_refused u live e 0 wait Abi.enterGetEvents (by rw [henter])
    rw [henter] at hrefused
    exact ⟨hrefused.1, rfl, (Untouched.of_warns hwarn).trans hrefused.2⟩
  | entered htake hwarn henter hagain => cases h

theorem harvest_refused (hlive : s.ring.live = some live) {capacity : Nat} {wait : UInt32}
    (h : (s.harvest capacity wait).1 = .error e) :
    (∃ errno, e = .enter errno) ∧ s.Untouched (s.harvest capacity wait).2 := by
  have hcopy := @copyCompletions_refused s live e hlive
    (Array.replicate (min capacity s.ring.cqEntries.toNat) default) wait
  unfold harvest at h ⊢
  dsimp only at h ⊢
  generalize s.copyCompletions _ wait = r at hcopy h ⊢
  obtain ⟨result, out, t⟩ := r
  cases result with
  | error e' =>
    cases h
    obtain ⟨herror, -, huntouched⟩ := hcopy rfl
    exact ⟨herror, huntouched⟩
  | ok count => cases h

theorem advance_refused (hlive : s.ring.live = some live) {count : UInt32}
    (h : (s.advance count).1 = .error e) :
    s.kernel.cq.ready < count ∧ e = .headOverrun count s.kernel.cq.ready ∧
      (s.advance count).2 = s := by
  unfold advance at h ⊢
  rw [hlive] at h ⊢
  unfold Completion.Queue.advance at h ⊢
  by_cases hcount : count > s.kernel.cq.ready
  · rw [if_pos hcount] at h ⊢
    cases h
    exact ⟨hcount, rfl, rfl⟩
  · rw [if_neg hcount] at h
    cases h

theorem probe_refused (hlive : s.ring.live = some live) (h : s.probe.1 = .error e) :
    (∃ errno, e = .register errno) ∧ s.Untouched s.probe.2 := by
  unfold probe at h ⊢
  rw [hlive] at h ⊢
  unfold Kernel.register at h ⊢
  dsimp only at h ⊢
  cases hreply : s.kernel.registerReplies.head?.getD (.ok {}) with
  | error errno =>
    rw [hreply] at h
    cases h
    exact ⟨⟨errno, rfl⟩, rfl, _, _, _, rfl⟩
  | ok table => rw [hreply] at h; cases h

/-- A call that submits nothing and is refused leaves everything as it was, the caller's buffer
included. -/
theorem call_refused (hlive : s.ring.live = some live) {a : Step} (ha : a.isCall = true)
    (hs : a.submits = false) (he : (s.step a).1.error? = some e) :
    a.Refused s.kernel.cq.ready e ∧ s.Untouched (s.step a).2 ∧
      ∀ out wait, a = .copy out wait → (s.step a).1 = .copied (.error e) out := by
  cases a with
  | slot acts => cases ha
  | submit => cases hs
  | submitAndWait wait => cases hs
  | enter toSubmit minComplete flags =>
    have h : (s.enter toSubmit minComplete flags).1 = .error e := failure?_eq_some.mp he
    have henter : s.enter toSubmit minComplete flags =
        s.enterWith live toSubmit minComplete flags := by
      unfold enter
      rw [hlive]
    rw [henter] at h
    obtain ⟨⟨errno, rfl⟩, huntouched⟩ := enterWith_refused h
    rw [← henter] at huntouched
    exact ⟨.enter .., huntouched, by rintro out wait ⟨⟩⟩
  | harvest capacity wait =>
    have h : (s.harvest capacity wait).1 = .error e := failure?_eq_some.mp he
    obtain ⟨⟨errno, rfl⟩, huntouched⟩ := harvest_refused hlive h
    exact ⟨.harvest .., huntouched, by rintro out wait ⟨⟩⟩
  | copy out wait =>
    have h : (s.copyCompletions out wait).1 = .error e := failure?_eq_some.mp he
    obtain ⟨⟨errno, rfl⟩, hout, huntouched⟩ := copyCompletions_refused hlive h
    refine ⟨.copy .., huntouched, ?_⟩
    rintro _ _ ⟨⟩
    show Answer.copied (s.copyCompletions out wait).1 (s.copyCompletions out wait).2.1 = _
    rw [h, hout]
  | copyReady out =>
    have h : (s.copyReady out).1 = .error e := failure?_eq_some.mp he
    unfold copyReady at h
    rw [hlive] at h
    cases h
  | peek =>
    have h : s.peek = .error e := failure?_eq_some.mp he
    unfold peek Ring.alive at h
    rw [hlive] at h
    cases h
  | advance count =>
    have h : (s.advance count).1 = .error e := failure?_eq_some.mp he
    obtain ⟨hcount, rfl, hsame⟩ := advance_refused hlive h
    refine ⟨.advance hcount, ?_, by rintro out wait ⟨⟩⟩
    show s.Untouched (s.advance count).2
    rw [hsame]
    exact .refl s
  | destroy => cases ha
  | probe =>
    have h : s.probe.1 = .error e := failure?_eq_some.mp he
    obtain ⟨⟨errno, rfl⟩, huntouched⟩ := probe_refused hlive h
    exact ⟨.probe _, huntouched, by rintro out wait ⟨⟩⟩
  | supports opcode =>
    have h : (s.supports opcode).1 = .error e := failure?_eq_some.mp he
    -- the table of a probe answers for every opcode, so it was the probe that failed
    have hprobe : s.probe.1 = .error e := by
      unfold supports at h
      dsimp only at h
      cases hr : s.probe.1 with
      | error e' => rw [hr] at h; cases h; rfl
      | ok table => rw [hr] at h; cases h
    obtain ⟨⟨errno, rfl⟩, huntouched⟩ := probe_refused hlive hprobe
    exact ⟨.supports .., huntouched, by rintro out wait ⟨⟩⟩
  | kernel event => cases ha

/-! ### Submits -/

theorem submitAndWait_refused (h : s.Published live) {wait : UInt32}
    (he : (s.submitAndWait wait).1 = .error e) :
    (∃ errno, e = .enter errno) ∧ (s.flushed live).Untouched (s.submitAndWait wait).2 := by
  have houtcome := submitAndWait_outcome h wait
  generalize s.submitAndWait wait = r at houtcome he ⊢
  cases houtcome with
  | idle => cases he
  | @refused errno k hmust henter =>
    -- the batch is published by then, and a kernel that refuses leaves the memory alone
    have hentered := (s.flushed live).kernel.enter_entered live.fd
      (live.sq.outstanding s.kernel.sq) wait (submitFlags s.ring.polled s.kernel.sq wait)
    rw [henter] at hentered
    cases he
    cases hentered
    exact ⟨⟨errno, rfl⟩, rfl, _, _, _, rfl⟩
  | entered => cases he

/-- The batch is published, so that submitting again has nothing to publish. -/
def Settled (s : Machine) : Prop := ∃ live, s.Published live ∧ live.sq.head = live.sq.tail

theorem flushed_settled (s : Machine) (live : Live) : (s.flushed live).Settled :=
  ⟨_, ⟨rfl, rfl⟩, rfl⟩

theorem flushed_eq_self (h : s.Published live) (hsettled : live.sq.head = live.sq.tail) :
    s.flushed live = s := by
  obtain ⟨hlive, htail⟩ := h
  obtain ⟨⟨size, head, tail⟩, cq, maps, fd⟩ := live
  obtain rfl : head = tail := hsettled
  unfold flushed
  dsimp only at htail ⊢
  rw [← hlive, ← htail]

namespace Settled

theorem untouched (h : s.Settled) (ht : s.Untouched t) : t.Settled := by
  obtain ⟨live, ⟨hlive, htail⟩, hsettled⟩ := h
  obtain ⟨hring, _, _, _, hkernel⟩ := ht
  exact ⟨live, ⟨by rw [hring, hlive], by rw [hkernel]; exact htail⟩, hsettled⟩

theorem submitAndWait_refused (h : s.Settled) {wait : UInt32}
    (he : (s.submitAndWait wait).1 = .error e) : s.Untouched (s.submitAndWait wait).2 := by
  obtain ⟨live, hpublished, hsettled⟩ := h
  have hrefused := (Machine.submitAndWait_refused hpublished he).2
  rwa [flushed_eq_self hpublished hsettled] at hrefused

/-- Submits that fail one after another change nothing. -/
theorem resubmits (h : s.Settled) (waits : List UInt32)
    (hfail : ∀ x ∈ (s.run (waits.map .submitAndWait)).1, x.error? ≠ none) :
    s.Untouched (s.run (waits.map .submitAndWait)).2 := by
  -- a submit that fails leaves the machine settled, which carries the induction
  induction waits generalizing s with
  | nil => exact .refl s
  | cons wait rest ih =>
    have hfirst : (s.step (.submitAndWait wait)).1.error? ≠ none := hfail _ List.mem_cons_self
    obtain ⟨e, he⟩ := Option.ne_none_iff_exists'.mp hfirst
    have huntouched := h.submitAndWait_refused (failure?_eq_some.mp he)
    have hrest := ih (h.untouched huntouched) fun x hx => hfail x (List.mem_cons_of_mem _ hx)
    exact huntouched.trans hrest

end Settled

/-! ### The published tail -/

theorem Effect.published {ds : List Completion.Entry} (h : Effect s ds t)
    (hs : ∃ live, s.Published live) : ∃ live, t.Published live := by
  obtain ⟨live, hlive, htail⟩ := id hs
  cases h with
  | note e => exact hs
  | turn hturn =>
    refine ⟨live, hlive, ?_⟩
    -- the kernel moves its head and writes flags and counts, never the tail
    rcases hturn.sq_cases with ⟨n, rfl⟩ | ⟨-, flags, dropped, hsq⟩
    · obtain ⟨head, hsq⟩ := s.kernel.sq.take_memory n
      show (s.kernel.sq.take n).2.tail = _
      rw [hsq]
      exact htail
    · rw [hsq]
      exact htail
  | publish hlive' =>
    obtain rfl := Option.some.inj (hlive.symm.trans hlive')
    rw [publish_eq ⟨hlive, htail⟩]
    exact ⟨_, rfl, rfl⟩
  | pass hlive' hn hp => exact hs

theorem Path.published {ds : List Completion.Entry} (h : Path s ds t)
    (hs : ∃ live, s.Published live) : ∃ live, t.Published live := by
  induction h with
  | refl => exact hs
  | tail _ heff ih => exact heff.published ih

end Machine

namespace Session

theorem step_published {s : Session} (hs : ∃ live, s.machine.Published live) (a : Move) :
    ∃ live, (s.step a).machine.Published live := by
  obtain ⟨live, hlive, htail⟩ := id hs
  cases a with
  | claim =>
    rcases s.claim_cases with hclaim | ⟨_, index, -, -, hclaim⟩
    · show ∃ live, s.claim.machine.Published live
      rw [hclaim]
      exact hs
    · show ∃ live, s.claim.machine.Published live
      rw [hclaim]
      exact ⟨live, hlive, htail⟩
  | act a =>
    rcases s.act_cases a with hact | ⟨d, -, -, hact⟩
    · show ∃ live, (s.act a).machine.Published live
      rw [hact]
      exact hs
    · show ∃ live, (s.act a).machine.Published live
      rw [hact]
      -- an act may move the tail of the caller, but not the published one
      refine ⟨_, d.slot.perform_live _ hlive a, ?_⟩
      rw [Slot.perform_kernel]
      split <;> exact htail
  | drop => exact hs
  | call a ha => exact (Machine.call_path hlive a ha).published hs
  | kernel event => exact (Machine.Path.turns (Kernel.event_turns _ event)).published hs

/-- Whatever was done with a ring before: a use that is refused leaves the ring, its slot, the
memory shared with the kernel and the caller's buffer as they were.  Only a submit that the kernel
refuses leaves the batch published: nothing is pending then, nothing was taken, there is as much
room as before, and submits that fail after that change nothing. -/
theorem refused_untouched {setup : Setup} {k : Kernel} {ring : Ring}
    (h : (setup.build k).1 = .ok ring) (moves : List Move) :
    let s := (start ring (setup.build k).2).run moves
    let m := s.machine
    (∀ e, m.nextSlot.1 = .error e → e = .queueFull ∧ m.nextSlot.2 = m) ∧
    (∀ d a e, s.draft = some d → (d.slot.act m a).1 = .error e →
      a.Refused e ∧ (d.slot.act m a).2 = (d.slot, m)) ∧
    (∀ a e, a.isCall = true → a.submits = false → (m.step a).1.error? = some e →
      a.Refused m.kernel.cq.ready e ∧ m.Untouched (m.step a).2 ∧
        ∀ out wait, a = .copy out wait → (m.step a).1 = .copied (.error e) out) ∧
    ∀ wait e, (m.submitAndWait wait).1 = .error e →
      let t := (m.submitAndWait wait).2
      (∃ errno, e = .enter errno) ∧
        ∃ live, m.ring.live = some live ∧ (m.flushed live).Untouched t ∧
          t.sqInfo.map (·.pending) = .ok 0 ∧ t.sqSpaceLeft = m.sqSpaceLeft ∧
          t.kernel.sq.tail = live.sq.tail ∧ t.kernel.sq.head = m.kernel.sq.head ∧
          t.kernel.taken = m.kernel.taken ∧
          ∀ waits : List UInt32,
            (∀ x ∈ (t.run (waits.map .submitAndWait)).1, x.error? ≠ none) →
            t.Untouched (t.run (waits.map .submitAndWait)).2 := by
  intro s m
  obtain ⟨p, live, -, rfl, hfresh, -⟩ := Setup.build_ok h
  have hstart : (start (Ring.fresh live p) (setup.build k).2).machine.Published live :=
    ⟨rfl, hfresh.head_eq.symm⟩
  -- invariant of the run: the tail in memory is the one that the caller published
  obtain ⟨live, hpublished⟩ : ∃ live, m.Published live :=
    run_induction (P := fun s => ∃ live, s.machine.Published live)
      (fun s a hs => step_published hs a) ⟨live, hstart⟩ moves
  refine ⟨?_, ?_, ?_, ?_⟩
  · intro e he
    exact Machine.nextSlot_refused hpublished.1 he
  · intro d a e _ he
    exact Slot.act_refused he
  · intro a e ha hs he
    exact Machine.call_refused hpublished.1 ha hs he
  · intro wait e he t
    obtain ⟨herror, huntouched⟩ := Machine.submitAndWait_refused hpublished he
    obtain ⟨hring, enters, registers, calls, hkernel⟩ := id huntouched
    -- what is left is the flushed machine, up to replies and calls
    have hlive : t.ring.live = some { live with sq.head := live.sq.tail } := by
      rw [hring]
      rfl
    refine ⟨herror, live, hpublished.1, huntouched, ?_, ?_, ?_, ?_, ?_, ?_⟩
    · unfold Machine.sqInfo Ring.alive
      rw [hlive]
      exact congrArg Except.ok (UInt32.sub_self _)
    · unfold Machine.sqSpaceLeft Ring.alive
      rw [hlive, hpublished.1, hkernel]
      rfl
    · rw [hkernel]
      rfl
    · rw [hkernel]
      rfl
    · rw [hkernel]
      rfl
    · intro waits hfail
      exact ((m.flushed_settled live).untouched huntouched).resubmits waits hfail

/-- One committed entry, a malformed operation on its slot, an advance too far, and a submit that is
interrupted twice. -/
theorem refused_untouched_interrupted :
    ∃ ring, (Setup.build ⟨2, 0, 0⟩ { Kernel.idle ⟨1⟩ 0xffffffff with
        enterReplies := [.error .interrupted, .error .interrupted] }).1 = .ok ring ∧
      let s := (start ring (Setup.build ⟨2, 0, 0⟩ { Kernel.idle ⟨1⟩ 0xffffffff with
        enterReplies := [.error .interrupted, .error .interrupted] }).2).run
          [.claim, .act (.encode .nop)]
      let m := s.machine
      (∃ d, s.draft = some d ∧ (d.slot.act m (.encode (.close (-1)))).2 = (d.slot, m)) ∧
        m.Untouched (m.step (.advance 1)).2 ∧
        (m.submitAndWait 0).1 = .error (.enter .interrupted) ∧
        (m.submitAndWait 0).2.sqInfo.map (·.pending) = .ok 0 ∧
        (m.submitAndWait 0).2.Untouched ((m.submitAndWait 0).2.run [.submitAndWait 1]).2 := by
  refine ⟨_, rfl, ?_⟩
  obtain ⟨-, hact, hcall, hsubmit⟩ := @refused_untouched ⟨2, 0, 0⟩ { Kernel.idle ⟨1⟩ 0xffffffff with
    enterReplies := [.error .interrupted, .error .interrupted] } _ rfl [.claim, .act (.encode .nop)]
  obtain ⟨-, live, -, -, hpending, -, -, -, -, hmore⟩ := hsubmit 0 _ rfl
  refine ⟨⟨_, rfl, (hact _ (.encode (.close (-1))) _ rfl rfl).2⟩,
    (hcall (.advance 1) _ rfl rfl rfl).2.1, rfl, hpending, hmore [1] ?_⟩
  rintro x hx
  obtain rfl := List.mem_singleton.mp hx
  rintro ⟨⟩

end Session

end Uring
