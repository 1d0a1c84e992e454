import Uring.Proofs.Kernel.Enter
import Uring.Proofs.Ring.Effect
import Uring.Proofs.Ring.SetUp
import Uring.Proofs.Ring.Slot

/-!
# Uring.Proofs.Ring.Release — whatever a ring obtains is given back once

The record of calls says what a ring holds.  A set-up that fails has unmapped whatever it had mapped
and has closed the descriptor; one that succeeds holds all three regions until the first `destroy`,
which gives them back, and nothing is called after that.
-/

namespace Uring

namespace Mapping

def ofRegion (r : Region × UInt64) : Mapping := ⟨r.1, r.2⟩

/-- The call that obtains a mapping. -/
def mapCall (fd : Int32) (m : Mapping) : Syscall := .mmap m.size fd m.region.offset

/-- The call that gives it back. -/
def unmapCall (m : Mapping) : Syscall := .munmap m.region m.size

end Mapping

/-- The mappings that a ring needs, in the order of mapping. -/
def Params.mappings (p : Params) : List Mapping := p.regions.map .ofRegion

/-- The answer to the `i`-th mapping from now on. -/
def Kernel.mapReply (k : Kernel) (i : Nat) : MapReply := k.mapReplies[i]?.getD .mapped

/-! ### Mapping region after region -/

namespace Mapping

theorem release_calls (k : Kernel) (m : Mapping) :
    (release k m).calls = k.calls ++ [m.unmapCall] := rfl

/-- Releasing makes the calls and does nothing else. -/
theorem releaseAll_eq (k : Kernel) (ms : List Mapping) :
    releaseAll k ms = { k with calls := k.calls ++ ms.map unmapCall } := by
  induction ms generalizing k with
  | nil => simp [releaseAll]
  | cons m ms ih =>
    show releaseAll { k with calls := k.calls ++ [m.unmapCall] } ms = _
    rw [ih, List.append_assoc]
    rfl

/-- The kernel after it was asked for a mapping. -/
def asked (k : Kernel) (fd : Int32) (m : Mapping) : Kernel :=
  { k with mapReplies := k.mapReplies.tail }.record (m.mapCall fd)

theorem mapReply_asked (k : Kernel) (fd : Int32) (m : Mapping) (i : Nat) :
    (asked k fd m).mapReply i = k.mapReply (i + 1) := by
  show (k.mapReplies.tail[i]?).getD .mapped = _
  rw [List.getElem?_tail]
  rfl

/-- A mapping is refused without a call, granted, or refused by the kernel. -/
theorem acquire_cases (k : Kernel) (fd : Int32) (r : Region × UInt64) :
    (∃ e, acquire k fd r.1.offset r.2 = (.error e, k)) ∨
      (k.mapReply 0 = .mapped ∧
        acquire k fd r.1.offset r.2 = (.ok (ofRegion r), asked k fd (ofRegion r))) ∨
      (k.mapReply 0 ≠ .mapped ∧
        ∃ e, acquire k fd r.1.offset r.2 = (.error e, asked k fd (ofRegion r))) := by
  unfold acquire Kernel.mmap Kernel.mapReply
  rw [← List.head?_eq_getElem?]
  by_cases hsize : r.2 = 0
  · exact .inl ⟨_, if_pos hsize⟩
  · rw [if_neg hsize]
    right
    cases hreply : k.mapReplies.head?.getD .mapped with
    | mapped =>
      left
      simp only [Region.ofOffset_offset]
      exact ⟨trivial, rfl⟩
    | null => exact .inr ⟨by simp, _, rfl⟩
    | refused e => exact .inr ⟨by simp, _, rfl⟩

/-- How far mapping got before it failed: `got` was granted, and then `refused` was asked for and
not granted, unless mapping failed without a call. -/
structure Attempt (k : Kernel) (wanted got : List Mapping) (refused : Option Mapping) : Prop where
  order : got ++ refused.toList <+: wanted
  granted : ∀ i < got.length, k.mapReply i = .mapped
  not_granted : refused ≠ none → k.mapReply got.length ≠ .mapped

variable {k : Kernel} {fd : Int32} {m : Mapping} {wanted got : List Mapping}
variable {refused : Option Mapping}

theorem granted_cons (hm : k.mapReply 0 = .mapped)
    (h : ∀ i < got.length, (asked k fd m).mapReply i = .mapped) :
    ∀ i < (m :: got).length, k.mapReply i = .mapped := by
  intro i hi
  cases i with
  | zero => exact hm
  | succ i =>
    rw [← mapReply_asked k fd m]
    exact h i (Nat.lt_of_succ_lt_succ hi)

theorem Attempt.cons (hm : k.mapReply 0 = .mapped) (h : Attempt (asked k fd m) wanted got refused) :
    Attempt k (m :: wanted) (m :: got) refused := by
  refine ⟨List.cons_prefix_cons.mpr ⟨rfl, h.order⟩, granted_cons hm h.granted, ?_⟩
  intro hrefused
  rw [List.length_cons, ← mapReply_asked k fd m]
  exact h.not_granted hrefused

theorem attempt_nothing (k : Kernel) (wanted : List Mapping) : Attempt k wanted [] none :=
  ⟨List.nil_prefix, fun _ hi => absurd hi (Nat.not_lt_zero _), fun h => absurd rfl h⟩

theorem attempt_refused (hm : k.mapReply 0 ≠ .mapped) (m : Mapping) (wanted : List Mapping) :
    Attempt k (m :: wanted) [] (some m) :=
  ⟨List.cons_prefix_cons.mpr ⟨rfl, List.nil_prefix⟩, fun _ hi => absurd hi (Nat.not_lt_zero _),
    fun _ => hm⟩

/-- All mappings are obtained in order, or what was obtained until the first failure is given
back. -/
theorem acquireAll_calls (k : Kernel) (fd : Int32) (regions : List (Region × UInt64)) :
    (∀ ms, (acquireAll k fd regions).1 = .ok ms →
      ms = regions.map ofRegion ∧ (∀ i < ms.length, k.mapReply i = .mapped) ∧
        (acquireAll k fd regions).2.calls = k.calls ++ ms.map (mapCall fd)) ∧
    ∀ e, (acquireAll k fd regions).1 = .error e →
      ∃ got refused, Attempt k (regions.map ofRegion) got refused ∧
        (acquireAll k fd regions).2.calls =
          k.calls ++ (got ++ refused.toList).map (mapCall fd) ++ got.reverse.map unmapCall := by
  induction regions generalizing k with
  | nil =>
    refine ⟨?_, by rintro e ⟨⟩⟩
    rintro ms ⟨⟩
    exact ⟨rfl, fun _ hi => absurd hi (Nat.not_lt_zero _), (List.append_nil _).symm⟩
  | cons r rest ih =>
    rw [List.map_cons]
    unfold acquireAll
    rcases acquire_cases k fd r with ⟨e, hacquire⟩ | ⟨hm, hacquire⟩ | ⟨hm, e, hacquire⟩
    · -- refused without a call
      rw [hacquire]
      refine ⟨by rintro ms ⟨⟩, ?_⟩
      rintro e ⟨⟩
      exact ⟨[], none, attempt_nothing .., by simp⟩
    · -- granted, so the rest decides
      rw [hacquire]
      dsimp only
      obtain ⟨hok, herror⟩ := ih (asked k fd (ofRegion r))
      generalize acquireAll (asked k fd (ofRegion r)) fd rest = result at hok herror ⊢
      obtain ⟨e | ms, k'⟩ := result
      · refine ⟨by rintro ms ⟨⟩, ?_⟩
        rintro e ⟨⟩
        -- the rest has given back its own already, and this mapping, the oldest, goes last
        obtain ⟨got, refused, hattempt, hcalls⟩ := herror e rfl
        refine ⟨ofRegion r :: got, refused, hattempt.cons hm, ?_⟩
        dsimp only at hcalls ⊢
        rw [release_calls, hcalls]
        simp [asked, Kernel.record]
      · refine ⟨?_, by rintro e ⟨⟩⟩
        rintro ms ⟨⟩
        obtain ⟨rfl, hgranted, hcalls⟩ := hok ms rfl
        refine ⟨rfl, granted_cons hm hgranted, ?_⟩
        dsimp only at hcalls ⊢
        rw [hcalls]
        simp [asked, Kernel.record]
    · -- refused by the kernel
      rw [hacquire]
      refine ⟨by rintro ms ⟨⟩, ?_⟩
      rintro e ⟨⟩
      exact ⟨[], some (ofRegion r), attempt_refused hm .., by simp [asked, Kernel.record]⟩

end Mapping

/-! ### Setting up -/

theorem Kernel.attachQueues_calls (k : Kernel) : k.attachQueues.2.calls = k.calls := by
  unfold attachQueues
  generalize Submission.Queue.attach k.sq = r
  obtain ⟨_ | sq, memory⟩ := r
  · rfl
  · dsimp only
    cases Completion.Queue.attach k.cq <;> rfl

/-- A set-up that fails after the kernel granted the ring gives back the mappings that it obtained,
newest first; one that succeeds holds all mappings and the descriptor. -/
theorem Live.acquire_calls (k : Kernel) (p : Params) :
    (∀ live, (Live.acquire k p).1 = .ok live →
      live.maps = p.mappings ∧ live.fd = p.fd ∧ (∀ i < p.mappings.length, k.mapReply i = .mapped) ∧
        (Live.acquire k p).2.calls = k.calls ++ p.mappings.map (Mapping.mapCall p.fd)) ∧
    ∀ e, (Live.acquire k p).1 = .error e →
      ∃ got refused, Mapping.Attempt k p.mappings got refused ∧
        (Live.acquire k p).2.calls =
          k.calls ++ (got ++ refused.toList).map (Mapping.mapCall p.fd) ++
            got.reverse.map Mapping.unmapCall := by
  obtain ⟨hok, herror⟩ := Mapping.acquireAll_calls k p.fd p.regions
  unfold Live.acquire
  generalize Mapping.acquireAll k p.fd p.regions = result at hok herror ⊢
  obtain ⟨e | maps, k'⟩ := result
  · refine ⟨by rintro live ⟨⟩, ?_⟩
    rintro e ⟨⟩
    exact herror e rfl
  · obtain ⟨rfl, hgranted, hcalls⟩ := hok maps rfl
    have hattach := k'.attachQueues_calls
    dsimp only at hcalls ⊢
    generalize k'.attachQueues = attached at hattach ⊢
    obtain ⟨e | ⟨sq, cq⟩, k''⟩ := attached
    · -- all regions were mapped, and a queue did not attach
      refine ⟨by rintro live ⟨⟩, ?_⟩
      rintro e ⟨⟩
      refine ⟨p.mappings, none, ⟨by simp, hgranted, fun h => absurd rfl h⟩, ?_⟩
      dsimp only at hattach ⊢
      rw [Mapping.releaseAll_eq, hattach, hcalls]
      simp [Params.mappings]
    · refine ⟨?_, by rintro e ⟨⟩⟩
      rintro live ⟨⟩
      exact ⟨rfl, rfl, hgranted, hattach.trans hcalls⟩

/-! ### Using the ring -/

namespace Syscall

/-- Whether a call gives something back. -/
def releases : Syscall → Bool
  | .munmap .. | .close _ => true
  | _ => false

end Syscall

/-- Between two kernels there were calls, but nothing was given back. -/
def Kernel.Retains (k k' : Kernel) : Prop :=
  ∃ used, k'.calls = k.calls ++ used ∧ ∀ call ∈ used, call.releases = false

namespace Kernel

variable {k k' k'' : Kernel}

theorem Retains.of_eq (h : k'.calls = k.calls) : k.Retains k' :=
  ⟨[], by rw [h, List.append_nil], by rintro call ⟨⟩⟩

theorem Retains.trans (h : k.Retains k') (h' : k'.Retains k'') : k.Retains k'' := by
  obtain ⟨used, hcalls, hused⟩ := h
  obtain ⟨used', hcalls', hused'⟩ := h'
  refine ⟨used ++ used', by rw [hcalls', hcalls, List.append_assoc], ?_⟩
  intro call hcall
  rcases List.mem_append.mp hcall with hcall | hcall
  · exact hused call hcall
  · exact hused' call hcall

theorem Retains.record {call : Syscall} (h : call.releases = false) : k.Retains (k.record call) :=
  ⟨[call], rfl, fun c hc => by rw [List.mem_singleton.mp hc, h]⟩

theorem Turn.retains (h : Turn k k') : k.Retains k' := by
  cases h with
  | take n => exact .of_eq rfl
  | post c =>
    rcases k.post_cases c with ⟨-, -, hpost⟩ | ⟨-, hpost⟩ <;> exact .of_eq (by rw [hpost])
  | flushBacklog => exact .of_eq rfl
  | writeFlags word => cases word <;> exact .of_eq rfl
  | writeCounts dropped overflow => exact .of_eq rfl
  | replies enters registers => exact .of_eq rfl
  | entered => exact .record rfl
  | registered => exact .record rfl

theorem Turns.retains (h : Turns k k') : k.Retains k' :=
  h.invariant (P := k.Retains) (fun _ _ hturn ih => ih.trans hturn.retains) (.of_eq rfl)

end Kernel

namespace Machine

variable {s t : Machine} {ms : List Mapping} {fd : Int32}

/-- The ring is alive, with the given mappings and descriptor in its hands. -/
def Holds (s : Machine) (ms : List Mapping) (fd : Int32) : Prop :=
  ∃ live, s.ring.live = some live ∧ live.maps = ms ∧ live.fd = fd

theorem Effect.retains {ds : List Completion.Entry} (h : Effect s ds t) (hs : s.Holds ms fd) :
    s.kernel.Retains t.kernel ∧ t.Holds ms fd := by
  obtain ⟨live, hlive, hmaps, hfd⟩ := hs
  cases h with
  | note e => exact ⟨.of_eq rfl, live, hlive, hmaps, hfd⟩
  | turn hturn => exact ⟨hturn.retains, live, hlive, hmaps, hfd⟩
  | publish hlive' =>
    obtain rfl := Option.some.inj (hlive.symm.trans hlive')
    exact ⟨.of_eq rfl, _, rfl, hmaps, hfd⟩
  | pass hlive' hn hp => exact ⟨.of_eq rfl, live, hlive, hmaps, hfd⟩

theorem Path.retains {ds : List Completion.Entry} (h : Path s ds t) (hs : s.Holds ms fd) :
    s.kernel.Retains t.kernel ∧ t.Holds ms fd := by
  induction h with
  | refl => exact ⟨.of_eq rfl, hs⟩
  | tail _ heff ih =>
    obtain ⟨hretains, hholds⟩ := ih
    obtain ⟨hretains', hholds'⟩ := heff.retains hholds
    exact ⟨hretains.trans hretains', hholds'⟩

theorem FillsFrom.retains {live : Live} (h : t.FillsFrom s live) (hlive : s.ring.live = some live)
    (hs : s.Holds ms fd) : s.kernel.Retains t.kernel ∧ t.Holds ms fd := by
  obtain ⟨⟨sqes, hkernel⟩, ⟨sq, hlive'⟩, -⟩ := h
  obtain ⟨live', hlive'', hmaps, hfd⟩ := hs
  obtain rfl := Option.some.inj (hlive.symm.trans hlive'')
  exact ⟨.of_eq (by rw [hkernel]), _, hlive', hmaps, hfd⟩

end Machine

namespace Session

theorem step_retains {s : Session} {ms : List Mapping} {fd : Int32} (hs : s.machine.Holds ms fd)
    (a : Move) :
    s.machine.kernel.Retains (s.step a).machine.kernel ∧ (s.step a).machine.Holds ms fd := by
  obtain ⟨live, hlive, -⟩ := id hs
  cases a with
  | claim => exact (claim_fillsFrom hlive).retains hlive hs
  | act a => exact (act_fillsFrom hlive a).retains hlive hs
  | drop => exact ⟨.of_eq rfl, hs⟩
  | call a ha => exact (Machine.call_path hlive a ha).retains hs
  | kernel event => exact ⟨(Kernel.event_turns _ event).retains, hs⟩

theorem run_retains {s : Session} {ms : List Mapping} {fd : Int32} (hs : s.machine.Holds ms fd)
    (moves : List Move) :
    s.machine.kernel.Retains (s.run moves).machine.kernel ∧ (s.run moves).machine.Holds ms fd := by
  refine run_induction (P := fun t => s.machine.kernel.Retains t.machine.kernel ∧
    t.machine.Holds ms fd) ?_ ⟨.of_eq rfl, hs⟩ moves
  rintro t a ⟨hretains, hholds⟩
  obtain ⟨hretains', hholds'⟩ := step_retains hholds a
  exact ⟨hretains.trans hretains', hholds'⟩

end Session

/-! ### The end of a ring's life -/

namespace Kernel

/-- What a kernel does by itself is no call. -/
theorem event_calls (k : Kernel) (e : KernelEvent) : (k.event e).2.calls = k.calls := by
  cases e with
  | post cs => exact k.postAll_calls cs
  | consume n hold results =>
    cases hold with
    | true => rfl
    | false => exact postAll_calls (k.take n.toNat).2 _
  | script enters registers => rfl
  | overwrite sqFlags dropped overflow => cases sqFlags <;> rfl

end Kernel

/-- Whether a step needs the ring that `destroy` ends. -/
def Step.usesRing : Step → Bool
  | .destroy | .kernel _ => false
  | _ => true

theorem Step.usesRing_of_isCall {a : Step} (h : a.isCall = true) : a.usesRing = true := by
  cases a with
  | destroy => cases h
  | kernel event => cases h
  | _ => rfl

namespace Machine

variable {s : Machine}

theorem destroy_calls {ms : List Mapping} {fd : Int32} (h : s.Holds ms fd) :
    s.destroy.kernel.calls = s.kernel.calls ++ ms.map Mapping.unmapCall ++ [.close fd] ∧
      s.destroy.ring.live = none := by
  obtain ⟨live, hlive, rfl, rfl⟩ := h
  unfold destroy
  rw [hlive]
  dsimp only
  rw [Mapping.releaseAll_eq]
  exact ⟨rfl, rfl⟩

theorem destroy_of_destroyed (h : s.ring.live = none) : s.destroy = s := by
  unfold destroy
  rw [h]

/-- Every use of a ring that was destroyed is refused, and nothing happens. -/
theorem step_destroyed (h : s.ring.live = none) {a : Step} (ha : a.usesRing = true) :
    (s.step a).1.error? = some .destroyed ∧ (s.step a).2 = s := by
  cases a with
  | slot acts => simp [step, useSlot, nextSlot, h, Answer.error?, failure?]
  | submit => simp [step, submit, submitAndWait, h, Answer.error?, failure?]
  | submitAndWait wait => simp [step, submitAndWait, h, Answer.error?, failure?]
  | enter toSubmit minComplete flags => simp [step, enter, h, Answer.error?, failure?]
  | harvest capacity wait => simp [step, harvest, copyCompletions, h, Answer.error?, failure?]
  | copy out wait => simp [step, copyCompletions, h, Answer.error?, failure?]
  | copyReady out => simp [step, copyReady, h, Answer.error?, failure?]
  | peek => simp [step, peek, Ring.alive, h, Except.map, Answer.error?, failure?]
  | advance count => simp [step, advance, h, Answer.error?, failure?]
  | destroy => cases ha
  | probe => simp [step, probe, h, Answer.error?, failure?]
  | supports opcode => simp [step, supports, probe, h, Except.map, Answer.error?, failure?]
  | kernel event => cases ha

/-- Nothing is called for a ring that was destroyed, and it stays so. -/
theorem step_calls_destroyed (h : s.ring.live = none) (a : Step) :
    (s.step a).2.kernel.calls = s.kernel.calls ∧ (s.step a).2.ring.live = none := by
  cases a with
  | destroy =>
    show s.destroy.kernel.calls = _ ∧ s.destroy.ring.live = none
    rw [destroy_of_destroyed h]
    exact ⟨rfl, h⟩
  | kernel event =>
    exact ⟨s.kernel.event_calls event, h⟩
  | _ =>
    rw [(step_destroyed h rfl).2]
    exact ⟨rfl, h⟩

theorem run_calls_destroyed (h : s.ring.live = none) (steps : List Step) :
    (s.run steps).2.kernel.calls = s.kernel.calls ∧ (s.run steps).2.ring.live = none := by
  induction steps generalizing s with
  | nil => exact ⟨rfl, h⟩
  | cons a rest ih =>
    obtain ⟨hcalls, hlive⟩ := step_calls_destroyed h a
    obtain ⟨hcalls', hlive'⟩ := ih hlive
    exact ⟨hcalls'.trans hcalls, hlive'⟩

/-- The ring is gone, and whoever asks for it is told so. -/
structure Gone (s : Machine) : Prop where
  step : ∀ a, a.usesRing = true →
    (s.step a).1.error? = some .destroyed ∧ (s.step a).2 = s
  destroy : s.destroy = s
  rawFd : s.ring.rawFd = .error .destroyed
  sqInfo : s.sqInfo = .error .destroyed
  cqInfo : s.cqInfo = .error .destroyed
  sqSpaceLeft : s.sqSpaceLeft = .error .destroyed
  cqReady : s.cqReady = .error .destroyed

theorem gone_of_destroyed (h : s.ring.live = none) : s.Gone := by
  have halive : s.ring.alive = .error .destroyed := by
    unfold Ring.alive
    rw [h]
  refine ⟨fun a ha => step_destroyed h ha, destroy_of_destroyed h, ?_, ?_, ?_, ?_, ?_⟩
  · unfold Ring.rawFd
    rw [halive]
    rfl
  · unfold Machine.sqInfo
    rw [halive]
    rfl
  · unfold Machine.cqInfo
    rw [halive]
    rfl
  · unfold Machine.sqSpaceLeft
    rw [halive]
    rfl
  · unfold Machine.cqReady
    rw [halive]
    rfl

end Machine

/-! ### From the first call to the last -/

namespace Setup

variable {setup : Setup} {k : Kernel} {p : Params}

/-- The call that asks for a ring. -/
def call (setup : Setup) : Syscall := .setup setup.sqEntries setup.cqEntries setup.flags

theorem build_of_refused {e : Errno} (h : k.setupReply = .error e) :
    setup.build k = (.error (.syscallFailed e), k.record setup.call) := by
  unfold build Kernel.setup
  rw [h]
  rfl

theorem build_of_granted (h : k.setupReply = .ok p) :
    setup.build k =
      match Live.acquire (k.record setup.call) p with
      | (.error e, k) => (.error e, k.close p.fd)
      | (.ok live, k) => (.ok (Ring.fresh live p), k) := by
  unfold build Kernel.setup
  rw [h]
  rfl

theorem build_error_calls (h : k.setupReply = .ok p) {e : InitError}
    (he : (setup.build k).1 = .error e) :
    ∃ got refused, Mapping.Attempt k p.mappings got refused ∧
      (setup.build k).2.calls = k.calls ++ [setup.call] ++
        (got ++ refused.toList).map (Mapping.mapCall p.fd) ++
        got.reverse.map Mapping.unmapCall ++ [.close p.fd] := by
  have herror := (Live.acquire_calls (k.record setup.call) p).2
  rw [build_of_granted h] at he ⊢
  generalize Live.acquire (k.record setup.call) p = result at he herror ⊢
  obtain ⟨e' | live, k'⟩ := result
  · obtain ⟨got, refused, hattempt, hcalls⟩ := herror e' rfl
    -- asking for the ring used up no reply to a mapping, so the attempt is one from `k` as well
    exact ⟨got, refused, ⟨hattempt.order, hattempt.granted, hattempt.not_granted⟩,
      congrArg (· ++ [Syscall.close p.fd]) hcalls⟩
  · cases he

theorem build_ok_calls (h : k.setupReply = .ok p) {ring : Ring}
    (hring : (setup.build k).1 = .ok ring) :
    (∃ live, ring.live = some live ∧ live.maps = p.mappings ∧ live.fd = p.fd) ∧
      (∀ i < p.mappings.length, k.mapReply i = .mapped) ∧
      (setup.build k).2.calls =
        k.calls ++ [setup.call] ++ p.mappings.map (Mapping.mapCall p.fd) := by
  have hok := (Live.acquire_calls (k.record setup.call) p).1
  rw [build_of_granted h] at hring ⊢
  generalize Live.acquire (k.record setup.call) p = result at hring hok ⊢
  obtain ⟨e | live, k'⟩ := result
  · cases hring
  · cases hring
    obtain ⟨hmaps, hfd, hgranted, hcalls⟩ := hok live rfl
    exact ⟨⟨live, rfl, hmaps, hfd⟩, hgranted, hcalls⟩

end Setup

namespace Session

/-- A set-up that fails has unmapped each region that it had mapped, with its size, and has closed
the descriptor after that; nothing was mapped after the first failure.  A ring that comes up gives
nothing back, whatever is done with it, until it is destroyed or dropped.  That unmaps the three
regions and closes the descriptor.  From then on nothing is called, and every use is refused. -/
theorem released_once (setup : Setup) (k : Kernel) :
    (∀ e, k.setupReply = .error e →
      (setup.build k).1 = .error (.syscallFailed e) ∧
        (setup.build k).2.calls = k.calls ++ [setup.call]) ∧
    ∀ p, k.setupReply = .ok p →
      (∀ e, (setup.build k).1 = .error e →
        ∃ got refused, Mapping.Attempt k p.mappings got refused ∧
          (setup.build k).2.calls = k.calls ++ [setup.call] ++
            (got ++ refused.toList).map (Mapping.mapCall p.fd) ++
            got.reverse.map Mapping.unmapCall ++ [.close p.fd]) ∧
      ∀ ring, (setup.build k).1 = .ok ring →
        (∀ i < p.mappings.length, k.mapReply i = .mapped) ∧
        (setup.build k).2.calls =
          k.calls ++ [setup.call] ++ p.mappings.map (Mapping.mapCall p.fd) ∧
        ∀ moves,
          let s := ((start ring (setup.build k).2).run moves).machine
          (setup.build k).2.Retains s.kernel ∧
          s.destroy.kernel.calls =
            s.kernel.calls ++ p.mappings.map Mapping.unmapCall ++ [.close p.fd] ∧
          ∀ steps,
            let t := (s.destroy.run steps).2
            t.kernel.calls = s.destroy.kernel.calls ∧ t.Gone := by
  refine ⟨?_, ?_⟩
  · intro e he
    rw [Setup.build_of_refused he]
    exact ⟨rfl, rfl⟩
  · intro p hp
    refine ⟨fun e he => Setup.build_error_calls hp he, ?_⟩
    intro ring hring
    obtain ⟨hlive, hgranted, hcalls⟩ := Setup.build_ok_calls hp hring
    refine ⟨hgranted, hcalls, ?_⟩
    intro moves s
    -- up to `destroy` the run holds on to what was mapped, and after it there is nothing to hold
    obtain ⟨hretains, hholds⟩ := run_retains (s := start ring (setup.build k).2) hlive moves
    obtain ⟨hdestroy, hnone⟩ := Machine.destroy_calls hholds
    refine ⟨hretains, hdestroy, ?_⟩
    intro steps t
    obtain ⟨hcalls', hnone'⟩ := Machine.run_calls_destroyed hnone steps
    exact ⟨hcalls', Machine.gone_of_destroyed hnone'⟩

/-- The second region comes out at the null address; and a ring that is used and then destroyed
twice. -/
theorem released_once_null :
    (∃ got refused,
      Mapping.Attempt { Kernel.idle ⟨1⟩ 0 with mapReplies := [.mapped, .null] }
        [⟨.sq, 72⟩, ⟨.cq, 96⟩, ⟨.sqes, 128⟩] got refused ∧
      (Setup.build ⟨2, 0, 0⟩
          { Kernel.idle ⟨1⟩ 0 with mapReplies := [.mapped, .null] }).2.calls =
        [.setup 2 0 0] ++ (got ++ refused.toList).map (Mapping.mapCall 3) ++
          got.reverse.map Mapping.unmapCall ++ [.close 3]) ∧
    ∃ ring, (Setup.build ⟨2, 0, 0⟩ (.idle ⟨1⟩ 0)).1 = .ok ring ∧
      let s := ((start ring (Setup.build ⟨2, 0, 0⟩ (.idle ⟨1⟩ 0)).2).run
        [.claim, .act (.encode .nop), .call .submit]).machine
      s.destroy.kernel.calls =
        s.kernel.calls ++ [.munmap .sq 72, .munmap .cq 96, .munmap .sqes 128, .close 3] ∧
      (s.destroy.run [.destroy, .submit]).2.kernel.calls = s.destroy.kernel.calls := by
  refine ⟨?_, _, rfl, ?_⟩
  · exact ((released_once ⟨2, 0, 0⟩ { Kernel.idle ⟨1⟩ 0 with mapReplies := [.mapped, .null] }).2
      _ rfl).1 _ rfl
  · obtain ⟨-, -, hmoves⟩ := ((released_once ⟨2, 0, 0⟩ (.idle ⟨1⟩ 0)).2 _ rfl).2 _ rfl
    obtain ⟨-, hdestroy, hsteps⟩ := hmoves [.claim, .act (.encode .nop), .call .submit]
    exact ⟨hdestroy, (hsteps [.destroy, .submit]).1⟩

end Session

end Uring
