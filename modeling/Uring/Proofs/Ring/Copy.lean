import Uring.Proofs.Completion.Fifo
import Uring.Proofs.Kernel.Enter
import Uring.Proofs.Ring.Drain

/-!
# Uring.Proofs.Ring.Copy — taking completions goes in three phases

What is at hand is taken without a call.  With nothing at hand, nothing happens unless events are
wanted; then the kernel is entered once, and if that succeeds taking is tried once more.  In each
phase the count, the head and the front of the buffer move together (`Queue.Takes`), and nothing
else of the buffer or of the completion ring is written.
-/

namespace Uring

/-! ### Taking a batch -/

namespace Completion.Queue

variable {q : Queue} {m m' : Memory} {out out' : Array Entry} {count : UInt32}

/-- The oldest completions go to the front of a buffer, as many as are ready and fit.  The head
moves past them, and the rest of the buffer and of the memory stays as it was. -/
structure Takes (q : Queue) (m : Memory) (out : Array Entry) (count : UInt32) (out' : Array Entry)
    (m' : Memory) : Prop where
  count_eq : count.toNat = min m.ready.toNat out.size
  out_eq : out'.toList = (q.toList m).take count.toNat ++ out.toList.drop count.toNat
  memory_eq : m' = { m with head := m.head + count }

theorem Bounded.takes (h : q.Bounded m) (out : Array Entry) :
    q.Takes m out (q.copyReady m out).1 (q.copyReady m out).2.1 (q.copyReady m out).2.2 := by
  refine ⟨q.toNat_copyReady_count m out, ?_, rfl⟩
  have hlen := q.length_toList m
  have hsize : out.toList.length = out.size := Array.length_toList
  rw [q.toNat_copyReady_count, q.toList_copyReady h]
  rcases Nat.le_total m.ready.toNat out.size with hle | hle
  · rw [Nat.min_eq_left hle, List.take_of_length_le (by omega), List.take_of_length_le (by omega)]
  · rw [Nat.min_eq_right hle, List.drop_eq_nil_of_le (by omega), List.drop_eq_nil_of_le (by omega)]

namespace Takes

theorem count_le (h : q.Takes m out count out' m') : count.toNat ≤ out.size := by
  rw [h.count_eq]
  exact Nat.min_le_right ..

/-- As much of the buffer is written as completions are taken. -/
theorem length_taken (h : q.Takes m out count out' m') :
    ((q.toList m).take count.toNat).length = count.toNat := by
  have hcount := h.count_eq
  rw [List.length_take, length_toList]
  omega

theorem drop_eq (h : q.Takes m out count out' m') :
    out'.toList.drop count.toNat = out.toList.drop count.toNat := by
  rw [h.out_eq]
  exact List.drop_left' h.length_taken

theorem size_eq (h : q.Takes m out count out' m') : out'.size = out.size := by
  have hlen := congrArg List.length h.out_eq
  have hle := h.count_le
  rw [List.length_append, h.length_taken, List.length_drop, Array.length_toList,
    Array.length_toList] at hlen
  omega

end Takes

end Completion.Queue

namespace Machine

variable {s t : Machine} {live : Live} {out out' : Array Completion.Entry} {count wait : UInt32}

theorem takeReady_takes (hb : live.cq.Bounded s.kernel.cq)
    (h : s.takeReady live out = (count, out', t)) :
    ∃ cq, live.cq.Takes s.kernel.cq out count out' cq ∧ t = { s with kernel.cq := cq } := by
  have htakes := hb.takes out
  unfold takeReady at h
  cases h
  exact ⟨_, htakes, rfl⟩

theorem takeReady_ring (h : s.takeReady live out = (count, out', t)) : t.ring = s.ring := by
  unfold takeReady at h
  cases h
  rfl

theorem enterWith_ring {reply : Except RingError UInt32} {toSubmit flags : UInt32}
    (h : s.enterWith live toSubmit wait flags = (reply, t)) : t.ring = s.ring := by
  rw [enterWith_eq] at h
  cases h
  rfl

theorem CopyOutcome.ring_eq {r : Except RingError UInt32 × Array Completion.Entry × Machine}
    (h : CopyOutcome s live out wait r) : r.2.2.ring = s.ring := by
  cases h with
  | atHand htake =>
    have hring := takeReady_ring htake
    exact hring
  | idle => rfl
  | refused htake hwarn henter => exact (enterWith_ring henter).trans hwarn.ring_eq
  | entered htake hwarn henter hagain =>
    have hring := (takeReady_ring hagain).trans ((enterWith_ring henter).trans hwarn.ring_eq)
    exact hring

/-- With nothing at hand and no events wanted, nothing happens. -/
theorem copyCompletions_idle (hlive : s.ring.live = some live)
    (hnone : min s.kernel.cq.ready.toNat out.size = 0) (hwants : ¬ s.WantsEvents wait) :
    s.copyCompletions out wait = (.ok 0, out, s) := by
  have hidle : (!s.kernel.sq.cqNeedsFlush && wait = 0) = true := by
    rw [wantsEvents_iff, Bool.not_eq_true, Bool.or_eq_false_iff] at hwants
    simpa [UInt32.pos_iff_ne_zero, and_comm] using hwants
  unfold copyCompletions
  rw [hlive]
  dsimp only
  rw [takeReady_of_none s live hnone]
  dsimp only
  rw [if_neg (UInt32.lt_irrefl 0), if_pos hidle]

/-- How taking completions went, from `s` to the result, the buffer and the machine in `r`. -/
structure Copies (s : Machine) (live : Live) (out : Array Completion.Entry) (wait : UInt32)
    (r : Except RingError UInt32 × Array Completion.Entry × Machine) : Prop where
  ring_eq : r.2.2.ring = s.ring
  /-- What is at hand is taken, and nothing else happens. -/
  atHand : 0 < min s.kernel.cq.ready.toNat out.size → ∃ count cq,
    r.1 = .ok count ∧ live.cq.Takes s.kernel.cq out count r.2.1 cq ∧
      r.2.2.kernel = { s.kernel with cq := cq }
  idle : min s.kernel.cq.ready.toNat out.size = 0 → ¬ s.WantsEvents wait → r = (.ok 0, out, s)
  /-- The kernel is entered once, for events alone.  If that fails, nothing is taken, and otherwise
  what is at hand then. -/
  entered : min s.kernel.cq.ready.toNat out.size = 0 → s.WantsEvents wait → ∃ reply k taken,
    s.kernel.enter live.fd 0 wait Abi.enterGetEvents = (reply, k) ∧
      k.calls = s.kernel.calls ++ [.enter live.fd 0 wait Abi.enterGetEvents taken] ∧
      k.cq.head = s.kernel.cq.head ∧
      match reply with
      | .error errno => r.1 = .error (.enter errno) ∧ r.2.1 = out ∧ r.2.2.kernel = k ∧
          k.cq = s.kernel.cq
      | .ok _ => ∃ count cq, r.1 = .ok count ∧ live.cq.Takes k.cq out count r.2.1 cq ∧
          r.2.2.kernel = { k with cq := cq }

theorem copyCompletions_copies {delivered : List Completion.Entry}
    (hlive : s.ring.live = some live) (h : s.kernel.Accounts live.cq delivered)
    (out : Array Completion.Entry) (wait : UInt32) :
    s.Copies live out wait (s.copyCompletions out wait) := by
  have houtcome := copyCompletions_outcome hlive out wait
  refine ⟨houtcome.ring_eq, ?_, copyCompletions_idle hlive, ?_⟩
  · intro hpos
    obtain ⟨count, out', t, htake, hr⟩ := houtcome.of_pos hpos
    obtain ⟨cq, htakes, rfl⟩ := takeReady_takes h.bounded htake
    rw [hr]
    exact ⟨count, cq, rfl, htakes, rfl⟩
  · intro hzero hwants
    have hturns := Kernel.enter_turns s.kernel live.fd 0 wait Abi.enterGetEvents
    have hentered := s.kernel.enter_entered live.fd 0 wait Abi.enterGetEvents
    obtain ⟨taken, hcalls⟩ := s.kernel.enter_calls live.fd 0 wait Abi.enterGetEvents
    obtain ⟨u, reply, v, hwarn, henter, hr⟩ := houtcome.of_wants hzero hwants
    -- a warning in the log is no concern of the kernel
    rw [enterWith_eq, hwarn.kernel_eq] at henter
    generalize s.kernel.enter live.fd 0 wait Abi.enterGetEvents = x
      at hturns hentered hcalls henter ⊢
    obtain ⟨answer, k⟩ := x
    refine ⟨answer, k, taken, rfl, hcalls, hturns.cq_head, ?_⟩
    cases henter
    cases answer with
    | error errno =>
      rw [hr]
      cases hentered
      exact ⟨rfl, rfl, rfl, rfl⟩
    | ok n =>
      -- whatever the kernel did meanwhile, it has not overfilled the ring
      obtain ⟨count, out', t, hagain, hr⟩ := hr
      obtain ⟨cq, htakes, rfl⟩ := takeReady_takes (h.turns hturns).bounded hagain
      rw [hr]
      exact ⟨count, cq, rfl, htakes, rfl⟩

/-- What taking completions leaves alone, however it goes: it makes one call at most and submits
nothing, and no more of the buffer is written than it says. -/
structure CopyFrame (s : Machine) (live : Live) (out : Array Completion.Entry) (wait : UInt32)
    (r : Except RingError UInt32 × Array Completion.Entry × Machine) : Prop where
  calls : r.2.2.kernel.calls = s.kernel.calls ∨ ∃ taken, r.2.2.kernel.calls =
    s.kernel.calls ++ [.enter live.fd 0 wait Abi.enterGetEvents taken]
  taken_eq : r.2.2.kernel.taken = s.kernel.taken
  sq_eq : ∃ word, r.2.2.kernel.sq = { s.kernel.sq with flags := word }
  size_eq : r.2.1.size = out.size
  rest : ∀ count, r.1 = .ok count →
    count.toNat ≤ out.size ∧ r.2.1.toList.drop count.toNat = out.toList.drop count.toNat
  failed : ∀ e, r.1 = .error e → r.2.1 = out ∧ r.2.2.kernel.cq = s.kernel.cq

theorem CopyFrame.of_takes {k : Kernel} {m cq : Completion.Memory}
    (hcalls : k.calls = s.kernel.calls ∨ ∃ taken, k.calls =
      s.kernel.calls ++ [.enter live.fd 0 wait Abi.enterGetEvents taken])
    (htaken : k.taken = s.kernel.taken) (hsq : ∃ word, k.sq = { s.kernel.sq with flags := word })
    (htakes : live.cq.Takes m out count out' cq) (hkernel : t.kernel = { k with cq := cq }) :
    s.CopyFrame live out wait (.ok count, out', t) := by
  refine ⟨?_, ?_, ?_, htakes.size_eq, ?_, ?_⟩
  · rw [hkernel]
    exact hcalls
  · rw [hkernel]
    exact htaken
  · rw [hkernel]
    exact hsq
  · rintro _ ⟨⟩
    exact ⟨htakes.count_le, htakes.drop_eq⟩
  · rintro e ⟨⟩

theorem Copies.frame {r : Except RingError UInt32 × Array Completion.Entry × Machine}
    (h : s.Copies live out wait r) : s.CopyFrame live out wait r := by
  obtain ⟨result, out', t⟩ := r
  by_cases hpos : 0 < min s.kernel.cq.ready.toNat out.size
  · obtain ⟨count, cq, rfl, htakes, hkernel⟩ := h.atHand hpos
    exact .of_takes (.inl rfl) rfl ⟨s.kernel.sq.flags, rfl⟩ htakes hkernel
  · have hzero : min s.kernel.cq.ready.toNat out.size = 0 := by omega
    by_cases hwants : s.WantsEvents wait
    · obtain ⟨reply, k, taken, henter, hcalls, -, hreply⟩ := h.entered hzero hwants
      have htaken := s.kernel.enter_zero_taken live.fd wait Abi.enterGetEvents
      have hsq := s.kernel.enter_zero_sq live.fd wait Abi.enterGetEvents
      rw [henter] at htaken hsq
      cases reply with
      | error errno =>
        obtain ⟨rfl, rfl, rfl, hcq⟩ := hreply
        exact ⟨.inr ⟨taken, hcalls⟩, htaken, hsq, rfl, by rintro _ ⟨⟩, fun _ _ => ⟨rfl, hcq⟩⟩
      | ok n =>
        obtain ⟨count, cq, rfl, htakes, hkernel⟩ := hreply
        exact .of_takes (.inr ⟨taken, hcalls⟩) htaken hsq htakes hkernel
    · cases h.idle hzero hwants
      refine ⟨.inl rfl, rfl, ⟨s.kernel.sq.flags, rfl⟩, rfl, ?_, ?_⟩
      · rintro _ ⟨⟩
        exact ⟨Nat.zero_le _, rfl⟩
      · rintro e ⟨⟩

end Machine

namespace Session

/-- Whatever was done with a ring before, and whatever buffer is given: taking completions goes in
three phases.  What is at hand is taken without a call, from the oldest on, as much as fits.  With
nothing at hand and no events wanted, nothing happens.  Otherwise the kernel is entered once, and
taking is tried once more, unless the enter fails, which leaves everything to be taken.  There is
one call at most, nothing is submitted, and the buffer beyond the count is left alone. -/
theorem copy_in_phases {setup : Setup} {k : Kernel} {ring : Ring}
    (h : (setup.build k).1 = .ok ring) (hidle : k.cq.head = k.cq.tail) (hbacklog : k.backlog = [])
    (moves : List Move) (out : Array Completion.Entry) (wait : UInt32) :
    let m := ((start ring (setup.build k).2).run moves).machine
    let r := m.copyCompletions out wait
    ∃ live, m.ring.live = some live ∧ live.cq.Bounded m.kernel.cq ∧ m.Copies live out wait r ∧
      m.CopyFrame live out wait r := by
  intro m r
  obtain ⟨live, hlive, haccounts⟩ := run_accounts h hidle hbacklog moves
  have hcopies := Machine.copyCompletions_copies hlive haccounts.kernel out wait
  exact ⟨live, hlive, haccounts.kernel.bounded, hcopies, hcopies.frame⟩

/-- Three completions on a ring of two, which is then emptied: nothing is at hand, but one is held
back.  A copy into a buffer of four enters the kernel once and takes that one. -/
theorem copy_in_phases_backlog :
    ∃ ring, (Setup.build ⟨2, 0, 0⟩ (.idle ⟨1⟩ 0xffffffff)).1 = .ok ring ∧
      let m := ((start ring (Setup.build ⟨2, 0, 0⟩ (.idle ⟨1⟩ 0xffffffff)).2).run
        [.kernel (.post [⟨1, 0, 0⟩, ⟨2, 0, 0⟩, ⟨3, 0, 0⟩]), .call (.advance 2)]).machine
      let r := m.copyCompletions (Array.replicate 4 default) 0
      m.kernel.cq.ready = 0 ∧ m.WantsEvents 0 ∧ r.1.toOption = some 1 ∧
        r.2.1.toList = ⟨3, 0, 0⟩ :: List.replicate 3 default ∧
        ∃ live, m.ring.live = some live ∧ m.Copies live (Array.replicate 4 default) 0 r := by
  have hbuild : (Setup.build ⟨2, 0, 0⟩ (.idle ⟨1⟩ 0xffffffff)).1 = .ok _ := rfl
  refine ⟨_, hbuild, ?_⟩
  intro m r
  obtain ⟨live, hlive, -, hcopies, -⟩ := copy_in_phases hbuild rfl rfl
    [.kernel (.post [⟨1, 0, 0⟩, ⟨2, 0, 0⟩, ⟨3, 0, 0⟩]), .call (.advance 2)]
    (Array.replicate 4 default) 0
  exact ⟨by decide, .inr (.inl (by decide)), by decide, by decide +kernel, live, hlive, hcopies⟩

end Session

end Uring
