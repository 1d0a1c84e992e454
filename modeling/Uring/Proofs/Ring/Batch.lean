import Uring.Proofs.Ring.Bounded
import Uring.Proofs.Ring.Copy
import Uring.Proofs.Ring.Release

/-!
# Uring.Proofs.Ring.Batch — a batch is the front of a buffer

A harvest copies into a buffer that is no larger than the ring was said to be.  Nothing is lost by
that: two buffers that hold equally much of the ring are filled alike, before and after an enter,
since no more is ever at hand than the ring has slots for.

The buffer does matter for entering the kernel: with completions at hand it is entered only for a
buffer without room.
-/

namespace Uring

/-! ### Two buffers -/

namespace Completion.Queue

variable {q : Queue} {m : Memory} {out out' : Array Entry}

/-- Two buffers take equally many completions if they hold equally much of a full ring. -/
theorem Bounded.min_ready (h : q.Bounded m)
    (hsize : min q.size.entries.toNat out.size = min q.size.entries.toNat out'.size) :
    min m.ready.toNat out.size = min m.ready.toNat out'.size := by
  have hready := h.ready_le
  omega

theorem Bounded.copyReady_alike (h : q.Bounded m)
    (hsize : min q.size.entries.toNat out.size = min q.size.entries.toNat out'.size) :
    (q.copyReady m out).1 = (q.copyReady m out').1 ∧
      (q.copyReady m out).2.2 = (q.copyReady m out').2.2 ∧
      (q.copyReady m out).2.1.toList.take (q.copyReady m out).1.toNat =
        (q.copyReady m out').2.1.toList.take (q.copyReady m out').1.toNat := by
  have hcount := h.min_ready hsize
  have hanswer : (q.copyReady m out).1 = (q.copyReady m out').1 := congrArg UInt32.ofNat hcount
  refine ⟨hanswer, ?_, ?_⟩
  · show { m with head := m.head + (q.copyReady m out).1 } = _
    rw [hanswer]
    rfl
  · rw [q.toNat_copyReady_count, q.toNat_copyReady_count, q.take_toList_copyReady h,
      q.take_toList_copyReady h, hcount]

end Completion.Queue

namespace Machine

variable {s : Machine} {live : Live} {out out' : Array Completion.Entry} {wait : UInt32}

/-- Two copies went alike: the answer, the machine and what was filled are the same. -/
structure SameBatch (r r' : Except RingError UInt32 × Array Completion.Entry × Machine) : Prop where
  answer : r.1 = r'.1
  machine : r.2.2 = r'.2.2
  filled : filled r.2.1 r.1 = filled r'.2.1 r'.1

theorem SameBatch.batch_eq {r r' : Except RingError UInt32 × Array Completion.Entry × Machine}
    (h : SameBatch r r') :
    (r.1.map fun count => r.2.1.take count.toNat) =
      r'.1.map fun count => r'.2.1.take count.toNat := by
  obtain ⟨answer, out, t⟩ := r
  obtain ⟨answer', out', t'⟩ := r'
  obtain ⟨rfl, -, hfilled⟩ := h
  cases answer with
  | error e => rfl
  | ok count =>
    have hlist : out.toList.take count.toNat = out'.toList.take count.toNat := hfilled
    have hbatch : out.take count.toNat = out'.take count.toNat :=
      Array.toList_inj.mp (by simpa using hlist)
    exact congrArg Except.ok hbatch

theorem takeReady_alike (h : live.cq.Bounded s.kernel.cq)
    (hsize : min live.cq.size.entries.toNat out.size = min live.cq.size.entries.toNat out'.size) :
    (s.takeReady live out).1 = (s.takeReady live out').1 ∧
      (s.takeReady live out).2.2 = (s.takeReady live out').2.2 ∧
      filled (s.takeReady live out).2.1 (.ok (s.takeReady live out).1) =
        filled (s.takeReady live out').2.1 (.ok (s.takeReady live out').1) := by
  obtain ⟨hanswer, hmemory, hfilled⟩ := h.copyReady_alike hsize
  exact ⟨hanswer, congrArg (fun memory => { s with kernel.cq := memory }) hmemory, hfilled⟩

/-- Whatever was taken, the ring is not overfull after an enter either. -/
theorem bounded_enterWith (h : live.cq.Bounded s.kernel.cq) (toSubmit wait flags : UInt32) :
    live.cq.Bounded (s.enterWith live toSubmit wait flags).2.kernel.cq :=
  (Kernel.enter_turns s.kernel live.fd toSubmit wait flags).bounded h

theorem copyCompletions_sameBatch (hlive : s.ring.live = some live)
    (h : live.cq.Bounded s.kernel.cq)
    (hsize : min live.cq.size.entries.toNat out.size = min live.cq.size.entries.toNat out'.size)
    (wait : UInt32) : SameBatch (s.copyCompletions out wait) (s.copyCompletions out' wait) := by
  obtain ⟨hanswer, hmachine, hfilled⟩ := takeReady_alike h hsize
  have hbounded : live.cq.Bounded (s.takeReady live out).2.2.kernel.cq :=
    h.skip (Nat.min_le_left ..)
  -- a second attempt is made into what the first one left of the buffers
  rw [← size_takeReady s live out, ← size_takeReady s live out'] at hsize
  unfold copyCompletions
  rw [hlive]
  dsimp only
  generalize s.takeReady live out = r at hanswer hmachine hfilled hbounded hsize ⊢
  generalize s.takeReady live out' = r' at hanswer hmachine hfilled hsize ⊢
  obtain ⟨count, o, t⟩ := r
  obtain ⟨count', o', t'⟩ := r'
  dsimp only at hanswer hmachine hfilled hbounded hsize ⊢
  subst hanswer hmachine
  by_cases hpos : count > 0
  · rw [if_pos hpos, if_pos hpos]
    exact ⟨rfl, rfl, hfilled⟩
  · rw [if_neg hpos, if_neg hpos]
    by_cases hidle : (!t.kernel.sq.cqNeedsFlush && wait = 0) = true
    · rw [if_pos hidle, if_pos hidle]
      exact ⟨rfl, rfl, rfl⟩
    · rw [if_neg hidle, if_neg hidle]
      have hwarned : live.cq.Bounded (if t.kernel.sq.cqOverflowed then
          t.note (.overflowed t.kernel.cq.overflow) else t).kernel.cq := by
        split <;> exact hbounded
      generalize (if t.kernel.sq.cqOverflowed then t.note (.overflowed t.kernel.cq.overflow)
        else t) = u at hwarned ⊢
      -- the enter knows nothing of the buffers, so both go on from the same machine
      have hentered := bounded_enterWith hwarned 0 wait Abi.enterGetEvents
      generalize u.enterWith live 0 wait Abi.enterGetEvents = e at hentered ⊢
      obtain ⟨reply, v⟩ := e
      cases reply with
      | error e => exact ⟨rfl, rfl, rfl⟩
      | ok n =>
        obtain ⟨hanswer, hmachine, hfilled⟩ := takeReady_alike hentered hsize
        refine ⟨congrArg Except.ok hanswer, ?_, hfilled⟩
        dsimp only
        rw [hanswer, hmachine]

/-- No more is taken than the buffer has room for, and it keeps its size. -/
theorem copyCompletions_fits (hlive : s.ring.live = some live) (out : Array Completion.Entry)
    (wait : UInt32) :
    (s.copyCompletions out wait).2.1.size = out.size ∧
      ∀ count, (s.copyCompletions out wait).1 = .ok count → count.toNat ≤ out.size := by
  have htaken {t : Machine} {count : UInt32} {o : Array Completion.Entry} {u : Machine}
      (htake : t.takeReady live out = (count, o, u)) :
      o.size = out.size ∧ count.toNat ≤ out.size := by
    have hsize := size_takeReady t live out
    have hcount := toNat_takeReady_count t live out
    rw [htake] at hsize hcount
    exact ⟨hsize, by dsimp only at hcount; omega⟩
  have houtcome := copyCompletions_outcome hlive out wait
  generalize s.copyCompletions out wait = r at houtcome ⊢
  cases houtcome with
  | atHand htake hpos =>
    obtain ⟨hsize, hcount⟩ := htaken htake
    exact ⟨hsize, by rintro _ ⟨⟩; exact hcount⟩
  | idle => exact ⟨rfl, by rintro _ ⟨⟩; exact Nat.zero_le _⟩
  | refused => exact ⟨rfl, by rintro _ ⟨⟩⟩
  | entered htake hwarn henter hagain =>
    obtain ⟨hsize, hcount⟩ := htaken hagain
    exact ⟨hsize, by rintro _ ⟨⟩; exact hcount⟩

/-! ### Harvesting -/

/-- A harvest copies into a buffer of its own. -/
theorem harvest_eq (s : Machine) (capacity : Nat) (wait : UInt32) :
    s.harvest capacity wait =
      let r := s.copyCompletions (.replicate (min capacity s.ring.cqEntries.toNat) default) wait
      (r.1.map fun count => r.2.1.take count.toNat, r.2.2) := by
  unfold harvest
  dsimp only
  generalize s.copyCompletions _ wait = r
  obtain ⟨_ | count, out, t⟩ := r <;> rfl

/-- A ring that is as large as was reported fills any buffer as it fills that one. -/
theorem harvest_eq_copy (hlive : s.ring.live = some live) (h : live.cq.Bounded s.kernel.cq)
    (hreported : s.ring.cqEntries = live.cq.size.entries) (out : Array Completion.Entry)
    (wait : UInt32) :
    s.harvest out.size wait =
      ((s.copyCompletions out wait).1.map fun count =>
          (s.copyCompletions out wait).2.1.take count.toNat,
        (s.copyCompletions out wait).2.2) := by
  have hsize : min live.cq.size.entries.toNat
      (Array.replicate (min out.size s.ring.cqEntries.toNat) (default : Completion.Entry)).size =
        min live.cq.size.entries.toNat out.size := by
    rw [Array.size_replicate, hreported]
    omega
  have hsame := copyCompletions_sameBatch hlive h hsize wait
  rw [harvest_eq, ← hsame.batch_eq, ← hsame.machine]

/-! ### Entering the kernel -/

/-- The kernel is entered exactly if nothing can be taken and events are wanted. -/
theorem copyCompletions_calls_iff (hlive : s.ring.live = some live)
    (out : Array Completion.Entry) (wait : UInt32) :
    (s.copyCompletions out wait).2.2.kernel.calls ≠ s.kernel.calls ↔
      min s.kernel.cq.ready.toNat out.size = 0 ∧ s.WantsEvents wait := by
  have hcalls {u v : Machine} {reply : Except RingError UInt32} (hwarn : s.Warns u)
      (henter : u.enterWith live 0 wait Abi.enterGetEvents = (reply, v)) :
      v.kernel.calls ≠ s.kernel.calls := by
    obtain ⟨taken, hk⟩ := s.kernel.enter_calls live.fd 0 wait Abi.enterGetEvents
    rw [enterWith_eq, hwarn.kernel_eq] at henter
    cases henter
    simp [hk]
  have houtcome := copyCompletions_outcome hlive out wait
  by_cases hzero : min s.kernel.cq.ready.toNat out.size = 0
  · by_cases hwants : s.WantsEvents wait
    · refine iff_of_true ?_ ⟨hzero, hwants⟩
      obtain ⟨u, reply, v, hwarn, henter, hr⟩ := houtcome.of_wants hzero hwants
      have hne := hcalls hwarn henter
      cases reply with
      | error e =>
        rw [hr]
        exact hne
      | ok n =>
        -- taking what the enter brought makes no call
        obtain ⟨count, out', t, hagain, hr⟩ := hr
        rw [hr]
        cases hagain
        exact hne
    · rw [copyCompletions_idle hlive hzero hwants]
      exact iff_of_false (fun hne => hne rfl) (fun h => hwants h.2)
  · refine iff_of_false ?_ (fun h => hzero h.1)
    obtain ⟨count, out', t, htake, hr⟩ := houtcome.of_pos (Nat.pos_of_ne_zero hzero)
    rw [hr]
    cases htake
    exact fun hne => hne rfl

end Machine

namespace Session

/-- A ring that is as large as was reported is harvested as it is copied from: into a buffer of any
size, the same calls are made, the same failure is met, and the batch is the front of that buffer,
as far as it was filled. -/
theorem harvest_eq_copyCompletions {setup : Setup} {k : Kernel} {ring : Ring}
    (h : (setup.build k).1 = .ok ring) (hfits : k.cq.ready ≤ k.cq.entries)
    (hreported : ring.cqEntries = k.cq.entries) (moves : List Move)
    (out : Array Completion.Entry) (wait : UInt32) :
    let m := ((start ring (setup.build k).2).run moves).machine
    let r := m.copyCompletions out wait
    m.harvest out.size wait = (r.1.map fun count => r.2.1.take count.toNat, r.2.2) ∧
      ∀ batch, (m.harvest out.size wait).1 = .ok batch →
        r.1 = .ok (.ofNat batch.size) ∧ batch.size ≤ out.size := by
  intro m r
  obtain ⟨live, hlive, hentries, hsized⟩ := run_sized h hfits moves
  have heq : m.harvest out.size wait = (r.1.map fun count => r.2.1.take count.toNat, r.2.2) :=
    Machine.harvest_eq_copy hlive hsized.bounded
      (hsized.reported_eq.trans (hreported.trans hentries.symm)) out wait
  refine ⟨heq, fun batch hbatch => ?_⟩
  obtain ⟨hsize, hcount⟩ := Machine.copyCompletions_fits (s := m) hlive out wait
  rw [heq] at hbatch
  change r.2.1.size = out.size at hsize
  change ∀ count, r.1 = .ok count → count.toNat ≤ out.size at hcount
  obtain ⟨_ | count, o, t⟩ := r
  · cases hbatch
  · cases hbatch
    have hle := hcount count rfl
    dsimp only at hsize ⊢
    have hbatch : (o.take count.toNat).size = count.toNat := by simp; omega
    rw [hbatch, UInt32.ofNat_toNat]
    exact ⟨rfl, hle⟩

/-- Three completions on a ring of two, which is then emptied.  A harvest with room for five enters
the kernel, and the third completion is the batch. -/
theorem harvest_eq_copyCompletions_backlog :
    ∃ ring, (Setup.build ⟨2, 0, 0⟩ (.idle ⟨1⟩ 0xffffffff)).1 = .ok ring ∧ ring.cqEntries = 2 ∧
      let m := ((start ring (Setup.build ⟨2, 0, 0⟩ (.idle ⟨1⟩ 0xffffffff)).2).run
        [.kernel (.post [⟨1, 0, 0⟩, ⟨2, 0, 0⟩, ⟨3, 0, 0⟩]), .call (.advance 2)]).machine
      let r := m.copyCompletions (Array.replicate 5 default) 0
      (m.harvest 5 0).1.toOption = some #[⟨3, 0, 0⟩] ∧
        m.harvest 5 0 = (r.1.map fun count => r.2.1.take count.toNat, r.2.2) := by
  have hbuild : (Setup.build ⟨2, 0, 0⟩ (.idle ⟨1⟩ 0xffffffff)).1 = .ok _ := rfl
  refine ⟨_, hbuild, rfl, ?_⟩
  intro m r
  have heq (out : Array Completion.Entry) :
      let r := m.copyCompletions out 0
      m.harvest out.size 0 = (r.1.map fun count => r.2.1.take count.toNat, r.2.2) :=
    (harvest_eq_copyCompletions hbuild (by decide) rfl
      [.kernel (.post [⟨1, 0, 0⟩, ⟨2, 0, 0⟩, ⟨3, 0, 0⟩]), .call (.advance 2)] out 0).1
  have hfive := heq (Array.replicate 5 default)
  rw [Array.size_replicate] at hfive
  exact ⟨by decide +kernel, hfive⟩

/-- With completions at hand, the kernel is entered for events exactly if there is no room to copy
into: a buffer of size zero, or a harvest of none. -/
theorem enters_iff_no_room {setup : Setup} {k : Kernel} {ring : Ring}
    (h : (setup.build k).1 = .ok ring) (moves : List Move) (wait : UInt32) :
    let m := ((start ring (setup.build k).2).run moves).machine
    m.kernel.cq.ready ≠ 0 →
      (∀ out, (m.copyCompletions out wait).2.2.kernel.calls ≠ m.kernel.calls ↔
        out.size = 0 ∧ m.WantsEvents wait) ∧
      ∀ capacity, (m.harvest capacity wait).2.kernel.calls ≠ m.kernel.calls ↔
        min capacity m.ring.cqEntries.toNat = 0 ∧ m.WantsEvents wait := by
  intro m hready
  obtain ⟨p, live, -, rfl, hfresh, -⟩ := Setup.build_ok h
  obtain ⟨live', hlive', -⟩ := (run_retains (s := start (Ring.fresh live p) (setup.build k).2)
    ⟨live, rfl, rfl, rfl⟩ moves).2
  have hpos : 0 < m.kernel.cq.ready.toNat :=
    Nat.pos_of_ne_zero fun hzero => hready (UInt32.toNat_inj.mp hzero)
  have hcopy (out : Array Completion.Entry) :
      (m.copyCompletions out wait).2.2.kernel.calls ≠ m.kernel.calls ↔
        out.size = 0 ∧ m.WantsEvents wait := by
    rw [Machine.copyCompletions_calls_iff hlive', Nat.min_eq_zero_iff]
    exact and_congr_left fun _ => or_iff_right (Nat.ne_of_gt hpos)
  refine ⟨hcopy, fun capacity => ?_⟩
  rw [Machine.harvest_eq]
  dsimp only
  rw [hcopy, Array.size_replicate]

/-- One completion is at hand, but a copy into an empty buffer that waits for one enters the kernel.
With room for one there is no call. -/
theorem enters_iff_no_room_empty :
    ∃ ring, (Setup.build ⟨2, 0, 0⟩ (.idle ⟨1⟩ 0)).1 = .ok ring ∧
      let m := ((start ring (Setup.build ⟨2, 0, 0⟩ (.idle ⟨1⟩ 0)).2).run
        [.kernel (.post [⟨1, 0, 0⟩])]).machine
      m.kernel.cq.ready ≠ 0 ∧ m.WantsEvents 1 ∧
        (m.copyCompletions #[] 1).2.2.kernel.calls ≠ m.kernel.calls ∧
        (m.copyCompletions #[default] 1).2.2.kernel.calls = m.kernel.calls := by
  have hbuild : (Setup.build ⟨2, 0, 0⟩ (.idle ⟨1⟩ 0)).1 = .ok _ := rfl
  refine ⟨_, hbuild, ?_⟩
  intro m
  have hready : m.kernel.cq.ready ≠ 0 := by decide
  have hwants : m.WantsEvents 1 := .inl (by decide)
  have hcopy (out : Array Completion.Entry) :
      (m.copyCompletions out 1).2.2.kernel.calls ≠ m.kernel.calls ↔
        out.size = 0 ∧ m.WantsEvents 1 :=
    (enters_iff_no_room hbuild [.kernel (.post [⟨1, 0, 0⟩])] 1 hready).1 out
  refine ⟨hready, hwants, (hcopy #[]).mpr ⟨rfl, hwants⟩, ?_⟩
  exact Decidable.not_not.mp fun hne => Nat.one_ne_zero ((hcopy #[default]).mp hne).1

/-- So completions at hand do not keep a copy or a harvest from entering the kernel. -/
theorem entered_with_completions_at_hand :
    ¬ ∀ (setup : Setup) (k : Kernel) (ring : Ring), (setup.build k).1 = .ok ring →
      ∀ (moves : List Move) (out : Array Completion.Entry) (capacity : Nat) (wait : UInt32),
        let m := ((start ring (setup.build k).2).run moves).machine
        m.kernel.cq.ready ≠ 0 →
          (m.copyCompletions out wait).2.2.kernel.calls = m.kernel.calls ∧
            (m.harvest capacity wait).2.kernel.calls = m.kernel.calls := by
  intro hnone
  have hbuild : (Setup.build ⟨2, 0, 0⟩ (.idle ⟨1⟩ 0)).1 = .ok _ := rfl
  have hcalls := hnone ⟨2, 0, 0⟩ (.idle ⟨1⟩ 0) _ hbuild [.kernel (.post [⟨1, 0, 0⟩])] #[] 0 1
    (by decide)
  revert hcalls
  decide +kernel

end Session

end Uring
