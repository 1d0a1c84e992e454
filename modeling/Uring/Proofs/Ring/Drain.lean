import Uring.Proofs.Kernel.Enter
import Uring.Proofs.Ring.CompletionOrder

/-!
# Uring.Proofs.Ring.Drain — no completion is stranded, and harvesting comes to an end

A harvest that comes back empty leaves nothing behind, neither in the ring nor on the backlog.  Each
harvest that does not come back empty takes at least one completion off what is outstanding, so as
many harvests as there are completions outstanding deliver them all.
-/

namespace Uring

/-- An enter that was refused. -/
def Syscall.failed : Syscall → Bool
  | .enter _ _ _ _ taken => taken.isNone
  | _ => false

namespace Machine

/-- The account holds, a backlog is announced, and the ring was told its true size. -/
structure Drainable (s : Machine) (q : Completion.Queue)
    (delivered : List Completion.Entry) : Prop where
  accounts : s.Accounts q delivered
  announces : s.kernel.NeverDenied → s.kernel.Announces
  reported : s.ring.cqEntries = q.size.entries

variable {s t : Machine} {q : Completion.Queue} {delivered passed : List Completion.Entry}

namespace Drainable

theorem effect (h : s.Drainable q delivered) (heff : Effect s passed t) :
    t.Drainable q (delivered ++ passed) := by
  refine ⟨h.accounts.effect heff, ?_, heff.cqEntries_eq.trans h.reported⟩
  cases heff with
  | note e => exact h.announces
  | turn hturn =>
    intro hnd
    exact hturn.announces hnd (h.announces (hturn.grows.neverDenied hnd))
  | @publish live hlive =>
    intro hnd hbacklog
    have hflags : (live.sq.flush s.kernel.sq).2.2.flags = s.kernel.sq.flags := by
      unfold Submission.Queue.flush
      dsimp only
      split <;> rfl
    show ((live.sq.flush s.kernel.sq).2.2.flags &&& _ != 0) = true
    rw [hflags]
    exact h.announces hnd hbacklog
  | pass hlive hn hp => exact h.announces

theorem path (h : s.Drainable q delivered) (hpath : Path s passed t) :
    t.Drainable q (delivered ++ passed) :=
  hpath.invariant (P := fun ds m => m.Drainable q ds) (fun heff h => h.effect heff) delivered h

theorem call (h : s.Drainable q delivered) (a : Step) (ha : a.isCall = true) :
    (s.step a).2.Drainable q (delivered ++ s.delivers a) := by
  obtain ⟨live, hlive, -⟩ := h.accounts.live_eq
  exact h.path (call_path hlive a ha)

theorem fill {live : Live} (h : s.Drainable q delivered) (hlive : s.ring.live = some live)
    (hfill : t.FillsFrom s live) : t.Drainable q delivered := by
  refine ⟨h.accounts.fill hlive hfill, ?_, hfill.cqEntries_eq.trans h.reported⟩
  obtain ⟨sqes, hkernel⟩ := hfill.kernel_eq
  rw [hkernel]
  exact h.announces

end Drainable

/-! ### One harvest -/

theorem enterWith_eq (s : Machine) (live : Live) (toSubmit wait flags : UInt32) :
    s.enterWith live toSubmit wait flags =
      ((s.kernel.enter live.fd toSubmit wait flags).1.mapError .enter,
        { s with kernel := (s.kernel.enter live.fd toSubmit wait flags).2 }) := rfl

theorem enterWith_error {live : Live} {toSubmit wait flags : UInt32} {e : RingError}
    (h : s.enterWith live toSubmit wait flags = (.error e, t)) :
    t.kernel.calls = s.kernel.calls ++ [.enter live.fd toSubmit wait flags none] := by
  have hentered := s.kernel.enter_entered live.fd toSubmit wait flags
  rw [enterWith_eq] at h
  generalize s.kernel.enter live.fd toSubmit wait flags = r at h hentered
  cases hentered with
  | refused errno =>
    cases h
    rfl
  | served => cases h

theorem enterWith_offers {live : Live} {wait n : UInt32} (hq : q.Bounded s.kernel.cq)
    (h : s.enterWith live 0 wait Abi.enterGetEvents = (.ok n, t)) : t.kernel.Offers q := by
  rw [enterWith_eq] at h
  obtain ⟨hreply, rfl⟩ := Prod.mk.inj h
  cases henter : (s.kernel.enter live.fd 0 wait Abi.enterGetEvents).1 with
  | error errno => rw [henter] at hreply; cases hreply
  | ok m => exact Kernel.enter_offers hq live.fd wait henter

theorem Warns.kernel_eq {u : Machine} (h : s.Warns u) : u.kernel = s.kernel := by
  rcases h with rfl | ⟨e, rfl⟩ <;> rfl

theorem Warns.ring_eq {u : Machine} (h : s.Warns u) : u.ring = s.ring := by
  rcases h with rfl | ⟨e, rfl⟩ <;> rfl

/-- Taking completions fails only if the kernel refuses to be entered, and finds none only if there
are none at all. -/
theorem copyCompletions_drains (h : s.Drainable q delivered) (hnd : s.kernel.NeverDenied)
    {out : Array Completion.Entry} (hout : 0 < out.size) (wait : UInt32) :
    let r := s.copyCompletions out wait
    (∃ count, r.1 = .ok count ∧ r.2.1.size = out.size ∧
        (count = 0 → r.2.2.kernel.cq.ready = 0 ∧ r.2.2.kernel.backlog = [])) ∨
      ∃ e call, r.1 = .error e ∧ call.failed = true ∧
        r.2.2.kernel.calls = s.kernel.calls ++ [call] := by
  obtain ⟨live, hlive, rfl⟩ := h.accounts.live_eq
  have hready {m : Machine} {out' : Array Completion.Entry} {u : Machine}
      (htake : m.takeReady live out = (0, out', u)) : m.kernel.cq.ready = 0 := by
    have hcount := toNat_takeReady_count m live out
    rw [htake, UInt32.toNat_zero] at hcount
    apply UInt32.toNat_inj.mp
    rw [UInt32.toNat_zero]
    omega
  have houtcome := copyCompletions_outcome hlive out wait
  generalize s.copyCompletions out wait = r at houtcome ⊢
  cases houtcome with
  | @atHand count out' t htake hpos =>
    refine .inl ⟨count, rfl, ?_, ?_⟩
    · have hsize := size_takeReady s live out
      rwa [htake] at hsize
    · intro hzero
      rw [hzero] at hpos
      exact absurd hpos (UInt32.lt_irrefl 0)
  | idle htake hflush hwait =>
    refine .inl ⟨0, rfl, rfl, fun _ => ⟨hready htake, ?_⟩⟩
    -- a backlog would be announced, and the caller would have entered for it
    by_cases hbacklog : s.kernel.backlog = []
    · exact hbacklog
    · have hflagged := Submission.Memory.cqNeedsFlush_of_cqOverflowed (h.announces hnd hbacklog)
      rw [hflagged] at hflush
      cases hflush
  | refused htake hwarn henter =>
    have hcalls := enterWith_error henter
    rw [hwarn.kernel_eq] at hcalls
    exact .inr ⟨_, _, rfl, rfl, hcalls⟩
  | @entered u v t n count out' htake hwarn henter hagain =>
    refine .inl ⟨count, rfl, ?_, ?_⟩
    · have hsize := size_takeReady v live out
      rwa [hagain] at hsize
    · intro hzero
      subst hzero
      -- a backlog left by an enter stands behind a full ring, but nothing was found in it
      have hbounded : live.cq.Bounded u.kernel.cq := by
        rw [hwarn.kernel_eq]
        exact h.accounts.kernel.bounded
      have hoffers := enterWith_offers hbounded henter
      have hnone := takeReady_of_zero (congrArg Prod.fst hagain)
      obtain ⟨-, -, rfl⟩ : (0 : UInt32) = 0 ∧ out' = out ∧ t = v := by
        simpa using hagain.symm.trans hnone
      have hempty := hready hagain
      refine ⟨hempty, ?_⟩
      by_cases hbacklog : t.kernel.backlog = []
      · exact hbacklog
      · have hpos := hoffers.ready_pos hbacklog
        rw [hempty, UInt32.toNat_zero] at hpos
        exact absurd hpos (Nat.lt_irrefl 0)

/-- A harvest fails only if the kernel refuses to be entered, and is empty only if nothing is left
behind. -/
theorem harvest_drains (h : s.Drainable q delivered) (hnd : s.kernel.NeverDenied) {capacity : Nat}
    (hcapacity : 0 < capacity) (wait : UInt32) :
    let r := s.harvest capacity wait
    (∃ batch, r.1 = .ok batch ∧
        (batch = #[] → r.2.kernel.cq.ready = 0 ∧ r.2.kernel.backlog = [])) ∨
      ∃ e call, r.1 = .error e ∧ call.failed = true ∧
        r.2.kernel.calls = s.kernel.calls ++ [call] := by
  have hentries := q.size.entries_pos
  -- the buffer is clamped to the reported size, which is not zero
  have hbuffer : 0 < (Array.replicate (min capacity s.ring.cqEntries.toNat)
      (default : Completion.Entry)).size := by
    rw [Array.size_replicate, h.reported]
    omega
  have hcopy := copyCompletions_drains h hnd hbuffer wait
  unfold harvest
  dsimp only at hcopy ⊢
  generalize s.copyCompletions _ wait = r at hcopy ⊢
  obtain ⟨result, out, t⟩ := r
  rcases hcopy with ⟨count, rfl, hsize, hempty⟩ | ⟨e, call, rfl, hfailed, hcalls⟩
  · refine .inl ⟨_, rfl, fun hbatch => hempty ?_⟩
    have hzero := congrArg Array.size hbatch
    rw [Array.take_eq_extract, Array.size_extract, Array.size_empty] at hzero
    apply UInt32.toNat_inj.mp
    rw [UInt32.toNat_zero]
    dsimp only at hsize
    omega
  · exact .inr ⟨e, call, rfl, hfailed, hcalls⟩

end Machine

/-- The completions posted and not handed over yet, oldest first. -/
def Kernel.outstanding (k : Kernel) (q : Completion.Queue) : List Completion.Entry :=
  q.toList k.cq ++ k.backlog

theorem Kernel.length_outstanding (k : Kernel) (q : Completion.Queue) :
    (k.outstanding q).length = k.cq.ready.toNat + k.backlog.length := by
  simp [Kernel.outstanding]

theorem Kernel.outstanding_eq_nil {k : Kernel} {q : Completion.Queue} (hready : k.cq.ready = 0)
    (hbacklog : k.backlog = []) : k.outstanding q = [] := by
  unfold Kernel.outstanding Completion.Queue.toList
  rw [hbacklog, Completion.Memory.ready_eq_zero.mp hready, span_self]
  rfl

namespace Machine

variable {s : Machine} {q : Completion.Queue} {delivered : List Completion.Entry}

/-- Nothing has happened between two machines but enters that succeeded and posted nothing. -/
structure Quiet (s t : Machine) : Prop where
  neverDenied : t.kernel.NeverDenied
  posted_eq : t.kernel.posted = s.kernel.posted
  succeeded : ∀ call ∈ t.kernel.calls.drop s.kernel.calls.length, call.failed = false

theorem Quiet.split {t u : Machine} (h : s.Quiet u) (hst : s.kernel.Grows t.kernel)
    (htu : t.kernel.Grows u.kernel) : s.Quiet t ∧ t.Quiet u := by
  -- the record of posts only grows, so it is the same in between
  have hposted : t.kernel.posted = s.kernel.posted := by
    have hle := htu.posted.length_le
    rw [h.posted_eq] at hle
    exact (hst.posted.eq_of_length_le hle).symm
  obtain ⟨first, hfirst⟩ := hst.calls
  obtain ⟨rest, hrest⟩ := htu.calls
  have hsucceeded := h.succeeded
  rw [← hrest, ← hfirst, List.append_assoc, List.drop_left] at hsucceeded
  refine ⟨⟨htu.neverDenied h.neverDenied, hposted, ?_⟩,
    ⟨h.neverDenied, h.posted_eq.trans hposted.symm, ?_⟩⟩
  · rw [← hfirst, List.drop_left]
    intro call hcall
    exact hsucceeded call (List.mem_append_left _ hcall)
  · rw [← hrest, List.drop_left]
    intro call hcall
    exact hsucceeded call (List.mem_append_right _ hcall)

/-- One harvest takes the front of what is outstanding, and takes nothing only if there is
nothing. -/
theorem harvest_takes (h : s.Drainable q delivered) {capacity : Nat} (hcapacity : 0 < capacity)
    (wait : UInt32) (hquiet : s.Quiet (s.step (.harvest capacity wait)).2) :
    ∃ batch, (s.step (.harvest capacity wait)).1 = .batch (.ok batch) ∧
      (s.step (.harvest capacity wait)).2.Drainable q (delivered ++ batch.toList) ∧
      s.kernel.outstanding q =
        batch.toList ++ (s.step (.harvest capacity wait)).2.kernel.outstanding q ∧
      (batch = #[] → s.kernel.outstanding q = []) := by
  have hnext := h.call (.harvest capacity wait) rfl
  have hgrows : s.kernel.Grows (s.step (.harvest capacity wait)).2.kernel := by
    obtain ⟨live, hlive, -⟩ := h.accounts.live_eq
    exact (call_path hlive (.harvest capacity wait) rfl).grows
  have hdrains := harvest_drains h (hgrows.neverDenied hquiet.neverDenied) hcapacity wait
  unfold delivers at hnext
  simp only [step] at hnext hquiet ⊢
  generalize s.harvest capacity wait = r at hnext hquiet hdrains ⊢
  obtain ⟨result, t⟩ := r
  rcases hdrains with ⟨batch, rfl, hempty⟩ | ⟨e, call, rfl, hfailed, hcalls⟩
  · have haccount := hnext.accounts.kernel.account
    dsimp only at haccount hquiet hempty ⊢
    rw [hquiet.posted_eq, h.accounts.kernel.account] at haccount
    -- both accounts are of the same posts, and what was delivered before cancels
    have hsplit : s.kernel.outstanding q = batch.toList ++ t.kernel.outstanding q := by
      unfold Kernel.outstanding
      simpa using haccount
    refine ⟨batch, rfl, hnext, hsplit, ?_⟩
    intro hbatch
    obtain ⟨hready, hbacklog⟩ := hempty hbatch
    rw [hsplit, hbatch, Kernel.outstanding_eq_nil hready hbacklog]
    rfl
  · -- a failed harvest is a failed enter
    have hsucceeded := hquiet.succeeded
    dsimp only at hsucceeded hcalls
    rw [hcalls, List.drop_left] at hsucceeded
    rw [hsucceeded call (List.mem_singleton_self call)] at hfailed
    cases hfailed

/-! ### Harvest after harvest -/

theorem run_grows (h : s.Drainable q delivered) (capacity : Nat) (wait : UInt32) (n : Nat) :
    s.kernel.Grows (s.run (List.replicate n (.harvest capacity wait))).2.kernel := by
  induction n generalizing s delivered with
  | zero => exact .of_eq rfl rfl rfl
  | succ n ih =>
    obtain ⟨live, hlive, -⟩ := h.accounts.live_eq
    have hfirst := (call_path hlive (.harvest capacity wait) rfl).grows
    exact hfirst.trans (ih (h.call (.harvest capacity wait) rfl))

/-- As the answers of `n` harvests: first the batches of `full`, then empty ones. -/
def batchAnswers (full : List (Array Completion.Entry)) (n : Nat) : List Answer :=
  (full ++ List.replicate (n - full.length) #[]).map fun batch => .batch (.ok batch)

theorem length_le_of_nonempty {full : List (Array Completion.Entry)}
    (h : ∀ batch ∈ full, batch ≠ #[]) : full.length ≤ (full.flatMap Array.toList).length := by
  induction full with
  | nil => exact Nat.le_refl 0
  | cons batch full ih =>
    have hrest := ih fun b hb => h b (List.mem_cons_of_mem _ hb)
    have hpos : 0 < batch.size := Array.size_pos_iff.mpr (h batch List.mem_cons_self)
    have hlen : batch.toList.length = batch.size := Array.length_toList
    rw [List.flatMap_cons, List.length_append, List.length_cons]
    omega

/-- The induction is on the number of harvests; what is outstanding gets shorter with every one
that is not empty. -/
theorem run_harvests (h : s.Drainable q delivered) {capacity : Nat} (hcapacity : 0 < capacity)
    (wait : UInt32) (n : Nat)
    (hquiet : s.Quiet (s.run (List.replicate n (.harvest capacity wait))).2) :
    ∃ full : List (Array Completion.Entry),
      (∀ batch ∈ full, batch ≠ #[]) ∧
      (s.run (List.replicate n (.harvest capacity wait))).1 = batchAnswers full n ∧
      full.flatMap Array.toList <+: s.kernel.outstanding q ∧
      ((s.kernel.outstanding q).length ≤ n ∨ full.length < n →
        full.flatMap Array.toList = s.kernel.outstanding q) := by
  induction n generalizing s delivered with
  | zero =>
    refine ⟨[], by simp, rfl, List.nil_prefix, ?_⟩
    rintro (hlen | hlt)
    · exact (List.eq_nil_of_length_eq_zero (Nat.le_zero.mp hlen)).symm
    · exact absurd hlt (Nat.lt_irrefl 0)
  | succ n ih =>
    have hnext := h.call (.harvest capacity wait) rfl
    obtain ⟨live, hlive, -⟩ := h.accounts.live_eq
    have hfirst := (call_path hlive (.harvest capacity wait) rfl).grows
    obtain ⟨hquiet₁, hquiet₂⟩ := hquiet.split hfirst (run_grows hnext capacity wait n)
    obtain ⟨batch, hanswer, hdrainable, hsplit, hempty⟩ :=
      harvest_takes h hcapacity wait hquiet₁
    obtain ⟨full, hfull, hanswers, hfront, hall⟩ := ih hdrainable hquiet₂
    have hrun : (s.run (List.replicate (n + 1) (.harvest capacity wait))).1 =
        .batch (.ok batch) :: batchAnswers full n := by
      rw [← hanswer, ← hanswers]
      rfl
    generalize (s.step (.harvest capacity wait)).2.kernel.outstanding q = rest at hsplit hfront hall
    by_cases hbatch : batch = #[]
    · -- nothing was outstanding, so all further harvests are empty as well
      have hnone := hempty hbatch
      rw [hnone] at hsplit
      obtain ⟨-, hrest⟩ := List.append_eq_nil_iff.mp hsplit.symm
      have hnil : full = [] := by
        have hlen := length_le_of_nonempty hfull
        rw [hrest, List.prefix_nil] at hfront
        rw [hfront] at hlen
        exact List.eq_nil_of_length_eq_zero (Nat.le_zero.mp hlen)
      refine ⟨[], by simp, ?_, List.nil_prefix, fun _ => hnone.symm⟩
      rw [hrun, hbatch, hnil]
      rfl
    · refine ⟨batch :: full, ?_, ?_, ?_, ?_⟩
      · rintro b hb
        rcases List.mem_cons.mp hb with rfl | hb
        · exact hbatch
        · exact hfull b hb
      · rw [hrun]
        unfold batchAnswers
        rw [List.length_cons, Nat.add_sub_add_right]
        rfl
      · rw [hsplit, List.flatMap_cons]
        exact (List.prefix_append_right_inj _).mpr hfront
      · intro hor
        -- the batch is one completion at least, so `n` harvests are enough for the rest
        have hpos : 0 < batch.size := Array.size_pos_iff.mpr hbatch
        rw [hsplit, List.flatMap_cons, hall]
        have hlen : batch.toList.length = batch.size := Array.length_toList
        rw [hsplit, List.length_append, List.length_cons] at hor
        omega

end Machine

/-! ### Sessions -/

theorem Live.Fresh.drainable {k : Kernel} {live : Live} (hfresh : live.Fresh k) {ring : Ring}
    (hlive : ring.live = some live) (hidle : k.cq.head = k.cq.tail) (hbacklog : k.backlog = [])
    (hreported : ring.cqEntries = k.cq.entries) :
    (Machine.start ring k).Drainable live.cq k.posted :=
  ⟨hfresh.accounts hlive hidle hbacklog, fun _ hne => absurd hbacklog hne,
    hreported.trans hfresh.entries_eq⟩

namespace Session

theorem step_drainable {s : Session} {q : Completion.Queue} {delivered : List Completion.Entry}
    (h : s.machine.Drainable q delivered) (a : Move) :
    ∃ delivered, (s.step a).machine.Drainable q delivered := by
  obtain ⟨live, hlive, -⟩ := h.accounts.live_eq
  cases a with
  | claim => exact ⟨_, h.fill hlive (claim_fillsFrom hlive)⟩
  | act a => exact ⟨_, h.fill hlive (act_fillsFrom hlive a)⟩
  | drop => exact ⟨_, h⟩
  | call a ha => exact ⟨_, h.call a ha⟩
  | kernel event => exact ⟨_, h.path (Machine.Path.turns (Kernel.event_turns _ event))⟩

/-- Provided that nobody overwrites the flag word so as to deny a backlog: a harvest that comes back
empty leaves neither a completion in the ring nor a backlog.  Harvests in a row, with no enter
between them that fails or that posts anything, bring what is outstanding in posting order and in
batches that are not empty; as many harvests as completions are enough to bring all of it, and an
empty one comes only after that. -/
theorem harvests_drain {setup : Setup} {k : Kernel} {ring : Ring}
    (h : (setup.build k).1 = .ok ring) (hidle : k.cq.head = k.cq.tail) (hbacklog : k.backlog = [])
    (hreported : ring.cqEntries = k.cq.entries) (moves : List Move) {capacity : Nat}
    (hcapacity : 0 < capacity) (wait : UInt32) :
    let s := ((start ring (setup.build k).2).run moves).machine
    ∃ live, s.ring.live = some live ∧
      (s.kernel.NeverDenied → ∀ t, s.harvest capacity wait = (.ok #[], t) →
        t.kernel.cq.ready = 0 ∧ t.kernel.backlog = []) ∧
      ∀ n, s.Quiet (s.run (List.replicate n (.harvest capacity wait))).2 →
        ∃ full : List (Array Completion.Entry),
          (∀ batch ∈ full, batch ≠ #[]) ∧
          (s.run (List.replicate n (.harvest capacity wait))).1 = Machine.batchAnswers full n ∧
          full.length ≤ (s.kernel.outstanding live.cq).length ∧
          full.flatMap Array.toList <+: s.kernel.outstanding live.cq ∧
          ((s.kernel.outstanding live.cq).length ≤ n ∨ full.length < n →
            full.flatMap Array.toList = s.kernel.outstanding live.cq) := by
  intro s
  obtain ⟨p, live, -, rfl, hfresh, replies, calls, array, hk⟩ := Setup.build_ok h
  have hstart : ∃ delivered, (Machine.start (Ring.fresh live p) (setup.build k).2).Drainable
      live.cq delivered := by
    rw [hk] at hfresh ⊢
    have hlive : (Ring.fresh live p).live = some live := rfl
    exact ⟨_, hfresh.drainable hlive hidle hbacklog hreported⟩
  have hs : ∃ delivered, s.Drainable live.cq delivered :=
    run_induction (P := fun s => ∃ delivered, s.machine.Drainable live.cq delivered)
      (fun s a ⟨_, h⟩ => step_drainable h a) hstart moves
  obtain ⟨delivered, hs⟩ := hs
  obtain ⟨live', hlive', hcq⟩ := hs.accounts.live_eq
  rw [← hcq] at hs
  refine ⟨live', hlive', ?_, ?_⟩
  · intro hnd t ht
    rcases Machine.harvest_drains hs hnd hcapacity wait with
      ⟨batch, hbatch, hempty⟩ | ⟨e, call, herror, -, -⟩
    · rw [ht] at hbatch hempty
      cases hbatch
      exact hempty rfl
    · rw [ht] at herror
      cases herror
  · intro n hquiet
    obtain ⟨full, hfull, hanswers, hfront, hall⟩ :=
      Machine.run_harvests hs hcapacity wait n hquiet
    have hlen := Machine.length_le_of_nonempty hfull
    exact ⟨full, hfull, hanswers, Nat.le_trans hlen hfront.length_le, hfront, hall⟩

/-- Three completions on a ring of two, one of them on the backlog, and three harvests. -/
theorem harvests_drain_backlog :
    ∃ ring, (Setup.build ⟨2, 0, 0⟩ (.idle ⟨1⟩ 0xffffffff)).1 = .ok ring ∧
      let s := ((start ring (Setup.build ⟨2, 0, 0⟩ (.idle ⟨1⟩ 0xffffffff)).2).run
        [.kernel (.post [⟨1, 0, 0⟩, ⟨2, 0, 0⟩, ⟨3, 0, 0⟩])]).machine
      s.kernel.backlog ≠ [] ∧ ∃ live, s.ring.live = some live ∧
        ∃ full : List (Array Completion.Entry),
          (∀ batch ∈ full, batch ≠ #[]) ∧
          (s.run (List.replicate 3 (.harvest 2 0))).1 = Machine.batchAnswers full 3 ∧
          full.flatMap Array.toList = s.kernel.outstanding live.cq := by
  refine ⟨_, rfl, by decide, ?_⟩
  obtain ⟨live, hlive, -, hdrain⟩ := @harvests_drain ⟨2, 0, 0⟩ (.idle ⟨1⟩ 0xffffffff) _ rfl rfl rfl
    rfl [.kernel (.post [⟨1, 0, 0⟩, ⟨2, 0, 0⟩, ⟨3, 0, 0⟩])] 2 (by decide) 0
  obtain ⟨full, hfull, hanswers, -, -, hall⟩ := hdrain 3 ⟨by decide, by decide, by decide⟩
  refine ⟨live, hlive, full, hfull, hanswers, hall (.inl ?_)⟩
  rw [Kernel.length_outstanding]
  decide

end Session

end Uring
