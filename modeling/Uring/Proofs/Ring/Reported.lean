import Mathlib.Data.List.Induction
import Mathlib.Data.List.Infix
import Uring.Proofs.Kernel.Enter
import Uring.Proofs.Ring.Lifelong

/-!
# Uring.Proofs.Ring.Reported — the counts that submitting answers

A ring whose kernel is entered for each batch answers what the kernel took, so the counts of a run
add up to no more than was taken, and that to no more than was committed.  A ring that the kernel
polls answers all that is published and not yet taken, which an earlier count may have contained
already: its counts add up to no more than was committed exactly as long as the kernel, whenever a
count is answered, has taken all that was reported before.
-/

namespace Uring

/-! ### Counts -/

/-- The count that a submit answers, if it succeeds. -/
def Step.reported : Step → Answer → Nat
  | .submit, .count (.ok n) => n.toNat
  | .submitAndWait _, .count (.ok n) => n.toNat
  | _, _ => 0

def Move.reported : Move → Answer → Nat
  | .call a _, answer => a.reported answer
  | _, _ => 0

namespace Session

/-- The sum of the counts that moves made in order answer. -/
def reported (s : Session) : List Move → Nat
  | [] => 0
  | a :: rest => a.reported (s.reply a) + (s.step a).reported rest

theorem reported_concat (s : Session) (moves : List Move) (a : Move) :
    s.reported (moves ++ [a]) = s.reported moves + a.reported ((s.run moves).reply a) := by
  induction moves generalizing s with
  | nil => simp [reported]
  | cons first rest ih => simp [reported, ih, Nat.add_assoc]

end Session

/-! ### What an enter takes -/

namespace Kernel

/-- A kernel before any call that grants rings which it polls. -/
def polling (size : RingSize) (c : UInt32) : Kernel :=
  { Kernel.idle size c with setupReply := .ok ⟨size.entries, size.entries, 2, 0, 3, 64, 64⟩ }

/-- Whatever is published, and whatever it is asked, the kernel answers an enter with the number of
entries that it takes in it. -/
def Honest (k : Kernel) : Prop :=
  ∀ (m : Submission.Memory) (fd : Int32) (toSubmit minComplete flags n : UInt32),
    ({ k with sq := m }.enter fd toSubmit minComplete flags).1 = .ok n →
      ({ k with sq := m }.enter fd toSubmit minComplete flags).2.taken.length =
        k.taken.length + n.toNat

/-- A kernel whose next reply does not say otherwise answers the number of entries taken. -/
theorem honest_of_ret {k : Kernel}
    (h : ∀ service, k.enterReplies.head? = some (.ok service) → service.ret = none) :
    k.Honest := by
  intro m fd toSubmit minComplete flags n hok
  unfold enter at hok ⊢
  dsimp only at hok ⊢
  have hret (service : Service) (hreply : k.enterReplies.head?.getD (.ok {}) = .ok service) :
      service.ret = none := by
    cases hhead : k.enterReplies.head? with
    | none =>
      rw [hhead] at hreply
      cases hreply
      rfl
    | some reply =>
      rw [hhead] at hreply
      exact h service (hhead.trans (congrArg some hreply))
  generalize k.enterReplies.head?.getD (.ok {}) = reply at hok hret ⊢
  cases reply with
  | error e => cases hok
  | ok service =>
    dsimp only at hok ⊢
    generalize hstart : { { k with sq := m } with enterReplies := k.enterReplies.tail } = start
      at hok ⊢
    have htaken : start.taken = k.taken := by rw [← hstart]
    -- no more is taken than is offered, so the number taken fits in a word
    have hle := start.length_serve_le service toSubmit flags
    have hlt := toSubmit.toNat_lt
    rw [hret service rfl, Option.getD_none, Except.ok.injEq] at hok
    show (start.serve service toSubmit flags).2.taken.length = _
    rw [serve_taken, List.length_append, htaken, ← hok, UInt32.toNat_ofNat', Nat.mod_eq_of_lt]
    omega

end Kernel

/-! ### One submit -/

namespace Machine

variable {s : Machine} {live : Live} {wait n : UInt32}

/-- A ring that is polled answers all that is outstanding. -/
theorem submitAndWait_polled (h : s.Published live) (hpolled : s.ring.polled = true)
    (hok : (s.submitAndWait wait).1 = .ok n) : n = live.sq.outstanding s.kernel.sq := by
  have hpolled' : (s.flushed live).ring.polled = true := hpolled
  have houtcome := submitAndWait_outcome h wait
  generalize s.submitAndWait wait = r at houtcome hok
  cases houtcome with
  | idle hmust e =>
    rw [if_pos hpolled'] at hok
    exact (Except.ok.inj hok).symm
  | refused hmust henter => cases hok
  | entered hmust henter e =>
    rw [if_pos hpolled'] at hok
    exact (Except.ok.inj hok).symm

/-- A ring that is not polled answers what an honest kernel took. -/
theorem submitAndWait_honest (h : s.Published live) (hpolled : s.ring.polled = false)
    (hhonest : s.kernel.Honest) (hok : (s.submitAndWait wait).1 = .ok n) :
    (s.submitAndWait wait).2.kernel.taken.length = s.kernel.taken.length + n.toNat := by
  have hpolled' : ¬ (s.flushed live).ring.polled = true := by
    rw [Bool.not_eq_true]
    exact hpolled
  have houtcome := submitAndWait_outcome h wait
  generalize s.submitAndWait wait = r at houtcome hok ⊢
  cases houtcome with
  | idle hmust e =>
    rw [if_neg hpolled'] at hok
    cases hok
    rfl
  | refused hmust henter => cases hok
  | @entered count k hmust henter e =>
    -- what is published makes no difference to an honest kernel
    have htaken := hhonest (s.flushed live).kernel.sq live.fd _ wait _ count
      (congrArg Prod.fst henter)
    rw [if_neg hpolled'] at hok
    cases hok
    exact (congrArg (fun r => r.2.taken.length) henter).symm.trans htaken

end Machine

/-! ### A run of moves -/

namespace Session

variable {s : Session} {live : Live} {base : UInt32}

/-- A move that reports entries is a submit that succeeds. -/
theorem reported_cases (s : Session) (a : Move) :
    a.reported (s.reply a) = 0 ∨
      ∃ wait n, (s.machine.submitAndWait wait).1 = .ok n ∧ a.reported (s.reply a) = n.toNat ∧
        (s.step a).machine = (s.machine.submitAndWait wait).2 ∧
        (s.step a).committed = s.committed := by
  cases a with
  | call b hb =>
    have hcommitted := s.call_committed b hb
    cases b with
    | submit =>
      cases hok : (s.machine.submitAndWait 0).1 with
      | error e => exact .inl (congrArg (Step.reported .submit ∘ Answer.count) hok)
      | ok n =>
        have hcount := congrArg (Step.reported .submit ∘ Answer.count) hok
        exact .inr ⟨0, n, hok, hcount, rfl, hcommitted⟩
    | submitAndWait wait =>
      cases hok : (s.machine.submitAndWait wait).1 with
      | error e => exact .inl (congrArg (Step.reported (.submitAndWait wait) ∘ Answer.count) hok)
      | ok n =>
        have hcount := congrArg (Step.reported (.submitAndWait wait) ∘ Answer.count) hok
        exact .inr ⟨wait, n, hok, hcount, rfl, hcommitted⟩
    | _ => exact .inl rfl
  | _ => exact .inl rfl

namespace InOrder

theorem taken_le_committed (h : s.InOrder live base) :
    s.machine.kernel.taken.length ≤ s.committed.length := by
  have hlen := h.length_committed
  omega

/-- A count of a ring that is polled is all that is committed and not yet taken. -/
theorem reported_polled (h : s.InOrder live base) (hpolled : s.machine.ring.polled = true)
    (a : Move) :
    a.reported (s.reply a) = 0 ∨
      a.reported (s.reply a) + s.machine.kernel.taken.length = s.committed.length ∧
        (s.step a).committed = s.committed := by
  rcases s.reported_cases a with hzero | ⟨wait, n, hok, hcount, -, hcommitted⟩
  · exact .inl hzero
  · obtain rfl := Machine.submitAndWait_polled h.published hpolled hok
    have hlen := h.length_committed
    exact .inr ⟨by omega, hcommitted⟩

/-- A count of a ring that is not polled is what an honest kernel took. -/
theorem reported_honest (h : s.InOrder live base) (hpolled : s.machine.ring.polled = false)
    (hhonest : s.machine.kernel.Honest) (a : Move) :
    a.reported (s.reply a) + s.machine.kernel.taken.length ≤
      (s.step a).machine.kernel.taken.length := by
  rcases s.reported_cases a with hzero | ⟨wait, n, hok, hcount, hmachine, -⟩
  · have hgrows := (step_advances h.machine.live_eq a).taken.length_le
    omega
  · have htaken := Machine.submitAndWait_honest h.published hpolled hhonest hok
    rw [hmachine, htaken, hcount]
    omega

end InOrder

/-- A session whose runs keep the order of entries, on a ring that is polled or that is not. -/
def Orderly (s : Session) (polled : Bool) : Prop :=
  ∀ moves, ∃ live base, (s.run moves).InOrder live base ∧
    (s.run moves).machine.ring.polled = polled

namespace Orderly

theorem of_build {setup : Setup} {k : Kernel} {ring : Ring} (h : (setup.build k).1 = .ok ring)
    (hidle : k.sq.head = k.sq.tail) (hnew : k.taken = []) :
    (start ring (setup.build k).2).Orderly ring.polled := by
  intro moves
  obtain ⟨live, base, horder, hadv, -⟩ := run_inOrder h hidle hnew moves
  exact ⟨live, base, horder, Machine.polled_of_shape hadv.shape⟩

/-- On an honest kernel that is entered, no entry is reported before it is taken. -/
theorem reported_le_taken (h : s.Orderly false) {moves : List Move}
    (hhonest : ∀ earlier, earlier <+: moves → (s.run earlier).machine.kernel.Honest) :
    s.reported moves ≤ (s.run moves).machine.kernel.taken.length := by
  induction moves using List.reverseRecOn with
  | nil => exact Nat.zero_le _
  | append_singleton earlier a ih =>
    obtain ⟨live, base, horder, hpolled⟩ := h earlier
    have hbefore := ih fun first hfirst => hhonest first (hfirst.trans (List.prefix_append ..))
    have hstep := horder.reported_honest hpolled (hhonest earlier (List.prefix_append ..)) a
    rw [reported_concat, run_append, run_cons, run_nil]
    omega

/-- On a ring that is polled, reports keep below what is committed exactly as long as all that was
reported is taken before anything else is. -/
theorem reported_le_iff (h : s.Orderly true) (moves : List Move) :
    (∀ earlier, earlier <+: moves → s.reported earlier ≤ (s.run earlier).committed.length) ↔
      ∀ earlier a, earlier ++ [a] <+: moves → a.reported ((s.run earlier).reply a) ≠ 0 →
        s.reported earlier ≤ (s.run earlier).machine.kernel.taken.length := by
  constructor
  · intro hlaw earlier a hprefix hcount
    obtain ⟨live, base, horder, hpolled⟩ := h earlier
    rcases horder.reported_polled hpolled a with hzero | ⟨hall, hsame⟩
    · exact absurd hzero hcount
    · -- the law after the move, whose count is all that is not taken
      have hafter := hlaw (earlier ++ [a]) hprefix
      rw [reported_concat, run_append, run_cons, run_nil, hsame] at hafter
      omega
  · intro htaken earlier
    induction earlier using List.reverseRecOn with
    | nil => exact fun _ => Nat.zero_le _
    | append_singleton earlier a ih =>
      intro hprefix
      obtain ⟨live, base, horder, hpolled⟩ := h earlier
      have hbefore := ih ((List.prefix_append ..).trans hprefix)
      have hgrows := (step_advances horder.machine.live_eq a).committed
      rw [reported_concat, run_append, run_cons, run_nil]
      rcases horder.reported_polled hpolled a with hzero | ⟨hall, hsame⟩
      · omega
      · by_cases hcount : a.reported ((s.run earlier).reply a) = 0
        · omega
        · -- what was reported before is taken, and the move reports what is not
          have hold := htaken earlier a hprefix hcount
          rw [hsame]
          omega

end Orderly

/-- On a kernel that is entered and honest, all that a run has reported is taken, and so committed.
On a ring that is polled, the reports keep below what is committed exactly as long as each move that
reports something finds everything reported before it taken already. -/
theorem reported_le_committed {setup : Setup} {k : Kernel} {ring : Ring}
    (h : (setup.build k).1 = .ok ring) (hidle : k.sq.head = k.sq.tail) (hnew : k.taken = [])
    (moves : List Move) :
    let s := start ring (setup.build k).2
    (ring.polled = false →
      (∀ earlier, earlier <+: moves → (s.run earlier).machine.kernel.Honest) →
      s.reported moves ≤ (s.run moves).machine.kernel.taken.length ∧
        (s.run moves).machine.kernel.taken.length ≤ (s.run moves).committed.length) ∧
    (ring.polled = true →
      ((∀ earlier, earlier <+: moves → s.reported earlier ≤ (s.run earlier).committed.length) ↔
        ∀ earlier a, earlier ++ [a] <+: moves → a.reported ((s.run earlier).reply a) ≠ 0 →
          s.reported earlier ≤ (s.run earlier).machine.kernel.taken.length)) := by
  intro s
  have horderly := Orderly.of_build h hidle hnew
  refine ⟨?_, ?_⟩
  · intro hpolled hhonest
    rw [hpolled] at horderly
    obtain ⟨live, base, horder, -⟩ := horderly moves
    exact ⟨horderly.reported_le_taken hhonest, horder.taken_le_committed⟩
  · intro hpolled
    rw [hpolled] at horderly
    exact horderly.reported_le_iff moves

/-- An honest kernel takes nothing the first time, and a polling one takes an entry between two
submits. -/
theorem reported_le_committed_late :
    (∃ ring, (Setup.build ⟨2, 0, 0⟩ (.idle ⟨1⟩ 0xffffffff)).1 = .ok ring ∧
      let s := start ring (Setup.build ⟨2, 0, 0⟩ (.idle ⟨1⟩ 0xffffffff)).2
      let moves := [.kernel (.script [.ok { consume := some 0 }] []), .claim,
        .act (.encode .nop), .call .submit, .call .submit]
      s.reported moves = 1 ∧ s.reported moves ≤ (s.run moves).machine.kernel.taken.length ∧
        (s.run moves).machine.kernel.taken.length ≤ (s.run moves).committed.length) ∧
    (∃ ring, (Setup.build ⟨2, 0, 2⟩ (.polling ⟨1⟩ 0xffffffff)).1 = .ok ring ∧
      let s := start ring (Setup.build ⟨2, 0, 2⟩ (.polling ⟨1⟩ 0xffffffff)).2
      let moves := [.claim, .act (.encode .nop), .call .submit, .kernel (.consume 1 true []),
        .claim, .act (.encode .nop), .call .submit]
      s.reported moves = 2 ∧ (s.run moves).committed.length = 2 ∧
        ∀ earlier a, earlier ++ [a] <+: moves → a.reported ((s.run earlier).reply a) ≠ 0 →
          s.reported earlier ≤ (s.run earlier).machine.kernel.taken.length) := by
  have hentered : (Setup.build ⟨2, 0, 0⟩ (.idle ⟨1⟩ 0xffffffff)).1 = .ok _ := rfl
  have hpolled : (Setup.build ⟨2, 0, 2⟩ (.polling ⟨1⟩ 0xffffffff)).1 = .ok _ := rfl
  refine ⟨⟨_, hentered, ?_⟩, ⟨_, hpolled, ?_⟩⟩
  · intro s moves
    have hlaw := (reported_le_committed hentered rfl rfl moves).1
    have hret : ∀ earlier ∈ moves.inits, (s.run earlier).machine.kernel.enterReplies.all
        (fun reply => match reply with
          | .ok service => service.ret.isNone
          | .error _ => true) = true := by decide +kernel
    have hhonest : ∀ earlier, earlier <+: moves → (s.run earlier).machine.kernel.Honest := by
      intro earlier hprefix
      apply Kernel.honest_of_ret
      intro service hservice
      have hall := List.all_eq_true.mp (hret earlier ((List.mem_inits ..).mpr hprefix))
        (.ok service) (List.mem_of_head? hservice)
      exact Option.isNone_iff_eq_none.mp hall
    have hboth := hlaw rfl hhonest
    have hs : start _ (Setup.build ⟨2, 0, 0⟩ (.idle ⟨1⟩ 0xffffffff)).2 = s := rfl
    rw [hs] at hboth
    exact ⟨by decide +kernel, hboth⟩
  · intro s moves
    have hlaw := (reported_le_committed hpolled rfl rfl moves).2
    have hkept : ∀ earlier ∈ moves.inits,
        s.reported earlier ≤ (s.run earlier).committed.length := by decide +kernel
    refine ⟨by decide +kernel, by decide +kernel, (hlaw rfl).mp fun earlier hprefix => ?_⟩
    exact hkept earlier ((List.mem_inits ..).mpr hprefix)

/-- A polling kernel that has not come to an entry yet has it reported twice. -/
theorem reported_twice :
    ∃ ring, (Setup.build ⟨2, 0, 2⟩ (.polling ⟨1⟩ 0)).1 = .ok ring ∧
      let s := start ring (Setup.build ⟨2, 0, 2⟩ (.polling ⟨1⟩ 0)).2
      let moves := [.claim, .act (.encode .nop), .call .submit, .call .submit]
      (∀ earlier, earlier <+: moves → (s.run earlier).machine.kernel.Honest) ∧
        (s.run moves).committed.length = 1 ∧ s.reported moves = 2 := by
  refine ⟨_, rfl, ?_⟩
  intro s moves
  refine ⟨?_, by decide +kernel, by decide +kernel⟩
  intro earlier hprefix
  have hnone : ∀ earlier ∈ moves.inits,
      (s.run earlier).machine.kernel.enterReplies.isEmpty = true := by decide +kernel
  have hempty := List.isEmpty_iff.mp (hnone earlier ((List.mem_inits ..).mpr hprefix))
  apply Kernel.honest_of_ret
  intro service hservice
  rw [hempty] at hservice
  cases hservice

end Session

end Uring
