import Uring.Proofs.Ring.Lifelong

/-!
# Uring.Proofs.Ring.Untaken — a submit offers all that the kernel has not taken

Publishing comes before the one call that a submit makes at most.  So an enter that fails, or that
takes less than it is offered, loses nothing: what the kernel has left is offered by the next
submit, and after it what was committed since.
-/

namespace Uring

namespace Session

variable {s t : Session} {live : Live} {base : UInt32}

/-- The committed entries that the kernel has not taken, oldest first. -/
def untaken (s : Session) : List Submission.Entry :=
  (s.committed.map Commit.entry).drop s.machine.kernel.taken.length

namespace InOrder

theorem untaken_eq (h : s.InOrder live base) : s.untaken = live.sq.toList s.machine.kernel.sq := by
  have haccount := h.committed.queue.account
  have hlen : (s.machine.kernel.taken.map Prod.snd).length = s.machine.kernel.taken.length :=
    List.length_map ..
  rw [untaken, ← haccount, ← hlen, List.drop_left]
  rfl

theorem taken_append_untaken (h : s.InOrder live base) :
    s.machine.kernel.taken.map Prod.snd ++ s.untaken = s.committed.map Commit.entry := by
  rw [h.untaken_eq]
  exact h.committed.queue.account

theorem length_untaken (h : s.InOrder live base) :
    s.untaken.length = (live.sq.outstanding s.machine.kernel.sq).toNat := by
  rw [h.untaken_eq, Submission.Queue.length_toList]

/-- Publishing puts all that is left before the kernel. -/
theorem published_flushed (h : s.InOrder live base) :
    (s.machine.flushed live).kernel.sq.published = s.untaken := by
  rw [h.untaken_eq]
  rfl

/-- What was left before is taken first, and what was committed since is left behind it. -/
theorem untaken_later {live' : Live} {base' : UInt32} (hs : s.InOrder live base)
    (ht : t.InOrder live' base') (htaken : s.machine.kernel.taken <+: t.machine.kernel.taken)
    (hcommitted : s.committed <+: t.committed) :
    ∃ fresh passed, t.committed = s.committed ++ fresh ∧
      t.machine.kernel.taken = s.machine.kernel.taken ++ passed ∧
      passed.map Prod.snd ++ t.untaken = s.untaken ++ fresh.map Commit.entry := by
  obtain ⟨passed, hpassed⟩ := htaken
  obtain ⟨fresh, hfresh⟩ := hcommitted
  refine ⟨fresh, passed, hfresh.symm, hpassed.symm, ?_⟩
  have hbefore := hs.taken_append_untaken
  have hafter := ht.taken_append_untaken
  rw [← hfresh, ← hpassed, List.map_append, List.map_append, ← hbefore, List.append_assoc,
    List.append_assoc] at hafter
  exact List.append_cancel_left hafter

end InOrder

/-- Whatever was done with a ring before: a submit first puts all that is committed and not taken
before the kernel, also when it then fails.  It makes one call, which offers just that, or none if
there is nothing to ask for and nothing to hand over, or the kernel polls; a failure of that call is
passed on, and the call is not made again.  What the kernel leaves, all of it if the call fails, is
what the next submit offers, after the kernel took more off its front in between and followed by
what was committed since. -/
theorem untaken_offered {setup : Setup} {k : Kernel} {ring : Ring}
    (h : (setup.build k).1 = .ok ring) (hidle : k.sq.head = k.sq.tail) (hnew : k.taken = [])
    (moves : List Move) (wait : UInt32) :
    let s := (start ring (setup.build k).2).run moves
    let r := s.machine.submitAndWait wait
    let t := s.step (.call (.submitAndWait wait))
    s.machine.kernel.taken.map Prod.snd ++ s.untaken = s.committed.map Commit.entry ∧
    (∃ live n flags,
      let published := s.machine.flushed live
      s.machine.ring.live = some live ∧
        published.kernel.sq.published = s.untaken ∧ r.2.kernel.sq.tail = live.sq.tail ∧
        n.toNat = s.untaken.length ∧ s.machine.Asks wait flags ∧
        published.Submits live n wait flags r) ∧
    (∃ passed, r.2.kernel.taken = s.machine.kernel.taken ++ passed ∧
      s.untaken = passed.map Prod.snd ++ t.untaken ∧ (∀ e, r.1 = .error e → passed = [])) ∧
    ∀ more,
      let u := t.run more
      ∃ live fresh passed, u.machine.ring.live = some live ∧
        u.committed = t.committed ++ fresh ∧
        u.machine.kernel.taken = t.machine.kernel.taken ++ passed ∧
        passed.map Prod.snd ++ (u.machine.flushed live).kernel.sq.published =
          t.untaken ++ fresh.map Commit.entry := by
  intro s r t
  obtain ⟨live, base, hs, -, -⟩ := run_inOrder h hidle hnew moves
  obtain ⟨live', base', ht⟩ := hs.step (.call (.submitAndWait wait))
  have hsubmits := (Machine.submitAndWait_outcome hs.published wait).submits
  have hcommitted : t.committed = s.committed := s.call_committed (.submitAndWait wait) rfl
  refine ⟨hs.taken_append_untaken, ⟨live, _, _, hs.machine.live_eq, hs.published_flushed, ?_,
    hs.length_untaken.symm, s.machine.asks_submitFlags wait, hsubmits⟩, ?_, ?_⟩
  · -- the ring is as published, and the order says that the kernel's tail is the one published
    have hlive : t.machine.ring.live = some { live with sq.head := live.sq.tail } :=
      congrArg Ring.live hsubmits.ring_eq
    obtain rfl := Option.some.inj (ht.machine.live_eq.symm.trans hlive)
    exact ht.machine.queue.tail_eq
  · -- the submit itself commits nothing
    obtain ⟨fresh, passed, hfresh, hpassed, hleft⟩ := hs.untaken_later ht
      (s.step_advances hs.machine.live_eq _).taken (hcommitted ▸ List.prefix_rfl)
    have hnone : fresh = [] := List.self_eq_append_right.mp (hcommitted.symm.trans hfresh)
    refine ⟨passed, hpassed, by simpa [hnone] using hleft.symm, ?_⟩
    intro e he
    have hsame : s.machine.kernel.taken ++ passed = s.machine.kernel.taken :=
      hpassed.symm.trans (hsubmits.taken_of_error he)
    simpa using hsame
  · intro more u
    obtain ⟨live'', base'', hu, hadv⟩ := ht.run more
    obtain ⟨fresh, passed, hfresh, hpassed, hoffered⟩ :=
      ht.untaken_later hu hadv.taken (run_committed rfl more)
    rw [← hu.published_flushed] at hoffered
    exact ⟨live'', fresh, passed, hu.machine.live_eq, hfresh, hpassed, hoffered⟩

/-- Two entries across the wrap of the counters: a submit is interrupted, the next one offers both,
the kernel takes one of them, and the other is left. -/
theorem untaken_offered_partial :
    ∃ ring, (Setup.build ⟨2, 0, 0⟩ (.idle ⟨1⟩ 0xffffffff)).1 = .ok ring ∧
      let s := (start ring (Setup.build ⟨2, 0, 0⟩ (.idle ⟨1⟩ 0xffffffff)).2).run
        [.kernel (.script [.error .interrupted, .ok { consume := some 1 }] []),
          .claim, .act (.encode .nop), .claim, .act (.encode .nop), .call .submit]
      let r := s.machine.submitAndWait 0
      let t := s.step (.call (.submitAndWait 0))
      s.untaken.length = 2 ∧ r.1.toOption = some 1 ∧ t.untaken.length = 1 ∧
        (∃ live n flags, n.toNat = s.untaken.length ∧
          (s.machine.flushed live).Submits live n 0 flags r) ∧
        ∃ passed : List (UInt32 × Submission.Entry),
          s.untaken = passed.map Prod.snd ++ t.untaken := by
  have hbuild : (Setup.build ⟨2, 0, 0⟩ (.idle ⟨1⟩ 0xffffffff)).1 = .ok _ := rfl
  refine ⟨_, hbuild, ?_⟩
  intro s r t
  obtain ⟨-, ⟨live, n, flags, -, -, -, hn, -, hsubmits⟩, ⟨passed, -, hleft, -⟩, -⟩ :=
    untaken_offered hbuild rfl rfl
      [.kernel (.script [.error .interrupted, .ok { consume := some 1 }] []),
        .claim, .act (.encode .nop), .claim, .act (.encode .nop), .call .submit] 0
  refine ⟨by decide, by decide, by decide, ?_, passed, hleft⟩
  exact ⟨live, n, flags, hn, hsubmits⟩

end Session

end Uring
