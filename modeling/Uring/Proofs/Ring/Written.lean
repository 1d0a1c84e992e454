import Uring.Proofs.Kernel.Turn
import Uring.Proofs.Ring.Slot

/-!
# Uring.Proofs.Ring.Written — an entry is what the acts on its slot made of it

A slot is handed out empty and nobody but its holder writes it, so at every moment its entry is what
the acts that succeeded, one after another, make of the empty entry.  Nothing is left in it from an
earlier use of the same cell.
-/

namespace Uring

/-- What the acts make of the empty entry. -/
def Commit.built (c : Commit) : Submission.Entry := c.done.foldl (fun e a => a.write e) {}

theorem Commit.built_concat (e e' : Submission.Entry) (done : List Slot.Act) (a : Slot.Act) :
    (⟨e', done ++ [a]⟩ : Commit).built = a.write (⟨e, done⟩ : Commit).built := by
  simp [built]

namespace Draft

theorem asCommit_extend (d : Draft) (a : Slot.Act) (s : Machine) :
    (d.extend a).asCommit (d.slot.perform s a).kernel.sq =
      ⟨a.write (s.kernel.sq.sqes.get d.slot.index), d.done ++ [a]⟩ := by
  unfold extend asCommit
  rw [Slot.after_index, Slot.perform_kernel]
  unfold Machine.modifyEntry
  dsimp only
  rw [Cells.get_set_self]

theorem asCommit_congr (d : Draft) {m m' : Submission.Memory} (h : m'.sqes = m.sqes) :
    d.asCommit m' = d.asCommit m := by
  unfold asCommit
  rw [h]

end Draft

namespace Session

variable {s : Session}

theorem mem_committed {c : Commit} :
    c ∈ s.committed ↔ c ∈ s.commits ∨
      ∃ d, s.draft = some d ∧ d.slot.committed = true ∧ c = d.asCommit s.machine.kernel.sq := by
  unfold committed openCommit
  cases s.draft with
  | none => simp
  | some d => cases hc : d.slot.committed <;> simp [Draft.commit?, hc]

structure Written (s : Session) : Prop where
  commits : ∀ c ∈ s.commits, c.entry = c.built
  slot : ∀ d, s.draft = some d →
    (d.asCommit s.machine.kernel.sq).entry = (d.asCommit s.machine.kernel.sq).built

namespace Written

theorem committed (h : s.Written) {c : Commit} (hc : c ∈ s.committed) : c.entry = c.built := by
  rcases mem_committed.mp hc with hold | ⟨d, hd, -, rfl⟩
  · exact h.commits c hold
  · exact h.slot d hd

theorem letGo (h : s.Written) : s.letGo.Written :=
  ⟨fun _ hc => h.committed hc, by rintro d ⟨⟩⟩

theorem claim (h : s.Written) : s.claim.Written := by
  rcases s.claim_cases with hclaim | ⟨_, index, -, -, hclaim⟩
  · rw [hclaim]
    exact h.letGo
  · rw [hclaim]
    refine ⟨h.letGo.commits, ?_⟩
    rintro d ⟨⟩
    unfold Draft.asCommit Machine.modifyEntry Commit.built
    dsimp only
    rw [Cells.get_set_self, List.foldl_nil]

theorem act (h : s.Written) (a : Slot.Act) : (s.act a).Written := by
  rcases s.act_cases a with hact | ⟨d, hd, -, hact⟩
  · rw [hact]
    exact h
  · rw [hact]
    refine ⟨h.commits, ?_⟩
    rintro d' ⟨⟩
    show ((d.extend a).asCommit (d.slot.perform s.machine a).kernel.sq).entry = Commit.built _
    rw [Draft.asCommit_extend, Commit.built_concat (s.machine.kernel.sq.sqes.get d.slot.index)]
    exact congrArg a.write (h.slot d hd)

theorem step (h : s.Written) (a : Move) : (s.step a).Written := by
  cases a with
  | claim => exact h.claim
  | act a => exact h.act a
  | drop => exact h.letGo
  | call a ha => exact ⟨h.letGo.commits, by rintro d ⟨⟩⟩
  | kernel event =>
    refine ⟨h.commits, ?_⟩
    intro d hd
    have hsqes := (Kernel.event_turns s.machine.kernel event).sqes_eq
    show (d.asCommit (s.machine.kernel.event event).2.sq).entry = Commit.built (d.asCommit _)
    rw [d.asCommit_congr hsqes]
    exact h.slot d hd

theorem run (h : s.Written) (moves : List Move) : (s.run moves).Written :=
  run_induction (fun _ a h => h.step a) h moves

theorem start (ring : Ring) (k : Kernel) : (Session.start ring k).Written :=
  ⟨by rintro c ⟨⟩, by rintro d ⟨⟩⟩

end Written

end Session

end Uring
