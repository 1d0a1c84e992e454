import Uring.Proofs.Ring.SubmissionOrder
import Uring.Proofs.Ring.Submit

/-!
# Uring.Proofs.Ring.Lifelong — what a ring keeps as long as it lives

The size of the submission queue and the way in which the kernel serves the ring are fixed at the
start.  The entries that the kernel has taken, and those that are committed, only grow.
-/

namespace Uring

/-! ### The shape of a ring -/

/-- How a ring is served, and the size of its submission queue while it lives. -/
def Machine.shape (s : Machine) : UInt32 × Option RingSize :=
  (s.ring.setupFlags, s.ring.live.map (·.sq.size))

namespace Machine

variable {s t : Machine} {ds : List Completion.Entry}

theorem shape_of_live {live : Live} (h : s.ring.live = some live) :
    s.shape = (s.ring.setupFlags, some live.sq.size) := by
  rw [shape, h]
  rfl

theorem polled_of_shape (h : t.shape = s.shape) : t.ring.polled = s.ring.polled := by
  have hflags : t.ring.setupFlags = s.ring.setupFlags := congrArg Prod.fst h
  unfold Ring.polled
  rw [hflags]

theorem Effect.shape_eq (h : Effect s ds t) : t.shape = s.shape := by
  cases h with
  | note e => rfl
  | turn hturn => rfl
  | publish hlive =>
    rw [shape_of_live hlive]
    rfl
  | pass hlive hn hp => rfl

theorem Path.shape_eq (h : Path s ds t) : t.shape = s.shape := by
  induction h with
  | refl => rfl
  | tail _ heff ih => exact heff.shape_eq.trans ih

@[simp] theorem adoptKind_shape (s : Machine) (kind : Option TagKind) :
    (s.adoptKind kind).shape = s.shape := by
  cases kind <;> rfl

@[simp] theorem commitIf_shape (s : Machine) (c : Bool) : (s.commitIf c).shape = s.shape := by
  cases c with
  | false => rfl
  | true =>
    unfold commitIf commit
    cases hlive : s.ring.live with
    | none => simp
    | some live => simp [shape, withLive, Submission.Queue.commit, hlive]

end Machine

@[simp] theorem Slot.perform_shape (slot : Slot) (s : Machine) (a : Slot.Act) :
    (slot.perform s a).shape = s.shape := by
  simp only [perform, Machine.adoptKind_shape, Machine.commitIf_shape]
  rfl

/-! ### What the kernel has taken -/

theorem Kernel.Turn.taken {k k' : Kernel} (h : Turn k k') : k.taken <+: k'.taken := by
  rcases h.sq_cases with ⟨n, rfl⟩ | ⟨htaken, -⟩
  · exact List.prefix_append ..
  · exact htaken ▸ List.prefix_rfl

theorem Kernel.Turns.taken {k k' : Kernel} (h : Turns k k') : k.taken <+: k'.taken :=
  h.invariant (P := fun k' => k.taken <+: k'.taken) (fun _ _ hturn ih => ih.trans hturn.taken)
    List.prefix_rfl

theorem Machine.Path.taken {s t : Machine} {ds : List Completion.Entry} (h : Path s ds t) :
    s.kernel.taken <+: t.kernel.taken := by
  induction h with
  | refl => exact List.prefix_rfl
  | tail _ heff ih =>
    refine ih.trans ?_
    cases heff with
    | note e => exact List.prefix_rfl
    | turn hturn => exact hturn.taken
    | publish hlive => exact List.prefix_rfl
    | pass hlive hn hp => exact List.prefix_rfl

/-! ### Sessions -/

namespace Session

variable {s : Session} {live : Live}

/-- Each move keeps the shape, and nothing is taken back or dropped from the batch. -/
structure Advances (s t : Session) : Prop where
  shape : t.machine.shape = s.machine.shape
  taken : s.machine.kernel.taken <+: t.machine.kernel.taken
  committed : s.committed.length ≤ t.committed.length

theorem Advances.refl (s : Session) : s.Advances s := ⟨rfl, List.prefix_rfl, Nat.le_refl _⟩

theorem Advances.trans {t u : Session} (h : s.Advances t) (h' : t.Advances u) : s.Advances u :=
  ⟨h'.shape.trans h.shape, h.taken.trans h'.taken, Nat.le_trans h.committed h'.committed⟩

theorem letGo_advances (s : Session) : s.Advances s.letGo :=
  ⟨rfl, List.prefix_rfl, by simp [letGo, committed, openCommit]⟩

theorem claim_advances (s : Session) : s.Advances s.claim := by
  rcases s.claim_cases with hclaim | ⟨_, index, -, -, hclaim⟩
  · rw [hclaim]
    exact s.letGo_advances
  · rw [hclaim]
    exact ⟨rfl, List.prefix_rfl, by simp [letGo, committed, openCommit]⟩

/-- An act commits the open slot, if it encodes and the slot is not committed yet. -/
theorem length_committed_act {d : Draft} {a : Slot.Act} (hd : s.draft = some d)
    (hok : d.slot.check s.machine a = .ok ()) :
    (s.act a).committed.length =
      s.committed.length + (a.encodes && !d.slot.committed).toNat := by
  have hopen : (d.extend a).slot.committed = (a.encodes || d.slot.committed) :=
    d.slot.after_committed a
  rw [act_of_ok hd hok]
  cases hencodes : a.encodes <;> cases hcommitted : d.slot.committed <;>
    simp [committed, openCommit, Draft.commit?, hd, hopen, hencodes, hcommitted]

theorem act_advances (s : Session) (a : Slot.Act) : s.Advances (s.act a) := by
  rcases s.act_cases a with hact | ⟨d, hd, hok, hact⟩
  · rw [hact]
    exact .refl s
  · have hlen := s.length_committed_act hd hok
    refine ⟨?_, ?_, by omega⟩
    · rw [hact]
      exact d.slot.perform_shape s.machine a
    · rw [hact]
      show _ <+: (d.slot.perform s.machine a).kernel.taken
      rw [Slot.perform_kernel]
      exact List.prefix_rfl

theorem step_advances (h : s.machine.ring.live = some live) (a : Move) : s.Advances (s.step a) := by
  cases a with
  | claim => exact s.claim_advances
  | act a => exact s.act_advances a
  | drop => exact s.letGo_advances
  | call a ha =>
    have hpath := Machine.call_path h a ha
    exact ⟨hpath.shape_eq, hpath.taken, s.letGo_advances.committed⟩
  | kernel event =>
    refine ⟨rfl, (Kernel.event_turns s.machine.kernel event).taken, Nat.le_of_eq ?_⟩
    cases hd : s.draft with
    | none => simp [step, committed, openCommit, hd]
    | some d =>
      cases hc : d.slot.committed <;>
        simp [step, committed, openCommit, Draft.commit?, hd, hc]

/-- A call lets the open slot go and commits nothing else. -/
theorem call_committed (s : Session) (a : Step) (ha : a.isCall = true) :
    (s.step (.call a ha)).committed = s.committed := by
  simp [step, committed, openCommit, letGo]

/-- Entries that were let go stay where they are. -/
theorem step_commits (s : Session) (a : Move) : s.commits <+: (s.step a).commits := by
  cases a with
  | claim =>
    show s.commits <+: s.claim.commits
    rcases s.claim_cases with hclaim | ⟨_, index, -, -, hclaim⟩
    · rw [hclaim]
      exact List.prefix_append ..
    · rw [hclaim]
      exact List.prefix_append ..
  | act a =>
    have hsame : (s.act a).commits = s.commits := by
      rcases s.act_cases a with hact | ⟨d, -, -, hact⟩ <;> rw [hact]
    exact (hsame ▸ List.prefix_rfl : s.commits <+: (s.act a).commits)
  | drop => exact List.prefix_append ..
  | call a ha => exact List.prefix_append ..
  | kernel event => exact List.prefix_rfl

theorem run_commits (s : Session) (moves : List Move) : s.commits <+: (s.run moves).commits :=
  run_induction (P := fun t => s.commits <+: t.commits)
    (fun t a h => h.trans (t.step_commits a)) List.prefix_rfl moves

/-- With no slot open, all that is committed stays committed. -/
theorem run_committed (hclosed : s.draft = none) (moves : List Move) :
    s.committed <+: (s.run moves).committed := by
  have hnone : s.committed = s.commits := by simp [committed, openCommit, hclosed]
  rw [hnone]
  exact (s.run_commits moves).trans (List.prefix_append ..)

/-- The caller has published up to where the kernel reads. -/
theorem InOrder.published {base : UInt32} (h : s.InOrder live base) : s.machine.Published live :=
  ⟨h.machine.live_eq, h.machine.queue.tail_eq⟩

/-- What is committed is taken or outstanding. -/
theorem InOrder.length_committed {base : UInt32} (h : s.InOrder live base) :
    s.machine.kernel.taken.length + (live.sq.outstanding s.machine.kernel.sq).toNat =
      s.committed.length := by
  have hlen := h.committed.queue.length_eq
  rwa [List.length_map, List.length_map] at hlen

/-- Any run goes on from the order that was kept so far. -/
theorem InOrder.run {base : UInt32} (h : s.InOrder live base) (moves : List Move) :
    ∃ live base, (s.run moves).InOrder live base ∧ s.Advances (s.run moves) := by
  have hrun := run_induction
    (P := fun t => (∃ live base, t.InOrder live base) ∧ s.Advances t)
    (by
      rintro t a ⟨⟨live, base, horder⟩, hadv⟩
      exact ⟨horder.step a, hadv.trans (step_advances horder.machine.live_eq a)⟩)
    ⟨⟨live, base, h⟩, .refl s⟩ moves
  obtain ⟨⟨live', base', horder⟩, hadv⟩ := hrun
  exact ⟨live', base', horder, hadv⟩

/-- A run of a ring that came up on an idle kernel, with the order of entries and the size that the
kernel's memory stated. -/
theorem run_inOrder {setup : Setup} {k : Kernel} {ring : Ring}
    (h : (setup.build k).1 = .ok ring) (hidle : k.sq.head = k.sq.tail) (hnew : k.taken = [])
    (moves : List Move) :
    ∃ live base, ((start ring (setup.build k).2).run moves).InOrder live base ∧
      (start ring (setup.build k).2).Advances ((start ring (setup.build k).2).run moves) ∧
      live.sq.size.entries = k.sq.entries := by
  obtain ⟨live, base, hstart, hentries⟩ := InOrder.of_build h hidle hnew
  obtain ⟨live', base', horder, hadv⟩ := hstart.run moves
  have hshape := hadv.shape
  rw [Machine.shape_of_live horder.machine.live_eq, Machine.shape_of_live hstart.machine.live_eq,
    Prod.mk.injEq, Option.some.injEq] at hshape
  exact ⟨live', base', horder, hadv, (congrArg RingSize.entries hshape.2).trans hentries⟩

end Session

end Uring
