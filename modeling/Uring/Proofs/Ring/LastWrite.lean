import Mathlib.Data.List.Induction
import Uring.Proofs.Ring.SetUp
import Uring.Proofs.Ring.Written

/-!
# Uring.Proofs.Ring.LastWrite — what the acts on one slot leave in its entry

Encoding zeroes the operation's part of an entry before it writes, and neither tags nor flags belong
to that part.  So of all the acts that succeed on a slot only the last operation, the last tag and
the last flags count, and a slot joins the batch once if any operation was encoded and else not at
all.
-/

namespace Uring

/-! ### Entries -/

/-- An operation is encoded as into an empty entry, apart from the caller's part. -/
theorem Operation.encode_clearOperation (op : Operation) (e : Submission.Entry) :
    op.encode e.clearOperation =
      { op.encode {} with userData := e.userData, flags := e.flags } := by
  cases op with
  | accept fd flags peer multishot => cases peer <;> cases multishot <;> rfl
  | _ => rfl

namespace Slot.Act

def op? : Act → Option Operation
  | .encode op => some op
  | _ => none

def flags? : Act → Option UInt8
  | .flags word => some word
  | _ => none

/-- The empty entry with the last operation, the last tag and the last flags. -/
def lastWrites (done : List Act) : Submission.Entry :=
  { ((done.filterMap op?).getLast?.map (·.encode {})).getD {} with
    userData := ((done.filterMap tag?).getLast?.map Tag.userData).getD 0
    flags := (done.filterMap flags?).getLast?.getD 0 }

theorem getLast?_filterMap_concat {α : Type} (f : Act → Option α) (done : List Act) (a : Act) :
    ((done ++ [a]).filterMap f).getLast? = (f a).or (done.filterMap f).getLast? := by
  cases h : f a <;> simp [h]

theorem lastWrites_concat (done : List Act) (a : Act) :
    lastWrites (done ++ [a]) = a.write (lastWrites done) := by
  unfold lastWrites
  simp only [getLast?_filterMap_concat]
  cases a with
  | tag t => rfl
  | flags word => rfl
  | encode op =>
    rw [write, Operation.encode_clearOperation]
    rfl

end Slot.Act

/-- What acts in a row make of the empty entry is decided by the last of each kind. -/
theorem Commit.built_eq_lastWrites (c : Commit) : c.built = Slot.Act.lastWrites c.done := by
  obtain ⟨e, done⟩ := c
  induction done using List.reverseRecOn with
  | nil => rfl
  | append_singleton done a ih =>
    rw [Commit.built_concat e, ih, Slot.Act.lastWrites_concat]

/-- Every entry in the batch of a session holds the last writes to it. -/
theorem Session.Written.entry_eq {s : Session} (h : s.Written) {c : Commit}
    (hc : c ∈ s.committed) : c.entry = Slot.Act.lastWrites c.done :=
  (h.committed hc).trans c.built_eq_lastWrites

/-! ### One slot -/

/-- A move in which a slot stays open. -/
def Move.keepsSlot : Move → Bool
  | .act _ | .kernel _ => true
  | _ => false

/-- The act that a move was, if it succeeded. -/
def Move.success? : Move → Answer → Option Slot.Act
  | .act a, .done (.ok ()) => some a
  | _, _ => none

namespace Session

/-- The acts that succeed when moves are made in order. -/
def performed (s : Session) (moves : List Move) : List Slot.Act :=
  (moves.zip (s.replies moves)).filterMap fun p => p.1.success? p.2

@[simp] theorem performed_nil (s : Session) : s.performed [] = [] := rfl

theorem performed_cons (s : Session) (a : Move) (rest : List Move) :
    s.performed (a :: rest) = (a.success? (s.reply a)).toList ++ (s.step a).performed rest := by
  cases h : a.success? (s.reply a) <;> simp [performed, replies, h]

/-- The slot that `s` claims is open in `t`, and these are the acts that have succeeded on it. -/
structure Filled (s t : Session) (live : Live) (index : UInt32) (done : List Slot.Act) : Prop where
  draft : ∃ slot, t.draft = some ⟨slot, done⟩ ∧ slot.index = index ∧
    slot.committed = done.any Slot.Act.encodes
  live_eq : t.machine.ring.live = some { live with
    sq := if done.any Slot.Act.encodes then live.sq.commit else live.sq }
  entry : t.machine.kernel.sq.sqes.get index = Slot.Act.lastWrites done
  others : ∀ i, i ≠ index →
    t.machine.kernel.sq.sqes.get i = s.machine.kernel.sq.sqes.get i
  commits : t.commits = s.committed

namespace Filled

variable {s t : Session} {live : Live} {index : UInt32} {done : List Slot.Act}

theorem claim {slot : Slot} (h : s.machine.nextSlot.1 = .ok slot) :
    ∃ live, s.machine.ring.live = some live ∧ s.Filled s.claim live slot.index [] := by
  unfold Machine.nextSlot at h
  unfold Session.claim Machine.nextSlot
  cases hlive : s.machine.ring.live with
  | none =>
    rw [hlive] at h
    cases h
  | some live =>
    rw [hlive] at h
    dsimp only at h ⊢
    cases hvacant : live.sq.vacant? s.machine.kernel.sq with
    | none =>
      rw [hvacant] at h
      cases h
    | some index =>
      rw [hvacant] at h
      obtain rfl := Except.ok.inj h
      refine ⟨live, rfl, ⟨_, rfl, rfl, rfl⟩, hlive, ?_, ?_, rfl⟩
      · exact Cells.get_set_self _ _ _
      · intro i hi
        exact Cells.get_set_of_ne _ _ hi.symm

/-- The kernel writes neither entries nor the caller's part. -/
theorem kernel (h : s.Filled t live index done) (event : KernelEvent) :
    s.Filled (t.step (.kernel event)) live index done := by
  have hsqes := (Kernel.event_turns t.machine.kernel event).sqes_eq
  refine ⟨h.draft, h.live_eq, ?_, ?_, h.commits⟩
  · show (t.machine.kernel.event event).2.sq.sqes.get index = _
    rw [hsqes]
    exact h.entry
  · intro i hi
    show (t.machine.kernel.event event).2.sq.sqes.get i = _
    rw [hsqes]
    exact h.others i hi

/-- An act that succeeds is one more write, and one that fails is none. -/
theorem act (h : s.Filled t live index done) (a : Slot.Act) :
    s.Filled (t.act a) live index
      (done ++ ((Move.act a).success? (t.reply (.act a))).toList) := by
  obtain ⟨slot, hdraft, hindex, hcommitted⟩ := h.draft
  rw [reply_act hdraft]
  cases hcheck : slot.check t.machine a with
  | error e =>
    rw [act_of_error hdraft hcheck]
    simpa [Move.success?] using h
  | ok _ =>
    rw [act_of_ok hdraft hcheck]
    show s.Filled _ live index (done ++ [a])
    -- the tail moves with the first encoding only, which is when `any` turns true
    have hkernel := slot.perform_kernel t.machine a
    have hlive := slot.perform_live t.machine h.live_eq a
    have hany : (done ++ [a]).any Slot.Act.encodes = (a.encodes || done.any Slot.Act.encodes) := by
      simp [Bool.or_comm]
    refine ⟨⟨slot.after a, rfl, ?_, ?_⟩, ?_, ?_, ?_, h.commits⟩
    · rw [Slot.after_index, hindex]
    · rw [Slot.after_committed, hcommitted, hany]
    · rw [hlive, hcommitted, hany]
      cases a.encodes <;> cases done.any Slot.Act.encodes <;> rfl
    · show (slot.perform t.machine a).kernel.sq.sqes.get index = _
      rw [hkernel, hindex, Slot.Act.lastWrites_concat, ← h.entry]
      exact Cells.get_set_self _ _ _
    · intro i hi
      show (slot.perform t.machine a).kernel.sq.sqes.get i = _
      rw [hkernel, hindex, ← h.others i hi]
      exact Cells.get_set_of_ne _ _ hi.symm

theorem run (h : s.Filled t live index done) {moves : List Move}
    (hmoves : ∀ a ∈ moves, a.keepsSlot = true) :
    s.Filled (t.run moves) live index (done ++ t.performed moves) := by
  induction moves generalizing t done with
  | nil => simpa using h
  | cons a rest ih =>
    have hrest : ∀ a ∈ rest, a.keepsSlot = true := fun a ha => hmoves a (.tail _ ha)
    rw [run_cons, performed_cons, ← List.append_assoc]
    refine ih ?_ hrest
    cases a with
    | act a => exact h.act a
    | kernel event =>
      have hnone : (Move.kernel event).success? (t.reply (.kernel event)) = none := rfl
      rw [hnone]
      simpa using h.kernel event
    | claim => cases hmoves .claim (.head _)
    | drop => cases hmoves .drop (.head _)
    | call b hb => cases hmoves (.call b hb) (.head _)

/-- The slot that is let go leaves one entry, if an operation was encoded, and else none. -/
theorem letGo_commits (h : s.Filled t live index done) :
    t.letGo.commits = s.committed ++
      if done.any Slot.Act.encodes then [⟨Slot.Act.lastWrites done, done⟩] else [] := by
  obtain ⟨slot, hdraft, hindex, hcommitted⟩ := h.draft
  have hopen : t.openCommit =
      if done.any Slot.Act.encodes then some ⟨Slot.Act.lastWrites done, done⟩ else none := by
    unfold openCommit
    rw [hdraft, Option.bind_some, Draft.commit?, hcommitted, Draft.asCommit, hindex, h.entry]
  show t.commits ++ t.openCommit.toList = _
  rw [h.commits, hopen]
  cases done.any Slot.Act.encodes <;> rfl

end Filled

/-- Whatever acts are made on a claimed slot, whether they fail or not, and whatever the kernel does
meanwhile: the slot leaves one entry in the batch if an operation was encoded, and else none, and
its entry holds the last operation, encoded as into an empty entry, the last tag and the last flags,
each of those that succeeded.  No other entry is touched, and no operation writes a tag or flags. -/
theorem last_write_wins {s : Session} {slot : Slot} (hclaim : s.machine.nextSlot.1 = .ok slot)
    {moves : List Move} (hmoves : ∀ a ∈ moves, a.keepsSlot = true) :
    let t := s.claim.run moves
    let done := s.claim.performed moves
    t.letGo.commits = s.committed ++
        (if done.any Slot.Act.encodes then [⟨Slot.Act.lastWrites done, done⟩] else []) ∧
      (∃ live, s.machine.ring.live = some live ∧ t.machine.ring.live = some { live with
        sq := if done.any Slot.Act.encodes then live.sq.commit else live.sq }) ∧
      t.machine.kernel.sq.sqes.get slot.index = Slot.Act.lastWrites done ∧
      (∀ i, i ≠ slot.index →
        t.machine.kernel.sq.sqes.get i = s.machine.kernel.sq.sqes.get i) ∧
      ∀ (op : Operation) (e : Submission.Entry),
        (op.encode e).userData = e.userData ∧ (op.encode e).flags = e.flags := by
  intro t done
  obtain ⟨live, hlive, hempty⟩ := Filled.claim hclaim
  have hfilled : s.Filled t live slot.index done := hempty.run hmoves
  exact ⟨hfilled.letGo_commits, ⟨live, hlive, hfilled.live_eq⟩, hfilled.entry, hfilled.others,
    fun op e => ⟨op.encode_userData e, op.encode_flags e⟩⟩

/-- A multishot accept with a peer's address leaves nothing behind when it is overwritten, and an
operation that is refused leaves nothing at all. -/
theorem last_write_wins_multishot :
    ∃ ring, (Setup.build ⟨2, 0, 0⟩ (.idle ⟨1⟩ 0xffffffff)).1 = .ok ring ∧
      let s := start ring (Setup.build ⟨2, 0, 0⟩ (.idle ⟨1⟩ 0xffffffff)).2
      let moves := [.act (.tag (.data64 7)), .act (.flags 4),
        .act (.encode (.accept 3 0 (some ⟨⟨64, 16⟩, ⟨128, 16⟩⟩) true)),
        .kernel (.consume 1 false []), .act (.encode (.close 5)),
        .act (.encode (.shutdown (-1) .both)), .act (.tag (.data64 9))]
      (s.claim.run moves).letGo.commits.map Commit.entry =
        [{ opcode := Abi.opClose, fd := 5, userData := 9, flags := 4 }] := by
  refine ⟨_, rfl, ?_⟩
  intro s moves
  have hclaim : s.machine.nextSlot.1 = .ok { index := 1 } := by decide +kernel
  have hmoves : ∀ a ∈ moves, a.keepsSlot = true := by decide
  obtain ⟨hcommits, -⟩ := last_write_wins hclaim hmoves
  have hdone : s.claim.performed moves = [.tag (.data64 7), .flags 4,
      .encode (.accept 3 0 (some ⟨⟨64, 16⟩, ⟨128, 16⟩⟩) true), .encode (.close 5),
      .tag (.data64 9)] := by decide +kernel
  rw [hcommits, hdone]
  rfl

end Session

end Uring
