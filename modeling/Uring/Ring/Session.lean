import Uring.Ring.Step

/-!
# Uring.Ring.Session — a ring in use, one act at a time

A `Session` is the use of a ring while it is alive: the machine, the slot in the caller's hands if
there is one, and a record of what went in and of what came out.  A `Move` is one thing that the
caller does or that the kernel does by itself, so the kernel may act while a slot is open.  A call
on the ring lets the slot go first, for a slot does not outlive the next use of its ring.
-/

namespace Uring

/-- A use of the ring that neither opens a slot nor ends the ring's life. -/
def Step.isCall : Step → Bool
  | .slot _ | .kernel _ | .destroy => false
  | _ => true

inductive Move where
  /-- Claims the next slot, if there is room. -/
  | claim
  /-- Performs an act on the open slot. -/
  | act (a : Slot.Act)
  | drop
  | call (a : Step) (h : a.isCall = true := by rfl)
  | kernel (event : KernelEvent)

/-- The open slot and the acts that succeeded on it, oldest first. -/
structure Draft where
  slot : Slot
  done : List Slot.Act
  deriving DecidableEq, Repr

/-- A committed entry and the acts that made it. -/
structure Commit where
  entry : Submission.Entry
  done : List Slot.Act
  deriving DecidableEq, Repr

namespace Commit

/-- The tag stamped last. -/
def stamp? (c : Commit) : Option Tag := (c.done.filterMap Slot.Act.tag?).getLast?

/-- The tags that cancels written to the entry refer to. -/
def targets (c : Commit) : List Tag := c.done.filterMap Slot.Act.target?

/-- The tag in effect and the tags referred to. -/
def tags (c : Commit) : List Tag := c.stamp?.toList ++ c.targets

/-- The word of the tag in effect, or zero. -/
def word (c : Commit) : UInt64 := (c.stamp?.map Tag.userData).getD 0

end Commit

namespace Draft

/-- The slot's entry as it stands. -/
def asCommit (d : Draft) (m : Submission.Memory) : Commit := ⟨m.sqes.get d.slot.index, d.done⟩

/-- What the slot has put into the batch. -/
def commit? (d : Draft) (m : Submission.Memory) : Option Commit :=
  if d.slot.committed then some (d.asCommit m) else none

end Draft

namespace Machine

/-- The completions at hand, oldest first. -/
def ready (s : Machine) : List Completion.Entry :=
  match s.ring.live with
  | none => []
  | some live => live.cq.toList s.kernel.cq

/-- The front of a buffer, as far as a successful copy has filled it. -/
def filled (out : Array Completion.Entry) : Except RingError UInt32 → List Completion.Entry
  | .ok count => out.toList.take count.toNat
  | .error _ => []

/-- The completions that a step hands over to the caller, or that it passes over. -/
def delivers (s : Machine) (a : Step) : List Completion.Entry :=
  match a, (s.step a).1 with
  | _, .batch (.ok batch) => batch.toList
  | _, .copied result out => filled out result
  | _, .ready (.ok (count, out)) => filled out (.ok count)
  | .advance count, .done (.ok ()) => s.ready.take count.toNat
  | _, _ => []

end Machine

structure Session where
  machine : Machine
  draft : Option Draft
  /-- The committed entries in commit order, as they were when their slots were let go. -/
  commits : List Commit
  /-- The completions handed over so far, in order. -/
  delivered : List Completion.Entry

namespace Session

/-- A ring that has just come up on a kernel. -/
def start (ring : Ring) (kernel : Kernel) : Session := ⟨.start ring kernel, none, [], []⟩

/-- A use that goes on from a machine on which no slot is open, with fresh records. -/
def resume (machine : Machine) : Session := ⟨machine, none, [], []⟩

/-- The committed entry of the open slot. -/
def openCommit (s : Session) : Option Commit := s.draft.bind (·.commit? s.machine.kernel.sq)

/-- All committed entries in commit order, that of the open slot as it stands. -/
def committed (s : Session) : List Commit := s.commits ++ s.openCommit.toList

def letGo (s : Session) : Session := { s with draft := none, commits := s.committed }

def claim (s : Session) : Session :=
  match s.machine.nextSlot with
  | (.error _, machine) => { s.letGo with machine := machine }
  | (.ok slot, machine) => { s.letGo with machine := machine, draft := some ⟨slot, []⟩ }

def act (s : Session) (a : Slot.Act) : Session :=
  match s.draft with
  | none => s
  | some d =>
    match d.slot.act s.machine a with
    | (.error _, slot, machine) => { s with machine := machine, draft := some ⟨slot, d.done⟩ }
    | (.ok (), slot, machine) => { s with machine := machine, draft := some ⟨slot, d.done ++ [a]⟩ }

def step (s : Session) : Move → Session
  | .claim => s.claim
  | .act a => s.act a
  | .drop => s.letGo
  | .call a _ =>
    { s.letGo with
      machine := (s.machine.step a).2
      delivered := s.delivered ++ s.machine.delivers a }
  | .kernel event => { s with machine := (s.machine.step (.kernel event)).2 }

/-- What a move answers; an act without an open slot answers nothing. -/
def reply (s : Session) : Move → Answer
  | .claim => .slot (s.machine.nextSlot.1.map fun slot => (slot.index, []))
  | .act a =>
    match s.draft with
    | none => .silent
    | some d => .done (d.slot.act s.machine a).1
  | .drop => .silent
  | .call a _ => (s.machine.step a).1
  | .kernel event => (s.machine.step (.kernel event)).1

/-- What moves made in order answer. -/
def replies (s : Session) : List Move → List Answer
  | [] => []
  | a :: rest => s.reply a :: (s.step a).replies rest

/-- Makes moves in order. -/
def run (s : Session) (moves : List Move) : Session := moves.foldl step s

@[simp] theorem run_nil (s : Session) : s.run [] = s := rfl

@[simp] theorem run_cons (s : Session) (a : Move) (rest : List Move) :
    s.run (a :: rest) = (s.step a).run rest := rfl

theorem run_append (s : Session) (first rest : List Move) :
    s.run (first ++ rest) = (s.run first).run rest :=
  List.foldl_append ..

/-- What holds at the start and is kept by every move holds after every run. -/
theorem run_induction {P : Session → Prop} (step : ∀ s a, P s → P (s.step a)) {s : Session}
    (h : P s) (moves : List Move) : P (s.run moves) := by
  induction moves generalizing s with
  | nil => exact h
  | cons a rest ih => exact ih (step s a h)

end Session

/-! ### Steps of the machine as moves -/

/-- The moves that a step consists of.  The end of a ring's life is no move. -/
def Step.moves : Step → List Move
  | .slot acts => .claim :: (acts.map .act ++ [.drop])
  | .kernel event => [.kernel event]
  | a => if h : a.isCall = true then [.call a h] else []

namespace Session

theorem run_acts_machine {s : Session} {d : Draft} (hd : s.draft = some d)
    (acts : List Slot.Act) :
    (s.run (acts.map .act)).machine = (d.slot.acts s.machine acts).2.2 := by
  induction acts generalizing s d with
  | nil => rfl
  | cons a rest ih =>
    rw [List.map_cons, run_cons]
    unfold Slot.acts
    dsimp only
    have hact : ∃ d', (s.step (.act a)).draft = some d' ∧ d'.slot = (d.slot.act s.machine a).2.1 ∧
        (s.step (.act a)).machine = (d.slot.act s.machine a).2.2 := by
      simp only [step, act, hd]
      generalize d.slot.act s.machine a = r
      obtain ⟨_ | _, slot, machine⟩ := r
      · exact ⟨_, rfl, rfl, rfl⟩
      · exact ⟨_, rfl, rfl, rfl⟩
    obtain ⟨d', hd', hslot, hmachine⟩ := hact
    rw [ih hd', hslot, hmachine]

theorem run_acts_of_closed {s : Session} (hd : s.draft = none) (acts : List Slot.Act) :
    s.run (acts.map .act) = s := by
  induction acts with
  | nil => rfl
  | cons a rest ih =>
    have hact : s.step (.act a) = s := by simp [step, act, hd]
    rw [List.map_cons, run_cons, hact, ih]

/-- A session goes through the same machines as the steps that it spells out. -/
theorem run_moves_machine (s : Session) {a : Step} (ha : a ≠ .destroy) :
    (s.run a.moves).machine = (s.machine.step a).2 := by
  cases a with
  | slot acts =>
    simp only [Step.moves, run_cons, run_append, run_nil, step, Machine.step, Machine.useSlot,
      claim, letGo]
    generalize s.machine.nextSlot = r
    obtain ⟨_ | slot, machine⟩ := r
    · exact congrArg Session.machine (run_acts_of_closed rfl acts)
    · exact run_acts_machine (d := ⟨slot, []⟩) rfl acts
  | destroy => exact absurd rfl ha
  | _ => rfl

/-- So what holds of every session holds of every run of a machine that is not destroyed. -/
theorem run_steps_machine (s : Session) {steps : List Step} (h : .destroy ∉ steps) :
    (s.run (steps.flatMap Step.moves)).machine = (s.machine.run steps).2 := by
  induction steps generalizing s with
  | nil => rfl
  | cons a rest ih =>
    rw [List.mem_cons, not_or] at h
    rw [List.flatMap_cons, run_append, ih _ h.2, run_moves_machine s (Ne.symm h.1)]
    rfl

end Session

end Uring
