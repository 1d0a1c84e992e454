import Uring.Ring.Session

/-!
# Uring.Proofs.Ring.Slot — all that an act on a slot can do

Every act checks, and then does one thing: it writes the slot's entry, commits the slot if the act
encodes and the slot is not yet committed, and may fix the ring's kind of tags.  `act_eq` says this
once, so that later modules need not look at the three acts apart.
-/

namespace Uring

namespace Machine

variable {s : Machine} {live : Live}

@[simp] theorem modifyEntry_ring (index : UInt32) (f : Submission.Entry → Submission.Entry) :
    (s.modifyEntry index f).ring = s.ring := rfl

@[simp] theorem adoptKind_live (kind : Option TagKind) :
    (s.adoptKind kind).ring.live = s.ring.live := by
  cases kind <;> rfl

@[simp] theorem adoptKind_kernel (kind : Option TagKind) :
    (s.adoptKind kind).kernel = s.kernel := by
  cases kind <;> rfl

@[simp] theorem adoptKind_tagKind (kind : Option TagKind) :
    (s.adoptKind kind).ring.tagKind = kind.or s.ring.tagKind := by
  cases kind <;> rfl

def commitIf (s : Machine) (c : Bool) : Machine := if c then s.commit else s

@[simp] theorem commitIf_kernel (c : Bool) : (s.commitIf c).kernel = s.kernel := by
  unfold commitIf commit
  cases c with
  | false => rfl
  | true => cases s.ring.live <;> rfl

@[simp] theorem commitIf_tagKind (c : Bool) : (s.commitIf c).ring.tagKind = s.ring.tagKind := by
  unfold commitIf commit
  cases c with
  | false => rfl
  | true => cases s.ring.live <;> rfl

@[simp] theorem adoptKind_cqEntries (kind : Option TagKind) :
    (s.adoptKind kind).ring.cqEntries = s.ring.cqEntries := by
  cases kind <;> rfl

@[simp] theorem commitIf_cqEntries (c : Bool) :
    (s.commitIf c).ring.cqEntries = s.ring.cqEntries := by
  unfold commitIf commit
  cases c with
  | false => rfl
  | true => cases s.ring.live <;> rfl

theorem commitIf_live (h : s.ring.live = some live) (c : Bool) :
    (s.commitIf c).ring.live =
      some { live with sq := if c then live.sq.commit else live.sq } := by
  unfold commitIf commit
  cases c with
  | false => exact h
  | true => simp [h, withLive]

end Machine

namespace Slot

namespace Act

/-- What an act makes of the entry. -/
def write : Act → Submission.Entry → Submission.Entry
  | .tag t, e => { e with userData := t.userData }
  | .flags word, e => { e with flags := word }
  | .encode op, e => op.encode e.clearOperation

def encodes : Act → Bool
  | .encode _ => true
  | _ => false

end Act

variable (slot : Slot) (s : Machine)

/-- What an act asks for before it does anything. -/
def check : Act → Except RingError Unit
  | .tag t => checkKind s.ring.tagKind t.kind
  | .flags _ => .ok ()
  | .encode op => slot.checkOperation op s

/-- The kind that the ring adopts through an act. -/
def adopts : Act → Option TagKind
  | .tag t => if slot.committed then some t.kind else none
  | .flags _ => none
  | .encode op => slot.pendingKind.or (op.cancelTarget?.map Tag.kind)

/-- The slot after an act. -/
def after : Act → Slot
  | .tag t => if slot.committed then slot else { slot with pendingKind := some t.kind }
  | .flags _ => slot
  | .encode _ => { slot with committed := true, pendingKind := none }

/-- The machine after an act. -/
def perform (a : Act) : Machine :=
  ((s.modifyEntry slot.index a.write).commitIf (a.encodes && !slot.committed)).adoptKind
    (slot.adopts a)

/-- An act that is refused does nothing at all. -/
theorem act_eq (a : Act) :
    slot.act s a =
      match slot.check s a with
      | .error e => (.error e, slot, s)
      | .ok () => (.ok (), slot.after a, slot.perform s a) := by
  cases a with
  | tag t =>
    simp only [act, setTag, check]
    cases checkKind s.ring.tagKind t.kind with
    | error e => rfl
    | ok _ => cases hc : slot.committed <;> simp [after, perform, adopts, Act.encodes, hc] <;> rfl
  | flags word => rfl
  | encode op =>
    simp only [act, encode, check]
    cases slot.checkOperation op s with
    | error e => rfl
    | ok _ => cases hc : slot.committed <;> simp [after, perform, adopts, Act.encodes, hc] <;> rfl

@[simp] theorem after_index (a : Act) : (slot.after a).index = slot.index := by
  cases a with
  | tag t => simp only [after]; split <;> rfl
  | flags word => rfl
  | encode op => rfl

@[simp] theorem after_committed (a : Act) :
    (slot.after a).committed = (a.encodes || slot.committed) := by
  cases a with
  | tag t => simp only [after]; split <;> rfl
  | flags word => rfl
  | encode op => rfl

@[simp] theorem perform_kernel (a : Act) :
    (slot.perform s a).kernel = (s.modifyEntry slot.index a.write).kernel := by
  simp [perform]

@[simp] theorem perform_head (a : Act) :
    (slot.perform s a).kernel.sq.head = s.kernel.sq.head := by
  simp only [perform_kernel, Machine.modifyEntry]

@[simp] theorem perform_tail (a : Act) :
    (slot.perform s a).kernel.sq.tail = s.kernel.sq.tail := by
  simp only [perform_kernel, Machine.modifyEntry]

theorem perform_live {live : Live} (h : s.ring.live = some live) (a : Act) :
    (slot.perform s a).ring.live =
      some { live with
        sq := if a.encodes && !slot.committed then live.sq.commit else live.sq } := by
  have hwrite : (s.modifyEntry slot.index a.write).ring.live = some live := h
  rw [perform, Machine.adoptKind_live, Machine.commitIf_live hwrite]

@[simp] theorem perform_tagKind (a : Act) :
    (slot.perform s a).ring.tagKind = (slot.adopts a).or s.ring.tagKind := by
  simp [perform]

@[simp] theorem perform_cqEntries (a : Act) :
    (slot.perform s a).ring.cqEntries = s.ring.cqEntries := by
  simp [perform]

end Slot

/-! ### Claiming and acting in a session -/

/-- The draft after an act that passed its check. -/
def Draft.extend (d : Draft) (a : Slot.Act) : Draft := ⟨d.slot.after a, d.done ++ [a]⟩

namespace Session

/-- Claiming lets the open slot go, and opens an empty one if there is room. -/
theorem claim_cases (s : Session) :
    s.claim = s.letGo ∨
      ∃ live index, s.machine.ring.live = some live ∧
        live.sq.vacant? s.machine.kernel.sq = some index ∧
        s.claim = { s.letGo with
          machine := s.machine.modifyEntry index fun _ => {}
          draft := some ⟨{ index := index }, []⟩ } := by
  unfold claim Machine.nextSlot
  cases hlive : s.machine.ring.live with
  | none => exact .inl rfl
  | some live =>
    dsimp only
    cases hvacant : live.sq.vacant? s.machine.kernel.sq with
    | none => exact .inl rfl
    | some index => exact .inr ⟨live, index, rfl, hvacant, rfl⟩

section

variable {s : Session} {d : Draft} {a : Slot.Act}

/-- An act on the open slot answers what its check says. -/
theorem reply_act (hd : s.draft = some d) (a : Slot.Act) :
    s.reply (.act a) = .done (d.slot.check s.machine a) := by
  unfold reply
  rw [hd]
  dsimp only
  rw [Slot.act_eq]
  cases d.slot.check s.machine a <;> rfl

theorem act_of_ok (hd : s.draft = some d) (hok : d.slot.check s.machine a = .ok ()) :
    s.act a =
      { s with machine := d.slot.perform s.machine a, draft := some (d.extend a) } := by
  unfold act
  rw [hd]
  dsimp only
  rw [Slot.act_eq, hok]
  rfl

theorem act_of_error {e : RingError} (hd : s.draft = some d)
    (he : d.slot.check s.machine a = .error e) : s.act a = s := by
  have hs : s = { s with draft := some d } := by rw [← hd]
  unfold act
  rw [hd]
  dsimp only
  rw [Slot.act_eq, he]
  exact hs.symm

end

/-- An act without an open slot, or one that is refused, changes nothing. -/
theorem act_cases (s : Session) (a : Slot.Act) :
    s.act a = s ∨
      ∃ d, s.draft = some d ∧ d.slot.check s.machine a = .ok () ∧
        s.act a = { s with
          machine := d.slot.perform s.machine a
          draft := some (d.extend a) } := by
  cases hd : s.draft with
  | none =>
    left
    unfold act
    rw [hd]
  | some d =>
    cases hcheck : d.slot.check s.machine a with
    | error e => exact .inl (act_of_error hd hcheck)
    | ok _ => exact .inr ⟨d, rfl, hcheck, act_of_ok hd hcheck⟩

end Session

/-! ### What slots leave alone -/

/-- From `s` to `t` only the submission entries, the caller's tail and the kind of tags differ. -/
structure Machine.FillsFrom (t s : Machine) (live : Live) : Prop where
  kernel_eq : ∃ sqes, t.kernel = { s.kernel with sq.sqes := sqes }
  live_eq : ∃ sq, t.ring.live = some { live with sq := sq }
  cqEntries_eq : t.ring.cqEntries = s.ring.cqEntries

theorem Machine.FillsFrom.refl {s : Machine} {live : Live} (h : s.ring.live = some live) :
    s.FillsFrom s live :=
  ⟨⟨s.kernel.sq.sqes, rfl⟩, ⟨live.sq, h⟩, rfl⟩

namespace Session

variable {s : Session} {live : Live}

theorem claim_fillsFrom (h : s.machine.ring.live = some live) :
    s.claim.machine.FillsFrom s.machine live := by
  rcases s.claim_cases with hclaim | ⟨_, index, -, -, hclaim⟩
  · rw [hclaim]
    exact .refl h
  · rw [hclaim]
    exact ⟨⟨_, rfl⟩, ⟨live.sq, h⟩, rfl⟩

theorem act_fillsFrom (h : s.machine.ring.live = some live) (a : Slot.Act) :
    (s.act a).machine.FillsFrom s.machine live := by
  rcases s.act_cases a with hact | ⟨d, -, -, hact⟩
  · rw [hact]
    exact .refl h
  · rw [hact]
    exact ⟨⟨_, d.slot.perform_kernel _ a⟩, ⟨_, d.slot.perform_live _ h a⟩,
      d.slot.perform_cqEntries _ a⟩

@[simp] theorem claim_delivered : s.claim.delivered = s.delivered := by
  rcases s.claim_cases with hclaim | ⟨_, _, -, -, hclaim⟩ <;> rw [hclaim] <;> rfl

@[simp] theorem act_delivered (a : Slot.Act) : (s.act a).delivered = s.delivered := by
  rcases s.act_cases a with hact | ⟨_, -, -, hact⟩ <;> rw [hact]

end Session

end Uring
