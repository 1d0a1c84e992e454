import Uring.Proofs.Ring.Entries
import Uring.Proofs.Ring.SetUp
import Uring.Proofs.Ring.Slot

/-!
# Uring.Proofs.Ring.Abandon — a slot that is let go empty leaves no trace

A slot that was claimed and tagged but never encoded leaves its marks in the shared entries.  Two
machines are `Alike` when they differ only in entries that nobody reads before they are written
again.  Whatever is done with two such machines, both answer the same and stay alike; and a slot
that is abandoned makes of a machine one that is like it.
-/

namespace Uring

open Submission (Entry Memory Queue)

namespace Machine

variable {s : Machine} {live : Live} {base index : UInt32} {x : Cells Entry}

/-! ### Writing entries -/

theorem commitIf_withEntries (s : Machine) (x : Cells Entry) (c : Bool) :
    (s.withEntries x).commitIf c = (s.commitIf c).withEntries x := by
  unfold commitIf Machine.commit
  rw [withEntries_ring]
  cases c with
  | false => rfl
  | true => cases s.ring.live <;> rfl

/-- What is written may depend on the entry only as far as it is the same in both. -/
theorem Agrees.modifyEntry (h : s.Agrees base x) {f : Entry → Entry}
    (hf : f (x.get index) = f (s.kernel.sq.sqes.get index)) :
    (s.modifyEntry index f).Agrees base (x.set index (f (x.get index))) := by
  refine ⟨?_, ?_⟩
  · rw [hf]
    exact h.memory.write index _
  · intro live hlive
    obtain ⟨htail, hattached⟩ := h.live live hlive
    exact ⟨htail, hattached.mask_eq, hattached.identity⟩

/-- The entry at `base` joins the batch, if it is the same in both. -/
theorem Agrees.commit (h : s.Agrees base x) (hlive : s.ring.live = some live)
    (hroom : (base - s.kernel.sq.head).toNat < live.sq.size.entries.toNat)
    (hentry : x.get (live.sq.size.slot base) = s.kernel.sq.sqes.get (live.sq.size.slot base)) :
    s.commit.Agrees (base + 1) x := by
  obtain ⟨htail, hattached⟩ := h.live live hlive
  unfold Machine.commit
  rw [hlive]
  refine ⟨h.memory.extend hattached hroom hentry, ?_⟩
  rintro _ ⟨⟩
  exact ⟨congrArg (· + 1) htail, hattached.mask_eq, hattached.identity⟩

theorem Agrees.adoptKind (h : s.Agrees base x) (kind : Option TagKind) :
    (s.adoptKind kind).Agrees base x := by
  cases kind with
  | none => exact h
  | some kind => exact ⟨h.memory, h.live⟩

end Machine

/-! ### Slots -/

namespace Slot

/-- The slot stands at `base`, in a cell that the kernel has done with. -/
structure At (slot : Slot) (q : Queue) (m : Memory) (base : UInt32) : Prop where
  room : (base - m.head).toNat < q.size.entries.toNat
  index_eq : slot.index = q.size.slot base

/-- The slot's own entry is the same in `x` as well.  Until it is committed, it stands at `base`. -/
structure Agrees (slot : Slot) (s : Machine) (base : UInt32) (x : Cells Entry) : Prop where
  machine : s.Agrees base x
  entry : x.get slot.index = s.kernel.sq.sqes.get slot.index
  vacant : ∃ live, s.ring.live = some live ∧
    (slot.committed = false → slot.At live.sq s.kernel.sq base)

variable {slot : Slot} {s : Machine} {base : UInt32} {x : Cells Entry}

theorem check_withEntries (slot : Slot) (s : Machine) (x : Cells Entry) (a : Act) :
    slot.check (s.withEntries x) a = slot.check s a := by
  cases a <;> rfl

theorem perform_withEntries (slot : Slot) (s : Machine) (x : Cells Entry) (a : Act) :
    slot.perform (s.withEntries x) a =
      (slot.perform s a).withEntries (x.set slot.index (a.write (x.get slot.index))) := by
  have hwrite : (s.withEntries x).modifyEntry slot.index a.write =
      (s.modifyEntry slot.index a.write).withEntries
        (x.set slot.index (a.write (x.get slot.index))) := rfl
  unfold perform
  rw [hwrite, Machine.commitIf_withEntries]
  cases slot.adopts a <;> rfl

/-- An act does the same to the slot's entry in both. -/
theorem Agrees.perform (h : slot.Agrees s base x) (a : Act) :
    ∃ base, (slot.after a).Agrees (slot.perform s a) base
      (x.set slot.index (a.write (x.get slot.index))) := by
  obtain ⟨live, hlive, hvacant⟩ := h.vacant
  have hwritten := h.machine.modifyEntry (congrArg a.write h.entry)
  have hcell : (x.set slot.index (a.write (x.get slot.index))).get slot.index =
      (s.modifyEntry slot.index a.write).kernel.sq.sqes.get slot.index :=
    (Cells.get_set_self ..).trans (h.entry ▸ (Cells.get_set_self ..).symm)
  generalize x.set slot.index (a.write (x.get slot.index)) = y at hwritten hcell ⊢
  have hentry : y.get (slot.after a).index =
      (slot.perform s a).kernel.sq.sqes.get (slot.after a).index := by
    rw [slot.after_index, slot.perform_kernel]
    exact hcell
  have hlive' := slot.perform_live s hlive a
  unfold Slot.perform at hentry hlive' ⊢
  cases hjoins : a.encodes && !slot.committed with
  | false =>
    rw [hjoins] at hentry hlive'
    refine ⟨base, hwritten.adoptKind _, hentry, live, hlive', ?_⟩
    intro hopen
    rw [slot.after_committed, Bool.or_eq_false_iff] at hopen
    rw [Machine.adoptKind_kernel]
    obtain ⟨hroom, hindex⟩ := hvacant hopen.2
    exact ⟨hroom, (slot.after_index a).trans hindex⟩
  | true =>
    -- the slot joins the batch, and its entry is the same in both
    obtain ⟨hencodes, hopen⟩ := Bool.and_eq_true_iff.mp hjoins
    obtain ⟨hroom, hindex⟩ := hvacant (by simpa using hopen)
    rw [hjoins] at hentry hlive'
    refine ⟨base + 1, (hwritten.commit hlive hroom ?_).adoptKind _, hentry, _, hlive', ?_⟩
    · rw [← hindex]
      exact hcell
    · intro hcommitted
      rw [slot.after_committed, hencodes] at hcommitted
      cases hcommitted

/-- An act answers the same on both. -/
theorem Agrees.act (h : slot.Agrees s base x) (a : Act) :
    ∃ base x', (slot.act s a).2.1.Agrees (slot.act s a).2.2 base x' ∧
      slot.act (s.withEntries x) a =
        ((slot.act s a).1, (slot.act s a).2.1, (slot.act s a).2.2.withEntries x') := by
  rw [act_eq, act_eq, check_withEntries]
  cases slot.check s a with
  | error e => exact ⟨base, x, h, rfl⟩
  | ok _ =>
    obtain ⟨base', h'⟩ := h.perform a
    exact ⟨base', _, h', by rw [perform_withEntries]⟩

theorem Agrees.acts (h : slot.Agrees s base x) (acts : List Act) :
    ∃ base x', (slot.acts s acts).2.1.Agrees (slot.acts s acts).2.2 base x' ∧
      slot.acts (s.withEntries x) acts =
        ((slot.acts s acts).1, (slot.acts s acts).2.1, (slot.acts s acts).2.2.withEntries x') := by
  induction acts generalizing slot s base x with
  | nil => exact ⟨base, x, h, rfl⟩
  | cons a rest ih =>
    obtain ⟨base₁, x₁, h₁, hact⟩ := h.act a
    obtain ⟨base₂, x₂, h₂, hrest⟩ := ih h₁
    refine ⟨base₂, x₂, h₂, ?_⟩
    unfold Slot.acts
    rw [hact]
    dsimp only
    rw [hrest]

/-- The kernel's turns leave an open slot alone. -/
theorem Agrees.turns (h : slot.Agrees s base x) {k : Kernel}
    (hturns : Kernel.Turns s.kernel k) : slot.Agrees { s with kernel := k } base x := by
  obtain ⟨live, hlive, hvacant⟩ := h.vacant
  refine ⟨h.machine.turns hturns, ?_, live, hlive, ?_⟩
  · rw [hturns.sqes_eq]
    exact h.entry
  · intro hopen
    obtain ⟨hroom, hindex⟩ := hvacant hopen
    exact ⟨Nat.lt_of_le_of_lt (hturns.agrees h.machine.memory).2 hroom, hindex⟩

end Slot

namespace Machine

variable {s t : Machine} {base : UInt32} {x : Cells Entry}

/-- Claiming a slot empties its entry in both. -/
theorem Agrees.nextSlot (h : s.Agrees base x) :
    (∃ e, s.nextSlot = (.error e, s) ∧ (s.withEntries x).nextSlot = (.error e, s.withEntries x)) ∨
      ∃ slot t x', slot.Agrees t base x' ∧ s.nextSlot = (.ok slot, t) ∧
        (s.withEntries x).nextSlot = (.ok slot, t.withEntries x') := by
  unfold Machine.nextSlot
  rw [Machine.withEntries_ring]
  cases hlive : s.ring.live with
  | none => exact .inl ⟨_, rfl, rfl⟩
  | some live =>
    have hsame : live.sq.vacant? (s.withEntries x).kernel.sq = live.sq.vacant? s.kernel.sq := rfl
    obtain ⟨htail, hattached⟩ := h.live live hlive
    dsimp only
    rw [hsame]
    cases hvacant : live.sq.vacant? s.kernel.sq with
    | none => exact .inl ⟨_, rfl, rfl⟩
    | some index =>
      obtain ⟨hroom, hindex⟩ := Submission.Queue.vacant?_eq_some_iff.mp hvacant
      rw [htail] at hroom hindex
      have hclaimed : (s.modifyEntry index fun _ => {}).Agrees base (x.set index {}) :=
        h.modifyEntry rfl
      refine .inr ⟨⟨index, false, none⟩, _, _, ⟨hclaimed, ?_, live, hlive, ?_⟩, rfl, rfl⟩
      · exact (Cells.get_set_self ..).trans (Cells.get_set_self ..).symm
      · exact fun _ => ⟨hroom, hindex.symm⟩

/-! ### Machines that nobody can tell apart -/

/-- The machines differ only in entries that are written again before they are read. -/
def Alike (s t : Machine) : Prop := ∃ base x, s.Agrees base x ∧ t = s.withEntries x

theorem Alike.useSlot (h : s.Alike t) (acts : List Slot.Act) :
    (t.useSlot acts).1 = (s.useSlot acts).1 ∧ (s.useSlot acts).2.Alike (t.useSlot acts).2 := by
  obtain ⟨base, x, h, rfl⟩ := h
  unfold Machine.useSlot
  rcases h.nextSlot with ⟨e, hs, ht⟩ | ⟨slot, u, x', hslot, hs, ht⟩
  · rw [hs, ht]
    exact ⟨rfl, base, x, h, rfl⟩
  · obtain ⟨base', x'', hslot', hacts⟩ := hslot.acts acts
    rw [hs, ht]
    dsimp only
    rw [hacts]
    exact ⟨rfl, base', x'', hslot'.machine, rfl⟩

/-- Every step answers the same on machines that are alike, and keeps them so. -/
theorem Alike.step (h : s.Alike t) (a : Step) :
    (t.step a).1 = (s.step a).1 ∧ (s.step a).2.Alike (t.step a).2 := by
  obtain ⟨base, x, hx, rfl⟩ := id h
  cases hcall : a.isCall with
  | true =>
    obtain ⟨heq, hx'⟩ := hx.call hcall
    rw [heq]
    exact ⟨rfl, base, x, hx', rfl⟩
  | false =>
    cases a with
    | slot acts =>
      obtain ⟨hanswer, halike⟩ := h.useSlot acts
      exact ⟨congrArg Answer.slot hanswer, halike⟩
    | destroy => exact ⟨rfl, base, x, hx.destroy.2, hx.destroy.1⟩
    | kernel event =>
      obtain ⟨heq, hx'⟩ := hx.event event
      rw [heq]
      exact ⟨rfl, base, x, hx', rfl⟩
    | _ => cases hcall

theorem Alike.run (h : s.Alike t) (steps : List Step) :
    (t.run steps).1 = (s.run steps).1 ∧ (s.run steps).2.Alike (t.run steps).2 := by
  induction steps generalizing s t with
  | nil => exact ⟨rfl, h⟩
  | cons a rest ih =>
    obtain ⟨hanswer, halike⟩ := h.step a
    obtain ⟨hanswers, halike'⟩ := ih halike
    refine ⟨?_, halike'⟩
    show (t.step a).1 :: ((t.step a).2.run rest).1 = (s.step a).1 :: ((s.step a).2.run rest).1
    rw [hanswer, hanswers]

theorem Alike.eq_but_entries (h : s.Alike t) :
    ∃ sqes, t = { s with kernel.sq.sqes := sqes } := by
  obtain ⟨-, x, -, rfl⟩ := h
  exact ⟨x, rfl⟩

end Machine

/-! ### Sessions -/

namespace Session

/-- The sessions differ only in entries that are written again before they are read. -/
def Alike (s t : Session) : Prop :=
  ∃ base x, s.machine.Agrees base x ∧ (∀ d, s.draft = some d → d.slot.Agrees s.machine base x) ∧
    t = { s with machine := s.machine.withEntries x }

variable {s t : Session} {base : UInt32} {x : Cells Entry}

theorem Alike.of_machine {s t : Machine} (h : s.Alike t) : (resume s).Alike (resume t) := by
  obtain ⟨base, x, hx, rfl⟩ := h
  exact ⟨base, x, hx, by rintro d ⟨⟩, rfl⟩

theorem Alike.machine (h : s.Alike t) : s.machine.Alike t.machine := by
  obtain ⟨base, x, hx, -, rfl⟩ := h
  exact ⟨base, x, hx, rfl⟩

theorem committed_withEntries (hd : ∀ d, s.draft = some d → d.slot.Agrees s.machine base x) :
    ({ s with machine := s.machine.withEntries x } : Session).committed = s.committed := by
  have hopen : ({ s with machine := s.machine.withEntries x } : Session).openCommit =
      s.openCommit := by
    unfold openCommit
    dsimp only
    cases hdraft : s.draft with
    | none => rfl
    | some d =>
      have hentry : (s.machine.withEntries x).kernel.sq.sqes.get d.slot.index =
        s.machine.kernel.sq.sqes.get d.slot.index := (hd d hdraft).entry
      simp only [Option.bind_some, Draft.commit?, Draft.asCommit, hentry]
  unfold committed
  rw [hopen]

theorem Alike.letGo (h : s.Alike t) : s.letGo.Alike t.letGo := by
  obtain ⟨base, x, hx, hd, rfl⟩ := h
  refine ⟨base, x, hx, by rintro d ⟨⟩, ?_⟩
  unfold Session.letGo
  rw [committed_withEntries hd]

theorem Alike.claim (h : s.Alike t) : t.reply .claim = s.reply .claim ∧ s.claim.Alike t.claim := by
  obtain ⟨base, x, hx, hd, rfl⟩ := h
  have hletGo : ({ s with machine := s.machine.withEntries x } : Session).letGo =
      { s.letGo with machine := s.machine.withEntries x } := by
    unfold Session.letGo
    rw [committed_withEntries hd]
  unfold reply Session.claim
  rw [hletGo]
  dsimp only
  rcases hx.nextSlot with ⟨e, hs, ht⟩ | ⟨slot, u, x', hslot, hs, ht⟩
  · rw [hs, ht]
    exact ⟨rfl, base, x, hx, by rintro d ⟨⟩, rfl⟩
  · rw [hs, ht]
    refine ⟨rfl, base, x', hslot.machine, ?_, rfl⟩
    rintro d ⟨⟩
    exact hslot

theorem Alike.act (h : s.Alike t) (a : Slot.Act) :
    t.reply (.act a) = s.reply (.act a) ∧ (s.act a).Alike (t.act a) := by
  obtain ⟨machine, draft, commits, delivered⟩ := s
  obtain ⟨base, x, hx, hd, rfl⟩ := id h
  cases draft with
  | none => exact ⟨rfl, h⟩
  | some d =>
    obtain ⟨base', x', hslot, hact⟩ := (hd d rfl).act a
    unfold reply Session.act
    dsimp only at hslot hact ⊢
    rw [hact]
    generalize d.slot.act machine a = r at hslot ⊢
    obtain ⟨result, slot, u⟩ := r
    cases result with
    | error e =>
      refine ⟨rfl, base', x', hslot.machine, ?_, rfl⟩
      rintro d' ⟨⟩
      exact hslot
    | ok _ =>
      refine ⟨rfl, base', x', hslot.machine, ?_, rfl⟩
      rintro d' ⟨⟩
      exact hslot

theorem Alike.call (h : s.Alike t) (a : Step) (ha : a.isCall = true) :
    t.reply (.call a ha) = s.reply (.call a ha) ∧
      (s.step (.call a ha)).Alike (t.step (.call a ha)) := by
  obtain ⟨base, x, hx, hd, rfl⟩ := h
  obtain ⟨hcall, hx'⟩ := hx.call ha
  have hdelivers : (s.machine.withEntries x).delivers a = s.machine.delivers a := by
    have hready : (s.machine.withEntries x).ready = s.machine.ready := rfl
    unfold Machine.delivers
    rw [hcall, hready]
  unfold reply Session.step Session.letGo
  dsimp only
  rw [committed_withEntries hd, hcall, hdelivers]
  exact ⟨rfl, base, x, hx', by rintro d ⟨⟩, rfl⟩

/-- Every move answers the same on sessions that are alike, and keeps them so. -/
theorem Alike.step (h : s.Alike t) (a : Move) :
    t.reply a = s.reply a ∧ (s.step a).Alike (t.step a) := by
  cases a with
  | claim => exact h.claim
  | act a => exact h.act a
  | drop => exact ⟨rfl, h.letGo⟩
  | call a ha => exact h.call a ha
  | kernel event =>
    obtain ⟨base, x, hx, hd, rfl⟩ := h
    obtain ⟨hevent, hx'⟩ := hx.event event
    unfold reply Session.step
    dsimp only
    rw [hevent]
    refine ⟨rfl, base, x, hx', ?_, rfl⟩
    intro d hdraft
    exact (hd d hdraft).turns (Kernel.event_turns _ event)

theorem Alike.run (h : s.Alike t) (moves : List Move) :
    t.replies moves = s.replies moves ∧ (s.run moves).Alike (t.run moves) := by
  induction moves generalizing s t with
  | nil => exact ⟨rfl, h⟩
  | cons a rest ih =>
    obtain ⟨hreply, halike⟩ := h.step a
    obtain ⟨hreplies, halike'⟩ := ih halike
    refine ⟨?_, halike'⟩
    show t.reply a :: (t.step a).replies rest = s.reply a :: (s.step a).replies rest
    rw [hreply, hreplies]

theorem Alike.eq_but_entries (h : s.Alike t) :
    ∃ sqes, t = { s with machine.kernel.sq.sqes := sqes } := by
  obtain ⟨-, x, -, -, rfl⟩ := h
  exact ⟨x, rfl⟩

/-- A ring that has just come up is like itself, for the kernel finds nothing beyond its tail. -/
theorem start_alike {setup : Setup} {k : Kernel} {ring : Ring}
    (h : (setup.build k).1 = .ok ring) :
    (start ring (setup.build k).2).Alike (start ring (setup.build k).2) := by
  obtain ⟨p, live, -, rfl, hfresh, -⟩ := Setup.build_ok h
  refine ⟨live.sq.tail, (setup.build k).2.sq.sqes, ⟨⟨?_, fun _ _ _ => rfl⟩, ?_⟩, ?_, rfl⟩
  · rw [hfresh.tail_eq]
    exact Nat.le_refl _
  · rintro _ ⟨⟩
    exact ⟨rfl, hfresh.attached⟩
  · rintro d ⟨⟩

end Session

/-! ### Abandoning a slot -/

namespace Slot

variable {slot : Slot} {s : Machine} {live : Live} {base : UInt32} {x : Cells Entry}

/-- Before the commit an act that does not encode writes the slot's entry and nothing else. -/
theorem perform_of_open (s : Machine) (hopen : slot.committed = false) {a : Act}
    (ha : a.encodes = false) : slot.perform s a = s.modifyEntry slot.index a.write := by
  cases a with
  | tag t => simp [perform, adopts, Machine.commitIf, Machine.adoptKind, Act.encodes, hopen]
  | flags word => rfl
  | encode op => cases ha

/-- An act on a vacant slot, unless it encodes, only marks a cell that nothing ahead falls on. -/
theorem act_of_vacant (h : s.Agrees base x) (hlive : s.ring.live = some live)
    (hslot : slot.At live.sq s.kernel.sq base) (hopen : slot.committed = false) {a : Act}
    (hfail : a.encodes = true → (slot.act (s.withEntries x) a).1 ≠ .ok ()) :
    ∃ slot' x', slot'.At live.sq s.kernel.sq base ∧ slot'.committed = false ∧ s.Agrees base x' ∧
      (slot.act (s.withEntries x) a).2 = (slot', s.withEntries x') := by
  rw [act_eq] at hfail ⊢
  cases hcheck : slot.check (s.withEntries x) a with
  | error e => exact ⟨slot, x, hslot, hopen, h, rfl⟩
  | ok _ =>
    rw [hcheck] at hfail
    have ha : a.encodes = false := Bool.eq_false_iff.mpr fun ha => hfail ha rfl
    refine ⟨slot.after a, x.set slot.index (a.write (x.get slot.index)),
      ⟨hslot.room, (slot.after_index a).trans hslot.index_eq⟩, ?_, ⟨?_, h.live⟩, ?_⟩
    · rw [slot.after_committed, ha, hopen]
      rfl
    · -- the slot stands at `base`, and no counter ahead of the kernel shares its cell
      rw [hslot.index_eq]
      exact h.memory.mark (h.live live hlive).2 hslot.room _
    · exact congrArg (Prod.mk _) (perform_of_open (s.withEntries x) hopen ha)

theorem acts_of_vacant (h : s.Agrees base x) (hlive : s.ring.live = some live)
    (hslot : slot.At live.sq s.kernel.sq base) (hopen : slot.committed = false) (acts : List Act)
    (hfail : ∀ op answer, (.encode op, answer) ∈ acts.zip (slot.acts (s.withEntries x) acts).1 →
      answer.result ≠ .ok ()) :
    ∃ x', s.Agrees base x' ∧ (slot.acts (s.withEntries x) acts).2.2 = s.withEntries x' := by
  induction acts generalizing slot x with
  | nil => exact ⟨x, h, rfl⟩
  | cons a rest ih =>
    have hfirst : a.encodes = true → (slot.act (s.withEntries x) a).1 ≠ .ok () := by
      intro ha
      cases a with
      | encode op => exact hfail op _ List.mem_cons_self
      | _ => cases ha
    obtain ⟨slot', x', hslot', hopen', h', hact⟩ := act_of_vacant h hlive hslot hopen hfirst
    unfold Slot.acts at hfail ⊢
    generalize slot.act (s.withEntries x) a = r at hact hfail ⊢
    obtain ⟨result, slot₁, t⟩ := r
    cases hact
    exact ih h' hslot' hopen' fun op answer hmem =>
      hfail op answer (List.mem_cons_of_mem _ hmem)

/-- An operation that is malformed is never encoded. -/
theorem acts_of_malformed (slot : Slot) (s : Machine) {acts : List Act}
    (h : ∀ op, .encode op ∈ acts → op.validate ≠ .ok ()) :
    ∀ op answer, (.encode op, answer) ∈ acts.zip (slot.acts s acts).1 → answer.result ≠ .ok () := by
  induction acts generalizing slot s with
  | nil => rintro op answer ⟨⟩
  | cons a rest ih =>
    intro op answer hmem
    rcases List.mem_cons.mp hmem with hfirst | hrest
    · cases hfirst
      have hvalid := h op List.mem_cons_self
      show (slot.encode op s).1 ≠ .ok ()
      unfold encode checkOperation
      cases hwhy : op.validate with
      | error why => rintro ⟨⟩
      | ok _ => exact absurd hwhy hvalid
    · exact ih _ _ (fun op hop => h op (List.mem_cons_of_mem _ hop)) op answer hrest

end Slot

namespace Machine

variable {s : Machine} {base : UInt32} {x : Cells Entry}

/-- No encode succeeds among the acts, if they are performed on the next slot. -/
def Abandons (s : Machine) (acts : List Slot.Act) : Prop :=
  ∀ index answers, (s.useSlot acts).1 = .ok (index, answers) →
    ∀ op answer, (.encode op, answer) ∈ acts.zip answers → answer.result ≠ .ok ()

theorem abandons_of_malformed (s : Machine) {acts : List Slot.Act}
    (h : ∀ op, .encode op ∈ acts → op.validate ≠ .ok ()) : s.Abandons acts := by
  intro index answers hanswers
  unfold useSlot at hanswers
  generalize s.nextSlot = r at hanswers
  obtain ⟨_ | slot, t⟩ := r
  · cases hanswers
  · cases hanswers
    exact slot.acts_of_malformed t h

theorem Agrees.abandon (h : s.Agrees base x) {acts : List Slot.Act}
    (hfail : (s.withEntries x).Abandons acts) :
    ∃ x', s.Agrees base x' ∧ ((s.withEntries x).useSlot acts).2 = s.withEntries x' := by
  unfold Abandons Machine.useSlot Machine.nextSlot at hfail
  unfold Machine.useSlot Machine.nextSlot
  rw [Machine.withEntries_ring] at hfail ⊢
  cases hlive : s.ring.live with
  | none => exact ⟨x, h, rfl⟩
  | some live =>
    have hsame : live.sq.vacant? (s.withEntries x).kernel.sq = live.sq.vacant? s.kernel.sq := rfl
    obtain ⟨htail, hattached⟩ := h.live live hlive
    rw [hlive] at hfail
    dsimp only at hfail ⊢
    rw [hsame] at hfail ⊢
    cases hvacant : live.sq.vacant? s.kernel.sq with
    | none => exact ⟨x, h, rfl⟩
    | some index =>
      obtain ⟨hroom, rfl⟩ := Submission.Queue.vacant?_eq_some_iff.mp hvacant
      rw [htail] at hroom
      rw [hvacant, htail] at hfail
      -- only `x` sees the claim: in `s` the slot was never given out
      have hclaimed : s.Agrees base (x.set (live.sq.size.slot base) {}) :=
        ⟨h.memory.mark hattached hroom {}, h.live⟩
      rw [htail]
      exact Slot.acts_of_vacant hclaimed hlive ⟨hroom, rfl⟩ rfl acts (hfail _ _ rfl)

/-- An abandoned slot leaves the machine as it was, as far as anybody can tell. -/
theorem Alike.abandon (h : s.Alike s) {acts : List Slot.Act} (hfail : s.Abandons acts) :
    s.Alike (s.step (.slot acts)).2 := by
  obtain ⟨base, x, hx, hs⟩ := h
  -- the copy with entries `x` goes through the acts, and the machine itself does not
  rw [hs] at hfail
  obtain ⟨x', hx', hslot⟩ := hx.abandon hfail
  rw [← hs] at hslot
  exact ⟨base, x', hx', hslot⟩

end Machine

namespace Session

/-- Whatever was done with a ring before, at a time when no slot is open: a slot that is claimed,
tagged and marked, encoded without success and then let go changes nothing that anybody can see
afterwards.  All later moves and all later steps answer the same, and what they leave behind differs
in nothing but entries: the kernel has got the same calls and taken the same entries, and the ring,
its completions and its tags are the same. -/
theorem abandoned_unseen {setup : Setup} {k : Kernel} {ring : Ring}
    (h : (setup.build k).1 = .ok ring) (before : List Move) (steps : List Step) :
    let m := (((start ring (setup.build k).2).run before).machine.run steps).2
    ∀ acts, m.Abandons acts →
      let m' := (m.step (.slot acts)).2
      ∀ (rest : List Move) (more : List Step),
        let s := (resume m).run rest
        let t := (resume m').run rest
        (resume m').replies rest = (resume m).replies rest ∧
        (∃ sqes, t = { s with machine.kernel.sq.sqes := sqes }) ∧
        (t.machine.run more).1 = (s.machine.run more).1 ∧
        ∃ sqes, (t.machine.run more).2 =
          { (s.machine.run more).2 with kernel.sq.sqes := sqes } := by
  intro m acts hfail m' rest more s t
  have hself : m.Alike m :=
    (((start_alike h).run before).2.machine.run steps).2
  obtain ⟨hreplies, hrest⟩ := (Alike.of_machine (hself.abandon hfail)).run rest
  obtain ⟨hanswers, hmore⟩ := hrest.machine.run more
  exact ⟨hreplies, hrest.eq_but_entries, hanswers, hmore.eq_but_entries⟩

/-- A slot gets a tag, flags and a malformed operation between two submits, and is let go.  Its mark
stays in the memory, but the next slot may have a tag of the other kind, and all goes on as if it
had not been. -/
theorem abandoned_unseen_between_submits :
    ∃ ring, (Setup.build ⟨2, 0, 0⟩ (.idle ⟨1⟩ 0xffffffff)).1 = .ok ring ∧
      let m := ((start ring (Setup.build ⟨2, 0, 0⟩ (.idle ⟨1⟩ 0xffffffff)).2).run
        [.claim, .act (.encode .nop), .call .submit]).machine
      let m' := (m.step (.slot [.tag (.data64 7), .flags 4, .encode (.close (-1))])).2
      m.kernel.sq.sqes.get 0 = {} ∧
        (m'.kernel.sq.sqes.get 0).userData = 7 ∧
        (resume m').replies [.claim, .act (.tag (.addr 9)), .act (.encode .nop), .call .submit] =
          (resume m).replies [.claim, .act (.tag (.addr 9)), .act (.encode .nop), .call .submit] ∧
        (m'.run [.harvest 2 0, .destroy]).1 = (m.run [.harvest 2 0, .destroy]).1 := by
  refine ⟨_, rfl, by decide +kernel, by decide +kernel, ?_⟩
  have hmalformed : ∀ op, .encode op ∈
      ([.tag (.data64 7), .flags 4, .encode (.close (-1))] : List Slot.Act) →
      op.validate ≠ .ok () := by
    intro op hop
    obtain rfl : op = .close (-1) := by simpa using hop
    rintro ⟨⟩
  have hunseen := @abandoned_unseen ⟨2, 0, 0⟩ (.idle ⟨1⟩ 0xffffffff) _ rfl
    [.claim, .act (.encode .nop), .call .submit] [] _ (Machine.abandons_of_malformed _ hmalformed)
  exact ⟨(hunseen [.claim, .act (.tag (.addr 9)), .act (.encode .nop), .call .submit] []).1,
    (hunseen [] [.harvest 2 0, .destroy]).2.2.1⟩

end Session

end Uring
