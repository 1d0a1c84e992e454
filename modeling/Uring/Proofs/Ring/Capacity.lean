import Uring.Proofs.Ring.Lifelong

/-!
# Uring.Proofs.Ring.Capacity — the account of the submission slots

At every moment of every use of a ring, also while a slot is open, each of its slots is pending,
published or free, and the free slots together with all that was ever committed are the slots of the
ring together with all that the kernel ever took.  A claim is refused exactly when no slot is free,
so that without the kernel's help just the free slots can still be filled.
-/

namespace Uring

/-- Nothing is wrong with the operation where tags of this kind are in use. -/
structure Operation.Admissible (op : Operation) (kind : TagKind) : Prop where
  valid : op.validate = .ok ()
  target : ∀ t, op.cancelTarget? = some t → t.kind = kind

/-! ### Filling slots without the kernel -/

namespace Machine

variable {s : Machine} {live : Live} {kind : TagKind} {op : Operation}

/-- The slots are in order, and the tags in use, if there are any, are of this kind. -/
structure Fillable (s : Machine) (live : Live) (kind : TagKind) : Prop where
  live_eq : s.ring.live = some live
  inRange : live.sq.InRange s.kernel.sq
  tagKind : s.ring.tagKind = none ∨ s.ring.tagKind = some kind

/-- A claim is refused exactly when no slot is free. -/
theorem nextSlot_full_iff (hlive : s.ring.live = some live)
    (hrange : live.sq.InRange s.kernel.sq) :
    s.nextSlot.1 = .error .queueFull ↔ live.sq.spaceLeft s.kernel.sq = 0 := by
  rw [← hrange.vacant?_eq_none_iff]
  unfold nextSlot
  rw [hlive]
  dsimp only
  cases live.sq.vacant? s.kernel.sq <;> simp

theorem useSlot_of_vacant {index : UInt32} (hlive : s.ring.live = some live)
    (hvacant : live.sq.vacant? s.kernel.sq = some index) (acts : List Slot.Act) :
    s.useSlot acts =
      (.ok (index, (Slot.acts { index := index } (s.modifyEntry index fun _ => {}) acts).1),
        (Slot.acts { index := index } (s.modifyEntry index fun _ => {}) acts).2.2) := by
  unfold useSlot nextSlot
  rw [hlive]
  dsimp only
  rw [hvacant]

namespace Fillable

theorem useSlot_full (h : s.Fillable live kind) (hfull : (live.sq.spaceLeft s.kernel.sq).toNat = 0)
    (acts : List Slot.Act) : s.useSlot acts = (.error .queueFull, s) := by
  have hnone := h.inRange.vacant?_eq_none_iff.mpr (UInt32.toNat_inj.mp hfull)
  unfold useSlot nextSlot
  rw [h.live_eq]
  dsimp only
  rw [hnone]

/-- An operation with nothing wrong passes the checks of a slot that was just claimed. -/
theorem check_ok (h : s.Fillable live kind) (hop : op.Admissible kind) (index : UInt32) :
    Slot.check { index := index } (s.modifyEntry index fun _ => {}) (.encode op) = .ok () := by
  show Slot.checkOperation _ op _ = _
  unfold Slot.checkOperation
  rw [hop.valid]
  dsimp only
  cases htarget : op.cancelTarget? with
  | none => rfl
  | some target =>
    have hkind := hop.target target htarget
    rcases h.tagKind with htag | htag
    · simp [Slot.checkKind, htag]
    · simp [Slot.checkKind, htag, hkind]

/-- Filling a slot uses up one free slot. -/
theorem useSlot (h : s.Fillable live kind) (hroom : 0 < (live.sq.spaceLeft s.kernel.sq).toNat)
    (hop : op.Admissible kind) :
    ∃ t, s.useSlot [.encode op] =
        (.ok (live.sq.size.slot live.sq.tail, [⟨.ok (), true⟩]), t) ∧
      t.Fillable { live with sq := live.sq.commit } kind ∧
      (live.sq.commit.spaceLeft t.kernel.sq).toNat + 1 =
        (live.sq.spaceLeft s.kernel.sq).toNat := by
  have hvacant := h.inRange.vacant?_of_room hroom
  have hcheck := h.check_ok hop (live.sq.size.slot live.sq.tail)
  have hcommit := h.inRange.commit hroom
  obtain ⟨-, -, hfree⟩ := h.inRange.usage_commit hroom
  generalize live.sq.size.slot live.sq.tail = index at hvacant hcheck
  let slot : Slot := { index := index }
  let claimed := s.modifyEntry index fun _ => {}
  have huse : s.useSlot [.encode op] =
      (.ok (index, [⟨.ok (), true⟩]), slot.perform claimed (.encode op)) := by
    rw [useSlot_of_vacant h.live_eq hvacant]
    simp only [Slot.acts, Slot.act_eq]
    rw [hcheck]
    rfl
  have hhead : (slot.perform claimed (.encode op)).kernel.sq.head = s.kernel.sq.head := by
    simp only [claimed, Slot.perform_head, modifyEntry]
  have htail : (slot.perform claimed (.encode op)).kernel.sq.tail = s.kernel.sq.tail := by
    simp only [claimed, Slot.perform_tail, modifyEntry]
  have hlive : (slot.perform claimed (.encode op)).ring.live =
      some { live with sq := live.sq.commit } :=
    slot.perform_live claimed h.live_eq (.encode op)
  have htag : (slot.perform claimed (.encode op)).ring.tagKind =
      (op.cancelTarget?.map Tag.kind).or s.ring.tagKind :=
    slot.perform_tagKind claimed (.encode op)
  refine ⟨slot.perform claimed (.encode op), huse, ⟨hlive, ?_, ?_⟩, ?_⟩
  · exact hcommit.of_counters hhead htail
  · -- the ring adopts the kind of what is cancelled, which is that of all tags in use
    rw [htag]
    cases htarget : op.cancelTarget? with
    | none => exact h.tagKind
    | some target => exact .inr (congrArg some (hop.target target htarget))
  · rw [Submission.Queue.spaceLeft_congr hhead]
    exact hfree

/-- Without the kernel's help just the free slots can be filled, one after another. -/
theorem run_fill (h : s.Fillable live kind) {ops : List Operation}
    (hops : ∀ op ∈ ops, op.Admissible kind) :
    (s.run (ops.map fun op => .slot [.encode op])).1 =
      (List.range (min ops.length (live.sq.spaceLeft s.kernel.sq).toNat)).map (fun i =>
        .slot (.ok (live.sq.size.slot (live.sq.tail + UInt32.ofNat i), [⟨.ok (), true⟩]))) ++
      List.replicate (ops.length - (live.sq.spaceLeft s.kernel.sq).toNat)
        (.slot (.error .queueFull)) := by
  -- a refused claim leaves the machine as it is, an accepted one a machine with one slot less
  induction ops generalizing s live with
  | nil => simp [run]
  | cons op rest ih =>
    have hrest : ∀ op ∈ rest, op.Admissible kind := fun op hop => hops op (.tail _ hop)
    rcases Nat.eq_zero_or_pos (live.sq.spaceLeft s.kernel.sq).toNat with hfull | hroom
    · have hnext := ih h hrest
      rw [hfull] at hnext ⊢
      simp only [List.map_cons, run, step, h.useSlot_full hfull]
      rw [hnext]
      simp [List.replicate_succ]
    · obtain ⟨t, huse, ht, hfree⟩ := h.useSlot hroom (hops op (.head _))
      have hnext := ih ht hrest
      -- the first free slot, and then those that are free after it, one counter on
      simp only [List.map_cons, run, step, huse]
      rw [hnext, ← hfree, List.length_cons, Nat.add_min_add_right, Nat.add_sub_add_right,
        List.range_succ_eq_map, List.map_cons, List.map_map, List.cons_append]
      congr 1
      · simp
      · congr 1
        refine List.map_congr_left fun i _ => ?_
        simp [Submission.Queue.commit, UInt32.add_assoc, UInt32.add_comm]

end Fillable

end Machine

/-! ### The account of a session -/

namespace Session

variable {s : Session} {live : Live} {base : UInt32}

/-- Each of the ring's slots is accounted for. -/
structure Accounted (s : Session) (live : Live) (entries : Nat) : Prop where
  live_eq : s.machine.ring.live = some live
  entries_eq : live.sq.size.entries.toNat = entries
  /-- What is subtracted from the size in computing the space left is no larger. -/
  fits : live.sq.outstanding s.machine.kernel.sq ≤ live.sq.size.entries
  total : (live.sq.usage s.machine.kernel.sq).total = entries
  balance : (live.sq.usage s.machine.kernel.sq).free + s.committed.length =
    entries + s.machine.kernel.taken.length
  full_iff : live.sq.full s.machine.kernel.sq = true ↔ live.sq.spaceLeft s.machine.kernel.sq = 0
  refused_iff : s.machine.nextSlot.1 = .error .queueFull ↔
    live.sq.spaceLeft s.machine.kernel.sq = 0

theorem InOrder.inRange (h : s.InOrder live base) : live.sq.InRange s.machine.kernel.sq :=
  h.committed.queue.inRange

theorem InOrder.accounted (h : s.InOrder live base) :
    s.Accounted live live.sq.size.entries.toNat where
  live_eq := h.machine.live_eq
  entries_eq := rfl
  fits := UInt32.le_iff_toNat_le.mpr h.inRange.fits
  total := h.inRange.total_usage
  balance := by
    have hspace := h.inRange.toNat_spaceLeft
    have hcount := h.length_committed
    show (live.sq.spaceLeft s.machine.kernel.sq).toNat + _ = _
    omega
  full_iff := live.sq.full_eq_true_iff s.machine.kernel.sq
  refused_iff := Machine.nextSlot_full_iff h.machine.live_eq h.inRange

/-- A slot that is open and not committed yet is free. -/
theorem InOrder.free_of_open (h : s.InOrder live base) {d : Draft} (hd : s.draft = some d)
    (hopen : d.slot.committed = false) : 0 < (live.sq.spaceLeft s.machine.kernel.sq).toNat := by
  obtain ⟨-, hroom, htail⟩ := h.opened d hd
  have hspace := h.inRange.toNat_spaceLeft
  have hout : (live.sq.outstanding s.machine.kernel.sq).toNat =
      (base - s.machine.kernel.sq.head).toNat := by
    rw [Submission.Queue.outstanding, htail, hopen]
    rfl
  omega

/-- An act makes a free slot pending when it is the first encoding into it, and otherwise leaves all
slots in their use. -/
theorem InOrder.usage_act (h : s.InOrder live base) {d : Draft} {a : Slot.Act}
    (hd : s.draft = some d) (hreply : s.reply (.act a) = .done (.ok ())) :
    ∃ live', (s.act a).machine.ring.live = some live' ∧
      let u := live.sq.usage s.machine.kernel.sq
      let u' := live'.sq.usage (s.act a).machine.kernel.sq
      let n := (a.encodes && !d.slot.committed).toNat
      u'.pending = u.pending + n ∧ u'.published = u.published ∧ u'.free + n = u.free := by
  have hlive := d.slot.perform_live s.machine h.machine.live_eq a
  have hcounters (q : Submission.Queue) :
      q.usage (d.slot.perform s.machine a).kernel.sq = q.usage s.machine.kernel.sq :=
    Submission.Queue.usage_congr (d.slot.perform_head s.machine a)
      (d.slot.perform_tail s.machine a)
  rw [reply_act hd, Answer.done.injEq] at hreply
  rw [act_of_ok hd hreply]
  refine ⟨_, hlive, ?_⟩
  dsimp only
  rw [hcounters]
  cases hfirst : a.encodes && !d.slot.committed with
  | false => exact ⟨rfl, rfl, rfl⟩
  | true =>
    have hopen : d.slot.committed = false := by
      rw [Bool.and_eq_true, Bool.not_eq_true'] at hfirst
      exact hfirst.2
    exact h.inRange.usage_commit (h.free_of_open hd hopen)

/-- Whatever is done with a ring, and whatever the kernel does meanwhile: no subtraction on the
counters passes below zero, the pending, the published and the free slots are all the slots of the
ring, and a claim is refused exactly when none is free.  The first encoding into a slot makes it
pending, a flush publishes all that is pending, what the kernel takes becomes free, and without its
help just the free slots can be filled. -/
theorem slots_accounted {setup : Setup} {k : Kernel} {ring : Ring}
    (h : (setup.build k).1 = .ok ring) (hidle : k.sq.head = k.sq.tail) (hnew : k.taken = [])
    (moves : List Move) :
    let s := (start ring (setup.build k).2).run moves
    let m := s.machine.kernel.sq
    ∃ live, s.Accounted live k.sq.entries.toNat ∧
      let u := live.sq.usage m
      (∀ d a, s.draft = some d → s.reply (.act a) = .done (.ok ()) →
        ∃ live', (s.act a).machine.ring.live = some live' ∧
          let u' := live'.sq.usage (s.act a).machine.kernel.sq
          let n := (a.encodes && !d.slot.committed).toNat
          u'.pending = u.pending + n ∧ u'.published = u.published ∧ u'.free + n = u.free) ∧
      (live.sq.flush m).2.1.usage (live.sq.flush m).2.2 = ⟨0, u.published + u.pending, u.free⟩ ∧
      (∀ n, (m.take n).1.length = min n u.published ∧
        let u' := live.sq.usage (m.take n).2
        u'.pending = u.pending ∧ u'.published + (m.take n).1.length = u.published ∧
          u'.free = u.free + (m.take n).1.length) ∧
      ∀ kind (ops : List Operation),
        s.machine.ring.tagKind = none ∨ s.machine.ring.tagKind = some kind →
        (∀ op ∈ ops, op.Admissible kind) →
        (s.machine.run (ops.map fun op => .slot [.encode op])).1 =
          (List.range (min ops.length u.free)).map (fun i =>
            .slot (.ok (live.sq.size.slot (live.sq.tail + UInt32.ofNat i), [⟨.ok (), true⟩]))) ++
          List.replicate (ops.length - u.free) (.slot (.error .queueFull)) := by
  intro s m
  obtain ⟨live, base, horder, -, hentries⟩ := run_inOrder h hidle hnew moves
  have haccounted := horder.accounted
  rw [hentries] at haccounted
  refine ⟨live, haccounted, ?_, horder.inRange.usage_flush, ?_, ?_⟩
  · intro d a hd hreply
    exact horder.usage_act hd hreply
  · intro n
    exact ⟨m.length_take n, horder.inRange.usage_take n⟩
  · intro kind ops hkind hops
    have hfillable : s.machine.Fillable live kind :=
      ⟨horder.machine.live_eq, horder.inRange, hkind⟩
    exact hfillable.run_fill hops

/-- Two slots across the wrap of the counters, one published and one pending: a third is refused,
and there is room again when the kernel has taken one. -/
theorem slots_accounted_at_wrap :
    ∃ ring, (Setup.build ⟨2, 0, 0⟩ (.idle ⟨1⟩ 0xffffffff)).1 = .ok ring ∧
      let s := (start ring (Setup.build ⟨2, 0, 0⟩ (.idle ⟨1⟩ 0xffffffff)).2).run
        [.kernel (.script [.ok { consume := some 0 }] []),
          .claim, .act (.encode .nop), .call .submit, .claim, .act (.encode .nop)]
      ∃ live, s.Accounted live 2 ∧ live.sq.usage s.machine.kernel.sq = ⟨1, 1, 0⟩ ∧
        (live.sq.usage (s.machine.kernel.sq.take 1).2).free = 1 ∧
        (s.machine.run [.slot [.encode .nop]]).1 = [.slot (.error .queueFull)] := by
  have hbuild : (Setup.build ⟨2, 0, 0⟩ (.idle ⟨1⟩ 0xffffffff)).1 = .ok _ := rfl
  refine ⟨_, hbuild, ?_⟩
  intro s
  obtain ⟨live, haccounted, -, -, htake, hfill⟩ :=
    slots_accounted hbuild rfl rfl
      [.kernel (.script [.ok { consume := some 0 }] []),
        .claim, .act (.encode .nop), .call .submit, .claim, .act (.encode .nop)]
  have husage : live.sq.usage s.machine.kernel.sq = ⟨1, 1, 0⟩ := by
    have hmap : s.machine.ring.live.map (·.sq.usage s.machine.kernel.sq) = some ⟨1, 1, 0⟩ := by
      decide
    rw [haccounted.live_eq] at hmap
    exact Option.some.inj hmap
  obtain ⟨htaken, -, -, hfree⟩ := htake 1
  have hnop : ∀ op ∈ [Operation.nop], op.Admissible .data64 := by
    simpa using ⟨rfl, by rintro t ⟨⟩⟩
  have hrefused := hfill .data64 [.nop] (.inl rfl) hnop
  rw [husage] at htaken hfree hrefused
  exact ⟨live, haccounted, husage, by rw [hfree, htaken]; rfl, hrefused⟩

end Session

end Uring
