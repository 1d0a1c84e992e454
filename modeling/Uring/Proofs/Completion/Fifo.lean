import Uring.Completion.Fifo
import Uring.Proofs.Completion.Queue

/-!
# Uring.Proofs.Completion.Fifo — a completion ring is a bounded list

`Opened.Shows o f` says that a handle and its memory stand for the list `f`.  One use of the ring
and one use of the list give the same answer and keep the relation (`Shows.step`), so any number of
uses do, at every position of the head and across the wrap of both counters.
-/

namespace Uring.Completion

namespace Queue

variable {q : Queue} {m : Memory}

theorem attach_eq_ok_iff :
    attach m = .ok q ↔ m.entries = q.size.entries ∧ m.mask = q.size.mask := by
  rw [← RingSize.ofWords_eq_ok_iff]
  unfold attach
  cases RingSize.ofWords m.entries m.mask with
  | error e => simp [Except.map]
  | ok size => cases q; simp [Except.map]

theorem Bounded.length_toList_le (h : q.Bounded m) :
    (q.toList m).length ≤ q.size.entries.toNat := by
  rw [length_toList]
  exact h.ready_le

/-- The kernel publishes exactly as many completions as there is room for. -/
theorem Bounded.pushWhileRoom_eq (h : q.Bounded m) (cs : List Entry) :
    q.toList (m.pushWhileRoom cs).1 =
        q.toList m ++ cs.take (q.size.entries.toNat - (q.toList m).length) ∧
      (m.pushWhileRoom cs).2 = cs.drop (q.size.entries.toNat - (q.toList m).length) := by
  obtain ⟨hbounded, hlist, hfull⟩ := h.pushWhileRoom cs
  have hle := h.length_toList_le
  have hle' := hbounded.length_toList_le
  rw [← length_toList q] at hfull
  generalize q.toList (m.pushWhileRoom cs).1 = published at hlist hfull hle' ⊢
  generalize (m.pushWhileRoom cs).2 = rest at hlist hfull ⊢
  have hlen := congrArg List.length hlist
  rw [List.length_append, List.length_append] at hlen
  by_cases hnil : rest = []
  · subst hnil
    rw [List.append_nil] at hlist
    rw [List.length_nil] at hlen
    rw [List.take_of_length_le (by omega), List.drop_eq_nil_of_le (by omega)]
    exact ⟨hlist, rfl⟩
  · -- only a full ring leaves something over, so just the room was used up
    have hfull' := hfull hnil
    have hpos := List.length_pos_iff.mpr hnil
    generalize hroom : q.size.entries.toNat - (q.toList m).length = room
    rw [← List.take_append_drop room cs, ← List.append_assoc] at hlist
    exact List.append_inj hlist (by rw [List.length_append, List.length_take]; omega)

/-- The buffer after a batch was taken, as a list. -/
theorem toList_copyReady (h : q.Bounded m) (out : Array Entry) :
    (q.copyReady m out).2.1.toList =
      (q.toList m).take out.size ++ out.toList.drop m.ready.toNat := by
  apply List.ext_getElem?
  intro j
  have hlen : ((q.toList m).take out.size).length = min out.size m.ready.toNat := by
    rw [List.length_take, length_toList]
  rw [Array.getElem?_toList, getElem?_copyReady h, List.getElem?_append, hlen, List.getElem?_drop,
    List.getElem?_take]
  by_cases hj : j < min m.ready.toNat out.size
  · have hj' : j < (m.tail - m.head).toNat := Nat.lt_of_lt_of_le hj (Nat.min_le_left ..)
    rw [if_pos hj, if_pos (by omega), if_pos (by omega)]
    simp [toList, span, hj']
  · rw [if_neg hj, if_neg (by omega)]
    rcases Nat.le_total out.size m.ready.toNat with hfull | hrest
    · have hend : out.toList.length ≤
          m.ready.toNat + (j - min out.size m.ready.toNat) := by
        rw [Array.length_toList]
        omega
      rw [Array.getElem?_eq_none (by omega), List.getElem?_eq_none hend]
    · rw [Array.getElem?_toList]
      congr 1
      omega

end Queue

/-- Publishing leaves the size alone. -/
theorem Memory.pushWhileRoom_size (m : Memory) (cs : List Entry) :
    (m.pushWhileRoom cs).1.entries = m.entries ∧ (m.pushWhileRoom cs).1.mask = m.mask := by
  induction cs generalizing m with
  | nil => exact ⟨rfl, rfl⟩
  | cons c cs ih =>
    unfold pushWhileRoom
    by_cases hroom : m.hasRoom
    · rw [if_pos hroom]
      exact ih (m.push c)
    · rw [if_neg hroom]
      exact ⟨rfl, rfl⟩

namespace Fifo

theorem step_capacity (f : Fifo) (u : Use) : (f.step u).2.capacity = f.capacity := by
  cases u with
  | advance count =>
    rw [step]
    split <;> rfl
  | _ => rfl

theorem run_capacity (f : Fifo) (uses : List Use) : (f.run uses).2.capacity = f.capacity := by
  induction uses generalizing f with
  | nil => rfl
  | cons u rest ih => exact (ih (f.step u).2).trans (f.step_capacity u)

end Fifo

namespace Opened

/-! ### One use -/

/-- The handle was made for its memory, and the completions at hand are the list's. -/
structure Shows (o : Opened) (f : Fifo) : Prop where
  attached : Queue.attach o.memory = .ok o.queue
  capacity_eq : f.capacity = o.queue.size.entries.toNat
  items_eq : f.items = o.queue.toList o.memory

namespace Shows

variable {o : Opened} {f : Fifo}

theorem length_eq (h : o.Shows f) : f.items.length = o.memory.ready.toNat := by
  rw [h.items_eq, Queue.length_toList]

theorem ready_eq (h : o.Shows f) : UInt32.ofNat f.items.length = o.memory.ready := by
  rw [h.length_eq, UInt32.ofNat_toNat]

theorem empty_eq (h : o.Shows f) : (o.queue.info o.memory).empty = f.items.isEmpty := by
  rw [Bool.eq_iff_iff, List.isEmpty_iff, ← List.length_eq_zero_iff, h.length_eq]
  show decide (o.memory.ready = 0) = true ↔ _
  rw [decide_eq_true_iff, ← UInt32.toNat_inj, UInt32.toNat_zero]

theorem bounded (h : o.Shows f) : o.queue.Bounded o.memory := by
  refine ⟨(Queue.attach_eq_ok_iff.mp h.attached).1, ?_⟩
  rw [← h.length_eq, ← h.capacity_eq]
  exact f.length_le

theorem post (h : o.Shows f) (cs : List Entry) :
    (o.step (.post cs)).1 = (f.step (.post cs)).1 ∧
      (o.step (.post cs)).2.Shows (f.step (.post cs)).2 := by
  obtain ⟨hentries, hmask⟩ := Queue.attach_eq_ok_iff.mp h.attached
  obtain ⟨hentries', hmask'⟩ := o.memory.pushWhileRoom_size cs
  obtain ⟨hlist, hrest⟩ := h.bounded.pushWhileRoom_eq cs
  rw [← h.items_eq, ← h.capacity_eq] at hlist hrest
  refine ⟨congrArg Use.Answer.posted ?_, ?_, h.capacity_eq, hlist.symm⟩
  · rw [hrest, List.length_drop]
    omega
  · exact Queue.attach_eq_ok_iff.mpr ⟨hentries'.trans hentries, hmask'.trans hmask⟩

/-- Moving the head drops the front of the list. -/
theorem skip (h : o.Shows f) {n : Nat} (hn : n ≤ f.items.length) :
    Shows ⟨o.queue, Queue.skip o.memory n⟩ (f.drop n) := by
  rw [h.length_eq] at hn
  refine ⟨h.attached, h.capacity_eq, ?_⟩
  have hsplit := Queue.take_append_toList_skip (q := o.queue) hn
  have hlen : ((o.queue.toList o.memory).take n).length = n := by
    rw [List.length_take, Queue.length_toList]
    omega
  show f.items.drop n = o.queue.toList (Queue.skip o.memory n)
  rw [h.items_eq, ← hsplit, List.drop_left' hlen]

theorem copy (h : o.Shows f) (out : Array Entry) :
    (o.step (.copy out)).1 = (f.step (.copy out)).1 ∧
      (o.step (.copy out)).2.Shows (f.step (.copy out)).2 := by
  have hout : (o.queue.copyReady o.memory out).2.1 = f.fill out := by
    apply Array.toList_inj.mp
    rw [Queue.toList_copyReady h.bounded, ← h.items_eq, ← h.length_eq]
    rfl
  have hstep : o.step (.copy out) =
      (.copied (UInt32.ofNat (min f.items.length out.size)) (f.fill out),
        ⟨o.queue, Queue.skip o.memory (min f.items.length out.size)⟩) := by
    rw [← hout, h.length_eq]
    rfl
  rw [hstep]
  exact ⟨rfl, h.skip (Nat.min_le_left ..)⟩

theorem peek (h : o.Shows f) : o.step .peek = (.peeked f.items.head?, o) := by
  show (Use.Answer.peeked (o.queue.peek? o.memory), o) = _
  rw [Queue.peek?_eq_head?, h.items_eq]

/-- Too large an advance is refused and changes nothing. -/
theorem advance_refused (h : o.Shows f) {count : UInt32} (hcount : f.items.length < count.toNat) :
    o.step (.advance count) =
      (.advanced (.error (.headOverrun count (UInt32.ofNat f.items.length))), o) := by
  have hgt : count > o.memory.ready := by
    rw [h.length_eq] at hcount
    exact UInt32.lt_iff_toNat_lt.mpr hcount
  have hadvance : Queue.advance o.memory count = .error (.headOverrun count o.memory.ready) :=
    if_pos hgt
  rw [h.ready_eq, step, hadvance]

theorem advance (h : o.Shows f) (count : UInt32) :
    (o.step (.advance count)).1 = (f.step (.advance count)).1 ∧
      (o.step (.advance count)).2.Shows (f.step (.advance count)).2 := by
  rw [Fifo.step]
  by_cases hle : count.toNat ≤ f.items.length
  · have hready : count ≤ o.memory.ready := by
      rw [h.length_eq] at hle
      exact UInt32.le_iff_toNat_le.mpr hle
    rw [if_pos hle, Opened.step, Queue.advance_ok_iff.mpr ⟨hready, rfl⟩]
    exact ⟨rfl, h.skip hle⟩
  · rw [if_neg hle, h.advance_refused (Nat.lt_of_not_le hle)]
    exact ⟨rfl, h⟩

theorem reopen (h : o.Shows f) : o.step .reopen = (.reopened (.ok ()), o) := by
  unfold step
  rw [h.attached]

theorem step (h : o.Shows f) (u : Use) :
    (o.step u).1 = (f.step u).1 ∧ (o.step u).2.Shows (f.step u).2 := by
  cases u with
  | post cs => exact h.post cs
  | copy out => exact h.copy out
  | peek =>
    rw [h.peek]
    exact ⟨rfl, h⟩
  | advance count => exact h.advance count
  | reopen =>
    rw [h.reopen]
    exact ⟨rfl, h⟩

theorem run (h : o.Shows f) (uses : List Use) :
    (o.run uses).1 = (f.run uses).1 ∧ (o.run uses).2.Shows (f.run uses).2 := by
  induction uses generalizing o f with
  | nil => exact ⟨rfl, h⟩
  | cons u rest ih =>
    obtain ⟨hanswer, hnext⟩ := h.step u
    obtain ⟨hanswers, hlast⟩ := ih hnext
    refine ⟨?_, hlast⟩
    show (o.step u).1 :: ((o.step u).2.run rest).1 = (f.step u).1 :: ((f.step u).2.run rest).1
    rw [hanswer, hanswers]

end Shows

/-- Whatever is done to a completion ring that is not overfull, it answers as a list of at most
`entries` completions does, and shows that list afterwards: `ready` is its length and `empty` says
whether there is anything in it.  Looking at the oldest completion, opening the ring again and
advancing too far leave the ring as it is. -/
theorem run_eq_fifo_run {m : Memory} {q : Queue} (h : Queue.attach m = .ok q)
    (hle : m.ready ≤ m.entries) (uses : List Use) :
    ∃ start : Fifo, start.capacity = m.entries.toNat ∧ start.items = q.toList m ∧
      let o := (run ⟨q, m⟩ uses).2
      let f := (start.run uses).2
      (run ⟨q, m⟩ uses).1 = (start.run uses).1 ∧
        o.queue.toList o.memory = f.items ∧ f.items.length ≤ m.entries.toNat ∧
        (o.queue.info o.memory).ready.toNat = f.items.length ∧
        (o.queue.info o.memory).empty = f.items.isEmpty ∧
        o.step .peek = (.peeked f.items.head?, o) ∧
        o.step .reopen = (.reopened (.ok ()), o) ∧
        ∀ count : UInt32, f.items.length < count.toNat →
          o.step (.advance count) =
            (.advanced (.error (.headOverrun count (UInt32.ofNat f.items.length))), o) := by
  have hfits : (q.toList m).length ≤ m.entries.toNat := by
    rw [Queue.length_toList]
    exact UInt32.le_iff_toNat_le.mp hle
  have hstart : Shows ⟨q, m⟩ ⟨m.entries.toNat, q.toList m, hfits⟩ :=
    ⟨h, congrArg UInt32.toNat (Queue.attach_eq_ok_iff.mp h).1, rfl⟩
  generalize hf : (⟨m.entries.toNat, q.toList m, hfits⟩ : Fifo) = start at hstart
  obtain ⟨hanswers, hlast⟩ := hstart.run uses
  have hle' := (start.run uses).2.length_le
  rw [start.run_capacity, ← hf] at hle'
  refine ⟨start, by rw [← hf], by rw [← hf], hanswers, hlast.items_eq.symm, ?_,
    hlast.length_eq.symm, hlast.empty_eq, hlast.peek, hlast.reopen,
    fun count hcount => hlast.advance_refused hcount⟩
  rwa [← hf]

/-- A full ring across the wrap of the counters. -/
theorem run_eq_fifo_run_full :
    Queue.attach ⟨2, 1, 0xffffffff, 1, 0, .ofList [⟨2, 0, 0⟩, ⟨1, 0, 0⟩]⟩ = .ok ⟨⟨1⟩⟩ ∧
      ∃ start : Fifo, start.capacity = 2 ∧ start.items = [⟨1, 0, 0⟩, ⟨2, 0, 0⟩] ∧
        (run ⟨⟨⟨1⟩⟩, ⟨2, 1, 0xffffffff, 1, 0, .ofList [⟨2, 0, 0⟩, ⟨1, 0, 0⟩]⟩⟩
          [.copy #[default], .post [⟨3, 0, 0⟩, ⟨4, 0, 0⟩], .peek, .advance 3, .reopen,
            .advance 2]).1 =
        (start.run [.copy #[default], .post [⟨3, 0, 0⟩, ⟨4, 0, 0⟩], .peek, .advance 3, .reopen,
          .advance 2]).1 := by
  refine ⟨rfl, ?_⟩
  obtain ⟨start, hcapacity, hitems, hanswers, -⟩ :=
    @run_eq_fifo_run ⟨2, 1, 0xffffffff, 1, 0, .ofList [⟨2, 0, 0⟩, ⟨1, 0, 0⟩]⟩ ⟨⟨1⟩⟩ rfl (by decide)
      [.copy #[default], .post [⟨3, 0, 0⟩, ⟨4, 0, 0⟩], .peek, .advance 3, .reopen, .advance 2]
  exact ⟨start, hcapacity, hitems.trans (by decide), hanswers⟩

end Opened

end Uring.Completion
