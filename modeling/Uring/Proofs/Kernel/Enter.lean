import Uring.Proofs.Kernel.Backlog
import Uring.Proofs.Submission.Room

/-!
# Uring.Proofs.Kernel.Enter — one enter, as it stands on record

An enter is one call on record, with the entries that the kernel took in it: they go behind those
taken before, and are no more than were offered.  An enter that fails takes nothing.  An enter that
offers nothing changes no more of the submission ring than its flag word, and no turn of the kernel
moves the head of the completion ring.
-/

namespace Uring.Kernel

/-! ### What is taken, and what is called -/

theorem post_taken (k : Kernel) (c : Completion.Entry) : (k.post c).taken = k.taken := by
  rcases k.post_cases c with ⟨-, -, hpost⟩ | ⟨-, hpost⟩ <;> rw [hpost]

theorem postAll_taken (k : Kernel) (cs : List Completion.Entry) :
    (k.postAll cs).taken = k.taken := by
  induction cs generalizing k with
  | nil => rfl
  | cons c cs ih => exact (ih (k.post c)).trans (k.post_taken c)

theorem consume_taken (k : Kernel) (n : UInt32) (hold : Bool) (results : List Int32) :
    (k.consume n hold results).2.taken = k.taken ++ (k.consume n hold results).1 := by
  cases hold with
  | true => rfl
  | false => exact postAll_taken ..

theorem serve_taken (k : Kernel) (service : Service) (toSubmit flags : UInt32) :
    (k.serve service toSubmit flags).2.taken =
      k.taken ++ (k.serve service toSubmit flags).1 := by
  have hflush (k : Kernel) :
      (if flags &&& Abi.enterGetEvents != 0 then k.flushBacklog else k).taken = k.taken := by
    split <;> rfl
  have hwrite (k : Kernel) : (k.writeFlags service.sqFlags).taken = k.taken := by
    cases service.sqFlags <;> rfl
  unfold serve
  dsimp only
  rw [hwrite, postAll_taken, hflush, consume_taken]

theorem length_serve_le (k : Kernel) (service : Service) (toSubmit flags : UInt32) :
    (k.serve service toSubmit flags).1.length ≤ toSubmit.toNat := by
  have hlen := k.sq.length_take (min toSubmit (service.consume.getD toSubmit)).toNat
  have hlimit : (min toSubmit (service.consume.getD toSubmit)).toNat ≤ toSubmit.toNat :=
    UInt32.le_iff_toNat_le.mp (Std.min_le_left ..)
  show (k.sq.take (min toSubmit (service.consume.getD toSubmit)).toNat).1.length ≤ _
  omega

theorem postAll_calls (k : Kernel) (cs : List Completion.Entry) :
    (k.postAll cs).calls = k.calls := by
  induction cs generalizing k with
  | nil => rfl
  | cons c cs ih =>
    have hpost : (k.post c).calls = k.calls := by
      rcases k.post_cases c with ⟨-, -, hpost⟩ | ⟨-, hpost⟩ <;> rw [hpost]
    exact (ih (k.post c)).trans hpost

theorem serve_calls (k : Kernel) (service : Service) (toSubmit flags : UInt32) :
    (k.serve service toSubmit flags).2.calls = k.calls := by
  have hconsume : (k.consume (min toSubmit (service.consume.getD toSubmit)) service.hold
      service.results).2.calls = k.calls := by
    unfold consume
    cases service.hold with
    | true => rfl
    | false => exact postAll_calls ..
  have hflush (k : Kernel) :
      (if flags &&& Abi.enterGetEvents != 0 then k.flushBacklog else k).calls = k.calls := by
    split <;> rfl
  have hwrite (k : Kernel) : (k.writeFlags service.sqFlags).calls = k.calls := by
    cases service.sqFlags <;> rfl
  unfold serve
  dsimp only
  rw [hwrite, postAll_calls, hflush, hconsume]

/-- The ways in which an enter can go. -/
inductive Entered (k : Kernel) (fd : Int32) (toSubmit minComplete flags : UInt32) :
    Except Errno UInt32 × Kernel → Prop
  | refused (errno : Errno) :
      Entered k fd toSubmit minComplete flags (.error errno,
        { k with enterReplies := k.enterReplies.tail }.record
          (.enter fd toSubmit minComplete flags none))
  | served {count : UInt32} {taken : List (UInt32 × Submission.Entry)} {k' : Kernel}
      (htaken : k'.taken = k.taken ++ taken) (hle : taken.length ≤ toSubmit.toNat)
      (hcalls : k'.calls = k.calls ++ [.enter fd toSubmit minComplete flags (some taken)]) :
      Entered k fd toSubmit minComplete flags (.ok count, k')

theorem enter_entered (k : Kernel) (fd : Int32) (toSubmit minComplete flags : UInt32) :
    k.Entered fd toSubmit minComplete flags (k.enter fd toSubmit minComplete flags) := by
  unfold enter
  dsimp only
  cases k.enterReplies.head?.getD (.ok {}) with
  | error errno => exact .refused errno
  | ok service =>
    have htaken := serve_taken { k with enterReplies := k.enterReplies.tail } service toSubmit flags
    have hle := length_serve_le { k with enterReplies := k.enterReplies.tail } service toSubmit
      flags
    have hcalls := serve_calls { k with enterReplies := k.enterReplies.tail } service toSubmit flags
    exact .served htaken hle (congrArg (· ++ _) hcalls)

/-- An enter is one call, and goes on record with what was taken in it. -/
theorem enter_calls (k : Kernel) (fd : Int32) (toSubmit minComplete flags : UInt32) :
    ∃ taken, (k.enter fd toSubmit minComplete flags).2.calls =
      k.calls ++ [.enter fd toSubmit minComplete flags taken] := by
  have hentered := k.enter_entered fd toSubmit minComplete flags
  generalize k.enter fd toSubmit minComplete flags = r at hentered ⊢
  cases hentered with
  | refused errno => exact ⟨none, rfl⟩
  | served htaken hle hcalls => exact ⟨_, hcalls⟩

/-! ### An enter that offers nothing -/

theorem enter_zero_taken (k : Kernel) (fd : Int32) (wait flags : UInt32) :
    (k.enter fd 0 wait flags).2.taken = k.taken := by
  have hentered := k.enter_entered fd 0 wait flags
  generalize k.enter fd 0 wait flags = r at hentered ⊢
  cases hentered with
  | refused errno => rfl
  | served htaken hle hcalls =>
    rw [htaken, List.eq_nil_of_length_eq_zero (Nat.le_zero.mp hle), List.append_nil]

theorem post_sq (k : Kernel) (c : Completion.Entry) :
    ∃ word, (k.post c).sq = { k.sq with flags := word } := by
  rcases k.post_cases c with ⟨-, -, hpost⟩ | ⟨-, hpost⟩
  · rw [hpost]
    exact ⟨k.sq.flags, rfl⟩
  · rw [hpost]
    exact ⟨_, rfl⟩

theorem postAll_sq (k : Kernel) (cs : List Completion.Entry) :
    ∃ word, (k.postAll cs).sq = { k.sq with flags := word } := by
  induction cs generalizing k with
  | nil => exact ⟨k.sq.flags, rfl⟩
  | cons c cs ih =>
    obtain ⟨_, hfirst⟩ := k.post_sq c
    obtain ⟨word, hrest⟩ := ih (k.post c)
    rw [hfirst] at hrest
    exact ⟨word, hrest⟩

theorem serve_zero_sq (k : Kernel) (service : Service) (flags : UInt32) :
    ∃ word, (k.serve service 0 flags).2.sq = { k.sq with flags := word } := by
  have hlimit : min 0 (service.consume.getD 0) = 0 := if_pos UInt32.zero_le
  have hflush : ∃ word, (if flags &&& Abi.enterGetEvents != 0 then k.flushBacklog else k).sq =
      { k.sq with flags := word } := by
    split
    · exact ⟨_, rfl⟩
    · exact ⟨k.sq.flags, rfl⟩
  unfold serve
  dsimp only
  rw [hlimit, consume_zero]
  obtain ⟨_, hflushed⟩ := hflush
  obtain ⟨word, hposted⟩ :=
    postAll_sq (if flags &&& Abi.enterGetEvents != 0 then k.flushBacklog else k) service.post
  rw [hflushed] at hposted
  cases service.sqFlags with
  | none => exact ⟨word, hposted⟩
  | some word' => exact ⟨word', congrArg ({ · with flags := word' }) hposted⟩

theorem enter_zero_sq (k : Kernel) (fd : Int32) (wait flags : UInt32) :
    ∃ word, (k.enter fd 0 wait flags).2.sq = { k.sq with flags := word } := by
  unfold enter
  dsimp only
  cases k.enterReplies.head?.getD (.ok {}) with
  | error errno => exact ⟨k.sq.flags, rfl⟩
  | ok service => exact serve_zero_sq { k with enterReplies := k.enterReplies.tail } service flags

/-! ### The head of the completion ring -/

theorem Turn.cq_head {k k' : Kernel} (h : Turn k k') : k'.cq.head = k.cq.head := by
  rcases h.cq_cases with ⟨c, rfl⟩ | rfl | ⟨-, -, overflow, hcq⟩
  · rcases k.post_cases c with ⟨-, -, hpost⟩ | ⟨-, hpost⟩
    · rw [hpost]
      rfl
    · rw [hpost]
  · exact k.cq.pushWhileRoom_head k.backlog
  · rw [hcq]

theorem Turns.cq_head {k k' : Kernel} (h : Turns k k') : k'.cq.head = k.cq.head :=
  h.invariant (P := fun k' => k'.cq.head = k.cq.head) (fun _ _ hturn ih => hturn.cq_head.trans ih)
    rfl

end Uring.Kernel
