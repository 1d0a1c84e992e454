import Mathlib.Logic.Relation
import Uring.Proofs.Submission.Queue
import Uring.Ring.Step

/-!
# Uring.Proofs.Kernel.Turn — all that a kernel does to the memory it shares

A `Turn` is one thing that a kernel does: it takes entries, posts a completion, publishes its
backlog, writes a word or keeps its records.  Entering the kernel is a row of turns, and so is
whatever it does by itself, so a property that every turn keeps is kept by all of them.
-/

namespace Uring.Kernel

/-- A completion goes to the ring, or behind the backlog, which the flag word then tells of. -/
theorem post_cases (k : Kernel) (c : Completion.Entry) :
    (k.backlog = [] ∧ k.cq.hasRoom = true ∧
      k.post c = { k with posted := k.posted ++ [c], cq := k.cq.push c }) ∨
    (¬ (k.backlog = [] ∧ k.cq.hasRoom = true) ∧
      k.post c = { k with
        posted := k.posted ++ [c]
        backlog := k.backlog ++ [c]
        sq.flags := k.sq.flags ||| Abi.sqCqOverflow }) := by
  unfold post
  dsimp only
  by_cases h : (k.backlog.isEmpty && k.cq.hasRoom) = true
  · rw [if_pos h]
    obtain ⟨hempty, hroom⟩ := Bool.and_eq_true_iff.mp h
    exact .inl ⟨List.isEmpty_iff.mp hempty, hroom, rfl⟩
  · rw [if_neg h]
    refine .inr ⟨?_, rfl⟩
    rintro ⟨hbacklog, hroom⟩
    apply h
    rw [hbacklog, hroom]
    rfl

inductive Turn (k : Kernel) : Kernel → Prop
  | take (n : Nat) : Turn k (k.take n).2
  | post (c : Completion.Entry) : Turn k (k.post c)
  | flushBacklog : Turn k k.flushBacklog
  | writeFlags (word : Option UInt32) : Turn k (k.writeFlags word)
  | writeCounts (dropped overflow : UInt32) :
      Turn k { k with sq.dropped := dropped, cq.overflow := overflow }
  | replies (enters : List (Except Errno Service)) (registers : List (Except Errno ProbeTable)) :
      Turn k { k with enterReplies := enters, registerReplies := registers }
  | entered (fd : Int32) (toSubmit minComplete flags : UInt32)
      (taken : Option (List (UInt32 × Submission.Entry))) :
      Turn k (k.record (.enter fd toSubmit minComplete flags taken))
  | registered (fd : Int32) (opcode count : UInt32) :
      Turn k (k.record (.register fd opcode count))

/-- On the submission side a kernel takes entries, and otherwise writes only flags and counts. -/
theorem Turn.sq_cases {k k' : Kernel} (h : Turn k k') :
    (∃ n, k' = (k.take n).2) ∨
      (k'.taken = k.taken ∧
        ∃ flags dropped, k'.sq = { k.sq with flags := flags, dropped := dropped }) := by
  cases h with
  | take n => exact .inl ⟨n, rfl⟩
  | post c =>
    right
    rcases k.post_cases c with ⟨-, -, hpost⟩ | ⟨-, hpost⟩
    · rw [hpost]
      exact ⟨rfl, _, _, rfl⟩
    · rw [hpost]
      exact ⟨rfl, _, _, rfl⟩
  | flushBacklog => exact .inr ⟨rfl, _, _, rfl⟩
  | writeFlags word => cases word <;> exact .inr ⟨rfl, _, _, rfl⟩
  | writeCounts dropped overflow => exact .inr ⟨rfl, _, _, rfl⟩
  | replies enters registers => exact .inr ⟨rfl, _, _, rfl⟩
  | entered => exact .inr ⟨rfl, _, _, rfl⟩
  | registered => exact .inr ⟨rfl, _, _, rfl⟩

/-- On the completion side a kernel posts, publishes its backlog, and otherwise writes only a
count. -/
theorem Turn.cq_cases {k k' : Kernel} (h : Turn k k') :
    (∃ c, k' = k.post c) ∨ k' = k.flushBacklog ∨
      (k'.posted = k.posted ∧ k'.backlog = k.backlog ∧
        ∃ overflow, k'.cq = { k.cq with overflow := overflow }) := by
  cases h with
  | take n => exact .inr (.inr ⟨rfl, rfl, _, rfl⟩)
  | post c => exact .inl ⟨c, rfl⟩
  | flushBacklog => exact .inr (.inl rfl)
  | writeFlags word => cases word <;> exact .inr (.inr ⟨rfl, rfl, _, rfl⟩)
  | writeCounts dropped overflow => exact .inr (.inr ⟨rfl, rfl, _, rfl⟩)
  | replies enters registers => exact .inr (.inr ⟨rfl, rfl, _, rfl⟩)
  | entered => exact .inr (.inr ⟨rfl, rfl, _, rfl⟩)
  | registered => exact .inr (.inr ⟨rfl, rfl, _, rfl⟩)

/-- Any number of turns. -/
abbrev Turns : Kernel → Kernel → Prop := Relation.ReflTransGen Turn

/-- What every turn keeps, turns keep. -/
theorem Turns.invariant {P : Kernel → Prop} (step : ∀ k k', Turn k k' → P k → P k')
    {k k' : Kernel} (h : Turns k k') (hP : P k) : P k' := by
  induction h with
  | refl => exact hP
  | tail _ hturn ih => exact step _ _ hturn ih

theorem Turn.sqes_eq {k k' : Kernel} (h : Turn k k') : k'.sq.sqes = k.sq.sqes := by
  rcases h.sq_cases with ⟨n, rfl⟩ | ⟨-, flags, dropped, hsq⟩
  · obtain ⟨head, hsq⟩ := k.sq.take_memory n
    show (k.sq.take n).2.sqes = _
    rw [hsq]
  · rw [hsq]

/-- The kernel never writes an entry. -/
theorem Turns.sqes_eq {k k' : Kernel} (h : Turns k k') : k'.sq.sqes = k.sq.sqes :=
  h.invariant (P := fun k' => k'.sq.sqes = k.sq.sqes) (fun _ _ hturn ih => hturn.sqes_eq.trans ih)
    rfl

/-! ### Records only grow -/

/-- What the earlier kernel has on record, the later one has first. -/
structure Grows (k k' : Kernel) : Prop where
  posted : k.posted <+: k'.posted
  calls : k.calls <+: k'.calls
  overwritten : k.overwritten <+: k'.overwritten

namespace Grows

theorem of_eq {k k' : Kernel} (hposted : k'.posted = k.posted) (hcalls : k'.calls = k.calls)
    (hoverwritten : k'.overwritten = k.overwritten) : k.Grows k' :=
  ⟨hposted ▸ List.prefix_rfl, hcalls ▸ List.prefix_rfl, hoverwritten ▸ List.prefix_rfl⟩

theorem trans {k k' k'' : Kernel} (h : k.Grows k') (h' : k'.Grows k'') : k.Grows k'' :=
  ⟨h.posted.trans h'.posted, h.calls.trans h'.calls, h.overwritten.trans h'.overwritten⟩

end Grows

theorem Turn.grows {k k' : Kernel} (h : Turn k k') : k.Grows k' := by
  cases h with
  | take n => exact .of_eq rfl rfl rfl
  | post c =>
    rcases k.post_cases c with ⟨-, -, hpost⟩ | ⟨-, hpost⟩
    · rw [hpost]
      exact ⟨List.prefix_append .., List.prefix_rfl, List.prefix_rfl⟩
    · rw [hpost]
      exact ⟨List.prefix_append .., List.prefix_rfl, List.prefix_rfl⟩
  | flushBacklog => exact .of_eq rfl rfl rfl
  | writeFlags word =>
    cases word with
    | none => exact .of_eq rfl rfl rfl
    | some word => exact ⟨List.prefix_rfl, List.prefix_rfl, List.prefix_append ..⟩
  | writeCounts dropped overflow => exact .of_eq rfl rfl rfl
  | replies enters registers => exact .of_eq rfl rfl rfl
  | entered => exact ⟨List.prefix_rfl, List.prefix_append .., List.prefix_rfl⟩
  | registered => exact ⟨List.prefix_rfl, List.prefix_append .., List.prefix_rfl⟩

/-! ### What a kernel does, as turns -/

theorem postAll_turns (k : Kernel) (cs : List Completion.Entry) : Turns k (k.postAll cs) := by
  induction cs generalizing k with
  | nil => exact .refl
  | cons c cs ih => exact .head (.post c) (ih (k.post c))

theorem consume_turns (k : Kernel) (n : UInt32) (hold : Bool) (results : List Int32) :
    Turns k (k.consume n hold results).2 := by
  have htake : Turns k (k.take n.toNat).2 := .single (.take n.toNat)
  cases hold with
  | true => exact htake
  | false => exact htake.trans (postAll_turns _ _)

theorem serve_turns (k : Kernel) (s : Service) (toSubmit flags : UInt32) :
    Turns k (k.serve s toSubmit flags).2 := by
  have hconsume := consume_turns k (min toSubmit (s.consume.getD toSubmit)) s.hold s.results
  have hflush (k : Kernel) :
      Turns k (if flags &&& Abi.enterGetEvents != 0 then k.flushBacklog else k) := by
    by_cases h : flags &&& Abi.enterGetEvents != 0
    · rw [if_pos h]
      exact .single .flushBacklog
    · rw [if_neg h]
  exact ((hconsume.trans (hflush _)).trans (postAll_turns _ s.post)).tail (.writeFlags s.sqFlags)

theorem enter_turns (k : Kernel) (fd : Int32) (toSubmit minComplete flags : UInt32) :
    Turns k (k.enter fd toSubmit minComplete flags).2 := by
  have hpop : Turns k { k with enterReplies := k.enterReplies.tail } :=
    .single (.replies _ k.registerReplies)
  unfold enter
  dsimp only
  cases k.enterReplies.head?.getD (.ok {}) with
  | error e => exact hpop.tail (.entered ..)
  | ok service => exact (hpop.trans (serve_turns _ service toSubmit flags)).tail (.entered ..)

theorem register_turns (k : Kernel) (fd : Int32) (opcode count : UInt32) :
    Turns k (k.register fd opcode count).2 := by
  have hpop : Turns k { k with registerReplies := k.registerReplies.tail } :=
    .single (.replies k.enterReplies _)
  exact hpop.tail (.registered ..)

theorem event_turns (k : Kernel) (e : KernelEvent) : Turns k (k.event e).2 := by
  cases e with
  | post cs => exact postAll_turns k cs
  | consume n hold results => exact consume_turns k n hold results
  | script enters registers => exact .single (.replies ..)
  | overwrite sqFlags dropped overflow =>
    have hflags : Turns k (k.writeFlags sqFlags) := .single (.writeFlags sqFlags)
    exact hflags.tail (.writeCounts ..)

end Uring.Kernel
