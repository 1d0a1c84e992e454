import Uring.Socket

/-!
# Uring.Proofs.SocketCalls — the calls that socket operations make

A request is refused for its arguments without a call, or it comes down to one call.  That call is
made once, and its reply ends the request.  Only a connect goes on after a reply: it repeats the
same call as long as it is interrupted.
-/

namespace Uring.Socket

/-! ### Replies -/

/-- The reply to the next call; a kernel without a script lets it succeed. -/
def nextReply (replies : List Reply) : Reply := replies.head?.getD (.ok {})

/-- The replies begin with `k` interruptions and no more, and the others follow. -/
structure Interrupted (replies : List Reply) (k : Nat) (others : List Reply) : Prop where
  replies_eq : replies = List.replicate k (.error .interrupted) ++ others
  ended : nextReply others ≠ .error .interrupted

/-- However often a call is interrupted, it comes to an end. -/
theorem exists_interrupted (replies : List Reply) : ∃ k others, Interrupted replies k others := by
  induction replies with
  | nil => exact ⟨0, [], rfl, by rintro ⟨⟩⟩
  | cons r rest ih =>
    by_cases hr : r = .error .interrupted
    · obtain ⟨k, others, hrest, hended⟩ := ih
      exact ⟨k + 1, others, by rw [hr, hrest]; rfl, hended⟩
    · exact ⟨0, r :: rest, rfl, hr⟩

theorem perform_eq (c : Call) (replies : List Reply) :
    perform c replies = ⟨(nextReply replies).map fun _ => (), [c], replies.tail, []⟩ := rfl

/-- A reply that is no interruption ends the repetition. -/
theorem retry_of_ended {replies : List Reply} (h : nextReply replies ≠ .error .interrupted)
    (c : Call) : retry c replies = perform c replies := by
  cases replies with
  | nil => rfl
  | cons r rest =>
    cases r with
    | ok success => rfl
    | error e =>
      have he : e ≠ .interrupted := fun he => h (congrArg Except.error he)
      unfold retry
      rw [if_neg he]
      rfl

/-- After `k` interruptions the call has been made `k` times, and once more for the next reply. -/
theorem retry_eq {replies others : List Reply} {k : Nat} (h : Interrupted replies k others)
    (c : Call) :
    retry c replies =
      ⟨(nextReply others).map fun _ => (), List.replicate (k + 1) c, others.tail, []⟩ := by
  obtain ⟨rfl, hended⟩ := h
  induction k with
  | zero => exact retry_of_ended hended c
  | succ k ih =>
    rw [List.replicate_succ, List.cons_append]
    unfold retry
    rw [if_pos rfl, ih]
    rfl

namespace Request

/-! ### What a request comes down to -/

/-- What is wrong with the arguments.  An address and a choice of halves are looked at before the
descriptor, and some operations look at nothing. -/
def refusal? : Request → Option Errno
  | bind fd ip _ | connect fd ip _ =>
    if ip.length ≠ 4 then some .invalid else if fd < 0 then some .badDescriptor else none
  | shutdown fd read write =>
    if !read && !write then some .invalid else if fd < 0 then some .badDescriptor else none
  | listen fd _ => if fd < 0 then some .badDescriptor else none
  | create .. | close _ | getOption .. | setOption .. => none

/-- The call that the arguments stand for, if they stand for one. -/
def call? : Request → Option Call
  | create cloexec nonblock =>
    some (.socket Abi.afInet (Abi.sockStream ||| (if cloexec then Abi.sockCloexec else 0) |||
      (if nonblock then Abi.sockNonblock else 0)) 0)
  | bind fd ip port => (Inet.SockAddr.ofBytes? ip port).map (.bind fd)
  | listen fd backlog => some (.listen fd backlog)
  | connect fd ip port => (Inet.SockAddr.ofBytes? ip port).map (.connect fd)
  | shutdown fd read write => (Halves.ofSides? read write).map (.shutdown fd)
  | close fd => some (.close fd)
  | getOption fd level name => some (.getOption fd level name)
  | setOption fd level name value => some (.setOption fd level name value)

/-- Whether an interrupted call is made again. -/
def repeats : Request → Bool
  | connect .. => true
  | _ => false

/-- What success returns, zero if nothing. -/
def value : Request → Success → Int32
  | create .., success => success.ret
  | getOption .., success => success.value.getD 0
  | _, _ => 0

/-- The result of a request that ends with a reply.  An interrupted close is done. -/
def outcome : Request → Reply → Except Errno Int32
  | close _, .error e => if e = .interrupted then .ok 0 else .error e
  | q, reply => reply.map q.value

/-- The call is made `k + 1` times with the same arguments, and the first of the other replies ends
the request. -/
structure Settles (q : Request) (replies : List Reply) (c : Call) (k : Nat)
    (others : List Reply) : Prop where
  calls : q.calls replies = List.replicate (k + 1) c
  result : q.result replies = q.outcome (nextReply others)
  unused : q.unused replies = others.tail

/-! ### Arguments -/

/-- What checking the arguments of a request gives: its refusal if there is one, else its call. -/
inductive Checks (q : Request) : Except Errno Call → Prop
  | refused {e : Errno} (h : q.refusal? = some e) : Checks q (.error e)
  | admitted {c : Call} (h : q.refusal? = none) (hcall : q.call? = some c) : Checks q (.ok c)

section

variable {q : Request} {fd : Int32}

theorem checks_fd {c : Call}
    (h : q.refusal? = if fd < 0 then some .badDescriptor else none) (hcall : q.call? = some c) :
    q.Checks (do checkFd fd; return c) := by
  unfold checkFd
  by_cases hfd : fd < 0
  · rw [if_pos hfd] at h ⊢
    exact .refused h
  · rw [if_neg hfd] at h ⊢
    exact .admitted h hcall

theorem checks_address {ip : List UInt8} {port : UInt16} {make : Inet.SockAddr → Call}
    (h : q.refusal? = if ip.length ≠ 4 then some .invalid
      else if fd < 0 then some .badDescriptor else none)
    (hcall : q.call? = (Inet.SockAddr.ofBytes? ip port).map make) :
    q.Checks (do let addr ← address ip port; checkFd fd; return make addr) := by
  unfold address
  cases hip : Inet.SockAddr.ofBytes? ip port with
  | none =>
    rw [if_pos (Inet.SockAddr.ofBytes?_eq_none_iff.mp hip)] at h
    exact .refused h
  | some addr =>
    have hlen : ¬ ip.length ≠ 4 := by
      intro hne
      rw [Inet.SockAddr.ofBytes?_eq_none_iff.mpr hne] at hip
      cases hip
    rw [if_neg hlen] at h
    rw [hip] at hcall
    exact checks_fd h hcall

end

theorem checks_shutdown (fd : Int32) (read write : Bool) :
    (shutdown fd read write).Checks (match Halves.ofSides? read write with
      | none => .error .invalid
      | some how => do checkFd fd; return .shutdown fd how) := by
  cases read <;> cases write
  · exact .refused rfl
  all_goals exact checks_fd rfl rfl

/-! ### Exchanges -/

/-- A request goes on with its call: a connect repeats it, and any other operation makes it once. -/
structure Settled (q : Request) (replies : List Reply) (c : Call) : Prop where
  once : q.repeats = false → q.Settles replies c 0 replies
  again : q.repeats = true →
    ∀ k others, Interrupted replies k others → q.Settles replies c k others

/-- What can become of a request. -/
inductive Goes (q : Request) (replies : List Reply) : Prop
  | refused {e : Errno} (h : q.refusal? = some e)
      (hexchange : q.exchange replies = .inl (.refuse e replies))
  | settled {c : Call} (h : q.refusal? = none) (hcall : q.call? = some c)
      (hsettled : q.Settled replies c)

section

variable {q : Request} {replies others : List Reply} {c : Call} {k : Nat}

theorem settles_of_nothing
    (h : q.exchange replies =
      .inl ⟨(nextReply others).map fun _ => (), List.replicate (k + 1) c, others.tail, []⟩)
    (houtcome : ∀ r, q.outcome r = r.map fun _ => 0) : q.Settles replies c k others := by
  refine ⟨?_, ?_, ?_⟩
  · rw [calls, h]
    rfl
  · rw [result, h, houtcome]
    dsimp only
    cases nextReply others <;> rfl
  · rw [unused, h]
    rfl

theorem settles_of_value {log : List LogEvent}
    (h : q.exchange replies = .inr ⟨(nextReply replies).map q.value, [c], replies.tail, log⟩)
    (houtcome : ∀ r, q.outcome r = r.map q.value) : q.Settles replies c 0 replies := by
  refine ⟨?_, ?_, ?_⟩
  · rw [calls, h]
    rfl
  · rw [result, h, houtcome]
  · rw [unused, h]
    rfl

/-- An interrupted close reads as done. -/
theorem settles_close (fd : Int32) (replies : List Reply) :
    (close fd).Settles replies (.close fd) 0 replies := by
  have hexchange : (close fd).exchange replies = .inl (Socket.close fd replies) := rfl
  refine ⟨rfl, ?_, rfl⟩
  rw [result, hexchange, Socket.close, perform_eq]
  cases nextReply replies with
  | ok success => rfl
  | error e =>
    simp only [outcome, Except.map]
    by_cases he : e = .interrupted
    · rw [if_pos he, if_pos he]
    · rw [if_neg he, if_neg he]

/-- An operation that checks its arguments and then makes its call once. -/
theorem Checks.goes_once {arguments : Except Errno Call} (h : q.Checks arguments)
    (hexchange : q.exchange replies = .inl (checked arguments perform replies))
    (hrepeats : q.repeats = false) (houtcome : ∀ r, q.outcome r = r.map fun _ => 0) :
    q.Goes replies := by
  cases h with
  | refused h => exact .refused h hexchange
  | admitted h hcall =>
    refine .settled h hcall ⟨fun _ => settles_of_nothing hexchange houtcome, ?_⟩
    intro hagain
    rw [hrepeats] at hagain
    cases hagain

/-- An operation that checks its arguments and then repeats its call. -/
theorem Checks.goes_again {arguments : Except Errno Call} (h : q.Checks arguments)
    (hexchange : q.exchange replies = .inl (checked arguments retry replies))
    (hrepeats : q.repeats = true) (houtcome : ∀ r, q.outcome r = r.map fun _ => 0) :
    q.Goes replies := by
  cases h with
  | refused h => exact .refused h hexchange
  | @admitted c h hcall =>
    refine .settled h hcall ⟨?_, ?_⟩
    · intro honce
      rw [hrepeats] at honce
      cases honce
    · intro _ k others hi
      -- `others` begins with the first reply that does not interrupt, and that one decides
      refine settles_of_nothing ?_ houtcome
      rw [hexchange, ← retry_eq hi c]
      rfl

end

theorem goes (q : Request) (replies : List Reply) : q.Goes replies := by
  cases q with
  | create cloexec nonblock =>
    exact .settled rfl rfl ⟨fun _ => settles_of_value rfl fun _ => rfl, by rintro ⟨⟩⟩
  | bind fd ip port => exact Checks.goes_once (checks_address rfl rfl) rfl rfl fun _ => rfl
  | listen fd backlog => exact Checks.goes_once (checks_fd rfl rfl) rfl rfl fun _ => rfl
  | connect fd ip port => exact Checks.goes_again (checks_address rfl rfl) rfl rfl fun _ => rfl
  | shutdown fd read write =>
    exact Checks.goes_once (checks_shutdown fd read write) rfl rfl fun _ => rfl
  | close fd => exact .settled rfl rfl ⟨fun _ => settles_close fd replies, by rintro ⟨⟩⟩
  | getOption fd level name =>
    exact .settled rfl rfl ⟨fun _ => settles_of_value rfl fun _ => rfl, by rintro ⟨⟩⟩
  | setOption fd level name value =>
    exact .settled rfl rfl ⟨fun _ => settles_of_nothing rfl fun _ => rfl, by rintro ⟨⟩⟩

/-- Whatever the arguments and the replies: a request with a refusal fails with it and makes no
call.  Any other comes down to one call.  A connect makes that call once for every interruption that
the replies begin with and once more, and however many there are, the repetition ends; every other
operation makes it once.  The next reply decides the result, and those after it are left over. -/
theorem settled_by_call (q : Request) (replies : List Reply) :
    (∀ e, q.refusal? = some e →
      q.calls replies = [] ∧ q.result replies = .error e ∧ q.unused replies = replies) ∧
    (q.refusal? = none → ∃ c, q.call? = some c ∧
      (q.repeats = false → q.Settles replies c 0 replies) ∧
      (q.repeats = true → (∃ k others, Interrupted replies k others) ∧
        ∀ k others, Interrupted replies k others → q.Settles replies c k others)) := by
  cases q.goes replies with
  | refused h hexchange =>
    rw [h]
    refine ⟨?_, by rintro ⟨⟩⟩
    rintro e ⟨⟩
    rw [calls, result, unused, hexchange]
    exact ⟨rfl, rfl, rfl⟩
  | settled h hcall hsettled =>
    rw [h]
    refine ⟨by rintro e ⟨⟩, fun _ => ⟨_, hcall, hsettled.once, fun hagain => ?_⟩⟩
    exact ⟨exists_interrupted replies, hsettled.again hagain⟩

/-- A connect that is interrupted twice is refused the third time, with one reply left over; a close
takes the first interruption for success, and a shutdown of neither half makes no call. -/
theorem settled_by_call_interrupted :
    let replies : List Reply :=
      [.error .interrupted, .error .interrupted, .error ⟨111⟩, .ok {}]
    let call := Call.connect 3 (.make #v[127, 0, 0, 1] 80)
    (connect 3 [127, 0, 0, 1] 80).calls replies = [call, call, call] ∧
      (connect 3 [127, 0, 0, 1] 80).result replies = .error ⟨111⟩ ∧
      (connect 3 [127, 0, 0, 1] 80).unused replies = [.ok {}] ∧
      (close 3).result replies = .ok 0 ∧
      (shutdown (-1) false false).calls replies = [] ∧
      (shutdown (-1) false false).result replies = .error .invalid := by
  intro replies call
  have hreplies : Interrupted replies 2 [.error ⟨111⟩, .ok {}] := ⟨rfl, by rintro ⟨⟩⟩
  obtain ⟨c, hcall, -, hagain⟩ := (settled_by_call (connect 3 [127, 0, 0, 1] 80) replies).2 rfl
  obtain rfl : call = c := Option.some.inj hcall
  have hconnect := (hagain rfl).2 2 _ hreplies
  obtain ⟨_, -, honce, -⟩ := (settled_by_call (close 3) replies).2 rfl
  have hshutdown := (settled_by_call (shutdown (-1) false false) replies).1 _ rfl
  exact ⟨hconnect.calls, hconnect.result, hconnect.unused, (honce rfl).result, hshutdown.1,
    hshutdown.2.1⟩

end Request

end Uring.Socket
