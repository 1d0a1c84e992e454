import Uring.Socket

/-!
# Uring.Proofs.ResultWord — values and failures in one signed word

A word tells a failure from a value by its sign, so folding a result into a word loses nothing
exactly when error numbers are positive and values are not negative.  The kernel's error numbers
lie between 1 and 4095.  A socket operation fails with one of these, its own or the kernel's, and
its values are not negative, except that the value of an option is passed on as the kernel stored
it.
-/

namespace Uring

/-! ### Words -/

namespace Errno

/-- One of the kernel's error numbers. -/
structure Known (e : Errno) : Prop where
  pos : 1 ≤ e.code
  le : e.code ≤ 4095

instance (e : Errno) : Decidable e.Known :=
  decidable_of_iff (1 ≤ e.code ∧ e.code ≤ 4095) ⟨fun h => ⟨h.1, h.2⟩, fun h => ⟨h.1, h.2⟩⟩

variable {e : Errno}

theorem known_iff_toInt : e.Known ↔ 1 ≤ e.code.toInt ∧ e.code.toInt ≤ 4095 := by
  constructor
  · intro h
    exact ⟨Int32.le_iff_toInt_le.mp h.pos, Int32.le_iff_toInt_le.mp h.le⟩
  · rintro ⟨hpos, hle⟩
    exact ⟨Int32.le_iff_toInt_le.mpr hpos, Int32.le_iff_toInt_le.mpr hle⟩

/-- Only the least word has no negative, and it is far below all negated error numbers. -/
theorem toInt_neg_of_le {w : Int32} (h : -4095 ≤ w) : (-w).toInt = -w.toInt := by
  have hle : -4095 ≤ w.toInt := Int32.le_iff_toInt_le.mp h
  have hlt := w.toInt_lt
  rw [Int32.toInt_neg]
  exact Int.bmod_eq_of_le (by omega) (by omega)

theorem Known.toInt_negated (h : e.Known) : e.negated.toInt = -e.code.toInt :=
  toInt_neg_of_le (Int32.le_trans (by decide) h.pos)

theorem Known.negated_neg (h : e.Known) : e.negated < 0 := by
  obtain ⟨hpos, -⟩ := known_iff_toInt.mp h
  have hneg : e.negated.toInt < 0 := by
    rw [h.toInt_negated]
    omega
  exact Int32.lt_iff_toInt_lt.mpr hneg

theorem ofResult_of_nonneg {w : Int32} (h : 0 ≤ w) : ofResult w = .ok w := if_pos h

theorem ofResult_of_neg {w : Int32} (h : w < 0) : ofResult w = .error ⟨-w⟩ :=
  if_neg (Int32.not_le.mpr h)

/-- A known error number is read back. -/
theorem Known.ofResult_negated (h : e.Known) : ofResult e.negated = .error e := by
  rw [ofResult_of_neg h.negated_neg, negated, Int32.neg_neg]

/-- Folding a result whose error number, if it has one, is known loses nothing exactly when its
value, if it has one, is not negative. -/
theorem toResult_faithful_iff {x : Except Errno Int32} (h : ∀ e, x = .error e → e.Known) :
    ((toResult x < 0 ↔ ∃ e, x = .error e) ∧ ofResult (toResult x) = x) ↔
      ∀ v, x = .ok v → 0 ≤ v := by
  cases x with
  | error e =>
    have hsign := (h e rfl).negated_neg
    have hback := (h e rfl).ofResult_negated
    constructor
    · rintro - v ⟨⟩
    · intro _
      exact ⟨⟨fun _ => ⟨e, rfl⟩, fun _ => hsign⟩, hback⟩
  | ok v =>
    constructor
    · rintro ⟨hsign, -⟩ w ⟨⟩
      rw [← Int32.not_lt]
      intro hneg
      obtain ⟨e, he⟩ := hsign.mp hneg
      cases he
    · intro hval
      have hnonneg := hval v rfl
      refine ⟨⟨fun hneg => absurd hneg (Int32.not_lt.mpr hnonneg), ?_⟩, ofResult_of_nonneg hnonneg⟩
      rintro ⟨e, ⟨⟩⟩

end Errno

/-! ### Socket operations -/

namespace Socket

/-- A kernel returns known error numbers and no negative descriptor; it may store any value. -/
def Reply.InRange : Reply → Prop
  | .ok success => 0 ≤ success.ret
  | .error e => e.Known

instance : DecidablePred Reply.InRange
  | .ok success => inferInstanceAs (Decidable (0 ≤ success.ret))
  | .error e => inferInstanceAs (Decidable e.Known)

/-- What an exchange fails with, if it fails, is a known error number. -/
def Exchange.FailsKnown {α : Type} (x : Exchange α) : Prop := ∀ e, x.result = .error e → e.Known

section

variable {α β : Type} {replies : List Reply}

theorem Exchange.FailsKnown.map {x : Exchange α} (h : x.FailsKnown) (f : α → β) :
    (x.map f).FailsKnown := by
  intro e he
  cases hx : x.result with
  | error e' =>
    simp only [Exchange.map, hx, Except.map, Except.error.injEq] at he
    exact he ▸ h e' hx
  | ok v =>
    simp only [Exchange.map, hx, Except.map] at he
    cases he

/-- The reply that a call gets is in range, also when none is left. -/
theorem head_inRange (h : ∀ r ∈ replies, r.InRange) :
    Reply.InRange (replies.head?.getD (.ok {})) := by
  cases replies with
  | nil => exact Int32.le_refl 0
  | cons r rest => exact h r (.head _)

theorem call_failsKnown (h : ∀ r ∈ replies, r.InRange) (c : Call) :
    (call c replies).FailsKnown := by
  intro e he
  have hreply := head_inRange h
  have hhead : replies.head?.getD (.ok {}) = .error e := he
  rw [hhead] at hreply
  exact hreply

theorem perform_failsKnown (h : ∀ r ∈ replies, r.InRange) (c : Call) :
    (perform c replies).FailsKnown :=
  (call_failsKnown h c).map _

theorem retry_failsKnown (h : ∀ r ∈ replies, r.InRange) (c : Call) :
    (retry c replies).FailsKnown := by
  induction replies with
  | nil =>
    intro e he
    cases he
  | cons r rest ih =>
    have hrest := ih fun r hr => h r (.tail _ hr)
    cases r with
    | ok success =>
      intro e he
      cases he
    | error e =>
      unfold retry
      by_cases hint : e = .interrupted
      · rw [if_pos hint]
        exact hrest
      · rw [if_neg hint]
        rintro e' ⟨⟩
        exact h (.error e) (.head _)

/-- Arguments are refused with a known error number. -/
theorem checked_failsKnown {arguments : Except Errno Call}
    {make : Call → List Reply → Exchange Unit}
    (harguments : ∀ e, arguments = .error e → e.Known)
    (hmake : ∀ c, (make c replies).FailsKnown) : (checked arguments make replies).FailsKnown := by
  cases arguments with
  | error e =>
    rintro e' ⟨⟩
    exact harguments e rfl
  | ok c => exact hmake c

theorem checkFd_error {fd : Int32} {e : Errno} (h : checkFd fd = .error e) : e.Known := by
  unfold checkFd at h
  split at h
  · cases h
    decide
  · cases h

theorem address_error {ip : List UInt8} {port : UInt16} {e : Errno}
    (h : address ip port = .error e) : e.Known := by
  unfold address at h
  split at h
  · cases h
  · cases h
    decide

/-- Of two checks in a row, the first or the second fails. -/
theorem bind_error {x : Except Errno α} {f : α → Except Errno β} {e : Errno}
    (h : x >>= f = .error e) : x = .error e ∨ ∃ v, f v = .error e := by
  cases x with
  | error e' =>
    cases h
    exact .inl rfl
  | ok v => exact .inr ⟨v, h⟩

theorem fd_error {fd : Int32} {c : Call} {e : Errno}
    (h : (do checkFd fd; return c) = .error e) : e.Known := by
  rcases bind_error h with hfd | ⟨_, ⟨⟩⟩
  exact checkFd_error hfd

theorem addressed_error {ip : List UInt8} {port : UInt16} {fd : Int32}
    {make : Inet.SockAddr → Call} {e : Errno}
    (h : (do let addr ← address ip port; checkFd fd; return make addr) = .error e) : e.Known := by
  rcases bind_error h with haddr | ⟨_, hfd⟩
  · exact address_error haddr
  · exact fd_error hfd

theorem bind_failsKnown (h : ∀ r ∈ replies, r.InRange) (fd : Int32) (ip : List UInt8)
    (port : UInt16) : (bind fd ip port replies).FailsKnown :=
  checked_failsKnown (fun _ he => addressed_error he) (perform_failsKnown h)

theorem listen_failsKnown (h : ∀ r ∈ replies, r.InRange) (fd backlog : Int32) :
    (listen fd backlog replies).FailsKnown :=
  checked_failsKnown (fun _ he => fd_error he) (perform_failsKnown h)

theorem connect_failsKnown (h : ∀ r ∈ replies, r.InRange) (fd : Int32) (ip : List UInt8)
    (port : UInt16) : (connect fd ip port replies).FailsKnown :=
  checked_failsKnown (fun _ he => addressed_error he) (retry_failsKnown h)

theorem shutdown_failsKnown (h : ∀ r ∈ replies, r.InRange) (fd : Int32) (read write : Bool) :
    (shutdown fd read write replies).FailsKnown := by
  unfold shutdown
  refine checked_failsKnown ?_ (perform_failsKnown h)
  intro e he
  cases hhalves : Halves.ofSides? read write with
  | none =>
    rw [hhalves] at he
    cases he
    decide
  | some how =>
    rw [hhalves] at he
    exact fd_error he

theorem close_failsKnown (h : ∀ r ∈ replies, r.InRange) (fd : Int32) :
    (close fd replies).FailsKnown := by
  intro e he
  have hcall := perform_failsKnown h (.close fd)
  unfold close at he
  cases hresult : (perform (.close fd) replies).result with
  | ok _ =>
    simp only [hresult] at he
    cases he
  | error e' =>
    have hknown := hcall e' hresult
    simp only [hresult] at he
    split at he
    · cases he
    · cases he
      exact hknown

end

namespace Request

variable {replies : List Reply}

/-- An option is read for which the kernel stores a negative value. -/
def readsNegative : Request → List Reply → Bool
  | getOption .., .ok ⟨_, some v⟩ :: _ => v < 0
  | _, _ => false

/-- Every operation fails with a known error number. -/
theorem error_known (h : ∀ r ∈ replies, r.InRange) (q : Request) {e : Errno}
    (he : q.result replies = .error e) : e.Known := by
  cases q with
  | create cloexec nonblock => exact (call_failsKnown h _).map _ e he
  | bind fd ip port => exact (bind_failsKnown h fd ip port).map _ e he
  | listen fd backlog => exact (listen_failsKnown h fd backlog).map _ e he
  | connect fd ip port => exact (connect_failsKnown h fd ip port).map _ e he
  | shutdown fd read write => exact (shutdown_failsKnown h fd read write).map _ e he
  | close fd => exact (close_failsKnown h fd).map _ e he
  | getOption fd level name => exact (call_failsKnown h _).map _ e he
  | setOption fd level name value => exact (perform_failsKnown h _).map _ e he

/-- What returns nothing reads as zero. -/
theorem nonneg_of_nothing {x : Except Errno Unit} {v : Int32}
    (hv : x.map (fun _ => (0 : Int32)) = .ok v) : ¬ v < 0 := by
  cases x with
  | error e => cases hv
  | ok _ =>
    obtain rfl : 0 = v := Except.ok.inj hv
    decide

theorem create_nonneg (h : ∀ r ∈ replies, r.InRange) {cloexec nonblock : Bool} {v : Int32}
    (hv : (create cloexec nonblock).result replies = .ok v) : ¬ v < 0 := by
  have hreply := head_inRange h
  have hmap : (replies.head?.getD (.ok {})).map Success.ret = .ok v := hv
  cases hhead : replies.head?.getD (.ok {}) with
  | error e =>
    rw [hhead] at hmap
    cases hmap
  | ok success =>
    rw [hhead] at hmap hreply
    obtain rfl : success.ret = v := Except.ok.inj hmap
    exact Int32.not_lt.mpr hreply

/-- A negative value comes from nowhere but an option. -/
theorem negative_iff (h : ∀ r ∈ replies, r.InRange) (q : Request) :
    (∃ v, q.result replies = .ok v ∧ v < 0) ↔ q.readsNegative replies = true := by
  have hnone (hq : ∀ v, q.result replies = .ok v → ¬ v < 0) (hr : q.readsNegative replies = false) :
      (∃ v, q.result replies = .ok v ∧ v < 0) ↔ q.readsNegative replies = true := by
    rw [hr]
    refine ⟨?_, fun hreads => by cases hreads⟩
    rintro ⟨v, hv, hneg⟩
    exact absurd hneg (hq v hv)
  cases q with
  | create cloexec nonblock => exact hnone (fun _ hv => create_nonneg h hv) rfl
  | getOption fd level name =>
    have hzero (v : Int32) (hv : (.ok 0 : Except Errno Int32) = .ok v) : ¬ v < 0 := by
      obtain rfl := Except.ok.inj hv
      decide
    cases replies with
    | nil => exact hnone hzero rfl
    | cons r rest =>
      rcases r with e | ⟨ret, _ | value⟩
      · exact hnone (fun _ hv => by cases hv) rfl
      · exact hnone hzero rfl
      · constructor
        · rintro ⟨v, ⟨⟩, hneg⟩
          exact decide_eq_true hneg
        · intro hneg
          exact ⟨value, rfl, of_decide_eq_true hneg⟩
  | bind fd ip port => exact hnone (fun _ hv => nonneg_of_nothing hv) rfl
  | listen fd backlog => exact hnone (fun _ hv => nonneg_of_nothing hv) rfl
  | connect fd ip port => exact hnone (fun _ hv => nonneg_of_nothing hv) rfl
  | shutdown fd read write => exact hnone (fun _ hv => nonneg_of_nothing hv) rfl
  | close fd => exact hnone (fun _ hv => nonneg_of_nothing hv) rfl
  | setOption fd level name value => exact hnone (fun _ hv => nonneg_of_nothing hv) rfl

theorem word_eq (q : Request) (replies : List Reply) :
    q.word replies = Errno.toResult (q.result replies) := by
  unfold word result
  cases q.exchange replies with
  | inl x => exact Errno.toUnitResult_eq x.result
  | inr x => rfl

/-- Whatever the arguments and the kernel's replies: the word of an operation's result is negative
for failures alone, and reads back as the result, exactly unless the operation reads an option for
which the kernel stores a negative value. -/
theorem word_faithful_iff (q : Request) {replies : List Reply} (h : ∀ r ∈ replies, r.InRange) :
    ((q.word replies < 0 ↔ ∃ e, q.result replies = .error e) ∧
      Errno.ofResult (q.word replies) = q.result replies) ↔ q.readsNegative replies = false := by
  have hfaithful := Errno.toResult_faithful_iff fun e => error_known h q (e := e)
  have hnonneg : (∀ v, q.result replies = .ok v → 0 ≤ v) ↔
      ¬ ∃ v, q.result replies = .ok v ∧ v < 0 := by
    simp [Int32.not_lt]
  rw [word_eq, hfaithful, hnonneg, negative_iff h q, Bool.not_eq_true]

/-- A connect that is interrupted and then refused keeps its failure, and an option keeps its
value. -/
theorem word_faithful_refused :
    let refused : List Reply := [.error .interrupted, .error ⟨111⟩]
    let stored : List Reply := [.ok { value := some 1 }]
    (connect 3 [127, 0, 0, 1] 80).word refused < 0 ∧
      Errno.ofResult ((connect 3 [127, 0, 0, 1] 80).word refused) = .error ⟨111⟩ ∧
      Errno.ofResult ((getOption 3 1 3).word stored) = .ok 1 := by
  intro refused stored
  have hrefused : ∀ r ∈ refused, r.InRange := by decide
  have hstored : ∀ r ∈ stored, r.InRange := by decide
  obtain ⟨hsign, hback⟩ := (word_faithful_iff (connect 3 [127, 0, 0, 1] 80) hrefused).mpr rfl
  obtain ⟨-, hvalue⟩ := (word_faithful_iff (getOption 3 1 3) hstored).mpr rfl
  exact ⟨hsign.mpr ⟨_, rfl⟩, hback, hvalue⟩

/-- An option whose value is minus one reads back as the failure numbered one. -/
theorem word_of_negative_option :
    let replies : List Reply := [.ok { value := some (-1) }]
    (∀ r ∈ replies, r.InRange) ∧ (getOption 3 1 42).result replies = .ok (-1) ∧
      (getOption 3 1 42).word replies < 0 ∧
      Errno.ofResult ((getOption 3 1 42).word replies) = .error ⟨1⟩ :=
  ⟨by decide, rfl, by decide, rfl⟩

end Request

end Socket

end Uring
