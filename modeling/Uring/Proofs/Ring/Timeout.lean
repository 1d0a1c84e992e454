import Mathlib.Algebra.Group.Int.Defs
import Mathlib.Algebra.Group.Nat.Defs
import Uring.Proofs.Operation.Validity
import Uring.Proofs.Ring.LastWrite

/-!
# Uring.Proofs.Ring.Timeout — a timeout lasts as long as was asked for

A span of time counts its seconds without a sign, and a timespec with one.  Seconds from `2^63` on
wrap to negative ones, and a timespec with negative seconds is refused before anything is encoded.
So a conversion is either exact or never gets into a ring.
-/

namespace Uring

/-! ### Lengths of time -/

def Duration.nanoseconds (d : Duration) : Nat := d.secs.toNat * nanosPerSec + d.nanos.toNat

def Timespec.nanoseconds (t : Timespec) : Int := t.sec.toInt * nanosPerSec + t.nsec.toInt

/-- Different spans of time have different lengths. -/
theorem Duration.nanoseconds_inj {d d' : Duration} (h : d.nanoseconds = d'.nanoseconds) :
    d = d' := by
  obtain ⟨secs, nanos, hlt⟩ := d
  obtain ⟨secs', nanos', hlt'⟩ := d'
  unfold nanosPerSec at hlt hlt'
  unfold nanoseconds nanosPerSec at h
  dsimp only at h
  obtain rfl : secs = secs' := UInt64.toNat_inj.mp (by omega)
  obtain rfl : nanos = nanos' := UInt32.toNat_inj.mp (by omega)
  rfl

/-- A word read with a sign: its upper half is negative. -/
theorem toInt_toInt64 (w : UInt64) :
    w.toInt64.toInt = if w.toNat < 2 ^ 63 then (w.toNat : Int) else w.toNat - 2 ^ 64 := by
  have hw := w.toNat_lt
  rw [Int64.toInt, UInt64.toBitVec_toInt64, BitVec.toInt_eq_toNat_cond, UInt64.toNat_toBitVec]
  split <;> split <;> omega

namespace Timespec

variable (d : Duration)

theorem toInt_nsec_ofDuration : (ofDuration d).nsec.toInt = d.nanos.toNat := by
  have hlt := d.nanos_lt
  unfold nanosPerSec at hlt
  exact Int64.toInt_ofNat_of_lt (by omega)

theorem valid_ofDuration_iff : (ofDuration d).valid = true ↔ d.secs.toNat < 2 ^ 63 := by
  have hsec : (ofDuration d).sec.toInt = _ := toInt_toInt64 d.secs
  have hnsec := toInt_nsec_ofDuration d
  have hsecs := d.secs.toNat_lt
  have hlt := d.nanos_lt
  unfold nanosPerSec at hlt
  rw [valid_iff]
  constructor
  · intro h
    have hnonneg := h.sec
    by_contra hge
    -- seconds beyond the range wrap round to a negative number
    rw [hsec, if_neg hge] at hnonneg
    omega
  · intro h
    rw [if_pos h] at hsec
    exact ⟨by omega, by omega, by omega⟩

/-- A timespec stands for a span of time of its length. -/
def Denotes (t : Timespec) (d : Duration) : Prop := t.nanoseconds = d.nanoseconds

/-- A valid conversion is exact. -/
theorem denotes_ofDuration_iff {d d' : Duration} (h : (ofDuration d).valid = true) :
    (ofDuration d).Denotes d' ↔ d' = d := by
  have hsec : (ofDuration d).sec.toInt = _ := toInt_toInt64 d.secs
  rw [if_pos ((valid_ofDuration_iff d).mp h)] at hsec
  have hexact : (ofDuration d).nanoseconds = d.nanoseconds := by
    unfold nanoseconds Duration.nanoseconds
    rw [hsec, toInt_nsec_ofDuration]
    push_cast
    rfl
  unfold Denotes
  rw [hexact, Int.natCast_inj]
  exact ⟨fun heq => (Duration.nanoseconds_inj heq).symm, fun heq => heq ▸ rfl⟩

end Timespec

/-! ### Encoding -/

namespace Operation

variable {op : Operation} {time : Located Timespec}

theorem time?_eq_some_iff :
    op.time? = some time ↔ ∃ count flags, op = timeout time count flags := by
  cases op <;> simp [time?]

/-- No other part of an operation with a time is looked at. -/
theorem validate_of_time (h : op.time? = some time) :
    op.validate = if time.value.valid then .ok () else .error .timespecOutOfRange := by
  obtain ⟨count, flags, rfl⟩ := time?_eq_some_iff.mp h
  rfl

/-- An entry refers to the time by its address. -/
theorem encode_of_time (h : op.time? = some time) (e : Submission.Entry) :
    (op.encode e).opcode = Abi.opTimeout ∧ (op.encode e).addr = time.address := by
  obtain ⟨count, flags, rfl⟩ := time?_eq_some_iff.mp h
  exact ⟨rfl, rfl⟩

end Operation

namespace Slot

variable {slot : Slot} {s : Machine} {op : Operation}

theorem wellFormed_of_check (h : slot.check s (.encode op) = .ok ()) : op.WellFormed := by
  have hcheck : slot.checkOperation op s = .ok () := h
  unfold checkOperation at hcheck
  rw [← op.validate_eq_ok_iff]
  cases hvalid : op.validate with
  | ok _ => rfl
  | error why =>
    rw [hvalid] at hcheck
    cases hcheck

theorem check_of_encode (h : (slot.encode op s).1 = .ok ()) :
    slot.check s (.encode op) = .ok () := by
  have hact : slot.encode op s = slot.act s (.encode op) := rfl
  rw [hact, act_eq] at h
  cases hcheck : slot.check s (.encode op) with
  | ok _ => rfl
  | error e =>
    rw [hcheck] at h
    cases h

/-- What is encoded stands in the slot's entry. -/
theorem get_encode (h : (slot.encode op s).1 = .ok ()) :
    (slot.encode op s).2.2.kernel.sq.sqes.get slot.index =
      op.encode (s.kernel.sq.sqes.get slot.index).clearOperation := by
  have hact : slot.encode op s = slot.act s (.encode op) := rfl
  rw [hact, act_eq, check_of_encode h]
  show (slot.perform s (.encode op)).kernel.sq.sqes.get slot.index = _
  rw [perform_kernel]
  exact Cells.get_set_self _ _ _

end Slot

/-! ### Runs -/

namespace Session

/-- Every operation encoded so far is well formed. -/
structure Accepted (s : Session) : Prop where
  commits : ∀ c ∈ s.commits, ∀ op, .encode op ∈ c.done → op.WellFormed
  slot : ∀ d, s.draft = some d → ∀ op, .encode op ∈ d.done → op.WellFormed

namespace Accepted

variable {s : Session}

theorem committed (h : s.Accepted) {c : Commit} (hc : c ∈ s.committed) {op : Operation}
    (hop : .encode op ∈ c.done) : op.WellFormed := by
  rcases mem_committed.mp hc with hold | ⟨d, hd, -, rfl⟩
  · exact h.commits c hold op hop
  · exact h.slot d hd op hop

theorem letGo (h : s.Accepted) : s.letGo.Accepted :=
  ⟨fun _ hc _ hop => h.committed hc hop, by rintro d ⟨⟩⟩

theorem claim (h : s.Accepted) : s.claim.Accepted := by
  rcases s.claim_cases with hclaim | ⟨_, index, -, -, hclaim⟩
  · rw [hclaim]
    exact h.letGo
  · rw [hclaim]
    refine ⟨h.letGo.commits, ?_⟩
    rintro d ⟨⟩ op ⟨⟩

theorem act (h : s.Accepted) (a : Slot.Act) : (s.act a).Accepted := by
  rcases s.act_cases a with hact | ⟨d, hd, hcheck, hact⟩
  · rw [hact]
    exact h
  · rw [hact]
    refine ⟨h.commits, ?_⟩
    rintro d' ⟨⟩ op hop
    rcases List.mem_append.mp hop with hold | hnew
    · exact h.slot d hd op hold
    · obtain rfl := List.mem_singleton.mp hnew
      exact Slot.wellFormed_of_check hcheck

theorem step (h : s.Accepted) (a : Move) : (s.step a).Accepted := by
  cases a with
  | claim => exact h.claim
  | act a => exact h.act a
  | drop => exact h.letGo
  | call a ha => exact ⟨h.letGo.commits, by rintro d ⟨⟩⟩
  | kernel event => exact ⟨h.commits, h.slot⟩

theorem run (h : s.Accepted) (moves : List Move) : (s.run moves).Accepted :=
  run_induction (fun _ a h => h.step a) h moves

theorem start (ring : Ring) (k : Kernel) : (Session.start ring k).Accepted :=
  ⟨by rintro c ⟨⟩, by rintro d ⟨⟩⟩

end Accepted

/-- An entry of a run that was last encoded with a time refers to that time, and the time is
valid. -/
theorem committed_time (ring : Ring) (k : Kernel) (moves : List Move) {c : Commit}
    (hc : c ∈ ((start ring k).run moves).committed) {op : Operation}
    (hop : (c.done.filterMap Slot.Act.op?).getLast? = some op) {time : Located Timespec}
    (htime : op.time? = some time) :
    c.entry.opcode = Abi.opTimeout ∧ c.entry.addr = time.address ∧ time.value.valid = true := by
  have hentry := ((Written.start ring k).run moves).entry_eq hc
  obtain ⟨a, ha, hencode⟩ := List.mem_filterMap.mp (List.mem_of_getLast? hop)
  obtain rfl : a = .encode op := by
    cases a <;> cases hencode
    rfl
  have hvalid := ((Accepted.start ring k).run moves).committed hc ha |>.time time htime
  obtain ⟨hopcode, haddr⟩ := Operation.encode_of_time htime {}
  rw [hentry]
  unfold Slot.Act.lastWrites
  rw [hop]
  exact ⟨hopcode, haddr, time.value.valid_iff.mpr hvalid⟩

end Session

/-- A timespec made from a span of time is valid exactly if the seconds are below `2^63`, and then
it stands for that span and no other.  Otherwise every operation with that time is malformed, and
encoding it into a slot changes nothing at all.  So whatever entry is encoded with that time, in a
slot at any moment or in the batch after any run, refers to a timespec that stands for the span. -/
theorem Duration.exact_or_refused (d : Duration) (address : UInt64) :
    let time : Located Timespec := ⟨address, .ofDuration d⟩
    (time.value.valid = true ↔ d.secs.toNat < 2 ^ 63) ∧
    (time.value.valid = true → ∀ d', time.value.Denotes d' ↔ d' = d) ∧
    (∀ op : Operation, op.time? = some time →
      (op.validate = .ok () ↔ time.value.valid = true) ∧
      (time.value.valid = false → op.validate = .error .timespecOutOfRange ∧
        ∀ (slot : Slot) (s : Machine),
          slot.encode op s = (.error (.invalidParams .timespecOutOfRange), slot, s)) ∧
      ∀ (slot : Slot) (s : Machine), (slot.encode op s).1 = .ok () →
        let e := (slot.encode op s).2.2.kernel.sq.sqes.get slot.index
        e.opcode = Abi.opTimeout ∧ e.addr = address ∧ time.value.Denotes d) ∧
    ∀ (ring : Ring) (k : Kernel) (moves : List Move) (c : Commit) (op : Operation),
      c ∈ ((Session.start ring k).run moves).committed →
      (c.done.filterMap Slot.Act.op?).getLast? = some op → op.time? = some time →
      c.entry.opcode = Abi.opTimeout ∧ c.entry.addr = address ∧ time.value.Denotes d := by
  intro time
  have hexact (h : time.value.valid = true) : time.value.Denotes d :=
    (Timespec.denotes_ofDuration_iff h).mpr rfl
  refine ⟨Timespec.valid_ofDuration_iff d, fun h d' => Timespec.denotes_ofDuration_iff h, ?_, ?_⟩
  · intro op hop
    have hvalidate := Operation.validate_of_time hop
    have hiff : op.validate = .ok () ↔ time.value.valid = true := by
      rw [hvalidate]
      cases time.value.valid <;> simp
    refine ⟨hiff, ?_, ?_⟩
    · intro hinvalid
      rw [hinvalid, if_neg Bool.false_ne_true] at hvalidate
      exact ⟨hvalidate, op.encode_of_error hvalidate⟩
    · intro slot s hok e
      have hwell : op.WellFormed := Slot.wellFormed_of_check (Slot.check_of_encode hok)
      obtain ⟨hopcode, haddr⟩ := Operation.encode_of_time hop _
      have he : e = _ := Slot.get_encode hok
      rw [he]
      exact ⟨hopcode, haddr, hexact (hiff.mp (op.validate_eq_ok_iff.mpr hwell))⟩
  · intro ring k moves c op hc hop htime
    obtain ⟨hopcode, haddr, hvalid⟩ := Session.committed_time ring k moves hc hop htime
    exact ⟨hopcode, haddr, hexact hvalid⟩

/-- The longest span that a timespec can stand for is encoded, and one second more is refused, as a
point of the clock too. -/
theorem Duration.exact_or_refused_boundary :
    let longest : Duration := ⟨0x7fffffffffffffff, 999999999, by decide⟩
    let longer : Duration := ⟨0x8000000000000000, 0, by decide⟩
    (Timespec.ofDuration longest).valid = true ∧ (Timespec.ofDuration longest).Denotes longest ∧
      (Operation.relativeTimeout ⟨64, .ofDuration longest⟩).validate = .ok () ∧
      (Timespec.ofDuration longer).valid = false ∧
      (Operation.absoluteTimeout ⟨64, .ofDuration longer⟩).validate =
        .error .timespecOutOfRange := by
  intro longest longer
  obtain ⟨hvalid, hdenotes, hlongest, -⟩ := longest.exact_or_refused 64
  obtain ⟨-, -, hlonger, -⟩ := longer.exact_or_refused 64
  have hok := hvalid.mpr (by decide)
  refine ⟨hok, (hdenotes hok longest).mpr rfl, (hlongest _ rfl).1.mpr hok, by decide, ?_⟩
  exact ((hlonger _ rfl).2.1 (by decide)).1

end Uring
