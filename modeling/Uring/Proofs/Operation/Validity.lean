import Uring.Ring.Slot

/-!
# Uring.Proofs.Operation.Validity — which operations are accepted

`WellFormed` says what an operation has to satisfy, and `faulty` what each reason for refusing one
says of it.  An operation is accepted exactly when it is well formed.  Otherwise the first reason
that applies is reported, in the fixed order `InvalidReason.inOrder`.
-/

namespace Uring

/-- The reasons in the order in which they are looked for. -/
def InvalidReason.inOrder : List InvalidReason :=
  [negativeDescriptor, bufferTooLong, connectAddressTooShort, connectAddressTooLong,
    emptyAcceptBuffer, acceptLengthTooLong, timespecOutOfRange]

/-- A point of time with no negative part and less than a second of nanoseconds. -/
structure Timespec.InRange (t : Timespec) : Prop where
  sec : 0 ≤ t.sec.toInt
  nsec : 0 ≤ t.nsec.toInt
  nsec_lt : t.nsec.toInt < 1000000000

theorem Timespec.valid_iff (t : Timespec) : t.valid = true ↔ t.InRange := by
  have hlimit : (1000000000 : Int64).toInt = 1000000000 := by decide
  unfold valid
  rw [Bool.and_eq_true, Bool.and_eq_true, decide_eq_true_iff, decide_eq_true_iff,
    decide_eq_true_iff, Int64.le_iff_toInt_le, Int64.le_iff_toInt_le, Int64.lt_iff_toInt_lt,
    hlimit, Int64.toInt_zero]
  exact ⟨fun ⟨⟨hsec, hnsec⟩, hlt⟩ => ⟨hsec, hnsec, hlt⟩, fun h => ⟨⟨h.sec, h.nsec⟩, h.nsec_lt⟩⟩

instance (t : Timespec) : Decidable t.InRange := decidable_of_iff _ t.valid_iff

namespace Operation

structure WellFormed (op : Operation) : Prop where
  descriptor : ∀ fd, op.fd? = some fd → 0 ≤ fd.toInt
  length : ∀ buf, op.transfer? = some buf → buf.length ≤ 0xffffffff
  address : ∀ addr, op.address? = some addr → 2 ≤ addr.length ∧ addr.length ≤ 128
  peer : ∀ p, op.peer? = some p → 0 < p.buffer.length ∧ p.length.value.toNat ≤ p.buffer.length
  time : ∀ t, op.time? = some t → t.value.InRange

/-- Whether a reason for refusing an operation applies to it. -/
def faulty (op : Operation) : InvalidReason → Bool
  | .negativeDescriptor => op.fd?.any fun fd => fd.toInt < 0
  | .bufferTooLong => op.transfer?.any fun buf => 0xffffffff < buf.length
  | .connectAddressTooShort => op.address?.any fun addr => addr.length < 2
  | .connectAddressTooLong => op.address?.any fun addr => 128 < addr.length
  | .emptyAcceptBuffer => op.peer?.any fun p => p.buffer.length = 0
  | .acceptLengthTooLong => op.peer?.any fun p => p.buffer.length < p.length.value.toNat
  | .timespecOutOfRange => op.time?.any fun t => ¬ t.value.InRange
  | .other _ => false

/-! ### One check for each part

Whatever the operation, the same five checks are made in the same order, each on the part that it is
about, and a part that an operation does not have passes. -/

def checkTime (time : Located Timespec) : Except InvalidReason Unit :=
  if time.value.valid then .ok () else .error .timespecOutOfRange

def checkPart {α : Type} (check : α → Except InvalidReason Unit) (part : Option α) :
    Except InvalidReason Unit :=
  part.elim (.ok ()) check

theorem validate_eq_checks (op : Operation) :
    op.validate = (do
      checkPart checkFd op.fd?
      checkPart checkLength op.transfer?
      checkPart checkAddress op.address?
      checkPart checkPeer op.peer?
      checkPart checkTime op.time?) := by
  have hfirst (c : Except InvalidReason Unit) : (do .ok (); c) = c := rfl
  have hlast (c : Except InvalidReason Unit) : (do c; .ok ()) = c := by cases c <;> rfl
  cases op with
  | accept fd flags peer multishot =>
    cases peer <;> simp only [validate, checkPart, fd?, transfer?, address?, peer?, time?,
      Option.elim, hfirst, hlast]
  | _ =>
    simp only [validate, checkPart, checkTime, fd?, transfer?, address?, peer?, time?, Option.elim,
      hfirst, hlast]

/-! ### The reason that is reported -/

/-- Refuses for the first reason that applies. -/
def report (p : InvalidReason → Bool) (reasons : List InvalidReason) : Except InvalidReason Unit :=
  (reasons.find? p).elim (.ok ()) .error

theorem report_cons (p : InvalidReason → Bool) (why : InvalidReason) (rest : List InvalidReason) :
    report p (why :: rest) = if p why then .error why else report p rest := by
  unfold report
  rw [List.find?_cons]
  cases p why <;> rfl

theorem report_append (p : InvalidReason → Bool) (first rest : List InvalidReason) :
    report p (first ++ rest) = (do report p first; report p rest) := by
  induction first with
  | nil => rfl
  | cons why first ih =>
    rw [List.cons_append, report_cons, report_cons, ih]
    cases p why <;> rfl

theorem report_eq_ok_iff {p : InvalidReason → Bool} {reasons : List InvalidReason} :
    report p reasons = .ok () ↔ ∀ why ∈ reasons, p why = false := by
  unfold report
  cases hfind : reasons.find? p with
  | none => simpa using List.find?_eq_none.mp hfind
  | some why =>
    have hmem := List.mem_of_find?_eq_some hfind
    have happlies := List.find?_some hfind
    simp only [Option.elim, reduceCtorEq, false_iff]
    intro hnone
    rw [hnone why hmem] at happlies
    cases happlies

theorem report_eq_error_iff {p : InvalidReason → Bool} {reasons : List InvalidReason}
    {why : InvalidReason} :
    report p reasons = .error why ↔
      ∃ earlier later, reasons = earlier ++ why :: later ∧ p why = true ∧
        ∀ other ∈ earlier, p other = false := by
  have hfind : report p reasons = .error why ↔ reasons.find? p = some why := by
    unfold report
    cases reasons.find? p <;> simp
  rw [hfind, List.find?_eq_some_iff_append]
  simp only [Bool.not_eq_true']
  constructor
  · rintro ⟨happlies, earlier, later, hreasons, hnone⟩
    exact ⟨earlier, later, hreasons, happlies, hnone⟩
  · rintro ⟨earlier, later, hreasons, happlies, hnone⟩
    exact ⟨happlies, earlier, later, hreasons, hnone⟩

section

variable (op : Operation)

theorem checkFd_part : checkPart checkFd op.fd? = report op.faulty [.negativeDescriptor] := by
  rw [report_cons]
  unfold faulty
  cases op.fd? with
  | none => rfl
  | some fd =>
    simp only [checkPart, Option.elim, checkFd, Option.any_some, Int32.lt_iff_toInt_lt,
      Int32.toInt_zero, decide_eq_true_eq]
    rfl

theorem checkLength_part :
    checkPart checkLength op.transfer? = report op.faulty [.bufferTooLong] := by
  rw [report_cons]
  unfold faulty
  cases op.transfer? with
  | none => rfl
  | some buf =>
    have hfits : buf.length < UInt32.size ↔ ¬ 0xffffffff < buf.length := by
      have hsize : UInt32.size = 2 ^ 32 := rfl
      omega
    simp only [checkPart, Option.elim, checkLength, Option.any_some, hfits, ite_not,
      decide_eq_true_eq]
    rfl

theorem checkAddress_part :
    checkPart checkAddress op.address? =
      report op.faulty [.connectAddressTooShort, .connectAddressTooLong] := by
  rw [report_cons, report_cons]
  unfold faulty
  cases op.address? with
  | none => rfl
  | some addr =>
    simp only [checkPart, Option.elim, checkAddress, Option.any_some, decide_eq_true_eq]
    rfl

theorem checkPeer_part :
    checkPart checkPeer op.peer? = report op.faulty [.emptyAcceptBuffer, .acceptLengthTooLong] := by
  rw [report_cons, report_cons]
  unfold faulty
  cases op.peer? with
  | none => rfl
  | some p =>
    simp only [checkPart, Option.elim, checkPeer, Option.any_some, decide_eq_true_eq]
    rfl

theorem checkTime_part :
    checkPart checkTime op.time? = report op.faulty [.timespecOutOfRange] := by
  rw [report_cons]
  unfold faulty
  cases op.time? with
  | none => rfl
  | some time =>
    simp only [checkPart, Option.elim, checkTime, Option.any_some, decide_eq_true_eq,
      Timespec.valid_iff, ite_not]
    rfl

/-- An operation is refused for the first reason that applies. -/
theorem validate_eq_report : op.validate = report op.faulty InvalidReason.inOrder := by
  have horder : InvalidReason.inOrder =
      [.negativeDescriptor] ++ ([.bufferTooLong] ++
        ([.connectAddressTooShort, .connectAddressTooLong] ++
          ([.emptyAcceptBuffer, .acceptLengthTooLong] ++ [.timespecOutOfRange]))) := rfl
  rw [validate_eq_checks, horder, report_append, report_append, report_append, report_append,
    checkFd_part, checkLength_part, checkAddress_part, checkPeer_part, checkTime_part]

theorem wellFormed_iff : op.WellFormed ↔ ∀ why ∈ InvalidReason.inOrder, op.faulty why = false := by
  simp only [InvalidReason.inOrder, List.forall_mem_cons, List.not_mem_nil, false_implies,
    implies_true, and_true, faulty, Option.any_eq_false, decide_eq_false_iff_not, Decidable.not_not]
  constructor
  · intro h
    refine ⟨?_, ?_, ?_, ?_, ?_, ?_, h.time⟩
    · intro fd hfd
      exact Int.not_lt.mpr (h.descriptor fd hfd)
    · intro buf hbuf
      exact Nat.not_lt.mpr (h.length buf hbuf)
    · intro addr haddr
      exact Nat.not_lt.mpr (h.address addr haddr).1
    · intro addr haddr
      exact Nat.not_lt.mpr (h.address addr haddr).2
    · intro p hp
      exact Nat.ne_of_gt (h.peer p hp).1
    · intro p hp
      exact Nat.not_lt.mpr (h.peer p hp).2
  · rintro ⟨hfd, hlength, hshort, hlong, hempty, hpeer, htime⟩
    refine ⟨?_, ?_, ?_, ?_, htime⟩
    · intro fd h
      exact Int.not_lt.mp (hfd fd h)
    · intro buf h
      exact Nat.not_lt.mp (hlength buf h)
    · intro addr h
      exact ⟨Nat.not_lt.mp (hshort addr h), Nat.not_lt.mp (hlong addr h)⟩
    · intro p h
      exact ⟨Nat.pos_of_ne_zero (hempty p h), Nat.not_lt.mp (hpeer p h)⟩

theorem validate_eq_ok_iff : op.validate = .ok () ↔ op.WellFormed := by
  rw [validate_eq_report, report_eq_ok_iff, wellFormed_iff]

/-- A slot hands the reason on and does nothing. -/
theorem encode_of_error {why : InvalidReason} (h : op.validate = .error why) (slot : Slot)
    (s : Machine) : slot.encode op s = (.error (.invalidParams why), slot, s) := by
  unfold Slot.encode Slot.checkOperation
  rw [h]

/-- An operation is accepted exactly when it is well formed, and otherwise refused for the first
reason that applies, in the order of reporting.  A slot hands that reason on and does nothing, so
whatever a slot encodes is well formed. -/
theorem accepted_iff_wellFormed :
    (op.validate = .ok () ↔ op.WellFormed) ∧
      (∀ why, op.validate = .error why ↔
        ∃ earlier later, InvalidReason.inOrder = earlier ++ why :: later ∧
          op.faulty why = true ∧ ∀ other ∈ earlier, op.faulty other = false) ∧
      ∀ (slot : Slot) (s : Machine),
        ((slot.encode op s).1 = .ok () → op.WellFormed) ∧
          ∀ why, op.validate = .error why →
            slot.encode op s = (.error (.invalidParams why), slot, s) := by
  refine ⟨op.validate_eq_ok_iff, ?_, ?_⟩
  · intro why
    rw [validate_eq_report]
    exact report_eq_error_iff
  · intro slot s
    refine ⟨?_, fun why h => op.encode_of_error h slot s⟩
    intro hok
    rw [← validate_eq_ok_iff]
    cases hvalid : op.validate with
    | ok _ => rfl
    | error why =>
      rw [op.encode_of_error hvalid] at hok
      cases hok

end

/-- The longest buffer that fits is accepted and a longer one is not; of the three faults of an
accept the descriptor is reported. -/
theorem accepted_iff_wellFormed_boundary :
    let slot : Slot := { index := 0 }
    let s : Machine := ⟨⟨none, none, 0, 0, 0, 0⟩, default, []⟩
    (slot.encode (recv 3 ⟨64, 0xffffffff⟩ 0) s).1 = .ok () ∧
      (recv 3 ⟨64, 0xffffffff⟩ 0).WellFormed ∧
      (slot.encode (recv 3 ⟨64, 0x100000000⟩ 0) s).1 = .error (.invalidParams .bufferTooLong) ∧
      (accept (-1) 0 (some ⟨⟨64, 0⟩, ⟨128, 16⟩⟩) true).validate = .error .negativeDescriptor := by
  intro slot s
  have hok : (slot.encode (recv 3 ⟨64, 0xffffffff⟩ 0) s).1 = .ok () := rfl
  have hlong : (recv 3 ⟨64, 0x100000000⟩ 0).validate = .error .bufferTooLong := rfl
  refine ⟨hok, ((accepted_iff_wellFormed _).2.2 slot s).1 hok, ?_, ?_⟩
  · rw [((accepted_iff_wellFormed _).2.2 slot s).2 _ hlong]
  · exact ((accepted_iff_wellFormed _).2.1 _).mpr
      ⟨[], InvalidReason.inOrder.tail, rfl, by decide, by decide⟩

end Operation

end Uring
