import Uring.Command
import Uring.Proofs.Operation.Validity

/-!
# Uring.Proofs.Operation.Encoding — an entry tells all of its operation

The kind of an operation is read off the opcode, and its parameters off the fields that its kind
uses.  Lengths come back in full because longer ones are not accepted, and an accept with a peer is
told from one without because no memory of the caller lies at the null address.
-/

namespace Uring.Operation

variable {op other : Operation}

/-- What memory an accept names for its peer does not lie at the null address. -/
def Placed (op : Operation) : Prop := ∀ p, op.peer? = some p → p.buffer.address ≠ 0

/-! ### Reading an entry back -/

theorem encode_opcode (op : Operation) (e : Submission.Entry) :
    (op.encode e).opcode = op.command.kind.opcode := by
  cases op <;> rfl

/-- Reading, writing, receiving and sending put their buffer in the same two fields. -/
theorem encode_transfer {buf : Buffer} (hbuf : op.transfer? = some buf) (e : Submission.Entry) :
    (op.encode e).addr = buf.address ∧ (op.encode e).len = UInt32.ofNat buf.length := by
  cases op <;> cases hbuf <;> exact ⟨rfl, rfl⟩

/-- The length field does not cut the length of an accepted buffer. -/
theorem WellFormed.bufferOf_encode (h : op.WellFormed) {buf : Buffer}
    (hbuf : op.transfer? = some buf) (e : Submission.Entry) :
    Command.bufferOf (op.encode e) = buf := by
  obtain ⟨haddr, hlen⟩ := encode_transfer hbuf e
  have hle := h.length buf hbuf
  have hfits : buf.length < UInt32.size := by
    have hsize : UInt32.size = 2 ^ 32 := rfl
    omega
  unfold Command.bufferOf
  rw [haddr, hlen, UInt32.toNat_ofNat_of_lt' hfits]

theorem peerOf_encode {fd flags : Int32} {peer : Option Peer} {multishot : Bool}
    (hplace : ∀ p, peer = some p → p.buffer.address ≠ 0) (e : Submission.Entry) :
    Command.peerOf ((accept fd flags peer multishot).encode e.clearOperation) =
      peer.map fun p => (p.buffer.address, p.length.address) := by
  cases peer with
  | none => rfl
  | some p => exact if_neg (hplace p rfl)

theorem multishot_encode (fd flags : Int32) (peer : Option Peer) (multishot : Bool)
    (e : Submission.Entry) :
    (((accept fd flags peer multishot).encode e.clearOperation).ioprio &&& Abi.acceptMultishot !=
      0) = multishot := by
  cases multishot <;> simp [encode, Submission.Entry.clearOperation, Abi.acceptMultishot]

theorem read?_encode (h : op.WellFormed) (hplace : op.Placed) (e : Submission.Entry) :
    Command.read? (op.encode e.clearOperation) op.command.kind = some op.command := by
  cases op with
  | nop => rfl
  | accept fd flags peer multishot =>
    have hpeer := @peerOf_encode fd flags peer multishot hplace e
    simp only [command, Command.kind, Command.read?, multishot_encode, hpeer]
    rfl
  | connect fd addr =>
    have hle := (h.address addr rfl).2
    have hfits : addr.length < UInt64.size := by
      have hsize : UInt64.size = 2 ^ 64 := rfl
      omega
    simp only [command, Command.kind, Command.read?, encode, UInt64.toNat_ofNat_of_lt' hfits]
  | close fd => rfl
  | read fd buf extra | write fd buf extra | recv fd buf extra | send fd buf extra =>
    simp only [command, Command.kind, Command.read?, h.bufferOf_encode rfl]
    rfl
  | _ => simp [command, Command.kind, Command.read?, encode]

/-- The entry of an accepted operation is read back as what the operation asks for. -/
theorem ofEntry?_encode (h : op.WellFormed) (hplace : op.Placed) (e : Submission.Entry) :
    Command.ofEntry? (op.encode e.clearOperation) = some op.command := by
  unfold Command.ofEntry?
  rw [encode_opcode, Kind.ofOpcode?_opcode, Option.bind_some, read?_encode h hplace]

/-! ### Two operations with the same entry -/

/-- Of what two operations refer to in memory, distinct things lie at distinct addresses. -/
structure Apart (op other : Operation) : Prop where
  buffers : ∀ p p', op.peer? = some p → other.peer? = some p' →
    p.buffer.address = p'.buffer.address → p.buffer = p'.buffer
  cells : ∀ p p', op.peer? = some p → other.peer? = some p' →
    p.length.address = p'.length.address → p.length = p'.length
  times : ∀ t t', op.time? = some t → other.time? = some t' → t.address = t'.address → t = t'

/-- Two operations that ask for the same, and share what they have at the same address, differ in
the kind of a tag at most. -/
theorem untagged_eq (hapart : op.Apart other) (h : op.command = other.command) :
    op.untagged = other.untagged := by
  cases op with
  | accept fd flags peer multishot =>
    cases other with
    | accept fd' flags' peer' multishot' =>
      obtain ⟨rfl, rfl, hpeer, rfl⟩ := Command.accept.inj h
      suffices peer = peer' by rw [this]
      cases peer with
      | none => cases peer' with
        | none => rfl
        | some p' => cases hpeer
      | some p => cases peer' with
        | none => cases hpeer
        | some p' =>
          obtain ⟨hbuffer, hcell⟩ := Prod.mk.inj (Option.some.inj hpeer)
          obtain ⟨buffer, cell⟩ := p
          obtain ⟨buffer', cell'⟩ := p'
          obtain rfl : buffer = buffer' := hapart.buffers _ _ rfl rfl hbuffer
          obtain rfl : cell = cell' := hapart.cells _ _ rfl rfl hcell
          rfl
    | _ => cases h
  | timeout time count flags =>
    cases other with
    | timeout time' count' flags' =>
      obtain ⟨htime, rfl, rfl⟩ := Command.timeout.inj h
      rw [hapart.times time time' rfl rfl htime]
    | _ => cases h
  | cancel target flags =>
    cases other with
    | cancel target' flags' =>
      obtain ⟨htarget, rfl⟩ := Command.cancel.inj h
      exact congrArg (fun w => cancel (.data64 w) flags) htarget
    | _ => cases h
  | _ =>
    -- the words of every other operation are its own parameters
    cases other
    all_goals cases h
    all_goals rfl

/-- The entry of an accepted operation is read back as what the operation asks for, with its buffers
in full length.  So two accepted operations with the same entry ask for the same; and if distinct
things in memory lie at distinct addresses, they are the same operation but for the kind of the tag
that they cancel. -/
theorem encode_lossless (hop : op.validate = .ok ()) (hplace : op.Placed)
    (e : Submission.Entry) :
    Command.ofEntry? (op.encode e.clearOperation) = some op.command ∧
      ∀ other : Operation, other.validate = .ok () → other.Placed →
        op.encode e.clearOperation = other.encode e.clearOperation →
        op.command = other.command ∧ (op.Apart other → op.untagged = other.untagged) := by
  have hread := ofEntry?_encode (op.validate_eq_ok_iff.mp hop) hplace e
  refine ⟨hread, ?_⟩
  intro other hother hplace' heq
  have hread' := ofEntry?_encode (other.validate_eq_ok_iff.mp hother) hplace' e
  have hcommand : op.command = other.command := by
    rw [heq, hread'] at hread
    exact (Option.some.inj hread).symm
  exact ⟨hcommand, fun hapart => untagged_eq hapart hcommand⟩

/-- A peer comes back with both of its addresses, and a cancel without the kind of its target. -/
theorem encode_lossless_peer_cancel :
    Command.ofEntry? ((accept 3 0x80000 (some ⟨⟨64, 16⟩, ⟨128, 16⟩⟩) true).encode {}) =
        some (.accept 3 0x80000 (some (64, 128)) true) ∧
      (cancel (.data64 4096) 1).encode {} = (cancel (.addr 4096) 1).encode {} ∧
      (cancel (.data64 4096) 1).untagged = (cancel (.addr 4096) 1).untagged := by
  have hplaced : (accept 3 0x80000 (some ⟨⟨64, 16⟩, ⟨128, 16⟩⟩) true).Placed := by
    rintro p ⟨⟩
    decide
  have hcancel (t : Tag) : (cancel t 1).Placed := by rintro p ⟨⟩
  have hpeer := (encode_lossless rfl hplaced {}).1
  have hboth := (@encode_lossless (cancel (.data64 4096) 1) rfl (hcancel _) {}).2
    (cancel (.addr 4096) 1) rfl (hcancel _) rfl
  refine ⟨hpeer, rfl, hboth.2 ⟨?_, ?_, ?_⟩⟩
  · rintro p p' ⟨⟩
  · rintro p p' ⟨⟩
  · rintro t t' ⟨⟩

end Uring.Operation
