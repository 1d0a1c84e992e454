import Uring.Completion.Entry
import Uring.Error
import Uring.Proofs.ResultWord

/-!
# Uring.Proofs.ErrorNumbers — error numbers between result words

The result of a completion is its word taken apart, and a failed system call has a word of its own.
Between words the error number is kept in a form of the platform's, of which no more is asked than
that the known numbers pass through it unchanged.  That is enough for every word from -4095 up: none
of them stands for another number, and none is the least word, which alone has no negative.
-/

namespace Uring.Errno

variable {w : Int32}

/-! ### Words -/

/-- The negative words from -4095 up are negated known numbers. -/
theorem known_neg (h : -4095 ≤ w) (hneg : w < 0) : Known ⟨-w⟩ := by
  have hle : -4095 ≤ w.toInt := Int32.le_iff_toInt_le.mp h
  have hlt : w.toInt < 0 := Int32.lt_iff_toInt_lt.mp hneg
  rw [known_iff_toInt, toInt_neg_of_le h]
  omega

/-- No word from -4095 up stands for a number that is not known. -/
theorem known_of_ofResult {e : Errno} (h : -4095 ≤ w) (he : ofResult w = .error e) : e.Known := by
  by_cases hneg : w < 0
  · rw [ofResult_of_neg hneg] at he
    cases he
    exact known_neg h hneg
  · rw [ofResult_of_nonneg (Int32.not_lt.mp hneg)] at he
    cases he

/-- The lower half of a word holds what fits in sixteen bits. -/
theorem toInt32_toInt16 (hge : -32768 ≤ w.toInt) (hlt : w.toInt < 32768) :
    w.toInt16.toInt32 = w := by
  rw [← Int32.toInt_inj, Int16.toInt_toInt32, Int32.toInt_toInt16]
  exact Int.bmod_eq_of_le (by omega) (by omega)

/-! ### Kept numbers -/

/-- A form in which a platform keeps error numbers.  Known numbers come back from it, and it has one
form for each; what it makes of other numbers is left open. -/
structure Form (ε : Type) where
  keep : Errno → ε
  number : ε → Errno
  number_keep : ∀ e, e.Known → number (keep e) = e
  keep_number : ∀ x, (number x).Known → keep (number x) = x

/-- Sixteen bits, which hold the negated number. -/
def Form.halfWord : Form Int16 where
  keep e := e.negated.toInt16
  number x := ⟨-x.toInt32⟩
  number_keep e h := by
    obtain ⟨hpos, hle⟩ := known_iff_toInt.mp h
    have hneg := h.toInt_negated
    rw [toInt32_toInt16 (by omega) (by omega), negated, Int32.neg_neg]
  keep_number x _ := by rw [negated, Int32.neg_neg, Int16.toInt16_toInt32]

namespace Form

variable {ε : Type} (f : Form ε)

/-- What a word stands for. -/
def read (w : Int32) : Except ε Int32 := (ofResult w).mapError f.keep

/-- The word of a result that is a value. -/
def word (x : Except ε Int32) : Int32 := toResult (x.mapError f.number)

/-- The word of a result that is nothing but success or failure. -/
def unitWord (x : Except ε Unit) : Int32 := toUnitResult (x.mapError f.number)

variable {x : ε}

theorem read_of_nonneg (h : 0 ≤ w) : f.read w = .ok w := by
  rw [read, ofResult_of_nonneg h]
  rfl

theorem read_of_neg (h : w < 0) : f.read w = .error (f.keep ⟨-w⟩) := by
  rw [read, ofResult_of_neg h]
  rfl

theorem exists_read_eq_error_iff : (∃ x, f.read w = .error x) ↔ w < 0 := by
  by_cases hneg : w < 0
  · exact iff_of_true ⟨_, f.read_of_neg hneg⟩ hneg
  · rw [f.read_of_nonneg (Int32.not_lt.mp hneg)]
    refine iff_of_false ?_ hneg
    rintro ⟨x, ⟨⟩⟩

/-- The number that a negative word stands for gives the word back. -/
theorem negated_number_keep (h : -4095 ≤ w) (hneg : w < 0) :
    (f.number (f.keep ⟨-w⟩)).negated = w := by
  rw [f.number_keep _ (known_neg h hneg), negated, Int32.neg_neg]

/-- Taking a word apart loses nothing. -/
theorem word_read (h : -4095 ≤ w) : f.word (f.read w) = w := by
  by_cases hneg : w < 0
  · rw [f.read_of_neg hneg]
    exact f.negated_number_keep h hneg
  · rw [f.read_of_nonneg (Int32.not_lt.mp hneg)]
    rfl

/-- Without the value, a failure is all that is left of a word. -/
theorem unitWord_read (h : -4095 ≤ w) :
    f.unitWord ((f.read w).map fun _ => ()) = if w < 0 then w else 0 := by
  by_cases hneg : w < 0
  · rw [f.read_of_neg hneg, if_pos hneg]
    exact f.negated_number_keep h hneg
  · rw [f.read_of_nonneg (Int32.not_lt.mp hneg), if_neg hneg]
    rfl

/-- Folding a failure into a word loses nothing. -/
theorem read_negated (h : (f.number x).Known) : f.read (f.number x).negated = .error x := by
  rw [read, h.ofResult_negated]
  exact congrArg Except.error (f.keep_number x h)

/-! ### Completions and failed calls -/

/-- The result of a completion says all that its word says.  No form is asked to keep any other
number for it than a known one, and neither taking the word apart nor folding it again overflows. -/
structure Survives (c : Completion.Entry) : Prop where
  word_eq : f.word (c.result.mapError f.keep) = c.res
  unitWord_eq : f.unitWord ((c.result.mapError f.keep).map fun _ => ()) =
    if c.res < 0 then c.res else 0
  failed_iff : (∃ x, c.result.mapError f.keep = .error x) ↔ c.res < 0
  known : ∀ e, c.result = .error e → e.Known
  toInt_neg : (-c.res).toInt = -c.res.toInt
  toInt_negated : ∀ e, c.result = .error e → e.negated.toInt = -e.code.toInt

theorem survives {c : Completion.Entry} (h : -4095 ≤ c.res) : f.Survives c := by
  have hread : c.result.mapError f.keep = f.read c.res := rfl
  have hknown : ∀ e, c.result = .error e → e.Known := fun _ he => known_of_ofResult h he
  refine ⟨?_, ?_, ?_, hknown, toInt_neg_of_le h, fun e he => (hknown e he).toInt_negated⟩
  · rw [hread, f.word_read h]
  · rw [hread, f.unitWord_read h]
  · rw [hread, f.exists_read_eq_error_iff]

/-- The word of a failed call stands for the number that the failure carries. -/
theorem exists_rawResult {failure : RingError} (hfailure : failure.errno? = some (f.number x))
    (h : (f.number x).Known) :
    ∃ w, failure.rawResult? = some w ∧ w.toInt = -(f.number x).code.toInt ∧ f.read w = .error x := by
  refine ⟨(f.number x).negated, ?_, h.toInt_negated, f.read_negated h⟩
  rw [RingError.rawResult?, hfailure, Option.map_some]

end Form

end Uring.Errno
