/-!
# Uring.Cells — a stretch of memory

Cells addressed by a 32-bit index.  A cell that was never written holds the default value, so that
reading is total and `get_set` is the whole theory.
-/

namespace Uring

structure Cells (α : Type) where
  /-- The cells below the highest one written so far. -/
  written : Array α
  deriving DecidableEq, Repr

namespace Cells

variable {α : Type}

def empty : Cells α := ⟨#[]⟩

instance : Inhabited (Cells α) := ⟨empty⟩

def ofList (l : List α) : Cells α := ⟨l.toArray⟩

variable [Inhabited α]

def get (c : Cells α) (i : UInt32) : α := c.written[i.toNat]?.getD default

/-- Writes one cell, after making room for it. -/
def set (c : Cells α) (i : UInt32) (a : α) : Cells α :=
  ⟨(c.written ++ Array.replicate (i.toNat + 1 - c.written.size) default).setIfInBounds i.toNat a⟩

theorem get_set (c : Cells α) (i j : UInt32) (a : α) :
    (c.set i a).get j = if i = j then a else c.get j := by
  have hi : i.toNat < c.written.size + (i.toNat + 1 - c.written.size) := by omega
  simp only [get, set, Array.getElem?_setIfInBounds, Array.size_append, Array.size_replicate, hi,
    if_true]
  by_cases h : i = j
  · simp [h]
  · have hn : i.toNat ≠ j.toNat := fun e => h (UInt32.toNat_inj.mp e)
    simp only [h, hn, if_false, Array.getElem?_append]
    split
    · rfl
    · simp only [Array.getElem?_replicate]
      split <;> simp [*]

@[simp] theorem get_set_self (c : Cells α) (i : UInt32) (a : α) : (c.set i a).get i = a := by
  simp [get_set]

theorem get_set_of_ne (c : Cells α) {i j : UInt32} (a : α) (h : i ≠ j) :
    (c.set i a).get j = c.get j := by
  simp [get_set, h]

end Cells

end Uring
