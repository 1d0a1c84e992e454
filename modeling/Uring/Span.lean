/-!
# Uring.Span — the values at consecutive counters

A counter runs through all 32-bit words and wraps.  `span f a b` lists the values of `f` from
counter `a` up to counter `b`, which is left out; their number is the distance `b - a`.
-/

namespace Uring

variable {α : Type}

def span (f : UInt32 → α) (a b : UInt32) : List α :=
  (List.range (b - a).toNat).map fun i => f (a + UInt32.ofNat i)

@[simp] theorem length_span (f : UInt32 → α) (a b : UInt32) :
    (span f a b).length = (b - a).toNat := by
  simp [span]

@[simp] theorem span_self (f : UInt32 → α) (a : UInt32) : span f a a = [] := by
  simp [span]

/-! ### Distances -/

theorem distance_eq_zero {a b : UInt32} : b - a = 0 ↔ a = b := by
  rw [UInt32.sub_eq_iff_eq_add, UInt32.zero_add, eq_comm]

theorem toNat_sub_pos {a b : UInt32} (h : a ≠ b) : 0 < (b - a).toNat := by
  have hn : a.toNat ≠ b.toNat := fun e => h (UInt32.toNat_inj.mp e)
  have ha := a.toNat_lt
  have hb := b.toNat_lt
  rw [UInt32.toNat_sub]
  omega

theorem toNat_sub_add {a b : UInt32} {n : Nat} (h : n ≤ (b - a).toNat) :
    (b - (a + UInt32.ofNat n)).toNat = (b - a).toNat - n := by
  have ha := a.toNat_lt
  have hb := b.toNat_lt
  rw [UInt32.toNat_sub] at h
  rw [UInt32.toNat_sub, UInt32.toNat_add, UInt32.toNat_ofNat', UInt32.toNat_sub]
  omega

theorem toNat_sub_succ {a b : UInt32} (h : a ≠ b) :
    (b - (a + 1)).toNat = (b - a).toNat - 1 :=
  toNat_sub_add (n := 1) (toNat_sub_pos h)

theorem toNat_succ_sub {a b : UInt32} (h : (b - a).toNat + 1 < UInt32.size) :
    (b + 1 - a).toNat = (b - a).toNat + 1 := by
  have hsize : UInt32.size = 2 ^ 32 := rfl
  have ha := a.toNat_lt
  have hb := b.toNat_lt
  rw [UInt32.toNat_sub] at h ⊢
  rw [UInt32.toNat_add, UInt32.toNat_one, UInt32.toNat_sub]
  omega

theorem toNat_sub_add_one_lt {a b : UInt32} (h : a ≠ b + 1) : (b - a).toNat + 1 < UInt32.size := by
  have hsize : UInt32.size = 2 ^ 32 := rfl
  have hpos := toNat_sub_pos h
  have ha := a.toNat_lt
  have hb := b.toNat_lt
  rw [UInt32.toNat_sub, UInt32.toNat_add, UInt32.toNat_one] at hpos
  rw [UInt32.toNat_sub]
  omega

theorem add_ofNat_toNat_sub (a b : UInt32) : a + UInt32.ofNat (b - a).toNat = b := by
  rw [UInt32.ofNat_toNat, UInt32.add_comm, UInt32.sub_add_cancel]

theorem toNat_add_ofNat_sub (a : UInt32) {n : Nat} (h : n < UInt32.size) :
    (a + UInt32.ofNat n - a).toNat = n := by
  rw [UInt32.add_comm, UInt32.add_sub_cancel, UInt32.toNat_ofNat', Nat.mod_eq_of_lt h]

/-! ### Taking a span apart -/

theorem span_cons (f : UInt32 → α) {a b : UInt32} (h : a ≠ b) :
    span f a b = f a :: span f (a + 1) b := by
  obtain ⟨n, hn⟩ := Nat.exists_eq_succ_of_ne_zero (Nat.ne_of_gt (toNat_sub_pos h))
  have hs : (b - (a + 1)).toNat = n := by rw [toNat_sub_succ h]; omega
  unfold span
  rw [hn, hs, List.range_succ_eq_map, List.map_cons, List.map_map]
  congr 1
  · simp
  · refine List.map_congr_left fun i _ => ?_
    simp [UInt32.add_assoc, UInt32.add_comm]

theorem span_concat (f : UInt32 → α) {a b : UInt32} (h : (b - a).toNat + 1 < UInt32.size) :
    span f a (b + 1) = span f a b ++ [f b] := by
  unfold span
  rw [toNat_succ_sub h, List.range_succ, List.map_append, List.map_singleton, add_ofNat_toNat_sub]

theorem span_append (f : UInt32 → α) {a b : UInt32} {n : Nat} (h : n ≤ (b - a).toNat) :
    span f a (a + UInt32.ofNat n) ++ span f (a + UInt32.ofNat n) b = span f a b := by
  induction n generalizing a with
  | zero => simp
  | succ n ih =>
    have hne : a ≠ b := by rintro rfl; simp at h
    have hstep : a + UInt32.ofNat (n + 1) = a + 1 + UInt32.ofNat n := by
      simp [UInt32.add_assoc, UInt32.add_comm]
    have hne' : a ≠ a + UInt32.ofNat (n + 1) := by
      intro e
      have hlt := (b - a).toNat_lt_size
      have hd := toNat_add_ofNat_sub a (n := n + 1) (by omega)
      rw [← e, UInt32.sub_self] at hd
      simp at hd
    rw [span_cons f hne', span_cons f hne, List.cons_append, hstep]
    rw [ih (by rw [toNat_sub_succ hne]; omega)]

theorem take_span (f : UInt32 → α) {a b : UInt32} {n : Nat} (h : n ≤ (b - a).toNat) :
    (span f a b).take n = span f a (a + UInt32.ofNat n) := by
  have hlt := (b - a).toNat_lt_size
  rw [← span_append f h, List.take_left']
  rw [length_span, toNat_add_ofNat_sub a (by omega)]

theorem span_congr {f g : UInt32 → α} {a b : UInt32}
    (h : ∀ i < (b - a).toNat, f (a + UInt32.ofNat i) = g (a + UInt32.ofNat i)) :
    span f a b = span g a b :=
  List.map_congr_left fun i hi => h i (List.mem_range.mp hi)

end Uring
