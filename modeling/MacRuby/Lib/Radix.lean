import Mathlib.Algebra.BigOperators.Intervals
import Mathlib.Algebra.Order.BigOperators.Ring.Finset
import Mathlib.Data.Nat.Digits.Defs
import Mathlib.Tactic.Linarith
import Mathlib.Tactic.Ring

/-!
# Positional values of digit sequences

The value of the first `n` digits of a sequence, least significant first, in an
arbitrary radix.  Digits are integers, so that a borrow can be written as a
negative number.  The lemmas are the ones a digit-by-digit loop needs: a prefix
grows by one digit, a value splits at any position, and a value of proper digits
is bounded by a power of the radix.

## Main definitions

* `Radix.val b d n` — `d 0 + d 1 * b + … + d (n-1) * b ^ (n-1)`.
-/

namespace Radix

variable {b : ℤ} {d e : ℕ → ℤ} {m n : ℕ}

/-- The value of the first `n` digits of `d` in radix `b`. -/
def val (b : ℤ) (d : ℕ → ℤ) (n : ℕ) : ℤ := ∑ i ∈ Finset.range n, d i * b ^ i

@[simp] theorem val_zero (b : ℤ) (d : ℕ → ℤ) : val b d 0 = 0 := by simp [val]

theorem val_succ (b : ℤ) (d : ℕ → ℤ) (n : ℕ) :
    val b d (n + 1) = val b d n + d n * b ^ n := by
  simp [val, Finset.sum_range_succ]

theorem val_one (b : ℤ) (d : ℕ → ℤ) : val b d 1 = d 0 := by simp [val]

theorem val_congr (h : ∀ i, i < n → d i = e i) : val b d n = val b e n := by
  refine Finset.sum_congr rfl ?_
  intro i hi
  rw [h i (Finset.mem_range.mp hi)]

/-- A value splits at any position. -/
theorem val_add (b : ℤ) (d : ℕ → ℤ) (m n : ℕ) :
    val b d (m + n) = val b d m + b ^ m * val b (fun i => d (m + i)) n := by
  induction n with
  | zero => simp
  | succ n ih =>
      rw [← Nat.add_assoc, val_succ, ih, val_succ, pow_add]
      ring

/-- The lowest digit, and the rest of the digits one place up. -/
theorem val_succ' (b : ℤ) (d : ℕ → ℤ) (n : ℕ) :
    val b d (n + 1) = d 0 + b * val b (fun i => d (i + 1)) n := by
  rw [Nat.add_comm, val_add, val_one, pow_one]
  simp only [Nat.add_comm]

theorem val_nonneg (hb : 0 ≤ b) (h : ∀ i, i < n → 0 ≤ d i) : 0 ≤ val b d n := by
  refine Finset.sum_nonneg ?_
  intro i hi
  exact mul_nonneg (h i (Finset.mem_range.mp hi)) (pow_nonneg hb i)

/-- Proper digits stay below the next power of the radix. -/
theorem val_lt (hb : 0 < b) (h : ∀ i, i < n → d i < b) : val b d n < b ^ n := by
  induction n with
  | zero => simp
  | succ n ih =>
      have ih' := ih (fun i hi => h i (by omega))
      have hd : d n + 1 ≤ b := h n (by omega)
      have hmul : (d n + 1) * b ^ n ≤ b * b ^ n :=
        mul_le_mul_of_nonneg_right hd (pow_nonneg hb.le n)
      rw [val_succ, pow_succ']
      linarith

/-- **Values are ordered as their digits are**, from the highest on. -/
theorem val_succ_le_iff (hd : ∀ i, i < n → 0 ≤ d i ∧ d i < b) (he : ∀ i, i < n → 0 ≤ e i ∧ e i < b)
    (hb : 0 < b) :
    val b d (n + 1) ≤ val b e (n + 1) ↔ d n < e n ∨ d n = e n ∧ val b d n ≤ val b e n := by
  have hd0 := val_nonneg hb.le fun i hi => (hd i hi).1
  have hd1 := val_lt hb fun i hi => (hd i hi).2
  have he0 := val_nonneg hb.le fun i hi => (he i hi).1
  have he1 := val_lt hb fun i hi => (he i hi).2
  have hpow : 0 < b ^ n := pow_pos hb n
  rw [val_succ, val_succ]
  rcases lt_trichotomy (d n) (e n) with hlt | heq | hgt
  · have hmul : (d n + 1) * b ^ n ≤ e n * b ^ n := mul_le_mul_of_nonneg_right hlt hpow.le
    rw [add_mul, one_mul] at hmul
    constructor
    · exact fun _ => Or.inl hlt
    · intro _
      linarith
  · simp [heq]
  · have hmul : (e n + 1) * b ^ n ≤ d n * b ^ n := mul_le_mul_of_nonneg_right hgt hpow.le
    rw [add_mul, one_mul] at hmul
    constructor
    · intro h
      linarith
    · intro h
      omega

/-- All digits vanish exactly when the value does. -/
theorem val_eq_zero_iff (hb : 0 < b) (h : ∀ i, i < n → 0 ≤ d i) :
    val b d n = 0 ↔ ∀ i, i < n → d i = 0 := by
  unfold val
  rw [Finset.sum_eq_zero_iff_of_nonneg]
  · constructor
    · intro hz i hi
      have := hz i (Finset.mem_range.mpr hi)
      exact (mul_eq_zero.mp this).resolve_right (pow_ne_zero i hb.ne')
    · intro hz i hi
      rw [hz i (Finset.mem_range.mp hi), zero_mul]
  · intro i hi
    exact mul_nonneg (h i (Finset.mem_range.mp hi)) (pow_nonneg hb.le i)

/-- Leading zeros do not count. -/
theorem val_of_le (hmn : m ≤ n) (h : ∀ i, m ≤ i → i < n → d i = 0) :
    val b d n = val b d m := by
  obtain ⟨k, rfl⟩ := Nat.exists_eq_add_of_le hmn
  rw [val_add]
  have hz : val b (fun i => d (m + i)) k = val b (fun _ => 0) k :=
    val_congr (fun i hi => h (m + i) (by omega) (by omega))
  rw [hz]
  simp [val]

/-! ## Estimating a quotient digit

In long division a window `wlo + t * p` of the dividend is divided by
`ylo + v * p`, where `p` is the unit of the two top parts `t` and `v`.  The
quotient is a single digit in radix `b`, estimated from the top parts alone. -/

section Estimate

variable {p v t ylo wlo q z z' : ℤ}

/-- If the quotient is a single digit, the window's top digit does not exceed the
divisor's. -/
theorem top_le_of_quotient_lt (hb : 0 < b) (hp : 0 < p) (hylo : ylo < p) (hwlo : 0 ≤ wlo)
    (hz' : 0 ≤ z') (hw : wlo + (z * b + z') * p < (ylo + v * p) * b) : z ≤ v := by
  have hy : (ylo + v * p) * b < (p + v * p) * b := mul_lt_mul_of_pos_right (by linarith) hb
  have h1 : (z * b) * p < ((v + 1) * b) * p := by nlinarith
  have h2 : z * b < (v + 1) * b := lt_of_mul_lt_mul_right h1 hp.le
  exact Int.le_of_lt_add_one (lt_of_mul_lt_mul_right h2 hb.le)

/-- **The estimate of a quotient digit.**  The largest digit `q` with `q * v ≤ t` is
not below the true quotient, and multiplied out it overshoots the window by less
than one unit of the digit above it. -/
theorem quotient_estimate (hp : 0 < p) (hylo0 : 0 ≤ ylo) (hylo : ylo < p)
    (hwlo0 : 0 ≤ wlo) (hwlo : wlo < p) (hw : wlo + t * p < (ylo + v * p) * b)
    (hq0 : 0 ≤ q) (hq1 : q ≤ b - 1) (hqv : q * v ≤ t) (ht : q = b - 1 ∨ t < (q + 1) * v) :
    wlo + t * p < (q + 1) * (ylo + v * p) ∧ q * (ylo + v * p) < wlo + t * p + p * b := by
  constructor
  · rcases ht with rfl | ht
    · linarith
    · have h1 : (t + 1) * p ≤ (q + 1) * v * p := mul_le_mul_of_nonneg_right ht hp.le
      have h2 : 0 ≤ (q + 1) * ylo := mul_nonneg (by linarith) hylo0
      linarith
  · have h1 : q * ylo ≤ (b - 1) * p := mul_le_mul hq1 hylo.le hylo0 (by linarith)
    have h2 : q * v * p ≤ t * p := mul_le_mul_of_nonneg_right hqv hp.le
    linarith

end Estimate

end Radix
