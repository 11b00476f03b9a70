import Mathlib.Algebra.Order.Field.Basic
import Mathlib.Algebra.Order.Ring.Int
import Mathlib.Data.Rat.Cast.Order
import Mathlib.Tactic.Linarith
import Mathlib.Tactic.Ring

/-!
# Nearest multiples

The multiple of a number that is nearest to another, and of two that are equally near the one
farther from zero. There is only one, rounding commutes with the sign, and floored division finds it
by comparing twice the remainder with the divisor.

## Main definitions

* `IsNearest d x m` — `m` is the multiple of `d` that `x` is rounded to.
* `IsNearestInt q n` — `n` is the integer that the rational number `q` is rounded to.

## Main results

* `IsNearest.unique`, `IsNearest.neg` — uniqueness and symmetry.
* `isNearest_below`, `isNearest_above` — the multiple below or above, by the remainder.
* `isNearest_half` — adding a half and truncating.
* `IsNearest.isNearestInt` — a nearest multiple of the denominator is a nearest integer.
-/

namespace Nearest

variable {d x m m' q r : ℤ}

/-- `m` is the multiple of `d` nearest to `x`, ties going away from zero. -/
structure IsNearest (d x m : ℤ) : Prop where
  dvd : d ∣ m
  nearest : ∀ m', d ∣ m' → m' ≠ m → |x - m| < |x - m'| ∨ |x - m| = |x - m'| ∧ |m'| < |m|

/-- **There is one nearest multiple.** -/
theorem IsNearest.unique (h : IsNearest d x m) (h' : IsNearest d x m') : m = m' := by
  by_contra hne
  rcases h.nearest m' h'.dvd (Ne.symm hne) with h1 | ⟨h1, h2⟩
  · rcases h'.nearest m h.dvd hne with h3 | ⟨h3, -⟩
    · exact lt_asymm h1 h3
    · exact h1.ne h3.symm
  · rcases h'.nearest m h.dvd hne with h3 | ⟨-, h4⟩
    · exact h3.ne h1.symm
    · exact lt_asymm h2 h4

/-- **Rounding commutes with the sign.** -/
theorem IsNearest.neg (h : IsNearest d x m) : IsNearest d (-x) (-m) := by
  refine ⟨Int.dvd_neg.mpr h.dvd, ?_⟩
  intro m' hm' hne
  have hnear := h.nearest (-m') (Int.dvd_neg.mpr hm') (fun heq => hne (by rw [← heq, neg_neg]))
  have habs : ∀ k : ℤ, |-x - k| = |x - -k| := by
    intro k
    rw [← abs_neg, neg_sub, sub_neg_eq_add, sub_neg_eq_add, add_comm]
  rw [habs, habs, neg_neg, abs_neg m]
  rwa [abs_neg] at hnear

/-- The distances to the multiples below. -/
theorem abs_sub_of_le (hx : x = q * d + r) (h0 : 0 ≤ r) (hd : 0 < d) {t : ℤ} (ht : t ≤ q) :
    |x - t * d| = r + (q - t) * d := by
  have hpos : 0 ≤ (q - t) * d := mul_nonneg (by omega) hd.le
  rw [hx, abs_of_nonneg (by linarith)]
  ring

/-- The distances to the multiples above. -/
theorem abs_sub_of_lt (hx : x = q * d + r) (h1 : r < d) (hd : 0 < d) {t : ℤ} (ht : q < t) :
    |x - t * d| = (t - q) * d - r := by
  have hpos : 0 ≤ (t - q - 1) * d := mul_nonneg (by omega) hd.le
  rw [hx, abs_of_nonpos (by linarith)]
  ring

/-- **The multiple below is the nearest** with a remainder of less than a half, and with a half for
a negative number. -/
theorem isNearest_below (hd : 0 < d) (hx : x = q * d + r) (h0 : 0 ≤ r)
    (hr : 2 * r < d ∨ 2 * r = d ∧ x < 0) : IsNearest d x (q * d) := by
  refine ⟨dvd_mul_left d q, ?_⟩
  intro m' hm' hne
  obtain ⟨t, rfl⟩ := exists_eq_mul_left_of_dvd hm'
  rw [abs_sub_of_le hx h0 hd le_rfl]
  rcases lt_trichotomy t q with ht | ht | ht
  · have hpos : 0 < (q - t) * d := mul_pos (by omega) hd
    rw [abs_sub_of_le hx h0 hd ht.le]
    exact .inl (by linarith)
  · exact absurd (congrArg (· * d) ht) hne
  · have hpos : 0 ≤ (t - q - 1) * d := mul_nonneg (by omega) hd.le
    rw [abs_sub_of_lt hx (by omega) hd ht]
    rcases hr with hr | ⟨hr, hneg⟩
    · exact .inl (by linarith)
    · rcases hpos.eq_or_lt with hzero | hpos
      · -- the multiple above is as near, and not as far from zero
        refine .inr ⟨by linarith, ?_⟩
        have hq : q * d + d ≤ 0 := by
          have hq0 : q + 1 ≤ 0 := by
            by_contra hq0
            have : 0 ≤ q * d := mul_nonneg (by omega) hd.le
            linarith
          have : (q + 1) * d ≤ 0 := mul_nonpos_of_nonpos_of_nonneg hq0 hd.le
          linarith
        have htd : t * d = q * d + d := by linarith
        rw [htd, abs_of_nonpos hq, abs_of_nonpos (by linarith)]
        linarith
      · exact .inl (by linarith)

/-- **The multiple above is the nearest** with a remainder of more than a half, and with a half for
a positive number. -/
theorem isNearest_above (hd : 0 < d) (hx : x = q * d + r) (h1 : r < d)
    (hr : d < 2 * r ∨ 2 * r = d ∧ 0 < x) : IsNearest d x ((q + 1) * d) := by
  have hneg : -x = (-(q + 1)) * d + (d - r) := by
    rw [hx]
    ring
  have hbelow := isNearest_below hd hneg (by linarith)
    (hr.imp (fun h => by linarith) fun h => ⟨by linarith, by linarith⟩)
  have := hbelow.neg
  rwa [neg_neg, neg_mul, neg_neg] at this

/-- **Adding a half and truncating** rounds numbers that are not negative. -/
theorem isNearest_half (hd : 0 < d) (heven : d % 2 = 0) (hx : 0 ≤ x) :
    IsNearest d x ((x + d / 2) / d * d) := by
  have hsplit : x = x / d * d + x % d := by
    have := Int.emod_add_mul_ediv x d
    linarith
  have h0 := Int.emod_nonneg x hd.ne'
  have h1 := Int.emod_lt_of_pos x hd
  have hq : (x + d / 2) / d = x / d + (x % d + d / 2) / d := by
    have hsum : x + d / 2 = x % d + d / 2 + x / d * d := by linarith
    rw [hsum, Int.add_mul_ediv_right _ _ hd.ne', add_comm]
  by_cases hlow : 2 * (x % d) < d
  · have hzero : (x % d + d / 2) / d = 0 := Int.ediv_eq_zero_of_lt (by omega) (by omega)
    rw [hq, hzero, add_zero]
    exact isNearest_below hd hsplit h0 (.inl hlow)
  · have hone : (x % d + d / 2) / d = 1 := by
      have hsum : x % d + d / 2 = x % d + d / 2 - d + 1 * d := by ring
      rw [hsum, Int.add_mul_ediv_right _ _ hd.ne', Int.ediv_eq_zero_of_lt (by omega) (by omega),
        zero_add]
    rw [hq, hone]
    refine isNearest_above hd hsplit h1 ?_
    rcases lt_or_eq_of_le (not_lt.mp hlow) with h | h
    · exact .inl h
    · have hnn : 0 ≤ x / d * d := mul_nonneg (Int.ediv_nonneg hx hd.le) hd.le
      exact .inr ⟨h.symm, by omega⟩

/-! ## Rational numbers -/

/-- `n` is the integer nearest to `q`, ties going away from zero. -/
def IsNearestInt (q : ℚ) (n : ℤ) : Prop :=
  ∀ n' : ℤ, n' ≠ n → |q - n| < |q - n'| ∨ |q - n| = |q - n'| ∧ |n'| < |n|

/-- **A fraction is rounded to the nearest multiple of its denominator**, and it may be expanded. -/
theorem IsNearest.isNearestInt {c n : ℤ} (hc : 0 < c) (hd : 0 < d)
    (h : IsNearest (c * d) (c * x) (n * (c * d))) : IsNearestInt (x / d) n := by
  have hcd : 0 < c * d := mul_pos hc hd
  have hcd' : (0 : ℚ) < c * d := by exact_mod_cast hcd
  -- distances from the fraction and distances from its numerator
  have hdist : ∀ k : ℤ, |(x : ℚ) / d - k| * (c * d) = (|c * x - k * (c * d)| : ℤ) := by
    intro k
    have hd' : (d : ℚ) ≠ 0 := by exact_mod_cast hd.ne'
    have hexpand : ((x : ℚ) / d - k) * (c * d) = c * x - k * (c * d) := by
      rw [sub_mul, mul_left_comm, div_mul_cancel₀ _ hd']
    calc |(x : ℚ) / d - k| * (c * d) = |((x : ℚ) / d - k) * (c * d)| := by
          rw [abs_mul, abs_of_pos hcd']
      _ = (|c * x - k * (c * d)| : ℤ) := by
          rw [hexpand]
          push_cast
          rfl
  intro n' hne
  have hne' : n' * (c * d) ≠ n * (c * d) := fun heq => hne (mul_right_cancel₀ hcd.ne' heq)
  have hlt : |(x : ℚ) / d - n| < |(x : ℚ) / d - n'| ↔
      |c * x - n * (c * d)| < |c * x - n' * (c * d)| := by
    rw [← mul_lt_mul_iff_left₀ hcd', hdist, hdist, Int.cast_lt]
  have heq : |(x : ℚ) / d - n| = |(x : ℚ) / d - n'| ↔
      |c * x - n * (c * d)| = |c * x - n' * (c * d)| := by
    rw [← mul_left_inj' hcd'.ne', hdist, hdist, Int.cast_inj]
  rw [hlt, heq]
  refine (h.nearest _ (dvd_mul_left _ _) hne').imp_right fun ⟨h1, h2⟩ => ⟨h1, ?_⟩
  rw [abs_mul, abs_mul n] at h2
  exact lt_of_mul_lt_mul_right h2 (abs_nonneg _)

theorem IsNearestInt.neg {q : ℚ} {n : ℤ} (h : IsNearestInt q n) : IsNearestInt (-q) (-n) := by
  have hdist : ∀ k : ℤ, |-q - k| = |q - (-k : ℤ)| := by
    intro k
    rw [← abs_neg, neg_sub, sub_neg_eq_add, Int.cast_neg, sub_neg_eq_add, add_comm]
  intro n' hne
  have hnear := h (-n') (fun heq => hne (by rw [← heq, neg_neg]))
  rw [hdist, hdist, neg_neg, abs_neg n]
  rwa [abs_neg] at hnear

end Nearest
