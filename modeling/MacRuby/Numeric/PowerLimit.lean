import MacRuby.Numeric.Power

/-!
# Which powers are Integers

Which powers are Floats is not a matter of their size: `int_pow` squares as long as it can, and the
limit is for the digits of what it stops at, times what is left of the exponent.

## Main definitions

* `GoesOn`, `leftOver` — where `int_pow` stops, and what is left of the exponent there.
* `WordPowerFits`, `PowerFits` — which powers are within the limit.

## Main results

* `intPow_case` — powers by words.
* `intPower_case` — powers are the Integer within the limit, and Floats beyond it.
-/

namespace MacRuby

/-! ## Where a power by words is a Float -/

section Limit

variable {L : LongSize} {F : Type} {fl : Floats F} {neg : Bool} {x z a : ℤ} {y b i : ℕ}
  {p : Power L F}

/-- The Floats that are powers: of a number other than zero to an exponent that is not negative,
and their products with such numbers. -/
inductive FloatPower (fl : Floats F) : F → Prop
  | pow {x : Bignum} {y : ℤ} (hx : x.toInt ≠ 0) (hy : 0 ≤ y) :
      FloatPower fl (fl.pow (fl.ofBig x) (fl.ofLong y))
  | powBig {x y : Bignum} (hx : x.toInt ≠ 0) (hy : 0 ≤ y.toInt) :
      FloatPower fl (fl.pow (fl.ofBig x) (fl.ofBig y))
  | mul {z : Bignum} {f : F} (hz : z.toInt ≠ 0) (hf : FloatPower fl f) :
      FloatPower fl (fl.mul (fl.ofBig z) f)

/-- A power is handed over to be an Integer or a Float, as its size is. -/
theorem intPowBig_cases (fl : Floats F) (neg : Bool) (hx : 0 < x) (hx' : x ≤ 2 ^ (L.bits - 2))
    (hz : 0 < z) (hz' : z ≤ 2 ^ (L.bits - 2)) (hy : (y : ℤ) ≤ L.fixnumMax) :
    (powSize L x y ≤ biglenLimit → ∃ r, intPowBig (L := L) fl neg x y z = .int r) ∧
      (biglenLimit < powSize L x y →
        ∃ f, intPowBig (L := L) fl neg x y z = .float f ∧ FloatPower fl f) := by
  have hmin := L.fixnumMin_nonpos
  have hnum : long2num L y = .fixnum ⟨y, by omega, hy⟩ := dif_pos ⟨by omega, hy⟩
  rw [intPowBig, hnum]
  refine ⟨fun h => ?_, fun h => ?_⟩
  · obtain ⟨r, hr, -⟩ := rbBigPow_int (L := L) fl (rbInt2big L x) (y := ⟨y, by omega, hy⟩)
      (Int.natCast_nonneg y) h
    rw [hr]
    dsimp only
    split
    · exact ⟨_, rfl⟩
    · exact ⟨_, rfl⟩
  · obtain ⟨-, -, hhalf⟩ := L.fixnum_range
    have hpos : (0 : ℤ) < 2 ^ (L.bits - 2) := by positivity
    have hxval : (rbInt2big L x).toInt = x := toInt_rbInt2big (by omega) (by omega)
    have hpow : FloatPower fl (fl.pow (fl.ofBig (rbInt2big L x)) (fl.ofLong y)) :=
      .pow (by omega) (Int.natCast_nonneg y)
    rw [rbBigPow_float (L := L) fl (rbInt2big L x) (y := ⟨y, by omega,
      hy⟩) (Int.natCast_nonneg y) h]
    dsimp only
    split
    · refine ⟨_, rfl, .mul ?_ hpow⟩
      have hneg : L.toLong (-z) = -z := LongSize.toLong_eq (by omega) (by omega)
      rw [hneg, toInt_rbInt2big (by split_ifs <;> omega) (by split_ifs <;> omega)]
      split_ifs <;> omega
    · exact ⟨_, rfl, hpow⟩

theorem settles_squared (heven : y % 2 = 0) (hfit : fitSqrtLong L x = true)
    (hword : L.toLong (x * x) = x * x)
    (h : Fuel.Settles (fun fuel => intPowLoop fl neg fuel (x * x) (y / 2) z) (.ok p)) :
    Fuel.Settles (fun fuel => intPowLoop fl neg fuel x y z) (.ok p) := by
  obtain ⟨n, hn⟩ := h
  refine .of_le (n + 1) fun fuel hfuel => ?_
  obtain ⟨m, rfl⟩ : ∃ m, fuel = m + 1 := ⟨fuel - 1, by omega⟩
  rw [intPowLoop, if_pos heven, if_pos hfit, hword]
  exact hn m (by omega)

theorem settles_multiplied (hodd : y % 2 = 1) (hy : y ≠ 1) (hx : 0 < x)
    (hword : L.toLong (x * z) = x * z) (hfix : x * z ≤ L.fixnumMax)
    (h : Fuel.Settles (fun fuel => intPowLoop fl neg fuel x (y - 1) (x * z)) (.ok p)) :
    Fuel.Settles (fun fuel => intPowLoop fl neg fuel x y z) (.ok p) := by
  obtain ⟨n, hn⟩ := h
  refine .of_le (n + 1) fun fuel hfuel => ?_
  obtain ⟨m, rfl⟩ : ∃ m, fuel = m + 1 := ⟨fuel - 1, by omega⟩
  have hfits : ¬ (¬ x * z < L.fixnumMax + 1 ∨ (x * z).tdiv x ≠ z) := by
    rw [not_or, not_not, not_not]
    exact ⟨by omega, Int.mul_tdiv_cancel_left _ hx.ne'⟩
  rw [intPowLoop, if_neg (by omega), hword]
  dsimp only
  rw [if_neg hfits, if_neg (by omega)]
  exact hn m (by omega)

theorem settles_handedOver (heven : y % 2 = 0) (hfit : fitSqrtLong L x = false) :
    Fuel.Settles (fun fuel => intPowLoop fl neg fuel x y z)
      (.ok (intPowBig (L := L) fl neg x y z)) := by
  refine .of_le 1 fun fuel hfuel => ?_
  obtain ⟨m, rfl⟩ : ∃ m, fuel = m + 1 := ⟨fuel - 1, by omega⟩
  rw [intPowLoop, if_pos heven, if_neg (by rw [hfit]; exact Bool.false_ne_true)]

theorem settles_overflown (hodd : y % 2 = 1) (hx : 0 < x) (hword : x ≤ 2 ^ (L.bits - 2))
    (hover : L.fixnumMax < x * z) :
    Fuel.Settles (fun fuel => intPowLoop fl neg fuel x y z)
      (.ok (intPowBig (L := L) fl neg x y z)) := by
  refine .of_le 1 fun fuel hfuel => ?_
  obtain ⟨m, rfl⟩ : ∃ m, fuel = m + 1 := ⟨fuel - 1, by omega⟩
  rw [intPowLoop, if_neg (by omega)]
  dsimp only
  refine if_pos ?_
  by_contra hfits
  rw [not_or, not_not, not_not] at hfits
  have hpos : (0 : ℤ) < 2 ^ (L.bits - 2) := by positivity
  have heq : L.toLong (x * z) = x * z := mul_of_tdiv hx.ne' (by omega) hword hfits.2
  omega

theorem settles_last (hx : 0 < x) (hword : L.toLong (x * z) = x * z) (hfix : x * z ≤ L.fixnumMax) :
    Fuel.Settles (fun fuel => intPowLoop fl neg fuel x 1 z)
      (.ok (.int (long2num L (if neg then L.toLong (-(x * z)) else x * z)))) := by
  refine .of_le 1 fun fuel hfuel => ?_
  obtain ⟨m, rfl⟩ : ∃ m, fuel = m + 1 := ⟨fuel - 1, by omega⟩
  have hfits : ¬ (¬ x * z < L.fixnumMax + 1 ∨ (x * z).tdiv x ≠ z) := by
    rw [not_or, not_not, not_not]
    exact ⟨by omega, Int.mul_tdiv_cancel_left _ hx.ne'⟩
  rw [intPowLoop, if_neg (by decide), hword]
  dsimp only
  rw [if_neg hfits]
  exact if_pos rfl

/-- Whether `int_pow`, with the lowest bits of the exponent in the product, goes on from `x ^ 2 ^ i`
to the next square. -/
def GoesOn (L : LongSize) (x : ℤ) (y i : ℕ) : Prop :=
  fitSqrtLong L (x ^ 2 ^ i) = true ∧ (i ≠ 0 → x ^ (y % 2 ^ (i + 1)) ≤ L.fixnumMax)

/-- What is left of the exponent where `int_pow` stops at `x ^ 2 ^ i`: its lowest bit is too if it
does not fit into the product. -/
def leftOver (L : LongSize) (x : ℤ) (y i : ℕ) : ℕ :=
  if i ≠ 0 ∧ L.fixnumMax < x ^ (y % 2 ^ (i + 1)) then y / 2 ^ i else 2 * (y / 2 ^ (i + 1))

/-- The first square from which `int_pow` does not go on is, with what is left of the exponent,
within the limit. -/
def WordPowerFits (L : LongSize) (x : ℤ) (y : ℕ) : Prop :=
  ∀ i, (∀ j < i, GoesOn L x y j) → ¬ GoesOn L x y i →
    powSize L (x ^ 2 ^ i) (leftOver L x y i) ≤ biglenLimit

/-- There is one square where it stops. -/
theorem wordPowerFits_iff (hon : ∀ j < i, GoesOn L x y j) (hstop : ¬ GoesOn L x y i) :
    WordPowerFits L x y ↔ powSize L (x ^ 2 ^ i) (leftOver L x y i) ≤ biglenLimit := by
  refine ⟨fun h => h i hon hstop, fun h k hk hstop' => ?_⟩
  rcases lt_trichotomy k i with hlt | heq | hgt
  · exact absurd (hon k hlt) hstop'
  · rwa [heq]
  · exact absurd (hk i hgt) hstop

/-- Nothing is left where the product takes the whole exponent. -/
theorem wordPowerFits_of_end (hon : ∀ j < i, GoesOn L x y j)
    (hfix : i ≠ 0 → x ^ (y % 2 ^ (i + 1)) ≤ L.fixnumMax) (hend : y / 2 ^ (i + 1) = 0) :
    WordPowerFits L x y := by
  intro k hk hstop
  have hle : i ≤ k := by
    by_contra hlt
    exact hstop (hon k (by omega))
  have hzero : leftOver L x y k = 0 := by
    have hlt : y < 2 ^ (i + 1) := (Nat.div_eq_zero_iff_lt (by positivity)).mp hend
    have hlt' : y < 2 ^ (k + 1) := hlt.trans_le (Nat.pow_le_pow_right (by decide) (by omega))
    rw [leftOver, Nat.div_eq_of_lt hlt']
    split_ifs with hover
    · rcases Nat.eq_or_lt_of_le hle with heq | hgt
      · subst heq
        exact absurd (hfix hover.1) (not_le.mpr hover.2)
      · exact Nat.div_eq_of_lt (hlt.trans_le (Nat.pow_le_pow_right (by decide) (by omega)))
    · rfl
  rw [hzero, powSize, Nat.mul_zero]
  exact Nat.zero_le _

/-- The square of a power of `x` that fits is a word. -/
theorem square_le_of_fitSqrtLong (h2 : 2 ≤ x) (hfit : fitSqrtLong L (x ^ 2 ^ i) = true) :
    x ^ 2 ^ (i + 1) = x ^ 2 ^ i * x ^ 2 ^ i ∧ x ^ 2 ^ (i + 1) ≤ 2 ^ (L.bits - 2) := by
  have hsq : x ^ 2 ^ (i + 1) = x ^ 2 ^ i * x ^ 2 ^ i := by
    rw [pow_succ, Nat.mul_two, pow_add]
  have hroot : x ^ 2 ^ i < 2 ^ ((L.bits - 1) / 2) := by
    rw [fitSqrtLong, Bool.and_eq_true, decide_eq_true_eq] at hfit
    exact hfit.1
  have hsquare : (2 : ℤ) ^ ((L.bits - 1) / 2) * 2 ^ ((L.bits - 1) / 2) = 2 ^ (L.bits - 2) := by
    cases L <;> decide
  have hpos : 0 ≤ x ^ 2 ^ i := pow_nonneg (by omega) _
  refine ⟨hsq, ?_⟩
  rw [hsq, ← hsquare]
  exact (mul_lt_mul'' hroot hroot hpos hpos).le

theorem low_le_of_fitSqrtLong (h2 : 2 ≤ x) (hfit : fitSqrtLong L (x ^ 2 ^ i) = true)
    (hfix : i ≠ 0 → x ^ (b % 2 ^ (i + 1)) ≤ L.fixnumMax) : x ^ (b % 2 ^ (i + 1)) ≤ L.fixnumMax := by
  by_cases hi : i = 0
  · subst hi
    have hroot : (2 : ℤ) ^ ((L.bits - 1) / 2) ≤ L.fixnumMax := by cases L <;> decide
    rw [fitSqrtLong, Bool.and_eq_true, decide_eq_true_eq] at hfit
    have hlow : x ^ (b % 2 ^ 1) ≤ x ^ 2 ^ 0 := pow_le_pow_right₀ (by omega) (by omega)
    exact hlow.trans (hfit.1.le.trans hroot)
  · exact hfix hi

/-- A power is an Integer where it fits, and a Float where it does not. -/
def PowerCase (fl : Floats F) (fits : Prop) (p : Power L F) : Prop :=
  (fits → ∃ r, p = .int r) ∧ (¬ fits → ∃ f, p = .float f ∧ FloatPower fl f)

theorem intPowBig_case (fl : Floats F) (neg : Bool) (hx : 0 < x)
    (hx' : x ^ 2 ^ i ≤ 2 ^ (L.bits - 2))
    (hz : 0 < z) (hz' : z ≤ 2 ^ (L.bits - 2)) (hy : (y : ℤ) ≤ L.fixnumMax)
    (hon : ∀ j < i, GoesOn L x b j) (hstop : ¬ GoesOn L x b i) (hleft : leftOver L x b i = y) :
    PowerCase fl (WordPowerFits L x b) (intPowBig (L := L) fl neg (x ^ 2 ^ i) y z) := by
  obtain ⟨hint, hfloat⟩ := intPowBig_cases (L := L) fl neg (pow_pos hx _) hx' hz hz' hy
  rw [PowerCase, wordPowerFits_iff hon hstop, hleft]
  exact ⟨hint, fun h => hfloat (not_le.mp h)⟩

/-- **The loop of `int_pow` ends with an Integer or a Float**, as what it leaves over is within the
limit or not. -/
theorem intPowLoop_case (fl : Floats F) (neg : Bool) (h2 : 2 ≤ x)
    (hb : ((2 * (b / 2 ^ (i + 1)) : ℕ) : ℤ) ≤ L.fixnumMax ∨
      fitSqrtLong L (x ^ 2 ^ i) = true ∧ ((b / 2 ^ (i + 1) : ℕ) : ℤ) ≤ L.fixnumMax)
    (hword : x ^ 2 ^ i ≤ 2 ^ (L.bits - 2)) (hlow : x ^ (b % 2 ^ (i + 1)) ≤ 2 ^ (L.bits - 2))
    (hon : ∀ j < i, GoesOn L x b j) (hfix : i ≠ 0 → x ^ (b % 2 ^ (i + 1)) ≤ L.fixnumMax)
    (hrest : 0 < b / 2 ^ (i + 1)) :
    ∃ p : Power L F, PowerCase fl (WordPowerFits L x b) p ∧ Fuel.Settles (fun fuel =>
      intPowLoop fl neg fuel (x ^ 2 ^ i) (2 * (b / 2 ^ (i + 1))) (x ^ (b % 2 ^ (i + 1))))
        (.ok p) := by
  induction hn : b / 2 ^ (i + 1) using Nat.strong_induction_on generalizing i with
  | _ n ih =>
      obtain ⟨hmin, hmax, hhalf⟩ := L.fixnum_range
      rw [hn] at hb
      have hnext : b / 2 ^ (i + 1 + 1) = n / 2 := by
        rw [← hn, Nat.div_div_eq_div_mul, pow_succ 2 (i + 1)]
      have hbits : b % 2 ^ (i + 1 + 1) = b % 2 ^ (i + 1) + 2 ^ (i + 1) * (n % 2) := by
        rw [← hn, pow_succ 2 (i + 1), Nat.mod_mul]
      by_cases hfit : fitSqrtLong L (x ^ 2 ^ i) = true
      · obtain ⟨hsq, hword'⟩ := square_le_of_fitSqrtLong h2 hfit
        have hpos : (0 : ℤ) < x ^ 2 ^ (i + 1) := pow_pos (by omega) _
        have hon' : ∀ j < i + 1, GoesOn L x b j := by
          intro j hj
          rcases Nat.lt_succ_iff_lt_or_eq.mp hj with hlt | heq
          · exact hon j hlt
          · exact heq ▸ ⟨hfit, hfix⟩
        have hsquared : ∀ {p : Power L F},
            Fuel.Settles (fun fuel => intPowLoop fl neg fuel (x ^ 2 ^ (i + 1)) n
              (x ^ (b % 2 ^ (i + 1)))) (.ok p) →
            Fuel.Settles (fun fuel => intPowLoop fl neg fuel (x ^ 2 ^ i) (2 * n)
              (x ^ (b % 2 ^ (i + 1)))) (.ok p) := by
          intro p h
          refine settles_squared (by omega) hfit ?_ ?_
          · rw [← hsq]
            exact LongSize.toLong_eq (by omega) (by omega)
          · rwa [← hsq, Nat.mul_div_cancel_left n (by decide)]
        rcases Nat.mod_two_eq_zero_or_one n with heven | hodd
        · -- the bit is not set, so the product stays as it is
          rw [heven, Nat.mul_zero, Nat.add_zero] at hbits
          have hfix' : x ^ (b % 2 ^ (i + 1 + 1)) ≤ L.fixnumMax :=
            hbits ▸ low_le_of_fitSqrtLong h2 hfit hfix
          obtain ⟨p, hp, hrun⟩ := ih (n / 2) (by omega) (.inl (by omega)) hword'
            (by omega) hon' (fun _ => hfix') (by omega) hnext
          rw [hbits, show 2 * (n / 2) = n by omega] at hrun
          exact ⟨p, hp, hsquared hrun⟩
        · rw [hodd, Nat.mul_one] at hbits
          have hprod : x ^ 2 ^ (i + 1) * x ^ (b % 2 ^ (i + 1)) = x ^ (b % 2 ^ (i + 1 + 1)) := by
            rw [hbits, pow_add x, mul_comm]
          by_cases hover : L.fixnumMax < x ^ (b % 2 ^ (i + 1 + 1))
          · have hstop : ¬ GoesOn L x b (i + 1) := fun h =>
              absurd (h.2 (by omega)) (not_le.mpr hover)
            have hleft : leftOver L x b (i + 1) = n := by
              rw [leftOver, if_pos ⟨by omega, hover⟩, hn]
            exact ⟨_, intPowBig_case fl neg (by omega) hword' (pow_pos (by omega) _) hlow
              (by omega) hon'
              hstop hleft,
              hsquared (settles_overflown hodd hpos hword' (hprod ▸ hover))⟩
          · rw [not_lt] at hover
            have hpos' : (0 : ℤ) < x ^ (b % 2 ^ (i + 1 + 1)) := pow_pos (by omega) _
            have hlong : L.toLong (x ^ (b % 2 ^ (i + 1 + 1))) = x ^ (b % 2 ^ (i + 1 + 1)) :=
              LongSize.toLong_eq (by omega) (by omega)
            by_cases hlast : n = 1
            · subst hlast
              refine ⟨_, ⟨fun _ => ⟨_, rfl⟩, fun h => ?_⟩,
                hsquared (settles_last hpos (hprod ▸ hlong) (hprod ▸ hover))⟩
              exact absurd (wordPowerFits_of_end hon' (fun _ => hover) (by omega)) h
            · obtain ⟨p, hp, hrun⟩ := ih (n / 2) (by omega) (.inl (by omega)) hword'
                (by omega) hon' (fun _ => hover) (by omega) hnext
              refine ⟨p, hp, hsquared (settles_multiplied hodd hlast hpos ?_ ?_ ?_)⟩
              · rwa [hprod]
              · rwa [hprod]
              · rwa [hprod, show n - 1 = 2 * (n / 2) by omega]
      · have hstop : ¬ GoesOn L x b i := fun h => hfit h.1
        have hleft : leftOver L x b i = 2 * n := by
          rw [leftOver, if_neg (fun h => absurd (hfix h.1) (not_le.mpr h.2)), hn]
        exact ⟨_, intPowBig_case fl neg (by omega) hword (pow_pos (by omega) _) hlow
          (hb.resolve_right fun h => hfit h.1) hon hstop hleft,
          settles_handedOver (by omega) (Bool.eq_false_iff.mpr hfit)⟩

/-- **`int_pow` ends with an Integer or a Float.** -/
theorem intPow_case (fl : Floats F) (ha : 2 ≤ |a|) (hword : -2 ^ (L.bits - 2) ≤ a)
    (hword' : a ≤ 2 ^ (L.bits - 2)) (hb2 : 2 ≤ b)
    (hb : (b : ℤ) ≤ L.fixnumMax ∨ fitSqrtLong L |a| = true ∧ ((b / 2 : ℕ) : ℤ) ≤ L.fixnumMax) :
    ∃ p : Power L F, PowerCase fl (WordPowerFits L |a| b) p ∧
      Fuel.Settles (fun fuel => intPow fl fuel a b) (.ok p) := by
  have habs : (if a < 0 then L.toLong (-a) else a) = |a| := by
    obtain ⟨-, -, hhalf⟩ := L.fixnum_range
    have hpos : (0 : ℤ) < 2 ^ (L.bits - 2) := by positivity
    split_ifs with h0
    · rw [LongSize.toLong_eq (by omega) (by omega), abs_of_neg h0]
    · rw [abs_of_nonneg (not_lt.mp h0)]
  have hword'' : |a| ≤ 2 ^ (L.bits - 2) := abs_le.mpr ⟨by omega, hword'⟩
  have hrun : ∀ neg, ∃ p : Power L F, PowerCase fl (WordPowerFits L |a| b) p ∧
    Fuel.Settles (fun fuel =>
      intPowLoop fl neg fuel |a| (2 * (b / 2)) (|a| ^ (b % 2))) (.ok p) := by
    intro neg
    have hb' : ((2 * (b / 2 ^ (0 + 1)) : ℕ) : ℤ) ≤ L.fixnumMax ∨
        fitSqrtLong L (|a| ^ 2 ^ 0) = true ∧ ((b / 2 ^ (0 + 1) : ℕ) : ℤ) ≤ L.fixnumMax := by
      rw [pow_zero, pow_one, pow_one]
      exact hb.imp_left fun h => by omega
    have hlow : |a| ^ (b % 2 ^ (0 + 1)) ≤ 2 ^ (L.bits - 2) := by
      have hbit : b % 2 ^ (0 + 1) ≤ 1 := by omega
      exact (pow_le_pow_right₀ (by omega) hbit).trans (by rwa [pow_one])
    have hbase : |a| ^ 2 ^ 0 ≤ 2 ^ (L.bits - 2) := by
      rwa [pow_zero, pow_one]
    obtain ⟨p, hp, h⟩ := intPowLoop_case fl neg ha hb' hbase hlow (fun j hj => absurd hj (by omega))
      (fun h => absurd rfl h) (by omega)
    rw [pow_zero, pow_one] at h
    exact ⟨p, hp, h⟩
  by_cases hodd : b % 2 = 1
  · obtain ⟨p, hp, h⟩ := hrun (a < 0)
    rw [hodd, pow_one, show 2 * (b / 2) = b - 1 by omega] at h
    refine ⟨p, hp, h.congr fun fuel => ?_⟩
    rw [intPow, habs, if_pos hodd]
  · obtain ⟨p, hp, h⟩ := hrun false
    rw [show b % 2 = 0 by omega, pow_zero, show 2 * (b / 2) = b by omega] at h
    refine ⟨p, hp, h.congr fun fuel => ?_⟩
    rw [intPow, habs, if_neg hodd]

end Limit

/-! ## Which powers are Integers -/

section Fits

variable {L : LongSize} {F : Type} {fl : Floats F} {x y : Inum L}

/-- The power of `x` to a positive `y` is within the limit of `rb_big_pow`, or needs none. -/
def PowerFits : Inum L → Inum L → Prop
  | .fixnum x, .fixnum y => |x.val| ≤ 1 ∨ y.val = 1 ∨ WordPowerFits L |x.val| y.val.toNat
  | .fixnum x, .bignum _ => |x.val| ≤ 1
  | .bignum x, .fixnum y => x.len * y.val.toNat ≤ biglenLimit
  | .bignum _, .bignum _ => False

/-- What a power is required to be: the Integer if it fits, a Float if it does not. -/
def SettlesPower (fl : Floats F) (x y : Inum L) : Prop :=
  ∃ p, Fuel.Settles (fun fuel => intPower fl fuel x y) (.ok p) ∧
    (PowerFits x y → ∃ r, p = .int r ∧ r.Is (x.toInt ^ y.toInt.toNat)) ∧
    (¬ PowerFits x y → ∃ f, p = .float f ∧ FloatPower fl f)

/-- A power that is not large is no Float. -/
theorem PowResult.exists_int {a : ℤ} {b size : ℕ} {p : Power L F} (h : PowResult L F a b size p)
    (hsmall : |a| ^ b < 2 ^ (15 * biglenLimit)) : ∃ r, p = .int r := by
  cases h with
  | int hr => exact ⟨_, rfl⟩
  | float hsize hlarge => exact absurd hsmall (not_lt.mpr hlarge)

/-- Powers of fixnums to fixnums. -/
theorem intPower_fixnum (fl : Floats F) {a b : Fixnum L} (hb : 0 < b.val) :
    SettlesPower fl (.fixnum a) (.fixnum b) := by
  obtain ⟨hmin, hmax, -⟩ := L.fixnum_range
  have ha0 := a.min_le
  have ha1 := a.le_max
  have hb1 := b.le_max
  obtain ⟨p, hp, hrun⟩ := fixPow_settles fl a hb.le
  have hvalue : (∃ r, p = .int r) → ∃ r, p = .int r ∧ r.Is (a.val ^ b.val.toNat) := by
    rintro ⟨r, rfl⟩
    cases hp with
    | int hr => exact ⟨r, rfl, hr⟩
  have hlimit : (2 : ℤ) ^ (L.bits - 2) < 2 ^ (15 * biglenLimit) :=
    pow_lt_pow_right₀ (by decide) (by cases L <;> decide)
  by_cases hsmall : |a.val| ≤ 1 ∨ b.val = 1
  · have hfits : PowerFits (.fixnum a) (.fixnum b) :=
      hsmall.imp_right fun h => .inl h
    have hpow : |a.val| ^ b.val.toNat ≤ 2 ^ (L.bits - 2) := by
      rcases hsmall with h1 | h1
      · exact (pow_le_one₀ (abs_nonneg _) h1).trans (one_le_pow₀ (by decide))
      · rw [h1, Int.toNat_one, pow_one]
        exact abs_le.mpr ⟨by omega, by omega⟩
    exact ⟨p, hrun, fun _ => hvalue (hp.exists_int (hpow.trans_lt hlimit)),
      fun h => absurd hfits h⟩
  · rw [not_or, not_le] at hsmall
    obtain ⟨p', hp', hrun'⟩ := intPow_case (L := L) (a := a.val) (b := b.val.toNat) fl
      hsmall.1 (by omega) (by omega) (by omega) (.inl (by omega))
    have hfits : PowerFits (.fixnum a) (.fixnum b) ↔ WordPowerFits L |a.val| b.val.toNat := by
      rw [PowerFits, or_iff_right (not_le.mpr hsmall.1), or_iff_right hsmall.2]
    have hrun'' : Fuel.Settles (fun fuel => fixPow fl fuel a (.fixnum b)) (.ok p') := by
      refine hrun'.congr fun fuel => ?_
      have h0 : a.val ≠ 0 := fun h => absurd hsmall.1 (by rw [h]; decide)
      have h1 : a.val ≠ 1 := fun h => absurd hsmall.1 (by rw [h]; decide)
      have h2 : a.val ≠ -1 := fun h => absurd hsmall.1 (by rw [h]; decide)
      simp only [fixPow, if_neg hb.le.not_gt, if_neg hb.ne', if_neg hsmall.2, if_neg h0, if_neg h1,
        if_neg h2]
    have heq := hrun.unique hrun''
    simp only [Except.ok.injEq] at heq
    subst heq
    exact ⟨p, hrun, fun h => hvalue (hp'.1 (hfits.mp h)), fun h => hp'.2 (hfits.not.mp h)⟩

theorem intEvenP_settles {y : Bignum} (hy : (Inum.bignum y : Inum L).Canonical) :
    Fuel.Settles (fun fuel => intEvenP fuel (.bignum y : Inum L))
      (.ok (decide (y.toInt % 2 = 0))) := by
  obtain ⟨r, hr, hrun⟩ := intMod_settles hy.is
    (show (Inum.fixnum ⟨2, by cases L <;> decide, by cases L <;> decide⟩ : Inum L).Is 2
      from ⟨trivial, rfl⟩) (by decide)
  refine hrun.bind ?_
  have hval : r.toInt = y.toInt % 2 := by
    rw [hr.value, Int.fmod_eq_emod_of_nonneg _ (by decide)]
    rfl
  cases r with
  | fixnum k =>
      have hk : k.val = y.toInt % 2 := hval
      simp only [hk]
      exact .const _
  | bignum z =>
      have hrange : z.toInt < L.fixnumMin ∨ L.fixnumMax < z.toInt := hr.canonical.1
      have hz : z.toInt = y.toInt % 2 := hval
      have h0 := L.fixnumMin_nonpos
      have h1 : 1 ≤ L.fixnumMax := by cases L <;> decide
      omega

/-- Powers of fixnums to bignums. -/
theorem intPower_fixnum_bignum (fl : Floats F) (a : Fixnum L) {y : Bignum}
    (hy : (Inum.bignum y : Inum L).Canonical) (hpos : 0 < y.toInt) :
    SettlesPower fl (.fixnum a) (.bignum y) := by
  have hneg : ¬ intCmp (.bignum y) (.zero L) < 0 := by
    rw [intCmp_eq hy.is (Inum.zero_is L)]
    have h : (Inum.bignum y : Inum L).toInt = y.toInt := rfl
    rw [h, sub_zero, Int.sign_eq_one_of_pos hpos]
    decide
  have hexp : y.toInt.toNat ≠ 0 := by omega
  rw [SettlesPower]
  simp only [intPower, fixPow, if_neg hneg]
  by_cases h0 : a.val = 0
  · refine ⟨_, by simp only [if_pos h0]; exact .const _, fun _ => ⟨_, rfl, ?_⟩,
      fun h => absurd ?_ h⟩
    · have hzero : (Inum.fixnum a).toInt = 0 := h0
      have hval : (Inum.bignum y : Inum L).toInt = y.toInt := rfl
      rw [hzero, hval, zero_pow hexp]
      exact Inum.zero_is L
    · rw [PowerFits, h0]
      decide
  by_cases h1 : a.val = 1
  · refine ⟨_, by simp only [if_neg h0, if_pos h1]; exact .const _, fun _ => ⟨_, rfl, ?_⟩,
      fun h => absurd ?_ h⟩
    · have hone : (Inum.fixnum a).toInt = 1 := h1
      rw [hone, one_pow]
      exact Inum.one_is L
    · rw [PowerFits, h1]
      decide
  by_cases h2 : a.val = -1
  · simp only [if_neg h0, if_neg h1, if_pos h2]
    refine ⟨_, (intEvenP_settles hy).bind (.const _), fun _ => ⟨_, rfl, ?_⟩, fun h => absurd ?_ h⟩
    · have hminus : (Inum.fixnum a).toInt = -1 := h2
      have hval : (Inum.bignum y : Inum L).toInt = y.toInt := rfl
      rw [hminus, hval]
      by_cases heven : y.toInt % 2 = 0
      · rw [decide_eq_true heven, if_pos rfl, Even.neg_one_pow ⟨y.toInt.toNat / 2, by omega⟩]
        exact Inum.one_is L
      · rw [decide_eq_false heven, if_neg Bool.false_ne_true,
          Odd.neg_one_pow ⟨y.toInt.toNat / 2, by omega⟩]
        exact Inum.minusOne_is L
    · rw [PowerFits, h2]
      decide
  · simp only [if_neg h0, if_neg h1, if_neg h2]
    refine ⟨_, .const _, fun h => ?_, fun _ => ?_⟩
    · exfalso
      have habs : |a.val| ≤ 1 := h
      rw [abs_le] at habs
      omega
    · have hword := a.toInt_rbInt2big
      rw [rbBigPow, if_neg hneg]
      exact ⟨_, rfl, .powBig (by omega) hpos.le⟩

theorem bignum_ne_zero {z : Bignum} (hz : (Inum.bignum z : Inum L).Canonical) : z.toInt ≠ 0 := by
  intro h
  have hrange : z.toInt < L.fixnumMin ∨ L.fixnumMax < z.toInt := hz.1
  have h0 := L.fixnumMin_nonpos
  have h1 : 1 ≤ L.fixnumMax := by cases L <;> decide
  omega

/-- **A power is the Integer or a Float**, as it is within the limit or not. -/
theorem intPower_case (fl : Floats F) (hx : x.Canonical) (hy : y.Canonical) (hpos : 0 < y.toInt) :
    SettlesPower fl x y := by
  cases y with
  | fixnum b =>
      cases x with
      | fixnum a => exact intPower_fixnum fl hpos
      | bignum z =>
          have hb : 0 ≤ b.val := le_of_lt hpos
          by_cases hfits : z.len * b.val.toNat ≤ biglenLimit
          · obtain ⟨r, hr, hval⟩ := rbBigPow_int (L := L) fl z hb hfits
            exact ⟨.int r, hr ▸ .const _, fun _ => ⟨r, rfl, hval⟩, fun h => absurd hfits h⟩
          · have hf := rbBigPow_float (L := L) fl z hb (not_le.mp hfits)
            exact ⟨_, .const _, fun h => absurd h hfits,
              fun _ => ⟨_, hf, .pow (bignum_ne_zero hx) hb⟩⟩
  | bignum z =>
      cases x with
      | fixnum a => exact intPower_fixnum_bignum fl a hy hpos
      | bignum w =>
          have hneg : ¬ intCmp (.bignum z) (.zero L) < 0 := by
            rw [intCmp_eq hy.is (Inum.zero_is L), sub_zero, Int.sign_eq_one_of_pos hpos]
            decide
          refine ⟨_, .const _, fun h => h.elim, fun _ => ?_⟩
          rw [rbBigPow, if_neg hneg]
          exact ⟨_, rfl, .powBig (bignum_ne_zero hx) (le_of_lt hpos)⟩

end Fits

end MacRuby
