import MacRuby.Lib.Nearest
import MacRuby.Lib.Result
import MacRuby.Numeric.Mixed
import MacRuby.Numeric.PowerLimit

/-!
# Rounding Integers

`Integer#round` to a negative number of digits. Where the receiver and the power of ten are fixnums,
the absolute value is rounded and the sign restored; otherwise the remainder of floored division is
compared with half the power, which takes a tie up, and so a negative one towards zero. A power of
ten that is too large is a Float, and then the result is one.

## Main definitions

* `roundFix`, `roundGeneric`, `intRound` — the two paths and the method.
* `roundLimit` — the least power of ten that is a Float.
* `RoundsHalfAway` — what is required of a receiver and a number of digits.

## Main results

* `intPow_ten` — which powers of ten are Integers.
* `roundFix_isNearest`, `roundGeneric_isNearest` — where the paths give the nearest multiple.
* `roundsHalfAway_iff` — exactly where the method does.
-/

namespace MacRuby

open Nearest

/-! ## The code -/

/-- How rounding can fail. -/
inductive RoundError
  | division (e : DivError)
  /-- `RangeError`: the number of digits is no `int`. -/
  | range
  /-- `ArgumentError`: "ndigits out of range". -/
  | argument
  /-- The power is a call of the method `**` of a Rational, which `int_pow` does not make. -/
  | rational
  deriving DecidableEq, Repr

section Code

variable {L : LongSize} {F : Type}

/-- `NUM2INT(n)`, for an Integer `n`. -/
def num2int (n : Inum L) : Except RoundError ℤ :=
  if -2 ^ 31 ≤ n.toInt ∧ n.toInt < 2 ^ 31 then .ok n.toInt else .error .range

/-- The failures of a part. -/
def liftDivision {α : Type} : Except DivError α → Except RoundError α
  | .ok a => .ok a
  | .error e => .error (.division e)

/-- The path of `int_round` for fixnums. -/
def roundFix (L : LongSize) (x y : ℤ) : Inum L :=
  let neg := x < 0
  let x := if neg then L.toLong (-x) else x
  let x := L.toLong ((L.toLong (x + y.tdiv 2)).tdiv y * y)
  long2num L (if neg then L.toLong (-x) else x)

/-- The other path of `int_round`. -/
def roundGeneric (fl : FloatMethods F) (fuel : ℕ) (num f : Mixed L F) :
    Except DivError (Mixed L F) := do
  let h ← mixedDiv fl fuel f (.int (.two L))
  let r ← mixedMod fl fuel num f
  let n := mixedMinus fl num r
  pure (if !mixedLt fl r h then mixedPlus fl n f else n)

/-- `int_round` with the power of ten. -/
def roundTo (fl : FloatMethods F) (fuel : ℕ) :
    Inum L → Power L F → Except RoundError (Mixed L F)
  | .fixnum x, .int (.fixnum y) => .ok (.int (roundFix L x.val y.val))
  | num, .int f => liftDivision (roundGeneric fl fuel (.int num) (.int f))
  | num, .float f => liftDivision (roundGeneric fl fuel (.int num) (.float f))
  | _, .rational _ _ => .error .rational

/-- `int_round(1, &n, num)`. -/
def intRound (fl : FloatMethods F) (fuel : ℕ) (num n : Inum L) :
    Except RoundError (Mixed L F) := do
  let ndigits ← num2int n
  if ndigits > 0 then .ok (.float (Mixed.toFloat fl (.int num)))
  else if ndigits = 0 then .ok (.int num)
  else
    let ndigits := (-ndigits).bmod (2 ^ 32)
    if ndigits < 0 then .error .argument
    else
      let f ← liftDivision (intPow (L := L) fl.toFloats fuel 10 ndigits.toNat)
      roundTo fl fuel num f

end Code

/-! ## Powers of ten -/

section Ten

variable {L : LongSize} {F : Type}

/-- The least power of ten that is a Float. -/
def roundLimit : LongSize → ℕ
  | .ilp32 => 2097162
  | .lp64 => 2097171

/-- A power of ten that fits is squared as long as its squares do. -/
theorem goesOn_ten {e m k : ℕ} (hfit : ∀ j < e, fitSqrtLong L (10 ^ 2 ^ j) = true)
    (hm : 2 ^ e ≤ m + 1)
    (hle : 10 ^ m ≤ L.fixnumMax) : ∀ j < e, GoesOn L 10 k j := by
  intro j hj
  refine ⟨hfit j hj, fun _ => (pow_le_pow_right₀ (by decide) ?_).trans hle⟩
  have hlt := Nat.mod_lt k (y := 2 ^ (j + 1)) (by positivity)
  have hpow : 2 ^ (j + 1) ≤ 2 ^ e := Nat.pow_le_pow_right (by decide) hj
  omega

theorem fixnumMax_lt_pow_ten_iff {m : ℕ} (hle : 10 ^ m ≤ L.fixnumMax)
    (hlt : L.fixnumMax < 10 ^ (m + 1)) (e : ℕ) : L.fixnumMax < 10 ^ e ↔ m < e := by
  refine ⟨fun h => ?_, fun h => hlt.trans_le (pow_le_pow_right₀ (by decide) h)⟩
  by_contra hem
  exact absurd (hle.trans_lt h) (not_lt.mpr (pow_le_pow_right₀ (by decide) (not_lt.mp hem)))

/-- **A power of ten is within the limit of `rb_big_pow`** up to the least that is a Float. -/
theorem wordPowerFits_ten {k : ℕ} : WordPowerFits L 10 k ↔ k < roundLimit L := by
  have hlimit : biglenLimit = 262144 := rfl
  cases L with
  | ilp32 =>
      have hon := goesOn_ten (L := .ilp32) (e := 3) (m := 9) (k := k) (by decide) (by decide)
        (by decide)
      have hstop : ¬ GoesOn .ilp32 10 k 3 := fun h => absurd h.1 (by decide)
      have hlen : (rbInt2big .ilp32 (10 ^ 2 ^ 3)).len = 1 := by decide
      have hover := fixnumMax_lt_pow_ten_iff (L := .ilp32) (m := 9) (by decide) (by decide)
      simp only [wordPowerFits_iff hon hstop, powSize, hlen, leftOver, hover, roundLimit]
      split_ifs <;> omega
  | lp64 =>
      have hon := goesOn_ten (L := .lp64) (e := 4) (m := 18) (k := k) (by decide) (by decide)
        (by decide)
      have hstop : ¬ GoesOn .lp64 10 k 4 := fun h => absurd h.1 (by decide)
      have hlen : (rbInt2big .lp64 (10 ^ 2 ^ 4)).len = 2 := by decide
      have hover := fixnumMax_lt_pow_ten_iff (L := .lp64) (m := 18) (by decide) (by decide)
      simp only [wordPowerFits_iff hon hstop, powSize, hlen, leftOver, hover, roundLimit]
      split_ifs <;> omega

/-- **Which powers of ten are Integers.** -/
theorem intPow_ten (fl : Floats F) {k : ℕ} (hk0 : 0 < k) (hk : k < 2 ^ 31) :
    (k < roundLimit L → ∃ r : Inum L,
      Fuel.Settles (fun fuel => intPow fl fuel 10 k) (.ok (.int r)) ∧ r.Is (10 ^ k)) ∧
    (roundLimit L ≤ k → ∃ f, Fuel.Settles (fun fuel => intPow (L := L) fl fuel 10 k)
      (.ok (.float f))) := by
  have hten : |(10 : ℤ)| = 10 := rfl
  have hword : (10 : ℤ) ≤ 2 ^ (L.bits - 2) := by cases L <;> decide
  have hfix : ((roundLimit L : ℕ) : ℤ) ≤ L.fixnumMax := by cases L <;> decide
  have hlimit : 2 ≤ roundLimit L ∧ biglenLimit = 262144 := ⟨by cases L <;> decide, rfl⟩
  have hhalf : fitSqrtLong L |10| = true ∧ ((k / 2 : ℕ) : ℤ) ≤ L.fixnumMax := by
    have hmax : 2 ^ 30 ≤ L.fixnumMax + 1 := by cases L <;> decide
    exact ⟨by cases L <;> decide, by omega⟩
  refine ⟨fun h => ?_, fun h => ?_⟩
  · obtain ⟨p, hp, hrun⟩ := intPow_settles (L := L) fl (a := 10) (by rw [hten]; decide)
      (by omega) hword hk0 (by omega)
    have hint : ∃ r, p = .int r := by
      by_cases hone : k = 1
      · refine hp.exists_int ?_
        rw [hone, pow_one, hten]
        have hpow : (2 : ℤ) ^ 4 ≤ 2 ^ (15 * biglenLimit) := pow_le_pow_right₀ (by decide) (by omega)
        exact lt_of_lt_of_le (by decide) hpow
      · obtain ⟨p', hp', hrun'⟩ := intPow_case (L := L) fl (a := 10) (b := k) (by rw [hten]; decide)
          (by omega) hword (by omega) (.inr hhalf)
        have heq := hrun.unique hrun'
        simp only [Except.ok.injEq] at heq
        exact heq ▸ hp'.1 (wordPowerFits_ten.mpr h)
    obtain ⟨r, rfl⟩ := hint
    cases hp with
    | int hr => exact ⟨r, hrun, hr⟩
  · obtain ⟨p, hp, hrun⟩ := intPow_case (L := L) fl (a := 10) (b := k) (by rw [hten]; decide)
      (by omega) hword (by omega) (.inr hhalf)
    obtain ⟨f, rfl, -⟩ := hp.2 fun hfits => absurd (wordPowerFits_ten.mp hfits) (not_lt.mpr h)
    exact ⟨f, hrun⟩

end Ten

/-! ## The two paths -/

section Paths

variable {L : LongSize} {F : Type} {x d : ℤ}

/-- A tie of a negative number. -/
def NegativeTie (d x : ℤ) : Prop := x < 0 ∧ 2 * (x % d) = d

instance (d x : ℤ) : Decidable (NegativeTie d x) := inferInstanceAs (Decidable (_ ∧ _))

/-- **The path for fixnums** rounds half away from zero. -/
theorem roundFix_isNearest (x y : Fixnum L) (hy : 0 < y.val) (heven : y.val % 2 = 0) :
    ∃ m, (roundFix L x.val y.val).Is m ∧ IsNearest y.val x.val m := by
  obtain ⟨hmin, hmax, hhalf⟩ := L.fixnum_range
  have hx0 := x.min_le
  have hx1 := x.le_max
  have hy1 := y.le_max
  have hpos : (0 : ℤ) < 2 ^ (L.bits - 2) := by positivity
  generalize hd : y.val = d at hy heven hy1
  have habs : (if x.val < 0 then L.toLong (-x.val) else x.val) = |x.val| := by
    split_ifs with hneg
    · rw [LongSize.toLong_eq (by omega) (by omega), abs_of_neg hneg]
    · rw [abs_of_nonneg (not_lt.mp hneg)]
  have hle : |x.val| ≤ 2 ^ (L.bits - 2) := abs_le.mpr ⟨by omega, by omega⟩
  have habs0 := abs_nonneg x.val
  have hmul := Int.ediv_mul_le (|x.val| + d / 2) hy.ne'
  have hmul0 : 0 ≤ (|x.val| + d / 2) / d * d :=
    mul_nonneg (Int.ediv_nonneg (by omega) hy.le) hy.le
  have hround : L.toLong ((L.toLong (|x.val| + d.tdiv 2)).tdiv d * d) =
      (|x.val| + d / 2) / d * d := by
    have hsum : L.toLong (|x.val| + d / 2) = |x.val| + d / 2 :=
      LongSize.toLong_eq (by omega) (by omega)
    rw [Int.tdiv_eq_ediv_of_nonneg hy.le, hsum, Int.tdiv_eq_ediv_of_nonneg (by omega)]
    exact LongSize.toLong_eq (by omega) (by omega)
  have hnear := isNearest_half hy heven habs0
  rw [roundFix, habs, hround]
  generalize (|x.val| + d / 2) / d * d = m at hnear hmul hmul0
  split_ifs with hneg
  · rw [LongSize.toLong_eq (by omega) (by omega)]
    refine ⟨-m, long2num_is (by omega) (by omega), ?_⟩
    have h := hnear.neg
    rwa [abs_of_neg hneg, neg_neg] at h
  · refine ⟨m, long2num_is (by omega) (by omega), ?_⟩
    rwa [abs_of_nonneg (not_lt.mp hneg)] at hnear

/-- The number that the path for other Integers gives. -/
def generic (d x : ℤ) : ℤ := if 2 * (x % d) < d then x - x % d else x - x % d + d

/-- **The other path takes a tie up.** -/
theorem roundGeneric_settles (fl : FloatMethods F) {num f : Inum L} (hnum : num.Is x) (hf : f.Is d)
    (hd : 0 < d) (heven : d % 2 = 0) :
    ∃ r : Inum L, r.Is (generic d x) ∧
      Fuel.Settles (fun fuel => roundGeneric fl fuel (.int num) (.int f)) (.ok (.int r)) := by
  obtain ⟨h, hh, hrunh⟩ := intDiv_settles hf (Inum.two_is L) (by decide)
  obtain ⟨r, hr, hrunr⟩ := intMod_settles hnum hf hd.ne'
  rw [Int.fdiv_eq_ediv_of_nonneg _ (by decide)] at hh
  rw [Int.fmod_eq_emod_of_nonneg _ hd.le] at hr
  have hlt : mixedLt fl (.int r : Mixed L F) (.int h) = decide (2 * (x % d) < d) := by
    show decide (intCmp r h < 0) = _
    rw [intCmp_eq hr hh, decide_eq_decide, Int.sign_neg_iff]
    omega
  have hminus := intMinus_is hnum hr
  refine ⟨if 2 * (x % d) < d then intMinus num r else intPlus (intMinus num r) f, ?_, ?_⟩
  · rw [generic]
    split_ifs
    · exact hminus
    · exact intPlus_is hminus hf
  · have hh' : Fuel.Settles (fun fuel => mixedDiv fl fuel (.int f) (.int (.two L)))
        (.ok (.int h : Mixed L F)) := hrunh.bind (.const _)
    have hr' : Fuel.Settles (fun fuel => mixedMod fl fuel (.int num) (.int f))
        (.ok (.int r : Mixed L F)) := hrunr.bind (.const _)
    refine hh'.bind (hr'.bind ?_)
    simp only [hlt]
    by_cases hlow : 2 * (x % d) < d
    · rw [if_pos hlow, decide_eq_true hlow]
      exact .const _
    · rw [if_neg hlow, decide_eq_false hlow]
      exact .const _

/-- A Float gives a Float. -/
theorem roundGeneric_float (fl : FloatMethods F) (num : Inum L) (f : F) (fuel : ℕ) :
    ∃ g, roundGeneric fl fuel (.int num) (.float f : Mixed L F) = .ok (.float g) := by
  rw [roundGeneric]
  change ∃ g, Except.ok (if !fl.lt _ _ then Mixed.float _ else Mixed.float _) = _
  split
  · exact ⟨_, rfl⟩
  · exact ⟨_, rfl⟩

/-- **What the other path gives is the nearest multiple, but for the tie of a negative number.** -/
theorem generic_isNearest_iff (hd : 0 < d) :
    IsNearest d x (generic d x) ↔ ¬ NegativeTie d x := by
  have hsplit : x = x / d * d + x % d := by
    have := Int.emod_add_mul_ediv x d
    linarith
  have h0 := Int.emod_nonneg x hd.ne'
  have h1 := Int.emod_lt_of_pos x hd
  have habove : x - x % d + d = (x / d + 1) * d := by linarith
  have hbelow : x - x % d = x / d * d := by linarith
  rw [generic]
  split_ifs with hlow
  · rw [hbelow]
    refine iff_of_true (isNearest_below hd hsplit h0 (.inl hlow)) ?_
    rintro ⟨-, htie⟩
    omega
  · rw [habove]
    refine ⟨fun h ⟨hneg, htie⟩ => ?_, fun h => isNearest_above hd hsplit h1 ?_⟩
    · have heq := h.unique (isNearest_below hd hsplit h0 (.inr ⟨htie, hneg⟩))
      linarith
    · rcases lt_or_eq_of_le (not_lt.mp hlow) with hhigh | htie
      · exact .inl hhigh
      · refine .inr ⟨htie.symm, ?_⟩
        by_contra hpos
        rcases lt_or_eq_of_le (not_lt.mp hpos) with hneg | hzero
        · exact h ⟨hneg, htie.symm⟩
        · rw [hzero, Int.zero_emod] at htie
          omega

end Paths

/-! ## The method -/

section Method

variable {L : LongSize} {F : Type} {fl : FloatMethods F} {x n : Inum L}

/-- What rounding `x` to the negative number of digits `n` is required to do: the result is the
nearest multiple of the power of ten, and the two paths agree where both can be taken. -/
structure RoundsHalfAway (fl : FloatMethods F) (x n : Inum L) : Prop where
  result : ∃ (r : Inum L) (m : ℤ), Fuel.Settles (fun fuel => intRound fl fuel x n) (.ok (.int r)) ∧
    r.Is m ∧ IsNearest (10 ^ (-n.toInt).toNat) x.toInt m
  paths : ∀ k y : Fixnum L, x = .fixnum k → y.val = 10 ^ (-n.toInt).toNat →
    Fuel.Settles (fun fuel => roundGeneric fl fuel (.int x) (.int (.fixnum y)))
      (.ok (.int (roundFix L k.val y.val)))

/-- **Rounding commutes with the sign** where it is exact. -/
theorem RoundsHalfAway.neg {x' : Inum L} (h : RoundsHalfAway fl x n) (h' : RoundsHalfAway fl x' n)
    (hneg : x'.toInt = -x.toInt) :
    ∃ r r' : Inum L, Fuel.Settles (fun fuel => intRound fl fuel x n) (.ok (.int r)) ∧
      Fuel.Settles (fun fuel => intRound fl fuel x' n) (.ok (.int r')) ∧ r'.toInt = -r.toInt := by
  obtain ⟨r, m, hrun, hr, hnear⟩ := h.result
  obtain ⟨r', m', hrun', hr', hnear'⟩ := h'.result
  refine ⟨r, r', hrun, hrun', ?_⟩
  rw [hneg] at hnear'
  rw [hr.value, hr'.value]
  exact hnear'.unique hnear.neg

theorem settles_liftDivision {α : Type} {f : ℕ → Except DivError α} {a : α}
    (h : Fuel.Settles f (.ok a)) :
    Fuel.Settles (fun fuel => liftDivision (f fuel)) (.ok a) := by
  obtain ⟨k, hk⟩ := h
  refine .of_le k fun fuel hfuel => ?_
  rw [hk fuel hfuel]
  rfl

/-- The method goes on with the power of ten. -/
theorem intRound_eq (hn : n.toInt < 0) (hn' : -2 ^ 31 < n.toInt) (fuel : ℕ) :
    intRound fl fuel x n =
      liftDivision (intPow (L := L) fl.toFloats fuel 10 (-n.toInt).toNat) >>=
        roundTo fl fuel x := by
  have hbmod : (-n.toInt).bmod (2 ^ 32) = -n.toInt :=
    Int.bmod_eq_of_le (by omega) (by omega)
  have hnum : num2int n = .ok n.toInt := if_pos ⟨hn'.le, by omega⟩
  rw [intRound, hnum, Result.ok_bind, if_neg (by omega), if_neg hn.ne]
  dsimp only
  rw [hbmod, if_neg (by omega)]

/-- With a Float for the power of ten the result is one. -/
theorem roundTo_float (fl : FloatMethods F) (x : Inum L) (f : F) (fuel : ℕ) :
    ∃ g, roundTo fl fuel x (.float f) = .ok (.float g) := by
  obtain ⟨g, hg⟩ := roundGeneric_float fl x f fuel
  refine ⟨g, ?_⟩
  cases x with
  | fixnum k =>
      show liftDivision (roundGeneric fl fuel (.int _) (.float f)) = _
      rw [hg]
      rfl
  | bignum z =>
      show liftDivision (roundGeneric fl fuel (.int _) (.float f)) = _
      rw [hg]
      rfl

/-- **From the limit on there is no Integer for a result.** -/
theorem not_settles_of_limit (fl : FloatMethods F) (hn : n.toInt < 0)
    (hlimit : roundLimit L ≤ (-n.toInt).toNat) (r : Inum L) :
    ¬ Fuel.Settles (fun fuel => intRound fl fuel x n) (.ok (.int r)) := by
  rintro ⟨k, hk⟩
  by_cases hrange : -2 ^ 31 < n.toInt
  · obtain ⟨-, hfloat⟩ := intPow_ten (L := L) fl.toFloats (k := (-n.toInt).toNat) (by omega)
      (by omega)
    obtain ⟨f, k', hk'⟩ := hfloat hlimit
    have h := hk (max k k') (le_max_left _ _)
    dsimp only at h
    obtain ⟨g, hg⟩ := roundTo_float fl x f (max k k')
    have hpow := hk' (max k k') (le_max_right _ _)
    dsimp only at hpow
    rw [intRound_eq hn hrange, hpow] at h
    change roundTo fl _ x (.float f) = _ at h
    rw [hg] at h
    cases h
  · have h := hk k le_rfl
    dsimp only at h
    rw [intRound, num2int] at h
    split_ifs at h with hnum
    · have heq : n.toInt = -2 ^ 31 := by omega
      rw [Result.ok_bind, heq] at h
      cases h
    · cases h

/-- A tie of a fixnum is between multiples of a fixnum. -/
theorem pow_ten_le_fixnumMax {e : ℕ} (k : Fixnum L) (htie : NegativeTie (10 ^ e) k.val) :
    (10 : ℤ) ^ e ≤ L.fixnumMax := by
  obtain ⟨hneg, htie⟩ := htie
  have hpos : (0 : ℤ) < 10 ^ e := by positivity
  have hmin := k.min_le
  have hq : k.val / 10 ^ e < 0 := Int.ediv_neg_of_neg_of_pos hneg hpos
  have hsplit := Int.emod_add_mul_ediv k.val (10 ^ e)
  have hle : (10 : ℤ) ^ e ≤ -2 * L.fixnumMin := by nlinarith
  cases L with
  | ilp32 =>
      have hmin' : LongSize.ilp32.fixnumMin = -1073741824 := by decide
      have he : e ≤ 9 := by
        by_contra he
        have : (10 : ℤ) ^ 10 ≤ 10 ^ e := pow_le_pow_right₀ (by decide) (by omega)
        omega
      exact (pow_le_pow_right₀ (by decide) he).trans (by decide)
  | lp64 =>
      have hmin' : LongSize.lp64.fixnumMin = -4611686018427387904 := by decide
      have he : e ≤ 18 := by
        by_contra he
        have : (10 : ℤ) ^ 19 ≤ 10 ^ e := pow_le_pow_right₀ (by decide) (by omega)
        omega
      exact (pow_le_pow_right₀ (by decide) he).trans (by decide)

theorem even_pow_ten {e : ℕ} (he : 0 < e) : (10 : ℤ) ^ e % 2 = 0 := by
  obtain ⟨m, rfl⟩ : ∃ m, e = m + 1 := ⟨e - 1, by omega⟩
  rw [pow_succ, Int.mul_emod]
  rfl

/-- **Below the limit one of the paths is taken.** -/
theorem intRound_cases (fl : FloatMethods F) (hx : x.Canonical) (hn : n.toInt < 0)
    (hlimit : (-n.toInt).toNat < roundLimit L) :
    (∃ k y : Fixnum L, x = .fixnum k ∧ y.val = 10 ^ (-n.toInt).toNat ∧
      Fuel.Settles (fun fuel => intRound fl fuel x n) (.ok (.int (roundFix L k.val y.val)))) ∨
    ∃ r : Inum L, r.Is (generic (10 ^ (-n.toInt).toNat) x.toInt) ∧
      Fuel.Settles (fun fuel => intRound fl fuel x n) (.ok (.int r)) := by
  have hsmall : roundLimit L < 2 ^ 31 := by cases L <;> decide
  have hd : (0 : ℤ) < 10 ^ (-n.toInt).toNat := by positivity
  have heven := even_pow_ten (e := (-n.toInt).toNat) (by omega)
  obtain ⟨f, hrunf, hf⟩ := (intPow_ten (L := L) fl.toFloats (by omega) (by omega)).1 hlimit
  have hrun : ∀ r, Fuel.Settles (fun fuel => roundTo fl fuel x (.int f)) (.ok r) →
      Fuel.Settles (fun fuel => intRound fl fuel x n) (.ok r) := by
    intro r hr
    refine Fuel.Settles.congr ?_ fun fuel => intRound_eq hn (by omega) fuel
    exact (settles_liftDivision hrunf).bind hr
  obtain ⟨r, hr, hgeneric⟩ := roundGeneric_settles fl hx.is hf hd heven
  have hlift := settles_liftDivision hgeneric
  cases x with
  | fixnum k =>
      cases f with
      | fixnum y => exact .inl ⟨k, y, rfl, hf.value, hrun _ (.const _)⟩
      | bignum w => exact .inr ⟨r, hr, hrun _ hlift⟩
  | bignum z => exact .inr ⟨r, hr, hrun _ hlift⟩

/-- **A negative tie is not rounded away from zero**, or the paths do not agree on it. -/
theorem not_roundsHalfAway_of_negativeTie (hx : x.Canonical) (hn : n.toInt < 0)
    (htie : NegativeTie (10 ^ (-n.toInt).toNat) x.toInt) : ¬ RoundsHalfAway fl x n := by
  intro h
  have hd : (0 : ℤ) < 10 ^ (-n.toInt).toNat := by positivity
  have heven := even_pow_ten (e := (-n.toInt).toNat) (by omega)
  have hnot := (generic_isNearest_iff hd).not.mpr (not_not.mpr htie)
  cases x with
  | fixnum k =>
      have hle := pow_ten_le_fixnumMax k htie
      have hmin := L.fixnumMin_nonpos
      obtain ⟨m, hm, hnear⟩ := roundFix_isNearest k ⟨10 ^ (-n.toInt).toNat, by omega, hle⟩ hd heven
      have hf : (Inum.fixnum ⟨10 ^ (-n.toInt).toNat, by omega, hle⟩ : Inum L).Is
          (10 ^ (-n.toInt).toNat) := ⟨trivial, rfl⟩
      obtain ⟨r, hr, hrun⟩ := roundGeneric_settles fl hx.is hf hd heven
      have heq := (h.paths k ⟨10 ^ (-n.toInt).toNat, by omega, hle⟩ rfl rfl).unique hrun
      simp only [Except.ok.injEq, Mixed.int.injEq] at heq
      have hval : m = generic (10 ^ (-n.toInt).toNat) k.val := by
        rw [← hm.value, heq, hr.value]
        rfl
      exact hnot (hval ▸ hnear)
  | bignum z =>
      obtain ⟨r, m, hrun, hr, hnear⟩ := h.result
      have hlimit : (-n.toInt).toNat < roundLimit L := by
        by_contra hlimit
        exact not_settles_of_limit fl hn (not_lt.mp hlimit) r hrun
      rcases intRound_cases fl hx hn hlimit with ⟨k, y, hk, -⟩ | ⟨r', hr', hrun'⟩
      · cases hk
      · have heq := hrun.unique hrun'
        simp only [Except.ok.injEq, Mixed.int.injEq] at heq
        rw [← hr.value, heq, hr'.value] at hnear
        exact hnot hnear

/-- **`round` is exact exactly for numbers of digits below the limit, if the receiver is no negative
tie.** -/
theorem roundsHalfAway_iff (fl : FloatMethods F) (hx : x.Canonical) (hn : n.toInt < 0) :
    RoundsHalfAway fl x n ↔
      (-n.toInt).toNat < roundLimit L ∧ ¬ NegativeTie (10 ^ (-n.toInt).toNat) x.toInt := by
  have hd : (0 : ℤ) < 10 ^ (-n.toInt).toNat := by positivity
  have heven := even_pow_ten (e := (-n.toInt).toNat) (by omega)
  refine ⟨fun h => ⟨?_, fun htie => not_roundsHalfAway_of_negativeTie hx hn htie h⟩,
    fun ⟨hlimit, htie⟩ => ⟨?_, ?_⟩⟩
  · obtain ⟨r, m, hrun, -, -⟩ := h.result
    by_contra hlimit
    exact not_settles_of_limit fl hn (not_lt.mp hlimit) r hrun
  · rcases intRound_cases fl hx hn hlimit with ⟨k, y, rfl, hy, hrun⟩ | ⟨r, hr, hrun⟩
    · obtain ⟨m, hm, hnear⟩ := roundFix_isNearest k y (hy ▸ hd) (hy ▸ heven)
      exact ⟨_, m, hrun, hm, hy ▸ hnear⟩
    · exact ⟨r, _, hrun, hr, (generic_isNearest_iff hd).mpr htie⟩
  · rintro k y rfl hy
    obtain ⟨m, hm, hnear⟩ := roundFix_isNearest k y (hy ▸ hd) (hy ▸ heven)
    have hf : (Inum.fixnum y).Is (10 ^ (-n.toInt).toNat) := ⟨trivial, hy⟩
    obtain ⟨r, hr, hrun⟩ := roundGeneric_settles fl hx.is hf hd heven
    have hvalue : m = generic (10 ^ (-n.toInt).toNat) (Inum.fixnum k).toInt :=
      (hy ▸ hnear).unique ((generic_isNearest_iff hd).mpr htie)
    rw [hvalue] at hm
    rw [hm.unique hr]
    exact hrun

end Method

/-! ## Two receivers -/

/-- `10 ** 20 + 5`, negated. -/
def minusTie : Inum .lp64 := .bignum ⟨false, [1661992965, 1808227885, 5]⟩

theorem minusTie_canonical : minusTie.Canonical := ⟨by decide, by decide, by decide⟩

/-- Floats that are not told apart. -/
def unitFloatMethods : FloatMethods Unit where
  toFloats := unitFloats
  add _ _ := ()
  sub _ _ := ()
  div _ _ := ()
  mod _ _ := ()
  lt _ _ := false
  cmp _ _ := none
  equal _ _ := true
  neg _ := ()

/-- Rounded to hundreds the same receiver is no tie. -/
theorem roundsHalfAway_iff_hundreds :
    RoundsHalfAway unitFloatMethods minusTie (.fixnum ⟨-2, by decide, by decide⟩) ↔
      (2 : ℕ) < roundLimit .lp64 ∧ ¬ NegativeTie (10 ^ 2) minusTie.toInt :=
  roundsHalfAway_iff (n := .fixnum ⟨-2, by decide, by decide⟩) unitFloatMethods minusTie_canonical
    (by decide)

/-- -(10 ** 20 + 5) is rounded to -(10 ** 20), towards zero. -/
theorem not_roundsHalfAway_minusTie :
    ¬ RoundsHalfAway unitFloatMethods minusTie (.fixnum ⟨-1, by decide, by decide⟩) :=
  not_roundsHalfAway_of_negativeTie (n := .fixnum ⟨-1, by decide, by decide⟩) minusTie_canonical
    (by decide) (by decide)

end MacRuby
