import MacRuby.Bignum.Square
import MacRuby.Numeric.Integer

/-!
# Powers of Integers

`**` of fixnums and bignums. A fixnum is raised by `int_pow`, which squares a word as long as its
square fits and collects the odd factors in another; what does not fit is left to `rb_big_pow`,
which goes over the bits of the exponent.

`rb_big_pow` gives a Float where the digits of the base, times the exponent, are more than a limit.
The product is a bound for the digits of the power, so there are powers of half that size which are
Floats.

## Main definitions

* `Power` — what a power can be.
* `rbBigPow`, `intPow`, `fixPow`, `intPower` — the methods.
* `PowState` — what holds before each turn of the loop of `int_pow`.
* `ExactPower` — what is required of a power.

## Main results

* `rbBigPow_int`, `rbBigPow_float` — the power by bits, and where it is a Float.
* `intPow_settles` — the power by words.
* `intPower_exact` — powers are exact.
-/

namespace MacRuby

/-! ## The code -/

/-- The operations of Floats that powers use. -/
structure Floats (F : Type) where
  /-- `rb_big2dbl(x)`. -/
  ofBig : Bignum → F
  /-- `(double)n`. -/
  ofLong : ℤ → F
  /-- `pow(x, y)`. -/
  pow : F → F → F
  /-- `x * y`. -/
  mul : F → F → F

/-- What a power can be. -/
inductive Power (L : LongSize) (F : Type)
  | int (r : Inum L)
  | float (f : F)
  /-- The method `**` of `rb_rational_raw1(x)`, called with `y`. -/
  | rational (x y : Inum L)

section Code

variable {L : LongSize} {F : Type}

/-- `bigsqr(x)`, which does not leave its buffer. -/
def square (L : LongSize) (x : Bignum) : Bignum :=
  (bigsqr L x).get (by
    obtain ⟨z, hz, -⟩ := bigsqr_spec L x
    rw [hz]
    rfl)

/-- `BIGLEN_LIMIT`. -/
def biglenLimit : ℕ := 1024 * 1024 / 4

/-- The loop of `rb_big_pow` over the lowest bits of `yy`; no `z` stands for 0. -/
def powLoop (L : LongSize) (x : Bignum) (yy : ℕ) : ℕ → Option Bignum → Option Bignum
  | 0, z => z
  | i + 1, z =>
      let z := z.map fun z => bigtrunc (square L z)
      powLoop L x yy i
        (if yy.testBit i then
          some (match z with
            | some z => bigtrunc (rbBigMul0 L z (.bignum x))
            | none => x)
        else z)

/-- There is a product once there was a bit. -/
theorem powLoop_isSome (L : LongSize) (x : Bignum) (yy : ℕ) {n : ℕ} {z : Option Bignum}
    (h : z.isSome ∨ yy % 2 ^ n ≠ 0) : (powLoop L x yy n z).isSome := by
  induction n generalizing z with
  | zero => exact h.resolve_right fun hne => hne (Nat.mod_one yy)
  | succ n ih =>
      rw [powLoop]
      apply ih
      by_cases hbit : yy.testBit n = true
      · rw [if_pos hbit]
        exact .inl rfl
      · rw [if_neg hbit, Option.isSome_map]
        refine h.imp_right fun hne => ?_
        rw [Nat.testBit_eq_decide_div_mod_eq, decide_eq_true_eq] at hbit
        rw [pow_succ, Nat.mod_mul] at hne
        have hzero : yy / 2 ^ n % 2 = 0 := by omega
        rwa [hzero, mul_zero, add_zero] at hne

theorem Fixnum.toNat_mod (y : Fixnum L) (h0 : ¬ y.val = 0) (h1 : ¬ y.val < 0) :
    y.val.toNat % 2 ^ (L.bits - 1) ≠ 0 := by
  have h := y.le_max
  have hmax : L.fixnumMax < ((2 ^ (L.bits - 1) : ℕ) : ℤ) := by cases L <;> decide
  rw [Nat.mod_eq_of_lt (by omega)]
  omega

/-- `rb_big_pow(x, y)`, for an Integer `y`. -/
def rbBigPow (fl : Floats F) (x : Bignum) : Inum L → Power L F
  | .fixnum y =>
      if h0 : y.val = 0 then .int (.one L)
      else if h1 : y.val < 0 then .rational (.bignum x) (.fixnum y)
      else if x.len > biglenLimit ∨ x.len > biglenLimit / y.val.toNat then
        .float (fl.pow (fl.ofBig x) (fl.ofLong y.val))
      else
        .int (bignorm L ((powLoop L x y.val.toNat (L.bits - 1) none).get
          (powLoop_isSome L x _ (.inr (y.toNat_mod h0 h1)))))
  | .bignum y =>
      if intCmp (.bignum y) (.zero L) < 0 then .rational (.bignum x) (.bignum y)
      else .float (fl.pow (fl.ofBig x) (fl.ofBig y))

/-- `bignum:` in `int_pow`. -/
def intPowBig (fl : Floats F) (neg : Bool) (x : ℤ) (y : ℕ) (z : ℤ) : Power L F :=
  match rbBigPow fl (rbInt2big L x) (long2num L y) with
  | .int v =>
      if z ≠ 1 then .int (rbBigMul L (rbInt2big L (if neg then L.toLong (-z) else z)) v)
      else .int v
  | .float v =>
      if z ≠ 1 then .float (fl.mul (fl.ofBig (rbInt2big L (if neg then L.toLong (-z) else z))) v)
      else .float v
  | .rational v w => .rational v w

/-- The loops of `int_pow`. -/
def intPowLoop (fl : Floats F) (neg : Bool) : ℕ → ℤ → ℕ → ℤ → Except DivError (Power L F)
  | 0, _, _, _ => .error .outOfFuel
  | fuel + 1, x, y, z =>
      if y % 2 = 0 then
        if fitSqrtLong L x then intPowLoop fl neg fuel (L.toLong (x * x)) (y / 2) z
        else .ok (intPowBig fl neg x y z)
      else
        let xz := L.toLong (x * z)
        if ¬ xz < L.fixnumMax + 1 ∨ xz.tdiv x ≠ z then .ok (intPowBig fl neg x y z)
        else if y - 1 = 0 then .ok (.int (long2num L (if neg then L.toLong (-xz) else xz)))
        else intPowLoop fl neg fuel x (y - 1) xz

/-- `int_pow(x, y)`. -/
def intPow (fl : Floats F) (fuel : ℕ) (x : ℤ) (y : ℕ) : Except DivError (Power L F) :=
  let neg := x < 0
  let x := if neg then L.toLong (-x) else x
  if y % 2 = 1 then intPowLoop fl neg fuel x (y - 1) x else intPowLoop fl false fuel x y 1

/-- `INT2FIX(-1)`. -/
def Inum.minusOne (L : LongSize) : Inum L :=
  .fixnum ⟨-1, fixnumMin_le_neg_one L, neg_one_le_fixnumMax L⟩

/-- `int_even_p(num)`. -/
def intEvenP (fuel : ℕ) (num : Inum L) : Except DivError Bool := do
  let r ← intMod fuel num (.fixnum ⟨2, by cases L <;> decide, by cases L <;> decide⟩)
  match r with
  | .fixnum n => pure (n.val = 0)
  | .bignum _ => pure false

/-- `fix_pow(x, y)`, for an Integer `y`. -/
def fixPow (fl : Floats F) (fuel : ℕ) (x : Fixnum L) : Inum L → Except DivError (Power L F)
  | .fixnum y =>
      let a := x.val
      let b := y.val
      if b < 0 then .ok (.rational (.fixnum x) (.fixnum y))
      else if b = 0 then .ok (.int (.one L))
      else if b = 1 then .ok (.int (.fixnum x))
      else if a = 0 then .ok (.int (.zero L))
      else if a = 1 then .ok (.int (.one L))
      else if a = -1 then .ok (.int (if b.tmod 2 = 0 then .one L else .minusOne L))
      else intPow fl fuel a b.toNat
  | .bignum y =>
      let a := x.val
      if intCmp (.bignum y) (.zero L) < 0 then .ok (.rational (.fixnum x) (.bignum y))
      else if a = 0 then .ok (.int (.zero L))
      else if a = 1 then .ok (.int (.one L))
      else if a = -1 then do
        let even ← intEvenP fuel (.bignum y : Inum L)
        pure (.int (if even then .one L else .minusOne L))
      else .ok (rbBigPow fl (rbInt2big L a) (.bignum y))

/-- `x ** y`. -/
def intPower (fl : Floats F) (fuel : ℕ) : Inum L → Inum L → Except DivError (Power L F)
  | .fixnum x, y => fixPow fl fuel x y
  | .bignum x, y => .ok (rbBigPow fl x y)

end Code

/-! ## Powers by bits -/

section Bits

variable {L : LongSize} {F : Type} {fl : Floats F}

theorem toInt_square (L : LongSize) (x : Bignum) : (square L x).toInt = x.toInt * x.toInt := by
  obtain ⟨z, hz, hval⟩ := bigsqr_exact L x
  have hsquare : square L x = z := Option.get_of_mem _ hz
  rw [hsquare, hval]

theorem toInt_rbBigMul0 (L : LongSize) (x y : Bignum) :
    (rbBigMul0 L x (.bignum y)).toInt = x.toInt * y.toInt := by
  rw [← toInt_bignorm L]
  exact toInt_rbBigMul x (.bignum y : Inum L)

/-- `z` is the power of `x` to `e`, or there is no `z` and `e` is zero. -/
def PowSoFar (x : Bignum) (e : ℕ) : Option Bignum → Prop
  | none => e = 0
  | some z => z.toInt = x.toInt ^ e

/-- **The loop goes over the bits of the exponent**, from the highest on. -/
theorem powLoop_spec (L : LongSize) (x : Bignum) (yy : ℕ) {n : ℕ} {z : Option Bignum}
    (h : PowSoFar x (yy / 2 ^ n) z) : PowSoFar x yy (powLoop L x yy n z) := by
  induction n generalizing z with
  | zero => rwa [pow_zero, Nat.div_one] at h
  | succ n ih =>
      have hdiv : yy / 2 ^ n = 2 * (yy / 2 ^ (n + 1)) + yy / 2 ^ n % 2 := by
        rw [pow_succ, ← Nat.div_div_eq_div_mul]
        omega
      have hbit := Nat.testBit_eq_decide_div_mod_eq (x := yy) (i := n)
      rw [powLoop]
      apply ih
      by_cases hone : yy / 2 ^ n % 2 = 1
      · rw [hone] at hdiv
        rw [hbit, decide_eq_true hone, if_pos rfl, hdiv]
        cases z with
        | none =>
            have hzero : yy / 2 ^ (n + 1) = 0 := h
            show x.toInt = _
            rw [hzero, mul_zero, zero_add, pow_one]
        | some z =>
            have hz : z.toInt = x.toInt ^ (yy / 2 ^ (n + 1)) := h
            show (bigtrunc (rbBigMul0 L (bigtrunc (square L z)) (.bignum x))).toInt = _
            rw [toInt_bigtrunc, toInt_rbBigMul0, toInt_bigtrunc, toInt_square, hz]
            ring
      · have hzero : yy / 2 ^ n % 2 = 0 := by omega
        rw [hzero, add_zero] at hdiv
        rw [hbit, decide_eq_false hone, if_neg Bool.false_ne_true, hdiv]
        cases z with
        | none =>
            have hnone : yy / 2 ^ (n + 1) = 0 := h
            show 2 * _ = 0
            rw [hnone]
        | some z =>
            have hz : z.toInt = x.toInt ^ (yy / 2 ^ (n + 1)) := h
            show (bigtrunc (square L z)).toInt = _
            rw [toInt_bigtrunc, toInt_square, hz]
            ring

/-- **Up to the limit `rb_big_pow` is exact.** -/
theorem rbBigPow_int (fl : Floats F) (x : Bignum) {y : Fixnum L} (hy : 0 ≤ y.val)
    (hlen : x.len * y.val.toNat ≤ biglenLimit) :
    ∃ r : Inum L, rbBigPow fl x (.fixnum y) = .int r ∧ r.Is (x.toInt ^ y.val.toNat) := by
  by_cases h0 : y.val = 0
  · refine ⟨.one L, ?_, trivial, ?_⟩
    · rw [rbBigPow, dif_pos h0]
    · rw [h0, Int.toNat_zero, pow_zero]
      rfl
  · have h1 : ¬ y.val < 0 := not_lt.mpr hy
    have hpos : 0 < y.val.toNat := by omega
    have hlimit : ¬ (x.len > biglenLimit ∨ x.len > biglenLimit / y.val.toNat) := by
      rw [not_or, not_lt, not_lt, Nat.le_div_iff_mul_le hpos]
      exact ⟨(Nat.le_mul_of_pos_right _ hpos).trans hlen, hlen⟩
    have hsome := powLoop_isSome L x y.val.toNat (z := none) (.inr (y.toNat_mod h0 h1))
    refine ⟨_, by rw [rbBigPow, dif_neg h0, dif_neg h1, if_neg hlimit], bignorm_is ?_⟩
    have hstart : PowSoFar x (y.val.toNat / 2 ^ (L.bits - 1)) none := by
      have hle := y.le_max
      have hmax : L.fixnumMax < ((2 ^ (L.bits - 1) : ℕ) : ℤ) := by cases L <;> decide
      exact Nat.div_eq_of_lt (by omega)
    have hrun := powLoop_spec L x y.val.toNat hstart
    rw [← Option.some_get hsome] at hrun
    exact hrun

/-- **Above the limit it gives a Float.** -/
theorem rbBigPow_float (fl : Floats F) (x : Bignum) {y : Fixnum L} (hy : 0 ≤ y.val)
    (hlen : biglenLimit < x.len * y.val.toNat) :
    rbBigPow fl x (.fixnum y) = .float (fl.pow (fl.ofBig x) (fl.ofLong y.val)) := by
  have h0 : ¬ y.val = 0 := by
    intro h0
    rw [h0, Int.toNat_zero, mul_zero] at hlen
    exact Nat.not_lt_zero _ hlen
  have h1 : ¬ y.val < 0 := not_lt.mpr hy
  have hlimit : x.len > biglenLimit / y.val.toNat := (Nat.div_lt_iff_lt_mul (by omega)).mpr hlen
  rw [rbBigPow, dif_neg h0, dif_neg h1, if_pos (.inr hlimit)]

end Bits

/-! ## Powers by words -/

section Words

variable {L : LongSize} {F : Type} {fl : Floats F} {neg : Bool} {x z a : ℤ} {y b : ℕ}

/-- The digits of a word, times an exponent: what the limit is for. -/
def powSize (L : LongSize) (x : ℤ) (y : ℕ) : ℕ := (rbInt2big L x).len * y

/-- What holds before each turn of the loop of `int_pow`: the power of the square times the product
is the power that is looked for. -/
structure PowState (L : LongSize) (a : ℤ) (b : ℕ) (neg : Bool) (x : ℤ) (y : ℕ) (z : ℤ) : Prop where
  two_le : 2 ≤ x
  word : x ≤ 2 ^ (L.bits - 2)
  one_le : 1 ≤ z
  word_product : z ≤ 2 ^ (L.bits - 2)
  /-- A sign is pending only with a product. -/
  two_le_product : neg = true → 2 ≤ z
  /-- The product has no more factors than the square. -/
  product_le : z ≤ x * x
  product_le_of_odd : y % 2 = 1 → z ≤ x
  value : (if neg then -z else z) * x ^ y = a ^ b
  exponent : y ≤ b
  size : powSize L x y ≤ powSize L a b

/-- What a power of `a` to `b` is: an Integer of that value, or a Float, which it is only where it
is large. -/
inductive PowResult (L : LongSize) (F : Type) (a : ℤ) (b : ℕ) (size : ℕ) : Power L F → Prop
  | int {r : Inum L} (h : r.Is (a ^ b)) : PowResult L F a b size (.int r)
  | float {f : F} (hsize : biglenLimit < size) (hlarge : 2 ^ (15 * biglenLimit) ≤ |a| ^ b) :
      PowResult L F a b size (.float f)

/-- **What is above the limit is large**: of the bits of its digits, not even half are missing. -/
theorem le_pow_of_size {x : Bignum} (hx : x.Trimmed) (hmag : 2 ^ 15 ≤ x.mag)
    (hsize : biglenLimit < x.len * y) : 2 ^ (15 * biglenLimit) ≤ x.mag ^ y := by
  rcases hx.top with htop | ⟨hone, -⟩
  · obtain ⟨n, hn⟩ : ∃ n, x.len = n + 1 := ⟨x.len - 1, by have := hx.pos; omega⟩
    cases n with
    | zero =>
        rw [hn, zero_add, one_mul] at hsize
        calc (2 : ℤ) ^ (15 * biglenLimit) ≤ 2 ^ (15 * y) :=
              pow_le_pow_right₀ (by decide) (Nat.mul_le_mul_left _ hsize.le)
          _ = (2 ^ 15) ^ y := pow_mul _ _ _
          _ ≤ x.mag ^ y := pow_le_pow_left₀ (by decide) hmag _
    | succ n =>
        have hle : bigrad ^ (n + 1) ≤ x.mag := pow_le_mag_of_top_ne_zero hn (by
          rwa [hn, Nat.add_sub_cancel] at htop)
        have hexp : 15 * biglenLimit ≤ 32 * ((n + 1) * y) := by
          rw [hn] at hsize
          have h1 : (n + 1 + 1) * y = (n + 1) * y + y := by ring
          have h2 : (n + 1) * y = n * y + y := by ring
          omega
        calc (2 : ℤ) ^ (15 * biglenLimit) ≤ 2 ^ (32 * ((n + 1) * y)) :=
              pow_le_pow_right₀ (by decide) hexp
          _ = (bigrad ^ (n + 1)) ^ y := by rw [bigrad, ← pow_mul, ← pow_mul]
          _ ≤ x.mag ^ y := pow_le_pow_left₀ (pow_nonneg bigrad_pos.le _) hle _
  · rw [hone, one_mul] at hsize
    calc (2 : ℤ) ^ (15 * biglenLimit) ≤ 2 ^ (15 * y) :=
          pow_le_pow_right₀ (by decide) (Nat.mul_le_mul_left _ hsize.le)
      _ = (2 ^ 15) ^ y := pow_mul _ _ _
      _ ≤ x.mag ^ y := pow_le_pow_left₀ (by decide) hmag _

/-- The square of a word has at most twice its digits. -/
theorem len_square_le (h0 : 0 ≤ x) (hx : x < 2 ^ (L.bits - 1)) (hsq : x * x < 2 ^ (L.bits - 1)) :
    (rbInt2big L (x * x)).len ≤ 2 * (rbInt2big L x).len := by
  have hpow : (0 : ℤ) < 2 ^ (L.bits - 1) := by positivity
  have hval := toInt_rbInt2big (L := L) (n := x) (by omega) hx
  have hval' := toInt_rbInt2big (L := L) (n := x * x) (by nlinarith) hsq
  have htrim := trimmed_rbInt2big hval
  have hmag : (rbInt2big L x).mag = x := by rw [← Bignum.abs_toInt, hval, abs_of_nonneg h0]
  have hlt : x < bigrad ^ (rbInt2big L x).len := by
    have h := magnitude_lt (rbInt2big L x).digits
    change (rbInt2big L x).mag < _ at h
    rwa [hmag] at h
  refine (trimmed_rbInt2big hval').len_le (by have := htrim.pos; omega) ?_
  rw [← Bignum.abs_toInt, hval', abs_of_nonneg (mul_nonneg h0 h0), Nat.two_mul, pow_add]
  exact mul_lt_mul'' hlt hlt h0 h0

namespace PowState

/-- **Squaring keeps the power.** -/
theorem squared (h : PowState L a b neg x y z) (heven : y % 2 = 0) (hfit : fitSqrtLong L x = true) :
    L.toLong (x * x) = x * x ∧ PowState L a b neg (x * x) (y / 2) z := by
  have hroot : x < 2 ^ ((L.bits - 1) / 2) := by
    rw [fitSqrtLong, Bool.and_eq_true, decide_eq_true_eq] at hfit
    exact hfit.1
  have hsquare : (2 : ℤ) ^ ((L.bits - 1) / 2) * 2 ^ ((L.bits - 1) / 2) = 2 ^ (L.bits - 2) := by
    cases L <;> decide
  obtain ⟨-, -, hhalf⟩ := L.fixnum_range
  have hpos : (0 : ℤ) < 2 ^ (L.bits - 2) := by positivity
  have h2 := h.two_le
  have hword : x * x < 2 ^ (L.bits - 2) := hsquare ▸ mul_lt_mul'' hroot hroot (by omega) (by omega)
  have hle : x ≤ x * x := le_mul_of_one_le_left (by omega) (by omega)
  have hy : y = 2 * (y / 2) := by omega
  refine ⟨LongSize.toLong_eq (by omega) (by omega), by omega, hword.le, h.one_le, h.word_product,
    h.two_le_product, ?_, fun _ => h.product_le, ?_, ?_, ?_⟩
  · exact h.product_le.trans (le_mul_of_one_le_left (by omega) (by omega))
  · rw [← h.value]
    nth_rewrite 2 [hy]
    rw [pow_mul, pow_two]
  · exact (Nat.div_le_self y 2).trans h.exponent
  · have hlen := len_square_le (L := L) (x := x) (by omega) (by omega) (by omega)
    calc powSize L (x * x) (y / 2) ≤ 2 * (rbInt2big L x).len * (y / 2) :=
      Nat.mul_le_mul_right _ hlen
      _ = powSize L x y := by
          rw [powSize]
          nth_rewrite 2 [hy]
          ring
      _ ≤ powSize L a b := h.size

/-- **Collecting a factor keeps the power.** -/
theorem multiplied (h : PowState L a b neg x y z) (hodd : y % 2 = 1)
    (hfix : L.toLong (x * z) < L.fixnumMax + 1) (hdiv : (L.toLong (x * z)).tdiv x = z) :
    L.toLong (x * z) = x * z ∧ PowState L a b neg x (y - 1) (x * z) := by
  have h2 := h.two_le
  have h1 := h.one_le
  have hword := h.word
  have heq : L.toLong (x * z) = x * z := mul_of_tdiv (by omega) (by omega) hword hdiv
  obtain ⟨-, hmax, -⟩ := L.fixnum_range
  rw [heq] at hfix
  have hle : x ≤ x * z := le_mul_of_one_le_right (by omega) h1
  have hy : y = y - 1 + 1 := by omega
  have hyb := h.exponent
  refine ⟨heq, h2, hword, by omega, by omega, fun _ => by omega, ?_, fun hodd' => by omega, ?_,
    by omega, ?_⟩
  · exact mul_le_mul_of_nonneg_left (h.product_le_of_odd hodd) (by omega)
  · rw [← h.value]
    nth_rewrite 2 [hy]
    cases neg <;> simp only [Bool.false_eq_true, if_false, if_true] <;> ring
  · exact (Nat.mul_le_mul_left _ (Nat.sub_le y 1)).trans h.size

/-- **What is left to `rb_big_pow` is the rest of the power.** -/
theorem handedOver (h : PowState L a b neg x y z) (fl : Floats F) (hb : (b : ℤ) ≤ L.fixnumMax)
    (hlarge : 2 ^ 15 ≤ x) : PowResult L F a b (powSize L a b) (intPowBig fl neg x y z) := by
  have h2 := h.two_le
  have h1 := h.one_le
  have hword := h.word
  have hwordz := h.word_product
  have hyb := h.exponent
  obtain ⟨hmin, hmax, hhalf⟩ := L.fixnum_range
  have hpos : (0 : ℤ) < 2 ^ (L.bits - 2) := by positivity
  have hx := toInt_rbInt2big (L := L) (n := x) (by omega) (by omega)
  have hy : long2num L y = .fixnum ⟨y, by omega, by omega⟩ := dif_pos ⟨by omega, by omega⟩
  by_cases hlen : powSize L x y ≤ biglenLimit
  · obtain ⟨v, hv, hval⟩ := rbBigPow_int (L := L) fl (rbInt2big L x)
      (y := ⟨y, by omega, by omega⟩) (by dsimp only; omega) hlen
    rw [hx] at hval
    dsimp only [Int.toNat_natCast] at hval
    rw [intPowBig, hy, hv]
    dsimp only
    by_cases hone : z = 1
    · have hneg : neg = false := by
        rw [← Bool.not_eq_true]
        intro hneg
        have := h.two_le_product hneg
        omega
      rw [if_neg (not_not.mpr hone)]
      have hpow := h.value
      rw [hneg, if_neg Bool.false_ne_true, hone, one_mul] at hpow
      exact .int (hpow ▸ hval)
    · rw [if_pos hone]
      have hsigned : (rbInt2big L (if neg then L.toLong (-z) else z)).toInt =
          if neg then -z else z := by
        have hlong : L.toLong (-z) = -z := LongSize.toLong_eq (by omega) (by omega)
        rw [hlong]
        apply toInt_rbInt2big <;> split_ifs <;> omega
      refine .int ⟨bignorm_canonical L _, ?_⟩
      rw [toInt_rbBigMul, hsigned, hval.value]
      exact h.value
  · rw [not_le] at hlen
    have hfloat := rbBigPow_float (L := L) fl (rbInt2big L x) (y := ⟨y, by omega, by omega⟩)
      (by dsimp only; omega) hlen
    have hmag : (rbInt2big L x).mag = x := by
      rw [← Bignum.abs_toInt, hx, abs_of_nonneg (by omega)]
    have hpow : 2 ^ (15 * biglenLimit) ≤ |a| ^ b := by
      have hxy := le_pow_of_size (trimmed_rbInt2big hx) (by rw [hmag]; exact hlarge) hlen
      rw [hmag] at hxy
      have habs : |if neg then -z else z| = z := by
        split_ifs
        · rw [abs_neg, abs_of_nonneg (by omega)]
        · exact abs_of_nonneg (by omega)
      have hpow0 : 0 ≤ x ^ y := pow_nonneg (by omega) _
      rw [← abs_pow, ← h.value, abs_mul, habs, abs_of_nonneg hpow0]
      exact hxy.trans (le_mul_of_one_le_left hpow0 h1)
    have hsize := hlen.trans_le h.size
    rw [intPowBig, hy, hfloat]
    dsimp only
    split
    · exact .float hsize hpow
    · exact .float hsize hpow

end PowState

/-- A word that does not pass the test for small ones. -/
theorem le_of_not_fitSqrtLong (h2 : 2 ≤ x) (hfit : ¬ fitSqrtLong L x = true) : 2 ^ 15 ≤ x := by
  have hroot : (2 : ℤ) ^ 15 ≤ 2 ^ ((L.bits - 1) / 2) := by cases L <;> decide
  by_contra hx
  refine hfit ?_
  rw [fitSqrtLong, Bool.and_eq_true, decide_eq_true_eq, decide_eq_true_eq]
  exact ⟨by omega, by omega⟩

/-- A product that does not fit has a large factor. -/
theorem le_of_overflow (h2 : 2 ≤ x) (h1 : 1 ≤ z) (hz : z ≤ x)
    (hover : ¬ L.toLong (x * z) < L.fixnumMax + 1 ∨ (L.toLong (x * z)).tdiv x ≠ z) :
    2 ^ 15 ≤ x := by
  by_contra hx
  obtain ⟨-, hmax, hhalf⟩ := L.fixnum_range
  have hword : (2 : ℤ) ^ 15 * 2 ^ 15 ≤ 2 ^ (L.bits - 2) := by cases L <;> decide
  have hlt : x * z < 2 ^ (L.bits - 2) :=
    (mul_lt_mul'' (by omega) (by omega) (by omega) (by omega)).trans_le hword
  have hpos : 0 < x * z := mul_pos (by omega) (by omega)
  have heq : L.toLong (x * z) = x * z := LongSize.toLong_eq (by omega) (by omega)
  rw [heq, Int.mul_tdiv_cancel_left _ (by omega)] at hover
  rcases hover with h | h
  · omega
  · exact h rfl

/-- The turns that the loop takes at most: with no factor left the square still grows until it does
not fit. -/
def powTurns (L : LongSize) (x : ℤ) (y : ℕ) : ℕ :=
  if y = 0 then (2 ^ ((L.bits - 1) / 2) - x).toNat + 1 else y

theorem powTurns_pos (L : LongSize) (x : ℤ) (y : ℕ) : 0 < powTurns L x y := by
  rw [powTurns]
  split_ifs <;> omega

theorem powTurns_squared (h2 : 2 ≤ x) (heven : y % 2 = 0) (hfit : fitSqrtLong L x = true) :
    powTurns L (x * x) (y / 2) < powTurns L x y := by
  have hroot : x < 2 ^ ((L.bits - 1) / 2) := by
    rw [fitSqrtLong, Bool.and_eq_true, decide_eq_true_eq] at hfit
    exact hfit.1
  have hlt : x < x * x := lt_mul_of_one_lt_left (by omega) (by omega)
  by_cases hy : y = 0
  · subst hy
    rw [powTurns, powTurns, if_pos (Nat.zero_div 2), if_pos rfl]
    omega
  · rw [powTurns, powTurns, if_neg (by omega), if_neg hy]
    omega

/-- **The loop of `int_pow` ends with the power.** -/
theorem intPowLoop_spec (fl : Floats F) (hb : (b : ℤ) ≤ L.fixnumMax)
    (h : PowState L a b neg x y z) :
    ∃ p, PowResult L F a b (powSize L a b) p ∧
      ∀ fuel, powTurns L x y ≤ fuel → intPowLoop fl neg fuel x y z = .ok p := by
  induction hn : powTurns L x y using Nat.strong_induction_on generalizing x y z with
  | _ n ih =>
      have hpos := powTurns_pos L x y
      have h2 := h.two_le
      by_cases heven : y % 2 = 0
      · by_cases hfit : fitSqrtLong L x = true
        · obtain ⟨hlong, hnext⟩ := h.squared heven hfit
          have hlt := powTurns_squared h2 heven hfit
          obtain ⟨p, hp, hrun⟩ := ih _ (hn ▸ hlt) hnext rfl
          refine ⟨p, hp, fun fuel hfuel => ?_⟩
          obtain ⟨m, rfl⟩ : ∃ m, fuel = m + 1 := ⟨fuel - 1, by omega⟩
          rw [intPowLoop, if_pos heven, if_pos hfit, hlong]
          exact hrun m (by omega)
        · refine ⟨_, h.handedOver fl hb (le_of_not_fitSqrtLong h2 hfit), fun fuel hfuel => ?_⟩
          obtain ⟨m, rfl⟩ : ∃ m, fuel = m + 1 := ⟨fuel - 1, by omega⟩
          rw [intPowLoop, if_pos heven, if_neg hfit]
      · have hodd : y % 2 = 1 := by omega
        by_cases hover : ¬ L.toLong (x * z) < L.fixnumMax + 1 ∨ (L.toLong (x * z)).tdiv x ≠ z
        · have hlarge := le_of_overflow h2 h.one_le (h.product_le_of_odd hodd) hover
          refine ⟨_, h.handedOver fl hb hlarge, fun fuel hfuel => ?_⟩
          obtain ⟨m, rfl⟩ : ∃ m, fuel = m + 1 := ⟨fuel - 1, by omega⟩
          rw [intPowLoop, if_neg heven]
          exact if_pos hover
        · have hfits := not_or.mp hover
          obtain ⟨hlong, hnext⟩ := h.multiplied hodd (not_not.mp hfits.1) (not_not.mp hfits.2)
          rw [hlong] at hover
          by_cases hlast : y - 1 = 0
          · -- the product is the power
            have hval := hnext.value
            have hword := hnext.word_product
            have hone := hnext.one_le
            obtain ⟨hmin, hmax, hhalf⟩ := L.fixnum_range
            rw [hlast, pow_zero, mul_one] at hval
            have hneg : L.toLong (-(x * z)) = -(x * z) := LongSize.toLong_eq (by omega) (by omega)
            refine ⟨.int (long2num L (if neg then -(x * z) else x * z)), ?_, fun fuel hfuel => ?_⟩
            · refine .int (hval ▸ long2num_is ?_ ?_)
              · split_ifs <;> omega
              · split_ifs <;> omega
            · obtain ⟨m, rfl⟩ : ∃ m, fuel = m + 1 := ⟨fuel - 1, by omega⟩
              rw [intPowLoop, if_neg heven, hlong]
              dsimp only
              rw [if_neg hover, if_pos hlast, hneg]
          · have hlt : powTurns L x (y - 1) < powTurns L x y := by
              rw [powTurns, powTurns, if_neg hlast, if_neg (by omega)]
              omega
            obtain ⟨p, hp, hrun⟩ := ih _ (hn ▸ hlt) hnext rfl
            refine ⟨p, hp, fun fuel hfuel => ?_⟩
            obtain ⟨m, rfl⟩ : ∃ m, fuel = m + 1 := ⟨fuel - 1, by omega⟩
            rw [intPowLoop, if_neg heven, hlong]
            dsimp only
            rw [if_neg hover, if_neg hlast]
            exact hrun m (by omega)

/-- A number has as many digits as its negation. -/
theorem len_rbInt2big_neg (h0 : a < 0) (hword : -2 ^ (L.bits - 2) ≤ a) :
    (rbInt2big L (-a)).len = (rbInt2big L a).len := by
  obtain ⟨-, -, hhalf⟩ := L.fixnum_range
  have hbits : (2 : ℤ) ^ L.bits = 2 * 2 ^ (L.bits - 1) := by cases L <;> rfl
  have hpos : (0 : ℤ) < 2 ^ (L.bits - 2) := by positivity
  have hlong : L.toLong (-a) = -a := LongSize.toLong_eq (by omega) (by omega)
  rw [rbInt2big, if_neg (by omega), rbInt2big, if_pos h0, hlong,
    Int.emod_eq_of_lt (by omega) (by omega)]
  rfl

/-- What the loop starts from. -/
theorem powState_init (ha : 2 ≤ |a|) (hword : -2 ^ (L.bits - 2) ≤ a) (hword' : a ≤ 2 ^ (L.bits - 2))
    (hb : 0 < b) :
    if b % 2 = 1 then PowState L a b (decide (a < 0)) |a| (b - 1) |a|
    else PowState L a b false |a| b 1 := by
  have habs : |a| ≤ 2 ^ (L.bits - 2) := abs_le.mpr ⟨by omega, hword'⟩
  have hsize : ∀ y, y ≤ b → powSize L |a| y ≤ powSize L a b := by
    intro y hy
    have hlen : (rbInt2big L |a|).len = (rbInt2big L a).len := by
      by_cases h0 : a < 0
      · rw [abs_of_neg h0]
        exact len_rbInt2big_neg h0 hword
      · rw [abs_of_nonneg (not_lt.mp h0)]
    rw [powSize, powSize, hlen]
    exact Nat.mul_le_mul_left _ hy
  have hle : |a| ≤ |a| * |a| := le_mul_of_one_le_left (by omega) (by omega)
  split_ifs with hodd
  · have heven : Even (b - 1) := ⟨(b - 1) / 2, by omega⟩
    refine ⟨ha, habs, by omega, habs, fun _ => ha, hle, fun h => le_refl _, ?_, Nat.sub_le b 1,
      hsize _ (Nat.sub_le b 1)⟩
    have hsigned : (if decide (a < 0) = true then -|a| else |a|) = a := by
      simp only [decide_eq_true_eq]
      split_ifs with h0
      · rw [abs_of_neg h0, neg_neg]
      · exact abs_of_nonneg (not_lt.mp h0)
    rw [hsigned, heven.pow_abs, ← pow_succ', Nat.sub_add_cancel hb]
  · have heven : Even b := ⟨b / 2, by omega⟩
    refine ⟨ha, habs, le_refl _, by omega, fun h => absurd h Bool.false_ne_true, by omega,
      fun h => absurd h hodd, ?_, le_refl _, hsize _ (le_refl _)⟩
    rw [if_neg Bool.false_ne_true, one_mul, heven.pow_abs]

/-- **`int_pow` ends with the power** of a word that is not 0, 1 or -1. -/
theorem intPow_settles (fl : Floats F) (ha : 2 ≤ |a|) (hword : -2 ^ (L.bits - 2) ≤ a)
    (hword' : a ≤ 2 ^ (L.bits - 2)) (hb : 0 < b) (hb' : (b : ℤ) ≤ L.fixnumMax) :
    ∃ p, PowResult L F a b (powSize L a b) p ∧
      Fuel.Settles (fun fuel => intPow fl fuel a b) (.ok p) := by
  have hinit := powState_init ha hword hword' hb
  have habs : (if a < 0 then L.toLong (-a) else a) = |a| := by
    obtain ⟨-, -, hhalf⟩ := L.fixnum_range
    have hpos : (0 : ℤ) < 2 ^ (L.bits - 2) := by positivity
    split_ifs with h0
    · rw [LongSize.toLong_eq (by omega) (by omega), abs_of_neg h0]
    · rw [abs_of_nonneg (not_lt.mp h0)]
  by_cases hodd : b % 2 = 1
  · rw [if_pos hodd] at hinit
    obtain ⟨p, hp, hrun⟩ := intPowLoop_spec fl hb' hinit
    refine ⟨p, hp, .of_le (powTurns L |a| (b - 1)) fun fuel hfuel => ?_⟩
    rw [intPow, habs, if_pos hodd]
    exact hrun fuel hfuel
  · rw [if_neg hodd] at hinit
    obtain ⟨p, hp, hrun⟩ := intPowLoop_spec fl hb' hinit
    refine ⟨p, hp, .of_le (powTurns L |a| b) fun fuel hfuel => ?_⟩
    rw [intPow, habs, if_neg hodd]
    exact hrun fuel hfuel

end Words

/-! ## The methods -/

section Method

variable {L : LongSize} {F : Type} {fl : Floats F} {a : Inum L} {b : Fixnum L}

/-- The power of `a` to `b` is exact: it is the Integer, in its canonical form, or else a Float. It
is the Integer up to the limit for the digits of `a` times `b`, which decides for bignums, and up to
the limit for the power itself. -/
structure ExactPower (fl : Floats F) (a : Inum L) (b : Fixnum L) (p : Power L F) : Prop where
  settles : Fuel.Settles (fun fuel => intPower fl fuel a (.fixnum b)) (.ok p)
  exact : ∀ r, p = .int r → r.Is (a.toInt ^ b.val.toNat)
  float : (∀ r, p ≠ .int r) → ∃ f, p = .float f
  int_of_size : a.toBignum.len * b.val.toNat ≤ biglenLimit → ∃ r, p = .int r
  int_of_lt : |a.toInt| ^ b.val.toNat < 2 ^ (15 * biglenLimit) → ∃ r, p = .int r
  float_of_bignum : ∀ z, a = .bignum z → biglenLimit < z.len * b.val.toNat → ∃ f, p = .float f

/-- What is in a power. -/
theorem PowResult.exactPower {p : Power L F}
    (h : PowResult L F a.toInt b.val.toNat (a.toBignum.len * b.val.toNat) p)
    (hrun : Fuel.Settles (fun fuel => intPower fl fuel a (.fixnum b)) (.ok p))
    (hbig : ∀ z, a = .bignum z → biglenLimit < z.len * b.val.toNat → ∃ f, p = .float f) :
    ExactPower fl a b p := by
  cases h with
  | int hr =>
      refine ⟨hrun, ?_, fun h => absurd rfl (h _), fun _ => ⟨_, rfl⟩, fun _ => ⟨_, rfl⟩, hbig⟩
      intro r h
      cases h
      exact hr
  | float hsize hlarge =>
      refine ⟨hrun, fun r h => ?_, fun _ => ⟨_, rfl⟩, fun h => ?_, fun h => ?_, hbig⟩
      · cases h
      · exact absurd h (not_le.mpr hsize)
      · exact absurd h (not_lt.mpr hlarge)

theorem Inum.minusOne_is (L : LongSize) : (Inum.minusOne L).Is (-1) := ⟨trivial, rfl⟩

/-- **Powers of fixnums.** -/
theorem fixPow_settles (fl : Floats F) (x : Fixnum L) (hb : 0 ≤ b.val) :
    ∃ p, PowResult L F x.val b.val.toNat (powSize L x.val b.val.toNat) p ∧
      Fuel.Settles (fun fuel => fixPow fl fuel x (.fixnum b)) (.ok p) := by
  have hneg : ¬ b.val < 0 := not_lt.mpr hb
  simp only [fixPow, if_neg hneg]
  by_cases h0 : b.val = 0
  · simp only [if_pos h0]
    refine ⟨_, .int ?_, .const _⟩
    rw [h0, Int.toNat_zero, pow_zero]
    exact Inum.one_is L
  by_cases h1 : b.val = 1
  · simp only [if_neg h0, if_pos h1]
    refine ⟨_, .int ?_, .const _⟩
    rw [h1, Int.toNat_one, pow_one]
    exact ⟨trivial, rfl⟩
  simp only [if_neg h0, if_neg h1]
  by_cases hzero : x.val = 0
  · simp only [if_pos hzero]
    refine ⟨_, .int ?_, .const _⟩
    rw [hzero, zero_pow (by omega)]
    exact Inum.zero_is L
  by_cases hone : x.val = 1
  · simp only [if_neg hzero, if_pos hone]
    refine ⟨_, .int ?_, .const _⟩
    rw [hone, one_pow]
    exact Inum.one_is L
  by_cases hminus : x.val = -1
  · simp only [if_neg hzero, if_neg hone, if_pos hminus]
    refine ⟨_, .int ?_, .const _⟩
    rw [hminus, Int.tmod_eq_emod_of_nonneg hb]
    by_cases heven : b.val % 2 = 0
    · have hpow : (-1 : ℤ) ^ b.val.toNat = 1 := Even.neg_one_pow ⟨b.val.toNat / 2, by omega⟩
      rw [if_pos heven, hpow]
      exact Inum.one_is L
    · have hpow : (-1 : ℤ) ^ b.val.toNat = -1 := Odd.neg_one_pow ⟨b.val.toNat / 2, by omega⟩
      rw [if_neg heven, hpow]
      exact Inum.minusOne_is L
  · simp only [if_neg hzero, if_neg hone, if_neg hminus]
    obtain ⟨hmin, hmax, -⟩ := L.fixnum_range
    have hx0 := x.min_le
    have hx1 := x.le_max
    have hb1 := b.le_max
    have habs : 2 ≤ |x.val| := by
      rcases abs_cases x.val with ⟨h, h'⟩ | ⟨h, h'⟩ <;> omega
    exact intPow_settles fl habs (by omega) (by omega) (by omega) (by omega)

/-- **Powers of Integers are exact.** -/
theorem intPower_exact (fl : Floats F) (ha : a.Canonical) (hb : 0 ≤ b.val) :
    ∃ p, ExactPower fl a b p := by
  cases a with
  | fixnum x =>
      obtain ⟨p, hp, hrun⟩ := fixPow_settles fl x hb
      refine ⟨p, PowResult.exactPower hp hrun ?_⟩
      intro z hz
      cases hz
  | bignum x =>
      by_cases hsize : x.len * b.val.toNat ≤ biglenLimit
      · obtain ⟨r, hr, hval⟩ := rbBigPow_int fl x hb hsize
        refine ⟨.int r, PowResult.exactPower (.int hval) ?_ ?_⟩
        · rw [← hr]
          exact .const _
        · intro z hz hlarge
          cases hz
          exact absurd hsize (not_le.mpr hlarge)
      · rw [not_le] at hsize
        have hf := rbBigPow_float (L := L) fl x hb hsize
        have hmag : 2 ^ 15 ≤ |x.toInt| := by
          have h15 : (2 : ℤ) ^ 15 ≤ L.fixnumMax ∧ L.fixnumMin ≤ -2 ^ 15 := by cases L <;> decide
          have hrange := ha.1
          rcases abs_cases x.toInt with ⟨h, h'⟩ | ⟨h, h'⟩ <;> omega
        have hlarge : 2 ^ (15 * biglenLimit) ≤ |x.toInt| ^ b.val.toNat := by
          rw [x.abs_toInt] at hmag ⊢
          exact le_pow_of_size ha.trimmed hmag hsize
        refine ⟨.float (fl.pow (fl.ofBig x) (fl.ofLong b.val)),
          PowResult.exactPower (.float hsize hlarge) ?_ fun _ _ _ => ⟨_, rfl⟩⟩
        rw [← hf]
        exact .const _

end Method

/-! ## Two powers -/

/-- Floats that are not told apart. -/
def unitFloats : Floats Unit := ⟨fun _ => (), fun _ => (), fun _ _ => (), fun _ _ => ()⟩

/-- `(-3) ** 41`, where the product of words does not fit. -/
theorem intPower_exact_minusThree :
    ∃ p, ExactPower (L := .lp64) unitFloats (.fixnum ⟨-3, by decide, by decide⟩)
      ⟨41, by decide, by decide⟩ p :=
  intPower_exact unitFloats trivial (by decide)

/-- **A power of less digits than the limit can be a Float**: 2 ** 4194368 has half as many. -/
theorem not_forall_power_int :
    ¬ ∀ (L : LongSize) (F : Type) (fl : Floats F) (a : Inum L) (b : Fixnum L), a.Canonical →
      0 ≤ b.val → |a.toInt| ^ b.val.toNat < bigrad ^ biglenLimit →
        ∃ r, Fuel.Settles (fun fuel => intPower fl fuel a (.fixnum b)) (.ok (.int r)) := by
  intro h
  obtain ⟨r, hr⟩ := h .lp64 Unit unitFloats (.fixnum ⟨2, by decide, by decide⟩)
    ⟨4194368, by decide, by decide⟩ trivial (by decide) (by
      show |(2 : ℤ)| ^ 4194368 < bigrad ^ biglenLimit
      rw [abs_of_nonneg (by decide), bigrad, ← pow_mul]
      exact pow_lt_pow_right₀ (by decide) (by decide))
  have hfloat : Fuel.Settles (fun fuel => intPower unitFloats fuel
      (.fixnum ⟨2, by decide, by decide⟩ : Inum .lp64)
      (.fixnum ⟨4194368, by decide, by decide⟩)) (.ok (.float ())) := by
    refine .of_le 6 fun fuel hfuel => ?_
    obtain ⟨n, rfl⟩ : ∃ n, fuel = n + 6 := ⟨fuel - 6, by omega⟩
    rfl
  cases hr.unique hfloat

end MacRuby
