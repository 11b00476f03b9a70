import MacRuby.Lib.Nearest
import MacRuby.Numeric.Rational
import Mathlib.Data.Rat.Floor

/-!
# Comparing and rounding Rationals

`<=>`, `floor`, `ceil`, `truncate` and `round` of `rational.c`. Only `div` of Integers rounds;
`round` adds a half to a number that is not negative.

## Main definitions

* `fCmp`, `nuratCmp` — the comparison.
* `nuratFloor`, `nuratCeil`, `nuratTruncate`, `nuratRound` — the roundings.
* `ExactOrder` — these are exact for a Rational.

## Main results

* `nuratCmp_eq` — the comparison is that of the numbers.
* `exactOrder` — the methods are exact for every canonical Rational.
-/

namespace MacRuby

/-! ## The code -/

section Code

variable {L : LongSize}

/-- `f_cmp(x, y)`. -/
def fCmp : Inum L → Inum L → ℤ
  | .fixnum x, .fixnum y =>
      let c := L.toLong (x.val - y.val)
      if c > 0 then 1 else if c < 0 then -1 else c
  | x, y => intCmp x y

/-- The branch of `nurat_cmp` for a Rational. -/
def nuratCmpRational (self other : Rational L) : ℤ :=
  match self.num, self.den, other.num, other.den with
  | .fixnum an, .fixnum ad, .fixnum bn, .fixnum bd =>
      fCmp (fSub (fImul L an.val bd.val) (fImul L bn.val ad.val)) (.zero L)
  | an, ad, bn, bd => fCmp (fSub (fMul an bd) (fMul bn ad)) (.zero L)

/-- `FIXNUM_P(den) && FIX2LONG(den) == 1`. -/
def isFixOne : Inum L → Bool
  | .fixnum d => d.val = 1
  | .bignum _ => false

/-- `nurat_cmp(self, other)`. -/
def nuratCmp (self : Rational L) : Numeric L → ℤ
  | .integer n =>
      if isFixOne self.den then fCmp self.num n else nuratCmpRational self ⟨n, .one L⟩
  | .rational r => nuratCmpRational self r

/-- `nurat_floor(self)`. -/
def nuratFloor (fuel : ℕ) (self : Rational L) : Except DivError (Inum L) :=
  intDiv fuel self.num self.den

/-- `nurat_ceil(self)`. -/
def nuratCeil (fuel : ℕ) (self : Rational L) : Except DivError (Inum L) := do
  let q ← intDiv fuel (intNegate self.num) self.den
  pure (intNegate q)

/-- `nurat_truncate(self)`. -/
def nuratTruncate (fuel : ℕ) (self : Rational L) : Except DivError (Inum L) :=
  if fNegativeP self.num then do
    let q ← intDiv fuel (intNegate self.num) self.den
    pure (intNegate q)
  else intDiv fuel self.num self.den

/-- `nurat_round(self)`. -/
def nuratRound (fuel : ℕ) (self : Rational L) : Except DivError (Inum L) :=
  if fNegativeP self.num then do
    let num := intNegate self.num
    let num := fAdd (fMul num (.two L)) self.den
    let den := fMul self.den (.two L)
    let q ← intDiv fuel num den
    pure (intNegate q)
  else
    let num := fAdd (fMul self.num (.two L)) self.den
    let den := fMul self.den (.two L)
    intDiv fuel num den

end Code

/-! ## Comparison -/

section Compare

variable {L : LongSize} {x y : Inum L} {a b : ℤ}

/-- The difference of two fixnums is a `long`. -/
theorem toLong_fixnum_sub (n m : Fixnum L) : L.toLong (n.val - m.val) = n.val - m.val := by
  obtain ⟨h0, h1⟩ := fixnum_range_word n
  obtain ⟨h2, h3⟩ := fixnum_range_word m
  obtain ⟨-, -, hhalf⟩ := L.fixnum_range
  exact L.toLong_eq (by omega) (by omega)

theorem fCmp_eq (hx : x.Is a) (hy : y.Is b) : fCmp x y = (a - b).sign := by
  unfold fCmp
  split
  · rename_i n m
    have hn : n.val = a := hx.value
    have hm : m.val = b := hy.value
    rw [toLong_fixnum_sub, hn, hm]
    dsimp only
    split_ifs with h1 h2
    · rw [Int.sign_eq_one_of_pos h1]
    · rw [Int.sign_eq_neg_one_of_neg h2]
    · have hzero : a - b = 0 := by omega
      rw [hzero, Int.sign_zero]
  · exact intCmp_eq hx hy

theorem isFixOne_iff {x : Inum L} (hx : x.Is a) : isFixOne x = true ↔ a = 1 := by
  cases x with
  | fixnum d =>
      have hd : d.val = a := hx.value
      simp [isFixOne, hd]
  | bignum z =>
      simp only [isFixOne, Bool.false_eq_true, false_iff]
      rintro rfl
      have hfix := hx.unique (Inum.one_is L)
      cases hfix

/-- **Two Rationals are compared by their cross products.** -/
theorem nuratCmpRational_eq {r s : Rational L} (hr : r.num.Canonical) (hr' : r.den.Canonical)
    (hs : s.num.Canonical) (hs' : s.den.Canonical) (hpos : 0 < r.den.toInt)
    (hpos' : 0 < s.den.toInt) :
    nuratCmpRational r s = (r.num.toInt * s.den.toInt - s.num.toInt * r.den.toInt).sign := by
  have hsub : ∀ {x y : Inum L} {a b : ℤ}, x.Is a → y.Is b →
      fCmp (fSub x y) (.zero L) = (a - b).sign := by
    intro x y a b hx hy
    rw [fCmp_eq (fSub_is hx hy) (Inum.zero_is L), sub_zero]
  unfold nuratCmpRational
  split
  · rename_i an ad bn bd h1 h2 h3 h4
    obtain ⟨han0, han1⟩ := fixnum_range_word an
    obtain ⟨had0, had1⟩ := fixnum_range_word ad
    obtain ⟨hbn0, hbn1⟩ := fixnum_range_word bn
    obtain ⟨hbd0, hbd1⟩ := fixnum_range_word bd
    rw [h1, h2, h3, h4]
    exact hsub (fImul_is han0 han1 hbd0 hbd1) (fImul_is hbn0 hbn1 had0 had1)
  · exact hsub (fMul_is hr.is hs'.is (not_squareOverflow_of_pos hpos'))
      (fMul_is hs.is hr'.is (not_squareOverflow_of_pos hpos))

/-- The result of `<=>` for two numbers. -/
structure ComparesTo (p q : ℚ) (c : ℤ) : Prop where
  greater : c = 1 ↔ q < p
  equal : c = 0 ↔ p = q
  less : c = -1 ↔ p < q

/-- Fractions compare as their cross products do. -/
theorem comparesTo_sign {p q r s : ℤ} (hq : 0 < q) (hs : 0 < s) :
    ComparesTo (p / q) (r / s) (p * s - r * q).sign := by
  have hq' : (0 : ℚ) < q := by exact_mod_cast hq
  have hs' : (0 : ℚ) < s := by exact_mod_cast hs
  refine ⟨?_, ?_, ?_⟩
  · rw [div_lt_div_iff₀ hs' hq', Int.sign_eq_one_iff_pos, sub_pos]
    exact_mod_cast Iff.rfl
  · rw [div_eq_div_iff hq'.ne' hs'.ne', Int.sign_eq_zero_iff_zero, sub_eq_zero]
    exact_mod_cast Iff.rfl
  · rw [div_lt_div_iff₀ hq' hs', Int.sign_eq_neg_one_iff_neg, sub_neg]
    exact_mod_cast Iff.rfl

/-- An operand in canonical form. -/
def Numeric.Canonical : Numeric L → Prop
  | .integer n => n.Canonical
  | .rational r => r.Canonical

/-- The number that an operand stands for. -/
def Numeric.toRat : Numeric L → ℚ
  | .integer n => n.toInt
  | .rational r => r.toRat

/-- **`<=>` compares the numbers**, for Integers and Rationals of any size. -/
theorem nuratCmp_eq {r : Rational L} (hr : r.Canonical) {y : Numeric L} (hy : y.Canonical) :
    ComparesTo r.toRat y.toRat (nuratCmp r y) := by
  cases y with
  | integer n =>
      have hn : n.Canonical := hy
      have hone : (n.toInt : ℚ) = n.toInt / (1 : ℤ) := by rw [Int.cast_one, div_one]
      show ComparesTo (r.num.toInt / r.den.toInt) n.toInt _
      rw [nuratCmp]
      split_ifs with h
      · have hden : r.den.toInt = 1 := (isFixOne_iff hr.den.is).mp h
        rw [fCmp_eq hr.num.is hn.is, hone, hden]
        have := comparesTo_sign (p := r.num.toInt) (r := n.toInt) one_pos one_pos
        rwa [mul_one, mul_one] at this
      · rw [nuratCmpRational_eq hr.num hr.den hn (Inum.one_is L).canonical hr.pos one_pos, hone]
        exact comparesTo_sign hr.pos one_pos
  | rational s =>
      have hs : s.Canonical := hy
      show ComparesTo (r.num.toInt / r.den.toInt) (s.num.toInt / s.den.toInt) _
      rw [nuratCmp, nuratCmpRational_eq hr.num hr.den hs.num hs.den hr.pos hs.pos]
      exact comparesTo_sign hr.pos hs.pos

end Compare

/-! ## Rounding -/

section Rounding

variable {L : LongSize}

/-- With enough fuel the result is the Integer `n`. -/
def SettlesInt (f : ℕ → Except DivError (Inum L)) (n : ℤ) : Prop :=
  ∃ r : Inum L, r.Is n ∧ Fuel.Settles f (.ok r)

/-- `div` by a positive number. -/
theorem intDiv_settlesInt {x y : Inum L} {a b : ℤ} (hx : x.Is a) (hy : y.Is b) (hb : 0 < b) :
    SettlesInt (fun fuel => intDiv fuel x y) (a / b) := by
  rw [← Int.fdiv_eq_ediv_of_nonneg _ hb.le]
  exact intDiv_settles hx hy hb.ne'

/-- The sign may be changed afterwards. -/
theorem SettlesInt.neg {f : ℕ → Except DivError (Inum L)} {n : ℤ} (h : SettlesInt f n) :
    SettlesInt (fun fuel => f fuel >>= fun q => pure (intNegate q)) (-n) := by
  obtain ⟨r, hr, hf⟩ := h
  exact ⟨intNegate r, intNegate_is hr, hf.bind (.const _)⟩

/-- The floor of a fraction. -/
theorem floor_fraction (a : ℤ) {b : ℤ} (hb : 0 < b) : ⌊(a : ℚ) / b⌋ = a / b := by
  lift b to ℕ using hb.le
  exact Rat.floor_intCast_div_natCast a b

/-- The ceiling of a fraction, by the floor of its negation. -/
theorem ceil_fraction (a : ℤ) {b : ℤ} (hb : 0 < b) : ⌈(a : ℚ) / b⌉ = -(-a / b) := by
  rw [← neg_neg ⌈(a : ℚ) / b⌉, ← Int.floor_neg, ← neg_div, ← Int.cast_neg, floor_fraction _ hb]

/-- The integer part of `q`, toward zero. -/
structure IsIntegerPart (q : ℚ) (n : ℤ) : Prop where
  abs_eq : |n| = ⌊|q|⌋
  sign : 0 ≤ n * q

theorem isIntegerPart_floor {q : ℚ} (hq : 0 ≤ q) : IsIntegerPart q ⌊q⌋ := by
  have hfloor : 0 ≤ ⌊q⌋ := Int.floor_nonneg.mpr hq
  refine ⟨?_, ?_⟩
  · rw [abs_of_nonneg hfloor, abs_of_nonneg hq]
  · exact mul_nonneg (by exact_mod_cast hfloor) hq

theorem isIntegerPart_ceil {q : ℚ} (hq : q < 0) : IsIntegerPart q ⌈q⌉ := by
  have hceil : ⌈q⌉ ≤ 0 := Int.ceil_le.mpr (by exact_mod_cast hq.le)
  refine ⟨?_, ?_⟩
  · rw [abs_of_nonpos hceil, abs_of_neg hq, Int.floor_neg]
  · exact mul_nonneg_of_nonpos_of_nonpos (by exact_mod_cast hceil) hq.le

variable {r : Rational L}

theorem nuratFloor_settles (hr : r.Canonical) :
    SettlesInt (fun fuel => nuratFloor fuel r) ⌊r.toRat⌋ := by
  rw [Rational.toRat, floor_fraction _ hr.pos]
  exact intDiv_settlesInt hr.num.is hr.den.is hr.pos

theorem nuratCeil_settles (hr : r.Canonical) :
    SettlesInt (fun fuel => nuratCeil fuel r) ⌈r.toRat⌉ := by
  rw [Rational.toRat, ceil_fraction _ hr.pos]
  exact (intDiv_settlesInt (intNegate_is hr.num.is) hr.den.is hr.pos).neg

theorem Rational.Canonical.toRat_neg_iff (hr : r.Canonical) : r.toRat < 0 ↔ r.num.toInt < 0 := by
  have hpos : (0 : ℚ) < r.den.toInt := by exact_mod_cast hr.pos
  rw [Rational.toRat, div_lt_iff₀ hpos, zero_mul, Int.cast_lt_zero]

/-- **Truncation** is `ceil` of a negative Rational and `floor` of another. -/
theorem nuratTruncate_settles (hr : r.Canonical) :
    ∃ n, IsIntegerPart r.toRat n ∧ SettlesInt (fun fuel => nuratTruncate fuel r) n := by
  simp only [nuratTruncate, fNegativeP_eq hr.num.is, ← hr.toRat_neg_iff, decide_eq_true_eq]
  split_ifs with hneg
  · exact ⟨_, isIntegerPart_ceil hneg, nuratCeil_settles hr⟩
  · exact ⟨_, isIntegerPart_floor (not_lt.mp hneg), nuratFloor_settles hr⟩

/-- Twice a number and the denominator, over twice the denominator: the number that is divided. -/
theorem round_settles {x d : Inum L} {a b : ℤ} (hx : x.Is a) (hd : d.Is b) (hb : 0 < b) :
    SettlesInt (fun fuel => intDiv fuel (fAdd (fMul x (.two L)) d) (fMul d (.two L)))
      ((a * 2 + b) / (b * 2)) := by
  have hover : ∀ c : ℤ, ¬ SquareOverflow L c 2 := fun _ => not_squareOverflow_of_pos two_pos
  exact intDiv_settlesInt (fAdd_is (fMul_is hx (Inum.two_is L) (hover a)) hd)
    (fMul_is hd (Inum.two_is L) (hover b)) (mul_pos hb two_pos)

/-- Adding the half of the denominator rounds a fraction that is not negative. -/
theorem isNearestInt_half {a b : ℤ} (ha : 0 ≤ a) (hb : 0 < b) :
    Nearest.IsNearestInt (a / b) ((a * 2 + b) / (b * 2)) := by
  have hnear := Nearest.isNearest_half (d := 2 * b) (x := 2 * a) (mul_pos two_pos hb) (by omega)
    (by omega)
  rw [Int.mul_ediv_cancel_left _ two_ne_zero] at hnear
  rw [mul_comm a 2, mul_comm b 2]
  exact hnear.isNearestInt two_pos hb

/-- **Rounding** goes to the nearest Integer, and away from zero from a half. -/
theorem nuratRound_settles (hr : r.Canonical) :
    ∃ n, Nearest.IsNearestInt r.toRat n ∧ SettlesInt (fun fuel => nuratRound fuel r) n := by
  simp only [nuratRound, fNegativeP_eq hr.num.is, decide_eq_true_eq]
  split_ifs with hneg
  · refine ⟨_, ?_, (round_settles (intNegate_is hr.num.is) hr.den.is hr.pos).neg⟩
    have hnear := (isNearestInt_half (a := -r.num.toInt) (by omega) hr.pos).neg
    rwa [Int.cast_neg, neg_div, neg_neg] at hnear
  · exact ⟨_, isNearestInt_half (not_lt.mp hneg) hr.pos,
      round_settles hr.num.is hr.den.is hr.pos⟩

/-- The methods are exact for a Rational. -/
structure ExactOrder (r : Rational L) : Prop where
  cmp : ∀ y : Numeric L, y.Canonical → ComparesTo r.toRat y.toRat (nuratCmp r y)
  floor : ∃ n : ℤ, IsGreatest {m : ℤ | (m : ℚ) ≤ r.toRat} n ∧
    SettlesInt (fun fuel => nuratFloor fuel r) n
  ceil : ∃ n : ℤ, IsLeast {m : ℤ | r.toRat ≤ m} n ∧ SettlesInt (fun fuel => nuratCeil fuel r) n
  truncate : ∃ n, IsIntegerPart r.toRat n ∧ SettlesInt (fun fuel => nuratTruncate fuel r) n
  round : ∃ n, Nearest.IsNearestInt r.toRat n ∧ SettlesInt (fun fuel => nuratRound fuel r) n

/-- **The order of the Rationals and their roundings are exact.** -/
theorem exactOrder (hr : r.Canonical) : ExactOrder r := by
  refine ⟨fun y hy => nuratCmp_eq hr hy, ⟨_, ?_, nuratFloor_settles hr⟩,
    ⟨_, ?_, nuratCeil_settles hr⟩, nuratTruncate_settles hr, nuratRound_settles hr⟩
  · exact ⟨Int.floor_le r.toRat, fun m hm => Int.le_floor.mpr hm⟩
  · exact ⟨Int.le_ceil r.toRat, fun m hm => Int.ceil_le.mpr hm⟩

/-- The methods on a negative Rational whose denominator is a bignum. -/
theorem exactOrder_bignum : ExactOrder overflowLeft := exactOrder overflowLeft_canonical

end Rounding

end MacRuby
