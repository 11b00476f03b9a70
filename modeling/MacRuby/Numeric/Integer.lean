import MacRuby.Bignum.Bitwise
import MacRuby.Bignum.Division
import MacRuby.Lib.Fuel

/-!
# The methods of Integers

The arithmetic of fixnums in `numeric.c`, and the methods of Integers, which go by the class of
the receiver to the fixnum methods or to those of bignums. Machine words are integers, wrapped
where the source stores a result that may not fit.

`fix_mul` first tests whether both factors are small enough for their product to be a fixnum. On
64-bit longs the test lets -2^31 pass, whose square is one more than the largest fixnum.

## Main definitions

* `fixPlus`, `fixMinus`, `fixMul`, `fixdivmod`, `fixDivide`, `fixMod`, `fixUminus` — fixnums.
* `intPlus`, `intMinus`, `intMul`, `intDiv`, `intMod`, `intNegate`, `intCmp`, `intEqual` — Integers.
* `Inum.Is r n` — `r` is the Integer `n`, in its canonical form.
* `SquareOverflow` — the product that `fix_mul` gets wrong.

## Main results

* `intPlus_is`, `intMinus_is`, `intDiv_settles`, `intMod_settles`, `intNegate_is` — exactness.
* `intMul_is`, `intMul_squareOverflow` — the product, with and without the overflow.
-/

namespace MacRuby

/-! ## Fixnums -/

section Fixnums

variable {L : LongSize}

theorem fixnumMin_le_bmod (L : LongSize) (v : ℤ) : L.fixnumMin ≤ v.bmod (2 ^ (L.bits - 1)) := by
  have h := Int.le_bmod (x := v) (m := 2 ^ (L.bits - 1)) (by positivity)
  cases L <;> simp [LongSize.fixnumMin, LongSize.bits, LongSize.bytes] at h ⊢ <;> omega

theorem bmod_le_fixnumMax (L : LongSize) (v : ℤ) : v.bmod (2 ^ (L.bits - 1)) ≤ L.fixnumMax := by
  have h := Int.bmod_lt (x := v) (m := 2 ^ (L.bits - 1)) (by positivity)
  cases L <;> simp [LongSize.fixnumMax, LongSize.bits, LongSize.bytes] at h ⊢ <;> omega

/-- `FIX2LONG(LONG2FIX(v))` loses the top bit of `v`. -/
def long2fix (L : LongSize) (v : ℤ) : Fixnum L :=
  ⟨v.bmod (2 ^ (L.bits - 1)), fixnumMin_le_bmod L v, bmod_le_fixnumMax L v⟩

/-- `fix_uminus(num)`. -/
def fixUminus (num : Fixnum L) : Inum L := long2num L (L.toLong (-num.val))

/-- `fix_plus(x, y)`, for an Integer `y`. -/
def fixPlus (x : Fixnum L) : Inum L → Inum L
  | .fixnum y => long2num L (L.toLong (x.val + y.val))
  | .bignum y => rbBigPlus L y (.fixnum x)

/-- `fix_minus(x, y)`, for an Integer `y`. -/
def fixMinus (x : Fixnum L) : Inum L → Inum L
  | .fixnum y => long2num L (L.toLong (x.val - y.val))
  | .bignum y => rbBigMinus L (rbInt2big L x.val) (.bignum y)

/-- `FIT_SQRT_LONG(n)`. -/
def fitSqrtLong (L : LongSize) (n : ℤ) : Bool :=
  n < 2 ^ ((L.bits - 1) / 2) && n ≥ -2 ^ ((L.bits - 1) / 2)

/-- `rb_ull2big(n)`. -/
def rbUll2big (n : ℤ) : Bignum :=
  let s := Loop.upto (fun i (s : ℤ × List BDigit) => (bigdn s.1, s.2.set i (biglo s.1)))
    2 (n, (bignew 2 true).digits)
  ⟨true, s.2.take (dropZeros s.2 2)⟩

/-- `rb_ll2big(n)`. -/
def rbLl2big (n : ℤ) : Bignum :=
  if n < 0 then { rbUll2big (toDbl (-n)) with sign := false } else rbUll2big n

/-- `rb_ll2inum(n)`. -/
def rbLl2inum (L : LongSize) (n : ℤ) : Inum L :=
  if h : L.fixnumMin ≤ n ∧ n ≤ L.fixnumMax then
    .fixnum (.ofMem h)
  else .bignum (rbLl2big n)

/-- The product of two fixnums in `fix_mul`: by `long long` where that is twice as long. -/
def fixMulFix (x y : Fixnum L) : Inum L :=
  let a := x.val
  let b := y.val
  match L with
  | .ilp32 => rbLl2inum .ilp32 (a * b)
  | .lp64 =>
      if fitSqrtLong .lp64 a && fitSqrtLong .lp64 b then .fixnum (long2fix .lp64 (a * b))
      else
        let c := LongSize.lp64.toLong (a * b)
        let r := long2fix .lp64 c
        if a = 0 then .fixnum x
        else if r.val ≠ c ∨ c.tdiv a ≠ b then
          rbBigMul .lp64 (rbInt2big .lp64 a) (.bignum (rbInt2big .lp64 b))
        else .fixnum r

/-- `fix_mul(x, y)`, for an Integer `y`. -/
def fixMul (x : Fixnum L) : Inum L → Inum L
  | .fixnum y => fixMulFix x y
  | .bignum y => rbBigMul L y (.fixnum x)

/-- `fixdivmod(x, y, &div, &mod)`. -/
def fixdivmod (x y : ℤ) : Except DivError (ℤ × ℤ) :=
  if y = 0 then .error .zeroDiv
  else
    let div := if y < 0 then if x < 0 then (-x).tdiv (-y) else -(x.tdiv (-y))
      else if x < 0 then -((-x).tdiv y) else x.tdiv y
    let mod := x - div * y
    .ok (if (mod < 0 ∧ y > 0) ∨ (mod > 0 ∧ y < 0) then (div - 1, mod + y) else (div, mod))

/-- `fix_divide(x, y, op)`, for an Integer `y`. -/
def fixDivide (fuel : ℕ) (x : Fixnum L) : Inum L → Except DivError (Inum L)
  | .fixnum y => do
      let r ← fixdivmod x.val y.val
      pure (long2num L r.1)
  | .bignum y => rbBigDivide L fuel (rbInt2big L x.val) (.bignum y)

/-- `fix_mod(x, y)`, for an Integer `y`. -/
def fixMod (fuel : ℕ) (x : Fixnum L) : Inum L → Except DivError (Inum L)
  | .fixnum y => do
      let r ← fixdivmod x.val y.val
      pure (long2num L r.2)
  | .bignum y => rbBigModulo L fuel (rbInt2big L x.val) (.bignum y)

/-- `rb_big_uminus(x)`. -/
def rbBigUminus (L : LongSize) (x : Bignum) : Inum L := bignorm L { x with sign := !x.sign }

end Fixnums

/-! ## Integers -/

section Integers

variable {L : LongSize}

/-- `x + y`. -/
def intPlus : Inum L → Inum L → Inum L
  | .fixnum x, y => fixPlus x y
  | .bignum x, y => rbBigPlus L x y

/-- `x - y`. -/
def intMinus : Inum L → Inum L → Inum L
  | .fixnum x, y => fixMinus x y
  | .bignum x, y => rbBigMinus L x y

/-- `x * y`. -/
def intMul : Inum L → Inum L → Inum L
  | .fixnum x, y => fixMul x y
  | .bignum x, y => rbBigMul L x y

/-- `x.div(y)`. -/
def intDiv (fuel : ℕ) : Inum L → Inum L → Except DivError (Inum L)
  | .fixnum x, y => fixDivide fuel x y
  | .bignum x, y => rbBigDivide L fuel x y

/-- `x % y`. -/
def intMod (fuel : ℕ) : Inum L → Inum L → Except DivError (Inum L)
  | .fixnum x, y => fixMod fuel x y
  | .bignum x, y => rbBigModulo L fuel x y

/-- `-x`. -/
def intNegate : Inum L → Inum L
  | .fixnum x => fixUminus x
  | .bignum x => rbBigUminus L x

/-- `x <=> y`. -/
def intCmp : Inum L → Inum L → ℤ
  | .fixnum x, .fixnum y => if x.val > y.val then 1 else if x.val < y.val then -1 else 0
  | .fixnum x, .bignum y => rbBigCmp L (rbInt2big L x.val) (.bignum y)
  | .bignum x, y => rbBigCmp L x y

/-- `x == y`. -/
def intEqual : Inum L → Inum L → Bool
  | .fixnum x, .fixnum y => x.val = y.val
  | .fixnum x, .bignum y => rbBigEq L y (.fixnum x)
  | .bignum x, y => rbBigEq L x y

/-- `INT2FIX(0)`. -/
def Inum.zero (L : LongSize) : Inum L := .fixnum ⟨0, by cases L <;> decide, by cases L <;> decide⟩

/-- `INT2FIX(1)`. -/
def Inum.one (L : LongSize) : Inum L := .fixnum ⟨1, by cases L <;> decide, by cases L <;> decide⟩

/-- `INT2FIX(2)`. -/
def Inum.two (L : LongSize) : Inum L := .fixnum ⟨2, by cases L <;> decide, by cases L <;> decide⟩

/-- `fix_succ(num)` and `int_succ(num)`. -/
def intSucc : Inum L → Inum L
  | .fixnum x => long2num L (L.toLong (x.val + 1))
  | x => intPlus x (Inum.one L)

/-- `fix_lt(x, y)` and its like; other Integers are compared by `<=>`. -/
def intRel (rel : ℤ → ℤ → Bool) : Inum L → Inum L → Bool
  | .fixnum x, .fixnum y => rel x.val y.val
  | x, y => rel (intCmp x y) 0

end Integers

/-! ## Exactness -/

/-- `r` is the Integer `n`, in its canonical form. -/
structure Inum.Is {L : LongSize} (r : Inum L) (n : ℤ) : Prop where
  canonical : r.Canonical
  value : r.toInt = n

section Exact

variable {L : LongSize} {x y : Inum L} {a b : ℤ}

/-- An Integer is determined by its number. -/
theorem Inum.Is.unique (hx : x.Is a) (hy : y.Is a) : x = y :=
  hx.canonical.ext hy.canonical (hx.value.trans hy.value.symm)

theorem Inum.Canonical.is {x : Inum L} (hx : x.Canonical) : x.Is x.toInt := ⟨hx, rfl⟩

theorem Inum.zero_is (L : LongSize) : (Inum.zero L).Is 0 := ⟨trivial, rfl⟩

theorem Inum.one_is (L : LongSize) : (Inum.one L).Is 1 := ⟨trivial, rfl⟩

theorem Inum.two_is (L : LongSize) : (Inum.two L).Is 2 := ⟨trivial, rfl⟩

/-- What goes through `bignorm` is canonical. -/
theorem bignorm_is {z : Bignum} (hz : z.toInt = a) : (bignorm L z).Is a :=
  ⟨bignorm_canonical L z, (toInt_bignorm L z).trans hz⟩

/-- `LONG2NUM` of a word. -/
theorem long2num_is {v : ℤ} (h0 : -2 ^ (L.bits - 1) ≤ v) (h1 : v < 2 ^ (L.bits - 1)) :
    (long2num L v).Is v := by
  rw [long2num]
  split_ifs with h
  · exact ⟨trivial, rfl⟩
  · have hval := toInt_rbInt2big h0 h1
    have htrim := trimmed_rbInt2big hval
    have hne : v ≠ 0 := by
      intro hv
      exact h ⟨hv ▸ L.fixnumMin_nonpos, hv ▸ L.fixnumMax_nonneg⟩
    exact ⟨⟨by rw [hval]; omega, htrim.pos, htrim.top_ne_zero (by rw [hval]; exact hne)⟩, hval⟩

/-- The fixnum range in powers of two. -/
theorem LongSize.fixnum_range (L : LongSize) :
    L.fixnumMin = -2 ^ (L.bits - 2) ∧ L.fixnumMax = 2 ^ (L.bits - 2) - 1 ∧
      (2 : ℤ) ^ (L.bits - 1) = 2 * 2 ^ (L.bits - 2) := by
  cases L <;> decide

/-- A word stays as it is. -/
theorem LongSize.toLong_eq {v : ℤ} (h0 : -2 ^ (L.bits - 1) ≤ v) (h1 : v < 2 ^ (L.bits - 1)) :
    L.toLong v = v := by
  have hbits : (2 : ℤ) ^ L.bits = 2 * 2 ^ (L.bits - 1) := by cases L <;> rfl
  exact Int.bmod_eq_of_le (by push_cast; omega) (by push_cast; omega)

/-- `LONG2FIX` of a number in the range of fixnums. -/
theorem long2fix_is_of_range {v : ℤ} (hmin : L.fixnumMin ≤ v) (hmax : v ≤ L.fixnumMax) :
    (.fixnum (long2fix L v) : Inum L).Is v := by
  refine ⟨trivial, ?_⟩
  show v.bmod (2 ^ (L.bits - 1)) = v
  obtain ⟨hmin', hmax', hhalf⟩ := L.fixnum_range
  exact Int.bmod_eq_of_le (by push_cast; omega) (by push_cast; omega)

theorem intNegate_is (hx : x.Is a) : (intNegate x).Is (-a) := by
  obtain ⟨hc, rfl⟩ := hx
  cases x with
  | fixnum n =>
      obtain ⟨hmin, hmax, hhalf⟩ := L.fixnum_range
      have h0 := n.min_le
      have h1 := n.le_max
      have hpos : (0 : ℤ) < 2 ^ (L.bits - 2) := by positivity
      have hlong : L.toLong (-n.val) = -n.val := LongSize.toLong_eq (by omega) (by omega)
      show (long2num L (L.toLong (-n.val))).Is (-n.val)
      rw [hlong]
      exact long2num_is (by omega) (by omega)
  | bignum z =>
      refine bignorm_is ?_
      cases hs : z.sign <;> simp [Bignum.toInt, hs, Inum.toInt, Bignum.mag]

theorem intPlus_is (hx : x.Is a) (hy : y.Is b) : (intPlus x y).Is (a + b) := by
  obtain ⟨hcx, rfl⟩ := hx
  obtain ⟨hcy, rfl⟩ := hy
  cases x with
  | fixnum n =>
      cases y with
      | fixnum m =>
          obtain ⟨hmin, hmax, hhalf⟩ := L.fixnum_range
          have hn0 := n.min_le
          have hn1 := n.le_max
          have hm0 := m.min_le
          have hm1 := m.le_max
          have hlong : L.toLong (n.val + m.val) = n.val + m.val :=
            LongSize.toLong_eq (by omega) (by omega)
          show (long2num L (L.toLong (n.val + m.val))).Is (n.val + m.val)
          rw [hlong]
          exact long2num_is (by omega) (by omega)
      | bignum z =>
          refine ⟨bignorm_canonical L _, ?_⟩
          show (rbBigPlus L z (.fixnum n)).toInt = _
          exact (toInt_rbBigPlus hcy.trimmed hcx).trans (add_comm _ _)
  | bignum z => exact ⟨bignorm_canonical L _, toInt_rbBigPlus hcx.trimmed hcy⟩

theorem intMinus_is (hx : x.Is a) (hy : y.Is b) : (intMinus x y).Is (a - b) := by
  obtain ⟨hcx, rfl⟩ := hx
  obtain ⟨hcy, rfl⟩ := hy
  cases x with
  | fixnum n =>
      cases y with
      | fixnum m =>
          obtain ⟨hmin, hmax, hhalf⟩ := L.fixnum_range
          have hn0 := n.min_le
          have hn1 := n.le_max
          have hm0 := m.min_le
          have hm1 := m.le_max
          have hlong : L.toLong (n.val - m.val) = n.val - m.val :=
            LongSize.toLong_eq (by omega) (by omega)
          show (long2num L (L.toLong (n.val - m.val))).Is (n.val - m.val)
          rw [hlong]
          exact long2num_is (by omega) (by omega)
      | bignum z =>
          have hn := n.toInt_rbInt2big
          refine ⟨bignorm_canonical L _, ?_⟩
          show (rbBigMinus L (rbInt2big L n.val) (.bignum z)).toInt = _
          rw [toInt_rbBigMinus (trimmed_rbInt2big hn) hcy, hn]
          rfl
  | bignum z => exact ⟨bignorm_canonical L _, toInt_rbBigMinus hcx.trimmed hcy⟩

theorem intCmp_eq (hx : x.Is a) (hy : y.Is b) : intCmp x y = (a - b).sign := by
  obtain ⟨hcx, rfl⟩ := hx
  obtain ⟨hcy, rfl⟩ := hy
  cases x with
  | fixnum n =>
      cases y with
      | fixnum m =>
          show (if n.val > m.val then 1 else if n.val < m.val then -1 else 0) = (n.val - m.val).sign
          rw [← sign_sub_eq]
          split_ifs <;> first | rfl | omega
      | bignum z =>
          have hn := n.toInt_rbInt2big
          show rbBigCmp L (rbInt2big L n.val) (.bignum z) = _
          rw [rbBigCmp_eq (trimmed_rbInt2big hn) hcy, hn]
          rfl
  | bignum z => exact rbBigCmp_eq hcx.trimmed hcy

theorem intEqual_eq (hx : x.Is a) (hy : y.Is b) : intEqual x y = decide (a = b) := by
  obtain ⟨hcx, rfl⟩ := hx
  obtain ⟨hcy, rfl⟩ := hy
  cases x with
  | fixnum n =>
      cases y with
      | fixnum m => rfl
      | bignum z =>
          show rbBigEq L z (.fixnum n) = _
          exact (rbBigEq_eq hcy.trimmed hcx).trans (decide_eq_decide.mpr eq_comm)
  | bignum z => exact rbBigEq_eq hcx.trimmed hcy

/-! ## Division -/

/-- The quotient and remainder that floored division is known by. -/
theorem fdiv_fmod_unique {x y d m : ℤ} (hy : y ≠ 0) (heq : x = d * y + m)
    (hpos : 0 < y → 0 ≤ m ∧ m < y) (hneg : y < 0 → y < m ∧ m ≤ 0) :
    d = x.fdiv y ∧ m = x.fmod y := by
  have hdiv : d = x.fdiv y := by
    rcases lt_or_gt_of_ne hy with h | h
    · obtain ⟨h1, h2⟩ := hneg h
      rw [heq, Int.add_comm, Int.add_mul_fdiv_right _ _ hy]
      have hz : m.fdiv y = 0 := by
        rw [← Int.neg_fdiv_neg, Int.fdiv_eq_ediv_of_nonneg _ (by omega)]
        exact Int.ediv_eq_zero_of_lt (by omega) (by omega)
      rw [hz, zero_add]
    · obtain ⟨h1, h2⟩ := hpos h
      rw [heq, Int.add_comm, Int.add_mul_fdiv_right _ _ hy,
        Int.fdiv_eq_ediv_of_nonneg _ (by omega), Int.ediv_eq_zero_of_lt h1 h2, zero_add]
  refine ⟨hdiv, ?_⟩
  have h := Int.mul_fdiv_add_fmod x y
  rw [← hdiv] at h
  linarith

/-- **`fixdivmod` is floored division.** -/
theorem fixdivmod_eq {x y : ℤ} (hy : y ≠ 0) : fixdivmod x y = .ok (x.fdiv y, x.fmod y) := by
  rw [fixdivmod, if_neg hy]
  -- the truncated quotient, taken of the absolute values in every case
  have hdiv : (if y < 0 then if x < 0 then (-x).tdiv (-y) else -(x.tdiv (-y))
      else if x < 0 then -((-x).tdiv y) else x.tdiv y) = x.tdiv y := by
    split_ifs <;> simp [Int.neg_tdiv, Int.tdiv_neg]
  have hmod : x - x.tdiv y * y = x.tmod y := by
    have := Int.mul_tdiv_add_tmod x y
    linarith
  simp only [hdiv, hmod]
  have heq : x = x.tdiv y * y + x.tmod y := by linarith
  have habs : (x.tmod y).natAbs < y.natAbs := by
    rw [Int.natAbs_tmod]
    exact Nat.mod_lt _ (Int.natAbs_pos.mpr hy)
  split_ifs with hfix
  · obtain ⟨h1, h2⟩ := fdiv_fmod_unique (x := x) (d := x.tdiv y - 1) (m := x.tmod y + y)
      hy (by linarith) (by omega) (by omega)
    rw [h1, h2]
  · obtain ⟨h1, h2⟩ := fdiv_fmod_unique hy heq (by omega) (by omega)
    rw [← h1, ← h2]

/-- The quotient and the modulus of fixnums are words. -/
theorem fdiv_fmod_word (n m : Fixnum L) (hm : m.val ≠ 0) :
    (-2 ^ (L.bits - 1) ≤ n.val.fdiv m.val ∧ n.val.fdiv m.val < 2 ^ (L.bits - 1)) ∧
      -2 ^ (L.bits - 1) ≤ n.val.fmod m.val ∧ n.val.fmod m.val < 2 ^ (L.bits - 1) := by
  obtain ⟨hmin, hmax, hhalf⟩ := L.fixnum_range
  have hn0 := n.min_le
  have hn1 := n.le_max
  have hm0 := m.min_le
  have hm1 := m.le_max
  have hpos : (0 : ℤ) < 2 ^ (L.bits - 2) := by positivity
  have hdiv := Int.natAbs_fdiv_le_natAbs n.val m.val
  refine ⟨⟨by omega, by omega⟩, ?_⟩
  rw [Int.fmod_eq_emod]
  have h0 := Int.emod_nonneg n.val hm
  have h1 := Int.emod_lt_abs n.val hm
  have h2 : |m.val| = m.val ∨ |m.val| = -m.val := abs_choice m.val
  split_ifs <;> omega

section Divide

variable {z : Bignum}

/-- A bignum that is not zero can divide any other. -/
theorem divOk_of_is (z : Bignum) (hy : y.Is b) (hb : b ≠ 0) : DivOk z y.toBignum := by
  have hne : y.toBignum.toInt ≠ 0 := by
    rw [y.toInt_toBignum_eq, hy.value]
    exact hb
  exact divOk_of_top_ne_zero (hy.canonical.trimmed.top_ne_zero hne)

/-- The methods of bignums divide exactly. -/
theorem bigdivmod_settles (hy : y.Is b) (hb : b ≠ 0) :
    (∃ r : Inum L, r.Is (z.toInt.fdiv b) ∧
      Fuel.Settles (fun fuel => rbBigDivide L fuel z y) (.ok r)) ∧
    ∃ r : Inum L, r.Is (z.toInt.fmod b) ∧
      Fuel.Settles (fun fuel => rbBigModulo L fuel z y) (.ok r) := by
  have hne : y.toBignum.toInt ≠ 0 := by
    rw [y.toInt_toBignum_eq, hy.value]
    exact hb
  have hval : y.toBignum.toInt = b := by rw [y.toInt_toBignum_eq, hy.value]
  -- the results for different amounts of fuel have one value, so they are one Integer
  have hspec : ∀ fuel, 31 ≤ fuel → ∃ d m : Inum L, rbBigDivide L fuel z y = .ok d ∧
      rbBigModulo L fuel z y = .ok m ∧ d.Is (z.toInt.fdiv b) ∧ m.Is (z.toInt.fmod b) := by
    intro fuel hfuel
    obtain ⟨d, m, hrun, hd, hm⟩ := bigdivmod_spec (L := L) hfuel hne (divOk_of_is z hy hb)
    rw [hval] at hd hm
    refine ⟨bignorm L d, bignorm L m, ?_, ?_, bignorm_is hd, bignorm_is hm⟩
    · rw [rbBigDivide, hrun]
      rfl
    · rw [rbBigModulo, hrun]
      rfl
  obtain ⟨d, m, -, -, hd, hm⟩ := hspec 31 le_rfl
  refine ⟨⟨d, hd, .of_le 31 fun fuel hfuel => ?_⟩, ⟨m, hm, .of_le 31 fun fuel hfuel => ?_⟩⟩
  · obtain ⟨d', m', hrun, -, hd', -⟩ := hspec fuel hfuel
    rw [hrun, hd'.unique hd]
  · obtain ⟨d', m', -, hrun, -, hm'⟩ := hspec fuel hfuel
    rw [hrun, hm'.unique hm]

end Divide

/-- **`div` is floored division.** -/
theorem intDiv_settles (hx : x.Is a) (hy : y.Is b) (hb : b ≠ 0) :
    ∃ r : Inum L, r.Is (a.fdiv b) ∧ Fuel.Settles (fun fuel => intDiv fuel x y) (.ok r) := by
  obtain ⟨hcx, rfl⟩ := hx
  cases x with
  | fixnum n =>
      cases y with
      | fixnum m =>
          have hval : m.val = b := hy.value
          subst hval
          obtain ⟨⟨h0, h1⟩, -⟩ := fdiv_fmod_word n m hb
          refine ⟨_, long2num_is h0 h1, .of_le 0 fun fuel _ => ?_⟩
          show fixdivmod n.val m.val >>= _ = _
          rw [fixdivmod_eq hb]
          rfl
      | bignum z =>
          have hn := n.toInt_rbInt2big
          have h := (bigdivmod_settles (z := rbInt2big L n.val) hy hb).1
          rw [hn] at h
          exact h
  | bignum z => exact (bigdivmod_settles hy hb).1

/-- **`%` is the modulus of floored division.** -/
theorem intMod_settles (hx : x.Is a) (hy : y.Is b) (hb : b ≠ 0) :
    ∃ r : Inum L, r.Is (a.fmod b) ∧ Fuel.Settles (fun fuel => intMod fuel x y) (.ok r) := by
  obtain ⟨hcx, rfl⟩ := hx
  cases x with
  | fixnum n =>
      cases y with
      | fixnum m =>
          have hval : m.val = b := hy.value
          subst hval
          obtain ⟨-, h0, h1⟩ := fdiv_fmod_word n m hb
          refine ⟨_, long2num_is h0 h1, .of_le 0 fun fuel _ => ?_⟩
          show fixdivmod n.val m.val >>= _ = _
          rw [fixdivmod_eq hb]
          rfl
      | bignum z =>
          have hn := n.toInt_rbInt2big
          have h := (bigdivmod_settles (z := rbInt2big L n.val) hy hb).2
          rw [hn] at h
          exact h
  | bignum z => exact (bigdivmod_settles hy hb).2

/-! ## Products -/

/-- The product that `fix_mul` gets wrong: both factors pass the test for small ones, and their
product is one more than the largest fixnum. -/
def SquareOverflow (L : LongSize) (a b : ℤ) : Prop := L = .lp64 ∧ a = -2 ^ 31 ∧ b = -2 ^ 31

instance (L : LongSize) (a b : ℤ) : Decidable (SquareOverflow L a b) :=
  inferInstanceAs (Decidable (L = .lp64 ∧ a = -2 ^ 31 ∧ b = -2 ^ 31))

/-- `rb_ull2big` splits a number of two digits. -/
theorem rbUll2big_spec {n : ℤ} (h0 : 0 < n) (h1 : n < 2 ^ 64) :
    (rbUll2big n).mag = n ∧ 0 < (rbUll2big n).len ∧
      digitAt (rbUll2big n).digits ((rbUll2big n).len - 1) ≠ 0 := by
  have hspec := splitDigits_spec n (bignew 2 true).digits (k := 2) (by simp [bignew])
  dsimp only [rbUll2big, Bignum.mag, Bignum.len] at hspec ⊢
  generalize Loop.upto _ 2 _ = s at hspec ⊢
  obtain ⟨hlen, hval⟩ := hspec
  have hv0 := Radix.val_nonneg (n := 2) bigrad_pos.le fun i _ => digitAt_nonneg s.2 i
  have hv1 := Radix.val_lt (n := 2) bigrad_pos fun i _ => digitAt_lt s.2 i
  have hsq : bigrad ^ 2 = 18446744073709551616 := by norm_num [bigrad]
  rw [hsq] at hval hv1
  -- nothing is left over beyond the two digits
  have hcarry : s.1 = 0 := by omega
  rw [hcarry, zero_mul, add_zero] at hval
  obtain ⟨hd0, hd2, htop, hrest⟩ := dropZeros_spec s.2 (n := 2) (by omega)
  have hlen' : s.2.length = 2 := by simpa [bignew] using hlen
  have htake : (s.2.take (dropZeros s.2 2)).length = dropZeros s.2 2 := by
    rw [List.length_take, hlen']
    omega
  refine ⟨by rw [magnitude_take hd2 hrest, hval], by omega, ?_⟩
  rw [htake, digitAt_take (by omega)]
  exact htop

/-- `rb_ll2big` keeps the value. -/
theorem rbLl2big_spec {n : ℤ} (h0 : -2 ^ 63 ≤ n) (h1 : n < 2 ^ 63) (hne : n ≠ 0) :
    (rbLl2big n).toInt = n ∧ 0 < (rbLl2big n).len ∧
      digitAt (rbLl2big n).digits ((rbLl2big n).len - 1) ≠ 0 := by
  by_cases hneg : n < 0
  · have hdbl : toDbl (-n) = -n := by
      unfold toDbl
      omega
    obtain ⟨hmag, hpos, htop⟩ := rbUll2big_spec (n := -n) (by omega) (by omega)
    rw [rbLl2big, if_pos hneg, hdbl]
    refine ⟨?_, hpos, htop⟩
    simp only [Bignum.toInt, Bool.false_eq_true, if_false]
    rw [Bignum.mag] at hmag ⊢
    dsimp only
    omega
  · obtain ⟨hmag, hpos, htop⟩ := rbUll2big_spec (n := n) (by omega) (by omega)
    rw [rbLl2big, if_neg hneg]
    refine ⟨?_, hpos, htop⟩
    rw [Bignum.toInt, if_pos (show (rbUll2big n).sign = true from rfl), hmag]

theorem rbLl2inum_is {n : ℤ} (h0 : -2 ^ 63 ≤ n) (h1 : n < 2 ^ 63) : (rbLl2inum L n).Is n := by
  rw [rbLl2inum]
  split_ifs with h
  · exact ⟨trivial, rfl⟩
  · have hne : n ≠ 0 := by
      intro hn
      exact h ⟨hn ▸ L.fixnumMin_nonpos, hn ▸ L.fixnumMax_nonneg⟩
    obtain ⟨hval, hpos, htop⟩ := rbLl2big_spec h0 h1 hne
    exact ⟨⟨by rw [hval]; omega, hpos, htop⟩, hval⟩

theorem fixnum_lp64_range (n : Fixnum .lp64) : -2 ^ 62 ≤ n.val ∧ n.val < 2 ^ 62 := by
  have h0 := n.min_le
  have h1 := n.le_max
  obtain ⟨hmin, hmax, -⟩ := LongSize.lp64.fixnum_range
  simp only [LongSize.bits, LongSize.bytes] at hmin hmax
  omega

theorem long2fix_val {v : ℤ} (h0 : -2 ^ 62 ≤ v) (h1 : v < 2 ^ 62) : (long2fix .lp64 v).val = v := by
  show v.bmod (2 ^ (LongSize.lp64.bits - 1)) = v
  exact Int.bmod_eq_of_le (by simp [LongSize.bits, LongSize.bytes]; omega)
    (by simp [LongSize.bits, LongSize.bytes]; omega)

/-- Small factors whose product is a fixnum. -/
theorem mul_of_fitSqrtLong {a b : ℤ} (ha : fitSqrtLong .lp64 a = true)
    (hb : fitSqrtLong .lp64 b = true) (hsq : ¬ (a = -2 ^ 31 ∧ b = -2 ^ 31)) :
    -2 ^ 62 ≤ a * b ∧ a * b < 2 ^ 62 := by
  simp only [fitSqrtLong, LongSize.bits, LongSize.bytes, Bool.and_eq_true] at ha hb
  norm_num at ha hb hsq ⊢
  refine ⟨by nlinarith, ?_⟩
  by_cases h : a = -2147483648
  · have := hsq h
    have hb' : -2147483647 ≤ b := by omega
    subst h
    omega
  · have ha' : -2147483647 ≤ a := by omega
    nlinarith

/-- A wrapped product that divides back is the product. -/
theorem mul_of_tdiv {a b : ℤ} (ha0 : a ≠ 0) (ha : -2 ^ (L.bits - 2) ≤ a)
    (ha' : a ≤ 2 ^ (L.bits - 2)) (h : (L.toLong (a * b)).tdiv a = b) :
    L.toLong (a * b) = a * b := by
  have hmod : (a * b).bmod (2 ^ L.bits) % ((2 ^ L.bits : ℕ) : ℤ) = a * b % ((2 ^ L.bits : ℕ) : ℤ) :=
    Int.bmod_emod
  have hdvd : ((2 ^ L.bits : ℕ) : ℤ) ∣ L.toLong (a * b) - a * b := by
    refine Int.dvd_of_emod_eq_zero ?_
    rw [LongSize.toLong, Int.sub_emod, hmod]
    simp
  obtain ⟨k, hk⟩ := hdvd
  generalize L.toLong (a * b) = c at h hk ⊢
  have heq := Int.mul_tdiv_add_tmod c a
  have hlt : (c.tmod a).natAbs < a.natAbs := by
    rw [Int.natAbs_tmod]
    exact Nat.mod_lt _ (Int.natAbs_pos.mpr ha0)
  rw [h] at heq
  -- the remainder is less than the divisor and a multiple of the modulus
  have hrem : c.tmod a = (2 ^ L.bits : ℕ) * k := by linarith
  have hk0 : k = 0 := by
    rw [hrem] at hlt
    cases L with
    | ilp32 =>
        simp only [LongSize.bits, LongSize.bytes] at ha ha' hlt
        omega
    | lp64 =>
        simp only [LongSize.bits, LongSize.bytes] at ha ha' hlt
        omega
  rw [hk0, mul_zero] at hk
  linarith

/-- The product of fixnums on 64-bit longs. -/
theorem fixMulFix_lp64 (n m : Fixnum .lp64) (hsq : ¬ SquareOverflow .lp64 n.val m.val) :
    (fixMulFix n m).Is (n.val * m.val) := by
  obtain ⟨hn0, hn1⟩ := fixnum_lp64_range n
  have hsq' : ¬ (n.val = -2 ^ 31 ∧ m.val = -2 ^ 31) := fun h => hsq ⟨rfl, h⟩
  simp only [fixMulFix]
  by_cases hfit : (fitSqrtLong .lp64 n.val && fitSqrtLong .lp64 m.val) = true
  · rw [if_pos hfit]
    rw [Bool.and_eq_true] at hfit
    obtain ⟨h0, h1⟩ := mul_of_fitSqrtLong hfit.1 hfit.2 hsq'
    exact ⟨trivial, long2fix_val h0 h1⟩
  · rw [if_neg hfit]
    by_cases hzero : n.val = 0
    · rw [if_pos hzero]
      refine ⟨trivial, ?_⟩
      show n.val = n.val * m.val
      rw [hzero, zero_mul]
    · rw [if_neg hzero]
      split_ifs with hover
      · refine ⟨bignorm_canonical _ _, ?_⟩
        rw [toInt_rbBigMul, n.toInt_rbInt2big]
        exact congrArg _ m.toInt_rbInt2big
      · rw [not_or, not_not, not_not] at hover
        have hprod := mul_of_tdiv (L := .lp64) hzero hn0 hn1.le hover.2
        exact ⟨trivial, hover.1.trans hprod⟩

/-- The product of two fixnums. -/
theorem fixMulFix_is (n m : Fixnum L) (hsq : ¬ SquareOverflow L n.val m.val) :
    (fixMulFix n m).Is (n.val * m.val) := by
  cases L with
  | lp64 => exact fixMulFix_lp64 n m hsq
  | ilp32 =>
      have hn0 := n.min_le
      have hn1 := n.le_max
      have hm0 := m.min_le
      have hm1 := m.le_max
      obtain ⟨hmin, hmax, -⟩ := LongSize.ilp32.fixnum_range
      simp only [LongSize.bits, LongSize.bytes] at hmin hmax
      norm_num at hmin hmax
      rw [hmin] at hn0 hm0
      rw [hmax] at hn1 hm1
      exact rbLl2inum_is (by norm_num; nlinarith) (by norm_num; nlinarith)

/-- **`*` is exact**, but for the one product. -/
theorem intMul_is (hx : x.Is a) (hy : y.Is b) (hsq : ¬ SquareOverflow L a b) :
    (intMul x y).Is (a * b) := by
  obtain ⟨hcx, rfl⟩ := hx
  obtain ⟨hcy, rfl⟩ := hy
  cases x with
  | fixnum n =>
      cases y with
      | fixnum m => exact fixMulFix_is n m hsq
      | bignum z =>
          refine ⟨bignorm_canonical L _, ?_⟩
          exact (toInt_rbBigMul z (.fixnum n)).trans (mul_comm _ _)
  | bignum z => exact ⟨bignorm_canonical L _, toInt_rbBigMul z y⟩

/-- **The product that is wrong comes out as the least fixnum.** -/
theorem intMul_squareOverflow (hx : x.Is a) (hy : y.Is b) (hsq : SquareOverflow L a b) :
    (intMul x y).Is (-2 ^ 62) := by
  obtain ⟨rfl, rfl, rfl⟩ := hsq
  have hfix : (.fixnum ⟨-2 ^ 31, by decide, by decide⟩ : Inum .lp64).Is (-2 ^ 31) := ⟨trivial, rfl⟩
  rw [hx.unique hfix, hy.unique hfix]
  exact ⟨trivial, by decide⟩

end Exact

/-! ## Products of fixnums -/

section Products

variable {L : LongSize}

/-- The product of two fixnums in the form of its size: a fixnum if it is in their range, and a
normalised bignum if not. -/
structure ExactProduct (n m : Fixnum L) (r : Inum L) : Prop where
  value : r.toInt = n.val * m.val
  canonical : r.Canonical
  fixnum : (∃ k, r = .fixnum k) ↔ L.fixnumMin ≤ n.val * m.val ∧ n.val * m.val ≤ L.fixnumMax

/-- A canonical Integer is a fixnum if it is in their range. -/
theorem Inum.Is.fixnum_iff {x : Inum L} {a : ℤ} (hx : x.Is a) :
    (∃ k, x = .fixnum k) ↔ L.fixnumMin ≤ a ∧ a ≤ L.fixnumMax := by
  obtain ⟨hc, rfl⟩ := hx
  cases x with
  | fixnum k => exact iff_of_true ⟨k, rfl⟩ ⟨k.min_le, k.le_max⟩
  | bignum z =>
      refine iff_of_false ?_ ?_
      · intro ⟨k, hk⟩
        cases hk
      · intro ⟨hmin, hmax⟩
        rcases hc.1 with hlt | hlt
        · exact absurd hmin (not_le.mpr hlt)
        · exact absurd hmax (not_le.mpr hlt)

/-- The product comes out as the least fixnum. -/
theorem not_exactProduct_of_squareOverflow {n m : Fixnum L} (hsq : SquareOverflow L n.val m.val) :
    ¬ ExactProduct n m (fixMul n (.fixnum m)) := by
  intro h
  have hmul : (fixMul n (.fixnum m)).toInt = -2 ^ 62 :=
    (intMul_squareOverflow (x := .fixnum n) (y := .fixnum m)
      ⟨trivial, rfl⟩ ⟨trivial, rfl⟩ hsq).value
  have hval := h.value
  rw [hmul, hsq.2.1, hsq.2.2] at hval
  norm_num at hval

/-- **`fix_mul` is exact exactly if it is not the one square that overflows.** -/
theorem fixMul_exact_iff (n m : Fixnum L) :
    ExactProduct n m (fixMul n (.fixnum m)) ↔ ¬ SquareOverflow L n.val m.val := by
  refine ⟨fun h hsq => not_exactProduct_of_squareOverflow hsq h, fun hsq => ?_⟩
  have hmul := fixMulFix_is n m hsq
  exact ⟨hmul.value, hmul.canonical, hmul.fixnum_iff⟩

/-- `(-2 ** 31) * (-2 ** 31)` is negative. -/
theorem not_fixMul_exact_square :
    ¬ ExactProduct (L := .lp64) ⟨-2 ^ 31, by decide, by decide⟩ ⟨-2 ^ 31, by decide, by decide⟩
      (fixMul ⟨-2 ^ 31, by decide, by decide⟩ (.fixnum ⟨-2 ^ 31, by decide, by decide⟩)) :=
  not_exactProduct_of_squareOverflow ⟨rfl, rfl, rfl⟩

end Products

end MacRuby
