import MacRuby.Numeric.Integer
import Mathlib.Data.Int.Order.Basic

/-!
# Specialised instructions on Integers

Where an operator is not redefined, the compiler's `opt_*` instructions do the arithmetic of two
fixnums themselves: addition on the tagged words with a test of the sign bits, multiplication by
multiplying and dividing back, division with a copy of `fixdivmod`. Everything else goes to the
method the operator stands for.

## Main definitions

* `Tagged`, `int2fix`, `fix2long` — tagged words.
* `optPlus`, `optMinus`, `optMult`, `optDiv`, `optMod`, `optSucc`, `optLt`, `optLe`, `optGt`,
  `optGe` — the instructions.
* `Bop`, `Bop.insn`, `Bop.method`, `Bop.Exact` — an operator as an instruction, as a method, and as
  it is meant.

## Main results

* `plusTagged_is`, `plusUntagged_is`, `minusFix_is`, `multFix_is` — the fast paths are exact.
* `insn_exact` — so is every instruction.
* `insn_agrees_iff` — and it gives what the method gives, but for the one product that the method
  gets wrong.
-/

namespace MacRuby

variable {L : LongSize}

/-! ## Tagged words -/

/-- `VALUE`. -/
abbrev Tagged (L : LongSize) := BitVec L.bits

/-- `INT2FIX(i)`. -/
def int2fix (L : LongSize) (i : ℤ) : Tagged L := BitVec.ofInt L.bits i <<< 1 ||| 1#L.bits

/-- `FIX2LONG(x)`. -/
def fix2long (x : Tagged L) : ℤ := (x.sshiftRight 1).toInt

theorem fix2long_eq (x : Tagged L) : fix2long x = x.toInt / 2 := by
  rw [fix2long, BitVec.toInt_sshiftRight, Int.shiftRight_eq_div_pow]
  rfl

/-- The fixnum a tagged word stands for. -/
def fixnumOf (x : Tagged L) : Fixnum L :=
  ⟨fix2long x,
    by
      have h := x.le_toInt
      obtain ⟨hmin, -, hhalf⟩ := L.fixnum_range
      rw [fix2long_eq, hmin]
      omega,
    by
      have h := x.toInt_lt
      obtain ⟨-, hmax, hhalf⟩ := L.fixnum_range
      rw [fix2long_eq, hmax]
      omega⟩

/-! ## The fast paths -/

/-- The sum of the tagged words, or that of bignums if the sign bits say it has run over. -/
def plusTagged (recv obj : Tagged L) : Inum L :=
  let val := recv + (obj &&& ~~~1#L.bits)
  if (~~~(recv ^^^ obj) &&& (recv ^^^ val)) &&& (1#L.bits <<< (L.bits - 1)) ≠ 0#L.bits then
    rbBigPlus L (rbInt2big L (fix2long recv)) (.bignum (rbInt2big L (fix2long obj)))
  else .fixnum (fixnumOf val)

/-- The sum where `VALUE` is `long long`. -/
def plusUntagged (a b : ℤ) : Inum L :=
  let c := L.toLong (a + b)
  if h : L.fixnumMin ≤ c ∧ c ≤ L.fixnumMax then .fixnum ⟨c, h.1, h.2⟩
  else rbBigPlus L (rbInt2big L a) (.bignum (rbInt2big L b))

/-- The difference. -/
def minusFix (a b : ℤ) : Inum L :=
  let c := L.toLong (a - b)
  if h : L.fixnumMin ≤ c ∧ c ≤ L.fixnumMax then .fixnum ⟨c, h.1, h.2⟩
  else rbBigMinus L (rbInt2big L a) (.bignum (rbInt2big L b))

/-- The product, which is divided back. -/
def multFix (recv obj : Fixnum L) : Inum L :=
  let a := recv.val
  let b := obj.val
  if a = 0 then .fixnum recv
  else
    let c := L.toLong (a * b)
    if h : (L.fixnumMin ≤ c ∧ c ≤ L.fixnumMax) ∧ c.tdiv a = b then .fixnum ⟨c, h.1.1, h.1.2⟩
    else rbBigMul L (rbInt2big L a) (.bignum (rbInt2big L b))

/-! ## The instructions -/

section Instructions

variable {R : Type}

/-- An instruction takes its fast path on two fixnums, if the operator is not redefined, and calls
the method otherwise. -/
def specialized (unredefined : Bool) (fast : Fixnum L → Fixnum L → R)
    (method : Inum L → Inum L → R) : Inum L → Inum L → R
  | .fixnum recv, .fixnum obj =>
      if unredefined then fast recv obj else method (.fixnum recv) (.fixnum obj)
  | recv, obj => method recv obj

/-- `opt_plus`; `longLong` is `LONG_LONG_VALUE`. -/
def optPlus (longLong unredefined : Bool) (method : Inum L → Inum L → Inum L) :
    Inum L → Inum L → Inum L :=
  specialized unredefined
    (fun recv obj => if longLong then plusUntagged recv.val obj.val
      else plusTagged (int2fix L recv.val) (int2fix L obj.val)) method

/-- `opt_minus`. -/
def optMinus (unredefined : Bool) (method : Inum L → Inum L → Inum L) : Inum L → Inum L → Inum L :=
  specialized unredefined (fun recv obj => minusFix recv.val obj.val) method

/-- `opt_mult`. -/
def optMult (unredefined : Bool) (method : Inum L → Inum L → Inum L) : Inum L → Inum L → Inum L :=
  specialized unredefined multFix method

/-- `opt_div`, which leaves division by zero to the method. -/
def optDiv (unredefined : Bool) (method : Inum L → Inum L → Except DivError (Inum L)) :
    Inum L → Inum L → Except DivError (Inum L) :=
  specialized unredefined
    (fun recv obj => if obj.val = 0 then method (.fixnum recv) (.fixnum obj)
      else (fixdivmod recv.val obj.val).map fun r => long2num L r.1) method

/-- `opt_mod`, which raises by itself. -/
def optMod (unredefined : Bool) (method : Inum L → Inum L → Except DivError (Inum L)) :
    Inum L → Inum L → Except DivError (Inum L) :=
  specialized unredefined
    (fun recv obj => (fixdivmod recv.val obj.val).map fun r => .fixnum (long2fix L r.2)) method

/-- `opt_succ`. -/
def optSucc (unredefined : Bool) (method : Inum L → Inum L) : Inum L → Inum L
  | .fixnum recv =>
      if unredefined then plusTagged (int2fix L recv.val) (int2fix L 1) else method (.fixnum recv)
  | recv => method recv

/-- `opt_lt`, `opt_le`, `opt_gt` and `opt_ge` compare the tagged words. -/
def optLt (unredefined : Bool) (method : Inum L → Inum L → Bool) : Inum L → Inum L → Bool :=
  specialized unredefined
    (fun recv obj => decide ((int2fix L recv.val).toInt < (int2fix L obj.val).toInt)) method

def optLe (unredefined : Bool) (method : Inum L → Inum L → Bool) : Inum L → Inum L → Bool :=
  specialized unredefined
    (fun recv obj => decide ((int2fix L recv.val).toInt ≤ (int2fix L obj.val).toInt)) method

def optGt (unredefined : Bool) (method : Inum L → Inum L → Bool) : Inum L → Inum L → Bool :=
  specialized unredefined
    (fun recv obj => decide ((int2fix L recv.val).toInt > (int2fix L obj.val).toInt)) method

def optGe (unredefined : Bool) (method : Inum L → Inum L → Bool) : Inum L → Inum L → Bool :=
  specialized unredefined
    (fun recv obj => decide ((int2fix L recv.val).toInt ≥ (int2fix L obj.val).toInt)) method

end Instructions

/-! ## The operators -/

/-- An operator; `longLong` says how `opt_plus` is compiled. -/
inductive Bop
  | plus (longLong : Bool)
  | minus
  | mult
  | div
  | mod
  | succ
  | lt
  | le
  | gt
  | ge
  deriving DecidableEq

/-- What an operator returns. -/
inductive Answer (L : LongSize)
  | int (r : Inum L)
  | bool (b : Bool)

/-- The operator's method. -/
def Bop.method (fuel : ℕ) : Bop → Inum L → Inum L → Except DivError (Answer L)
  | .plus _, x, y => .ok (.int (intPlus x y))
  | .minus, x, y => .ok (.int (intMinus x y))
  | .mult, x, y => .ok (.int (intMul x y))
  | .div, x, y => (intDiv fuel x y).map .int
  | .mod, x, y => (intMod fuel x y).map .int
  | .succ, x, _ => .ok (.int (intSucc x))
  | .lt, x, y => .ok (.bool (intRel (· < ·) x y))
  | .le, x, y => .ok (.bool (intRel (· ≤ ·) x y))
  | .gt, x, y => .ok (.bool (intRel (· > ·) x y))
  | .ge, x, y => .ok (.bool (intRel (· ≥ ·) x y))

/-- The operator's instruction, where no operator is redefined. -/
def Bop.insn (fuel : ℕ) : Bop → Inum L → Inum L → Except DivError (Answer L)
  | .plus longLong, x, y => .ok (.int (optPlus longLong true intPlus x y))
  | .minus, x, y => .ok (.int (optMinus true intMinus x y))
  | .mult, x, y => .ok (.int (optMult true intMul x y))
  | .div, x, y => (optDiv true (intDiv fuel) x y).map .int
  | .mod, x, y => (optMod true (intMod fuel) x y).map .int
  | .succ, x, _ => .ok (.int (optSucc true intSucc x))
  | .lt, x, y => .ok (.bool (optLt true (intRel (· < ·)) x y))
  | .le, x, y => .ok (.bool (optLe true (intRel (· ≤ ·)) x y))
  | .gt, x, y => .ok (.bool (optGt true (intRel (· > ·)) x y))
  | .ge, x, y => .ok (.bool (optGe true (intRel (· ≥ ·)) x y))

/-- The exact result, as a fixnum if it is in the range of fixnums and else as a bignum in its
normal form. -/
def Bop.Exact (a b : ℤ) (r : Except DivError (Answer L)) : Bop → Prop
  | .plus _ => ∃ i, r = .ok (.int i) ∧ i.Is (a + b)
  | .minus => ∃ i, r = .ok (.int i) ∧ i.Is (a - b)
  | .mult => ∃ i, r = .ok (.int i) ∧ i.Is (a * b)
  | .div => if b = 0 then r = .error .zeroDiv else ∃ i, r = .ok (.int i) ∧ i.Is (a.fdiv b)
  | .mod => if b = 0 then r = .error .zeroDiv else ∃ i, r = .ok (.int i) ∧ i.Is (a.fmod b)
  | .succ => ∃ i, r = .ok (.int i) ∧ i.Is (a + 1)
  | .lt => r = .ok (.bool (decide (a < b)))
  | .le => r = .ok (.bool (decide (a ≤ b)))
  | .gt => r = .ok (.bool (decide (a > b)))
  | .ge => r = .ok (.bool (decide (a ≥ b)))

/-! ## Tagged words and their numbers -/

theorem ofInt_shiftLeft_one (L : LongSize) (i : ℤ) :
    BitVec.ofInt L.bits i <<< 1 = BitVec.ofInt L.bits (2 * i) := by
  have htwo : BitVec.twoPow L.bits 1 = BitVec.ofInt L.bits 2 := by cases L <;> decide
  rw [BitVec.shiftLeft_eq_mul_twoPow, htwo, BitVec.mul_comm, BitVec.ofInt_mul]

theorem int2fix_eq (L : LongSize) (i : ℤ) : int2fix L i = BitVec.ofInt L.bits (2 * i + 1) := by
  have hzero : BitVec.ofInt L.bits i <<< 1 &&& 1#L.bits = 0#L.bits := by
    ext k hk
    cases k <;> simp
  rw [int2fix, ← BitVec.add_eq_or_of_and_eq_zero _ _ hzero, ofInt_shiftLeft_one, BitVec.ofInt_add]
  rfl

/-- The lowest bit is the tag. -/
theorem int2fix_untag (L : LongSize) (i : ℤ) :
    int2fix L i &&& ~~~1#L.bits = BitVec.ofInt L.bits (2 * i) := by
  rw [← ofInt_shiftLeft_one, int2fix]
  ext k hk
  cases k <;> simp

theorem toInt_ofInt_word {v : ℤ} (h0 : -2 ^ (L.bits - 1) ≤ v) (h1 : v < 2 ^ (L.bits - 1)) :
    (BitVec.ofInt L.bits v).toInt = v := by
  rw [BitVec.toInt_ofInt]
  exact LongSize.toLong_eq h0 h1

/-- Twice a fixnum is a word, and so is one more. -/
theorem Fixnum.double_word (n : Fixnum L) :
    -2 ^ (L.bits - 1) ≤ 2 * n.val ∧ 2 * n.val + 1 < 2 ^ (L.bits - 1) := by
  obtain ⟨hmin, hmax, hhalf⟩ := L.fixnum_range
  have h0 := n.min_le
  have h1 := n.le_max
  omega

theorem toInt_int2fix (n : Fixnum L) : (int2fix L n.val).toInt = 2 * n.val + 1 := by
  obtain ⟨h0, h1⟩ := n.double_word
  rw [int2fix_eq, toInt_ofInt_word (by omega) h1]

theorem fix2long_int2fix (n : Fixnum L) : fix2long (int2fix L n.val) = n.val := by
  rw [fix2long_eq, toInt_int2fix]
  omega

/-! ## The fast paths are exact -/

/-- The mask keeps the sign bit. -/
theorem and_sign_ne_zero (x : Tagged L) : x &&& (1#L.bits <<< (L.bits - 1)) ≠ 0#L.bits ↔ x.msb := by
  have hone : BitVec.twoPow L.bits (L.bits - 1) ≠ 0#L.bits := by cases L <;> decide
  rw [← BitVec.twoPow_eq, BitVec.and_twoPow, BitVec.msb_eq_getLsbD_last]
  split <;> simp_all

/-- The sign of a tagged word is that of its number. -/
theorem msb_int2fix (n : Fixnum L) :
    (int2fix L n.val).msb = (BitVec.ofInt L.bits (2 * n.val)).msb := by
  obtain ⟨h0, h1⟩ := n.double_word
  rw [BitVec.msb_eq_toInt, BitVec.msb_eq_toInt, toInt_int2fix, toInt_ofInt_word h0 (by omega)]
  exact decide_eq_decide.mpr (by omega)

/-- The sign bits show that a sum has run over. -/
theorem plusTagged_test (n m : Fixnum L) :
    (~~~(int2fix L n.val ^^^ int2fix L m.val) &&& (int2fix L n.val ^^^ (int2fix L n.val +
      (int2fix L m.val &&& ~~~1#L.bits)))) &&& (1#L.bits <<< (L.bits - 1)) ≠ 0#L.bits ↔
    (int2fix L n.val).saddOverflow (BitVec.ofInt L.bits (2 * m.val)) = true := by
  have hbits : 0 < L.bits := by cases L <;> decide
  rw [and_sign_ne_zero, BitVec.saddOverflow_eq, int2fix_untag, ← msb_int2fix m]
  simp only [BitVec.msb_and, BitVec.msb_not, BitVec.msb_xor, hbits, decide_true, Bool.true_and]
  cases (int2fix L n.val).msb <;> cases (int2fix L m.val).msb <;>
    cases (int2fix L n.val + BitVec.ofInt L.bits (2 * m.val)).msb <;> rfl

/-- Sums and differences of fixnums turned into bignums. -/
theorem toInt_bigadd_int2big (n m : Fixnum L) (sign : Bool) :
    (bigadd (rbInt2big L n.val) (rbInt2big L m.val) sign).toInt =
      if sign then n.val + m.val else n.val - m.val := by
  rw [toInt_bigadd_of_trimmed (trimmed_rbInt2big n.toInt_rbInt2big)
    (trimmed_rbInt2big m.toInt_rbInt2big), n.toInt_rbInt2big, m.toInt_rbInt2big]

/-- **The sum of tagged words is exact.** -/
theorem plusTagged_is (n m : Fixnum L) :
    (plusTagged (int2fix L n.val) (int2fix L m.val)).Is (n.val + m.val) := by
  rw [plusTagged]
  split_ifs with h
  · rw [fix2long_int2fix, fix2long_int2fix]
    exact bignorm_is (toInt_bigadd_int2big n m true)
  · have hover := mt (plusTagged_test n m).mpr h
    refine ⟨trivial, ?_⟩
    obtain ⟨h0, h1⟩ := m.double_word
    show fix2long _ = _
    rw [fix2long_eq, int2fix_untag, BitVec.toInt_add_of_not_saddOverflow hover, toInt_int2fix,
      toInt_ofInt_word h0 (by omega)]
    omega

/-- Sums and differences of fixnums are words. -/
theorem Fixnum.add_sub_word (n m : Fixnum L) :
    L.toLong (n.val + m.val) = n.val + m.val ∧ L.toLong (n.val - m.val) = n.val - m.val := by
  have hn := n.double_word
  have hm := m.double_word
  exact ⟨LongSize.toLong_eq (by omega) (by omega), LongSize.toLong_eq (by omega) (by omega)⟩

/-- **The sum of numbers is exact.** -/
theorem plusUntagged_is (n m : Fixnum L) : (plusUntagged n.val m.val : Inum L).Is
    (n.val + m.val) := by
  simp only [plusUntagged]
  split_ifs with h
  · exact ⟨trivial, (n.add_sub_word m).1⟩
  · exact bignorm_is (toInt_bigadd_int2big n m true)

/-- **The difference is exact.** -/
theorem minusFix_is (n m : Fixnum L) : (minusFix n.val m.val : Inum L).Is (n.val - m.val) := by
  simp only [minusFix]
  split_ifs with h
  · exact ⟨trivial, (n.add_sub_word m).2⟩
  · exact bignorm_is (toInt_bigadd_int2big n m false)

/-- **The product is exact**: what wraps does not divide back. -/
theorem multFix_is (n m : Fixnum L) : (multFix n m).Is (n.val * m.val) := by
  simp only [multFix]
  split_ifs with hzero h
  · refine ⟨trivial, ?_⟩
    rw [hzero, zero_mul]
    exact hzero
  · obtain ⟨hmin, hmax, -⟩ := L.fixnum_range
    have h0 := n.min_le
    have h1 := n.le_max
    exact ⟨trivial, mul_of_tdiv hzero (by omega) (by omega) h.2⟩
  · refine ⟨bignorm_canonical L _, ?_⟩
    rw [toInt_rbBigMul, n.toInt_rbInt2big]
    exact congrArg _ m.toInt_rbInt2big

/-- **The modulus is a fixnum.** -/
theorem long2fix_fmod_is (n m : Fixnum L) (hm : m.val ≠ 0) :
    (.fixnum (long2fix L (n.val.fmod m.val)) : Inum L).Is (n.val.fmod m.val) := by
  obtain ⟨hmin, hmax, hhalf⟩ := L.fixnum_range
  have hm0 := m.min_le
  have hm1 := m.le_max
  have hrange : -2 ^ (L.bits - 2) ≤ n.val.fmod m.val ∧ n.val.fmod m.val < 2 ^ (L.bits - 2) := by
    rw [Int.fmod_eq_emod]
    have h0 := Int.emod_nonneg n.val hm
    have h1 := Int.emod_lt_abs n.val hm
    have h2 : |m.val| = m.val ∨ |m.val| = -m.val := abs_choice m.val
    split_ifs <;> omega
  refine ⟨trivial, ?_⟩
  exact Int.bmod_eq_of_le (by push_cast; omega) (by push_cast; omega)

/-! ## The instructions are exact -/

/-- **Every instruction is exact** on fixnums. -/
theorem insn_exact (op : Bop) (fuel : ℕ) (n m : Fixnum L) :
    op.Exact n.val m.val (op.insn fuel (.fixnum n) (.fixnum m)) := by
  cases op with
  | plus longLong =>
      cases longLong with
      | true => exact ⟨_, rfl, plusUntagged_is n m⟩
      | false => exact ⟨_, rfl, plusTagged_is n m⟩
  | minus => exact ⟨_, rfl, minusFix_is n m⟩
  | mult => exact ⟨_, rfl, multFix_is n m⟩
  | div =>
      simp only [Bop.Exact, Bop.insn, optDiv, specialized, if_true]
      split_ifs with hm
      · rw [intDiv, fixDivide, fixdivmod, if_pos hm]
        rfl
      · rw [fixdivmod_eq hm]
        obtain ⟨⟨h0, h1⟩, -⟩ := fdiv_fmod_word n m hm
        exact ⟨_, rfl, long2num_is h0 h1⟩
  | mod =>
      simp only [Bop.Exact, Bop.insn, optMod, specialized, if_true]
      split_ifs with hm
      · rw [fixdivmod, if_pos hm]
        rfl
      · rw [fixdivmod_eq hm]
        exact ⟨_, rfl, long2fix_fmod_is n m hm⟩
  | succ =>
      exact ⟨_, rfl, plusTagged_is n ⟨1, by cases L <;> decide, by cases L <;> decide⟩⟩
  | lt =>
      simp only [Bop.Exact, Bop.insn, optLt, specialized, if_true, toInt_int2fix]
      simp
  | le =>
      simp only [Bop.Exact, Bop.insn, optLe, specialized, if_true, toInt_int2fix]
      simp
  | gt =>
      simp only [Bop.Exact, Bop.insn, optGt, specialized, if_true, toInt_int2fix]
      simp
  | ge =>
      simp only [Bop.Exact, Bop.insn, optGe, specialized, if_true, toInt_int2fix]
      simp

/-- **So is every method**, but for the one product. -/
theorem method_exact (op : Bop) (fuel : ℕ) (n m : Fixnum L)
    (h : ¬ (op = .mult ∧ SquareOverflow L n.val m.val)) :
    op.Exact n.val m.val (op.method fuel (.fixnum n) (.fixnum m)) := by
  have hn : (.fixnum n : Inum L).Is n.val := ⟨trivial, rfl⟩
  have hm : (.fixnum m : Inum L).Is m.val := ⟨trivial, rfl⟩
  cases op with
  | plus longLong => exact ⟨_, rfl, intPlus_is hn hm⟩
  | minus => exact ⟨_, rfl, intMinus_is hn hm⟩
  | mult => exact ⟨_, rfl, intMul_is hn hm fun hsq => h ⟨rfl, hsq⟩⟩
  | div =>
      simp only [Bop.Exact, Bop.method, intDiv, fixDivide]
      split_ifs with hzero
      · rw [fixdivmod, if_pos hzero]
        rfl
      · rw [fixdivmod_eq hzero]
        obtain ⟨⟨h0, h1⟩, -⟩ := fdiv_fmod_word n m hzero
        exact ⟨_, rfl, long2num_is h0 h1⟩
  | mod =>
      simp only [Bop.Exact, Bop.method, intMod, fixMod]
      split_ifs with hzero
      · rw [fixdivmod, if_pos hzero]
        rfl
      · rw [fixdivmod_eq hzero]
        obtain ⟨-, h0, h1⟩ := fdiv_fmod_word n m hzero
        exact ⟨_, rfl, long2num_is h0 h1⟩
  | succ =>
      have hone : (Inum.one L).Is 1 := ⟨trivial, rfl⟩
      exact ⟨_, rfl, intPlus_is hn hone⟩
  | lt => rfl
  | le => rfl
  | gt => rfl
  | ge => rfl

/-- An exact result is determined by the operator and the numbers. -/
theorem Bop.Exact.unique {op : Bop} {a b : ℤ} {r s : Except DivError (Answer L)}
    (hr : op.Exact a b r) (hs : op.Exact a b s) : r = s := by
  have hint : ∀ {c : ℤ}, (∃ i, r = .ok (.int i) ∧ i.Is c) → (∃ i, s = .ok (.int i) ∧ i.Is c) →
      r = s := by
    rintro c ⟨i, rfl, hi⟩ ⟨j, rfl, hj⟩
    rw [hi.unique hj]
  cases op with
  | plus longLong => exact hint hr hs
  | minus => exact hint hr hs
  | mult => exact hint hr hs
  | succ => exact hint hr hs
  | div =>
      rw [Exact] at hr hs
      split_ifs at hr hs with hb
      · exact hr.trans hs.symm
      · exact hint hr hs
  | mod =>
      rw [Exact] at hr hs
      split_ifs at hr hs with hb
      · exact hr.trans hs.symm
      · exact hint hr hs
  | lt => exact Eq.trans hr (Eq.symm hs)
  | le => exact Eq.trans hr (Eq.symm hs)
  | gt => exact Eq.trans hr (Eq.symm hs)
  | ge => exact Eq.trans hr (Eq.symm hs)

/-- The product that the method gets wrong. -/
theorem not_agrees_of_squareOverflow (fuel : ℕ) {n m : Fixnum L}
    (hsq : SquareOverflow L n.val m.val) :
    ¬ (Bop.mult.Exact n.val m.val (Bop.mult.insn fuel (.fixnum n) (.fixnum m)) ∧
      Bop.mult.insn fuel (.fixnum n) (.fixnum m) =
        Bop.mult.method fuel (.fixnum n) (.fixnum m)) := by
  rintro ⟨⟨i, hi, his⟩, heq⟩
  have hwrong := intMul_squareOverflow (x := .fixnum n) (y := .fixnum m) ⟨trivial, rfl⟩
    ⟨trivial, rfl⟩ hsq
  rw [heq] at hi
  cases hi
  have hval := his.value.symm.trans hwrong.value
  rw [hsq.2.1, hsq.2.2] at hval
  norm_num at hval

/-- **A specialised instruction gives the exact result, and what the method gives, unless the method
multiplies `-2 ^ 31` by itself on 64-bit longs.** -/
theorem insn_agrees_iff (op : Bop) (fuel : ℕ) (n m : Fixnum L) :
    (op.Exact n.val m.val (op.insn fuel (.fixnum n) (.fixnum m)) ∧
      op.insn fuel (.fixnum n) (.fixnum m) = op.method fuel (.fixnum n) (.fixnum m)) ↔
    ¬ (op = .mult ∧ L = .lp64 ∧ n.val = -2 ^ 31 ∧ m.val = -2 ^ 31) := by
  constructor
  · rintro h ⟨rfl, hsq⟩
    exact not_agrees_of_squareOverflow fuel hsq h
  · intro h
    exact ⟨insn_exact op fuel n m, (insn_exact op fuel n m).unique (method_exact op fuel n m h)⟩

theorem fixnumMin_le_squareRoot : LongSize.lp64.fixnumMin ≤ -2 ^ 31 := by decide

theorem squareRoot_le_fixnumMax : -2 ^ 31 ≤ LongSize.lp64.fixnumMax := by decide

/-- `-2 ** 31`. -/
def squareRoot : Fixnum .lp64 := ⟨-2 ^ 31, fixnumMin_le_squareRoot, squareRoot_le_fixnumMax⟩

/-- `(-2 ** 31) * (-2 ** 31)` is not the same with and without the instruction. -/
theorem not_insn_agrees_squareRoot :
    ¬ (Bop.mult.Exact squareRoot.val squareRoot.val
        (Bop.mult.insn 0 (.fixnum squareRoot) (.fixnum squareRoot)) ∧
      Bop.mult.insn 0 (.fixnum squareRoot) (.fixnum squareRoot) =
        Bop.mult.method 0 (.fixnum squareRoot) (.fixnum squareRoot)) :=
  not_agrees_of_squareOverflow 0 ⟨rfl, rfl, rfl⟩

end MacRuby
