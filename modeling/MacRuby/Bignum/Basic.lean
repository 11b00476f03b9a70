import MacRuby.Lib.Loop
import MacRuby.Lib.Radix
import Mathlib.Tactic.LinearCombination

/-!
# Bignum representation and normalisation

A bignum is a sign flag over an array of 32-bit digits, least significant first.
Digits are `UInt32`, so every stored digit is proper by its type.  The double
width accumulators of the source (`BDIGIT_DBL` and its signed sibling) are
integers, wrapped to 64 bits wherever the source stores into one of them.

`bignew` leaves its digits unset in the source.  Here they start as zero: every
function of `bignum.c` modelled below writes a digit before it reads it.

## Main definitions

* `Bignum`, `Bignum.toInt` — the representation and the integer it denotes.
* `Inum` — a Ruby Integer: a fixnum, in range by construction, or a bignum.
* `bigtrunc`, `bigfixize`, `bignorm` — normalisation.
* `rbUint2big`, `rbInt2big` — conversion of machine words.
-/

namespace MacRuby

/-! ## Machine words -/

/-- The two word sizes the sources are configured for. -/
inductive LongSize
  /-- `SIZEOF_LONG` is 4. -/
  | ilp32
  /-- `SIZEOF_LONG` is 8. -/
  | lp64
  deriving DecidableEq, Repr

namespace LongSize

/-- `sizeof(long)`. -/
def bytes : LongSize → ℕ
  | ilp32 => 4
  | lp64 => 8

/-- The number of bits of a `long`, and of a `VALUE`. -/
def bits (L : LongSize) : ℕ := L.bytes * 8

/-- `DIGSPERLONG`. -/
def digsPerLong (L : LongSize) : ℕ := L.bytes / 4

/-- Conversion of an integer to `long`. -/
def toLong (L : LongSize) (n : ℤ) : ℤ := n.bmod (2 ^ L.bits)

/-- `FIXNUM_MAX`, that is `LONG_MAX >> 1`. -/
def fixnumMax (L : LongSize) : ℤ := (2 ^ (L.bits - 1) - 1) / 2

/-- `FIXNUM_MIN`, that is `LONG_MIN >> 1`. -/
def fixnumMin (L : LongSize) : ℤ := -(2 ^ (L.bits - 1)) / 2

end LongSize

/-- `BDIGIT`. -/
abbrev BDigit := UInt32

/-- `BIGRAD`. -/
def bigrad : ℤ := 2 ^ 32

/-- Conversion of an integer to `BDIGIT_DBL`. -/
def toDbl (n : ℤ) : ℤ := n % 2 ^ 64

/-- Conversion of an integer to `BDIGIT_DBL_SIGNED`. -/
def toDblSigned (n : ℤ) : ℤ := n.bmod (2 ^ 64)

/-- `BIGUP(x)`. -/
def bigup (n : ℤ) : ℤ := toDbl (toDbl n * bigrad)

/-- `BIGDN(x)`: the shift is arithmetic, so it rounds down. -/
def bigdn (n : ℤ) : ℤ := n / bigrad

/-- `BIGLO(x)`. -/
def biglo (n : ℤ) : BDigit := UInt32.ofNat (n % bigrad).toNat

/-! ## Digit arrays -/

/-- The number stored at index `i` of a digit array. -/
def digitAt (ds : List BDigit) (i : ℕ) : ℤ := ((ds.getD i 0).toNat : ℤ)

/-- The magnitude a whole digit array denotes. -/
def magnitude (ds : List BDigit) : ℤ := Radix.val bigrad (digitAt ds) ds.length

theorem bigrad_pos : 0 < bigrad := by norm_num [bigrad]

theorem digitAt_nonneg (ds : List BDigit) (i : ℕ) : 0 ≤ digitAt ds i := Int.natCast_nonneg _

theorem digitAt_lt (ds : List BDigit) (i : ℕ) : digitAt ds i < bigrad := by
  have h := (ds.getD i 0).toNat_lt
  unfold digitAt bigrad
  exact_mod_cast h

theorem digitAt_eq_zero_iff (ds : List BDigit) (i : ℕ) : digitAt ds i = 0 ↔ ds.getD i 0 = 0 := by
  rw [digitAt, Int.natCast_eq_zero, ← UInt32.toNat_inj]
  rfl

theorem digitAt_of_le {ds : List BDigit} {i : ℕ} (h : ds.length ≤ i) : digitAt ds i = 0 := by
  simp [digitAt, List.getD_eq_getElem?_getD, List.getElem?_eq_none h]

theorem digitAt_set_self {ds : List BDigit} {i : ℕ} (h : i < ds.length) (v : BDigit) :
    digitAt (ds.set i v) i = v.toNat := by
  simp [digitAt, List.getD_eq_getElem?_getD, h]

theorem digitAt_set_ne {ds : List BDigit} {i j : ℕ} (h : i ≠ j) (v : BDigit) :
    digitAt (ds.set i v) j = digitAt ds j := by
  simp [digitAt, List.getD_eq_getElem?_getD, h]

theorem digitAt_take {ds : List BDigit} {n i : ℕ} (h : i < n) :
    digitAt (ds.take n) i = digitAt ds i := by
  simp [digitAt, List.getD_eq_getElem?_getD, h]

theorem digitAt_replicate (n i : ℕ) : digitAt (List.replicate n 0) i = 0 := by
  by_cases h : i < n <;> simp [digitAt, List.getD_eq_getElem?_getD, h]

@[simp] theorem toNat_biglo (n : ℤ) : ((biglo n).toNat : ℤ) = n % bigrad := by
  have h0 : 0 ≤ n % bigrad := Int.emod_nonneg n bigrad_pos.ne'
  have h1 : n % bigrad < bigrad := Int.emod_lt_of_pos n bigrad_pos
  have h2 : (n % bigrad).toNat < 2 ^ 32 := by unfold bigrad at *; omega
  rw [biglo, UInt32.toNat_ofNat_of_lt' h2, Int.toNat_of_nonneg h0]

/-- `BIGLO` and `BIGDN` split a number into a digit and a carry. -/
theorem emod_add_bigdn (n : ℤ) : n % bigrad + bigrad * bigdn n = n := Int.emod_add_mul_ediv n bigrad

theorem magnitude_nonneg (ds : List BDigit) : 0 ≤ magnitude ds :=
  Radix.val_nonneg bigrad_pos.le (fun i _ => digitAt_nonneg ds i)

theorem magnitude_lt (ds : List BDigit) : magnitude ds < bigrad ^ ds.length :=
  Radix.val_lt bigrad_pos (fun i _ => digitAt_lt ds i)

/-- The magnitude read off any window that covers every non-zero digit. -/
theorem magnitude_eq_val (ds : List BDigit) {n : ℕ} (h : ∀ i, n ≤ i → digitAt ds i = 0) :
    magnitude ds = Radix.val bigrad (digitAt ds) n := by
  rcases Nat.le_total n ds.length with hn | hn
  · exact Radix.val_of_le hn (fun i hi _ => h i hi)
  · exact (Radix.val_of_le hn (fun i hi _ => digitAt_of_le hi)).symm

/-! ## Bignums -/

/-- `struct RBignum`: the sign flag is set for non-negative numbers. -/
structure Bignum where
  sign : Bool
  digits : List BDigit
  deriving DecidableEq, Repr

namespace Bignum

/-- `RBIGNUM_LEN(x)`. -/
def len (x : Bignum) : ℕ := x.digits.length

/-- The absolute value a bignum denotes. -/
def mag (x : Bignum) : ℤ := magnitude x.digits

/-- The integer a bignum denotes. -/
def toInt (x : Bignum) : ℤ := if x.sign then x.mag else -x.mag

theorem mag_nonneg (x : Bignum) : 0 ≤ x.mag := magnitude_nonneg x.digits

theorem abs_toInt (x : Bignum) : |x.toInt| = x.mag := by
  unfold toInt
  split
  · exact abs_of_nonneg x.mag_nonneg
  · rw [abs_neg, abs_of_nonneg x.mag_nonneg]

theorem toInt_eq_zero_iff (x : Bignum) : x.toInt = 0 ↔ x.mag = 0 := by
  unfold toInt
  split <;> simp

end Bignum

/-- `bigzero_p(x)`. -/
def bigzeroP (x : Bignum) : Bool :=
  Loop.downFrom (fun i z => z && x.digits.getD i 0 == 0) x.len true

/-- `BIGZEROP(x)`. -/
def bigzerop (x : Bignum) : Bool :=
  x.len == 0 || (x.digits.getD 0 0 == 0 && (x.len == 1 || bigzeroP x))

/-- `bignew(len, sign)`. -/
def bignew (len : ℕ) (sign : Bool) : Bignum := ⟨sign, List.replicate len 0⟩

/-- `while (--len && !ds[len]);`, and one more: the number of digits that remain
when leading zeros are dropped, the lowest digit being kept. -/
def trimLen (ds : List BDigit) : ℕ → ℕ
  | 0 => 0
  | 1 => 1
  | n + 2 => if ds.getD (n + 1) 0 = 0 then trimLen ds (n + 1) else n + 2

/-- `bigtrunc(x)`. -/
def bigtrunc (x : Bignum) : Bignum :=
  if x.len = 0 then x else { x with digits := x.digits.take (trimLen x.digits x.len) }

/-- A fixnum: an integer in the range a tagged word can hold. -/
structure Fixnum (L : LongSize) where
  val : ℤ
  min_le : L.fixnumMin ≤ val
  le_max : val ≤ L.fixnumMax

/-- A Ruby Integer. -/
inductive Inum (L : LongSize)
  | fixnum (n : Fixnum L)
  | bignum (x : Bignum)

/-- The integer a Ruby Integer denotes. -/
def Inum.toInt {L : LongSize} : Inum L → ℤ
  | .fixnum n => n.val
  | .bignum x => x.toInt

theorem LongSize.fixnumMin_nonpos (L : LongSize) : L.fixnumMin ≤ 0 := by
  cases L <;> decide

theorem LongSize.fixnumMax_nonneg (L : LongSize) : 0 ≤ L.fixnumMax := by
  cases L <;> decide

/-- The tail of `bigfixize(x)`, once the digits of `x` are folded into the `long` `num`. -/
def fixizeLong (L : LongSize) (x : Bignum) (num : ℤ) : Inum L :=
  if h0 : 0 ≤ num then
    if x.sign then
      if h : num < L.fixnumMax + 1 then
        .fixnum ⟨num, le_trans L.fixnumMin_nonpos h0, Int.le_of_lt_add_one h⟩
      else .bignum x
    else
      if h : L.fixnumMin ≤ -num then
        .fixnum ⟨-num, h, le_trans (neg_nonpos_of_nonneg h0) L.fixnumMax_nonneg⟩
      else .bignum x
  else .bignum x

/-- `bigfixize(x)`.  A fold that does not fit a `long` shows as a negative number. -/
def bigfixize (L : LongSize) (x : Bignum) : Inum L :=
  if x.len * 4 ≤ L.bytes then
    fixizeLong L x (Loop.downFrom
      (fun i num => L.toLong (toDbl (bigup num + digitAt x.digits i))) x.len 0)
  else .bignum x

/-- `bignorm(x)`, on a bignum. -/
def bignorm (L : LongSize) (x : Bignum) : Inum L := bigfixize L (bigtrunc x)

/-- `rb_uint2big(n)`. -/
def rbUint2big (L : LongSize) (n : ℤ) : Bignum :=
  let s := Loop.upto (fun i (s : ℤ × List BDigit) => (bigdn s.1, s.2.set i (biglo s.1)))
    L.digsPerLong (n, (bignew L.digsPerLong true).digits)
  ⟨true, s.2.take (trimLen s.2 L.digsPerLong)⟩

/-- `rb_int2big(n)`: negating the least `long` leaves it unchanged, and read back as
a `VALUE` it is its absolute value. -/
def rbInt2big (L : LongSize) (n : ℤ) : Bignum :=
  if n < 0 then { rbUint2big L (L.toLong (-n) % 2 ^ L.bits) with sign := false }
  else rbUint2big L n

/-! ## What normalisation and conversion compute -/

theorem bigzerop_eq_true_iff (x : Bignum) : bigzerop x = true ↔ x.toInt = 0 := by
  have hall : bigzeroP x = true ↔ ∀ i, i < x.len → digitAt x.digits i = 0 := by
    have key : ∀ n (z : Bool), Loop.downFrom (fun i z => z && x.digits.getD i 0 == 0) n z = true ↔
        z = true ∧ ∀ i, i < n → digitAt x.digits i = 0 := by
      intro n
      induction n with
      | zero => simp
      | succ n ih =>
          intro z
          rw [Loop.downFrom, ih]
          rw [Bool.and_eq_true, beq_iff_eq, ← digitAt_eq_zero_iff]
          constructor
          · rintro ⟨⟨hz, hn⟩, h⟩
            refine ⟨hz, ?_⟩
            intro i hi
            rcases Nat.lt_succ_iff_lt_or_eq.mp hi with hi | rfl
            · exact h i hi
            · exact hn
          · rintro ⟨hz, h⟩
            exact ⟨⟨hz, h n (by omega)⟩, fun i hi => h i (by omega)⟩
    simpa [bigzeroP] using key x.len true
  have hzero : x.toInt = 0 ↔ ∀ i, i < x.len → digitAt x.digits i = 0 := by
    rw [Bignum.toInt_eq_zero_iff]
    exact Radix.val_eq_zero_iff bigrad_pos (fun i _ => digitAt_nonneg x.digits i)
  rw [hzero, bigzerop, Bool.or_eq_true, Bool.and_eq_true, Bool.or_eq_true, hall,
    beq_iff_eq, beq_iff_eq, beq_iff_eq, ← digitAt_eq_zero_iff]
  constructor
  · rintro (hl | ⟨hd, hl | h⟩) i hi
    · omega
    · obtain rfl : i = 0 := by omega
      exact hd
    · exact h i hi
  · intro h
    rcases Nat.eq_zero_or_pos x.len with hl | hl
    · exact Or.inl hl
    · exact Or.inr ⟨h 0 hl, Or.inr h⟩

/-- Trimming keeps at least one digit and drops only zeros. -/
theorem trimLen_spec (ds : List BDigit) {n : ℕ} (hn : 0 < n) :
    0 < trimLen ds n ∧ trimLen ds n ≤ n ∧
      (∀ i, trimLen ds n ≤ i → i < n → digitAt ds i = 0) ∧
      (trimLen ds n = 1 ∨ digitAt ds (trimLen ds n - 1) ≠ 0) := by
  induction n with
  | zero => omega
  | succ n ih =>
      cases n with
      | zero => exact ⟨by simp [trimLen], by simp [trimLen], by simp [trimLen]; omega, Or.inl rfl⟩
      | succ n =>
          obtain ⟨h1, h2, h3, h4⟩ := ih (by omega)
          by_cases hz : ds.getD (n + 1) 0 = 0
          · have ht : trimLen ds (n + 2) = trimLen ds (n + 1) := by rw [trimLen, if_pos hz]
            rw [ht]
            refine ⟨h1, by omega, ?_, h4⟩
            intro i hi hi'
            rcases Nat.lt_succ_iff_lt_or_eq.mp hi' with hlt | rfl
            · exact h3 i hi hlt
            · exact (digitAt_eq_zero_iff ds _).mpr hz
          · have ht : trimLen ds (n + 2) = n + 2 := by rw [trimLen, if_neg hz]
            rw [ht]
            refine ⟨by omega, le_refl _, by omega, Or.inr ?_⟩
            exact fun hd => hz ((digitAt_eq_zero_iff ds _).mp hd)

/-- Dropping leading zeros keeps the magnitude. -/
theorem magnitude_take {ds : List BDigit} {n m : ℕ} (hm : m ≤ n)
    (hz : ∀ i, m ≤ i → i < n → digitAt ds i = 0) :
    magnitude (ds.take m) = Radix.val bigrad (digitAt ds) n := by
  rw [Radix.val_of_le hm hz, magnitude_eq_val _ (n := m)]
  · exact Radix.val_congr (fun i hi => digitAt_take hi)
  · intro i hi
    refine digitAt_of_le ?_
    rw [List.length_take]
    omega

@[simp] theorem sign_bigtrunc (x : Bignum) : (bigtrunc x).sign = x.sign := by
  unfold bigtrunc
  split <;> rfl

@[simp] theorem mag_bigtrunc (x : Bignum) : (bigtrunc x).mag = x.mag := by
  unfold bigtrunc
  split
  · rfl
  · rename_i hl
    obtain ⟨-, h2, h3, -⟩ := trimLen_spec x.digits (Nat.pos_of_ne_zero hl)
    exact magnitude_take h2 h3

@[simp] theorem toInt_bigtrunc (x : Bignum) : (bigtrunc x).toInt = x.toInt := by
  simp [Bignum.toInt]

/-- Pushing one more digit under an already folded number that is itself one digit. -/
theorem toDbl_bigup_add {n d : ℤ} (hn : 0 ≤ n) (hn' : n < bigrad) (hd : 0 ≤ d) (hd' : d < bigrad) :
    toDbl (bigup n + d) = d + n * bigrad := by
  unfold bigup toDbl bigrad at *
  omega

/-- Folding at most a `long`'s worth of digits: the result is the magnitude, wrapped. -/
theorem bigfixize_fold (L : LongSize) (ds : List BDigit) (n : ℕ) (hn : n * 4 ≤ L.bytes) :
    Loop.downFrom (fun i num => L.toLong (toDbl (bigup num + digitAt ds i))) n 0 =
      L.toLong (Radix.val bigrad (digitAt ds) n) := by
  have hd := digitAt_nonneg ds
  have hd' := digitAt_lt ds
  have hone : ∀ i, toDbl (bigup 0 + digitAt ds i) = digitAt ds i := by
    intro i
    simpa using toDbl_bigup_add le_rfl bigrad_pos (hd i) (hd' i)
  have hcases : n = 0 ∨ n = 1 ∨ n = 2 ∧ L = .lp64 := by
    cases L <;> simp only [LongSize.bytes] at hn <;> simp <;> omega
  rcases hcases with rfl | rfl | ⟨rfl, hL⟩
  · simp [LongSize.toLong]
  · simp only [Loop.downFrom, Radix.val_one, hone]
  · have hfit : L.toLong (digitAt ds 1) = digitAt ds 1 := by
      subst hL
      have h0 := hd 1
      have h1 := hd' 1
      unfold bigrad at h1
      exact Int.bmod_eq_of_le (by simp [LongSize.bits, LongSize.bytes]; omega)
        (by simp [LongSize.bits, LongSize.bytes]; omega)
    simp only [Loop.downFrom, hone, hfit, toDbl_bigup_add (hd 1) (hd' 1) (hd 0) (hd' 0)]
    rw [Radix.val_succ, Radix.val_one, pow_one]

/-- A number wrapped to `long` that shows as non-negative is unchanged. -/
theorem toLong_of_nonneg {L : LongSize} {n : ℤ} (h0 : 0 ≤ n) (hn : n < 2 ^ L.bits)
    (hpos : 0 ≤ L.toLong n) : L.toLong n = n := by
  have hmod := Int.bmod_emod (x := n) (m := 2 ^ L.bits)
  have hlt := Int.bmod_lt (x := n) (m := 2 ^ L.bits) (by positivity)
  rw [Int.emod_eq_of_lt (a := n) h0 (by exact_mod_cast hn)] at hmod
  unfold LongSize.toLong at hpos ⊢
  rw [Int.emod_eq_of_lt hpos (by omega)] at hmod
  exact hmod

theorem toInt_fixizeLong {L : LongSize} {x : Bignum} {num : ℤ} (h : 0 ≤ num → num = x.mag) :
    (fixizeLong L x num).toInt = x.toInt := by
  unfold fixizeLong
  by_cases h0 : 0 ≤ num
  · have heq := h h0
    rw [dif_pos h0]
    by_cases hs : x.sign = true
    · rw [if_pos hs]
      split
      · simp [Inum.toInt, Bignum.toInt, hs, heq]
      · rfl
    · rw [if_neg hs]
      split
      · simp [Inum.toInt, Bignum.toInt, hs, heq]
      · rfl
  · rw [dif_neg h0]
    rfl

/-- **`bigfixize` keeps the value.** -/
@[simp] theorem toInt_bigfixize (L : LongSize) (x : Bignum) : (bigfixize L x).toInt = x.toInt := by
  unfold bigfixize
  split
  · rename_i hlen
    have hlt : x.mag < 2 ^ L.bits := by
      have h2 : bigrad ^ x.len ≤ 2 ^ L.bits := by
        rw [bigrad, ← pow_mul]
        exact pow_le_pow_right₀ (by norm_num) (by unfold LongSize.bits; omega)
      exact lt_of_lt_of_le (magnitude_lt x.digits) h2
    rw [bigfixize_fold L x.digits x.len hlen]
    exact toInt_fixizeLong (toLong_of_nonneg x.mag_nonneg hlt)
  · rfl

/-- **`bignorm` keeps the value.** -/
@[simp] theorem toInt_bignorm (L : LongSize) (x : Bignum) : (bignorm L x).toInt = x.toInt := by
  simp [bignorm]

/-- Splitting a number into digits, lowest first. -/
theorem splitDigits_spec (n : ℤ) (ds : List BDigit) {k : ℕ} (hk : k ≤ ds.length) :
    let s := Loop.upto (fun i (s : ℤ × List BDigit) => (bigdn s.1, s.2.set i (biglo s.1))) k (n, ds)
    s.2.length = ds.length ∧ Radix.val bigrad (digitAt s.2) k + s.1 * bigrad ^ k = n := by
  refine Loop.upto_induction
    (fun k (s : ℤ × List BDigit) => s.2.length = ds.length ∧
      Radix.val bigrad (digitAt s.2) k + s.1 * bigrad ^ k = n) (by simp) ?_
  rintro i ⟨num, zs⟩ hi ⟨hlen, hval⟩
  dsimp only at hlen hval ⊢
  refine ⟨by simpa using hlen, ?_⟩
  have hpre : Radix.val bigrad (digitAt (zs.set i (biglo num))) i =
      Radix.val bigrad (digitAt zs) i :=
    Radix.val_congr (fun j hj => digitAt_set_ne (by omega) _)
  rw [Radix.val_succ, hpre, digitAt_set_self (by omega), toNat_biglo, pow_succ, ← hval]
  linear_combination bigrad ^ i * emod_add_bigdn num

/-- **`rb_uint2big` denotes the word it is given.** -/
theorem mag_rbUint2big {L : LongSize} {n : ℤ} (h0 : 0 ≤ n) (hn : n < 2 ^ L.bits) :
    (rbUint2big L n).mag = n := by
  have hspec := splitDigits_spec n (bignew L.digsPerLong true).digits
    (k := L.digsPerLong) (by simp [bignew])
  have hpos : 0 < L.digsPerLong := by cases L <;> decide
  have hbits : bigrad ^ L.digsPerLong = 2 ^ L.bits := by cases L <;> norm_num [bigrad,
    LongSize.digsPerLong, LongSize.bits, LongSize.bytes]
  dsimp only [rbUint2big, Bignum.mag] at hspec ⊢
  generalize Loop.upto _ L.digsPerLong _ = s at hspec ⊢
  obtain ⟨-, hval⟩ := hspec
  obtain ⟨-, h2, h3, -⟩ := trimLen_spec s.2 hpos
  rw [magnitude_take h2 h3]
  -- the carry left over is the part of `n` beyond a word, which is empty
  have hv0 := Radix.val_nonneg (n := L.digsPerLong) bigrad_pos.le (fun i _ => digitAt_nonneg s.2 i)
  have hv1 := Radix.val_lt (n := L.digsPerLong) bigrad_pos (fun i _ => digitAt_lt s.2 i)
  rw [hbits] at hval hv1
  have hcarry : s.1 = 0 := by
    have h4 : s.1 < 1 := by nlinarith
    have h5 : -1 < s.1 := by nlinarith
    omega
  simpa [hcarry] using hval

@[simp] theorem sign_rbUint2big (L : LongSize) (n : ℤ) : (rbUint2big L n).sign = true := rfl

theorem toInt_rbUint2big {L : LongSize} {n : ℤ} (h0 : 0 ≤ n) (hn : n < 2 ^ L.bits) :
    (rbUint2big L n).toInt = n := by
  simp [Bignum.toInt, mag_rbUint2big h0 hn]

/-- **`rb_int2big` denotes the signed word it is given.** -/
theorem toInt_rbInt2big {L : LongSize} {n : ℤ} (h0 : -2 ^ (L.bits - 1) ≤ n)
    (hn : n < 2 ^ (L.bits - 1)) : (rbInt2big L n).toInt = n := by
  have hbits : (2 : ℤ) ^ L.bits = 2 * 2 ^ (L.bits - 1) := by cases L <;> rfl
  by_cases hneg : n < 0
  · have hword : L.toLong (-n) % 2 ^ L.bits = -n := by
      have hmod := Int.bmod_emod (x := -n) (m := 2 ^ L.bits)
      push_cast at hmod
      rw [LongSize.toLong, hmod]
      exact Int.emod_eq_of_lt (by omega) (by omega)
    rw [rbInt2big, if_pos hneg, hword]
    have hm := mag_rbUint2big (L := L) (n := -n) (by omega) (by omega)
    simp only [Bignum.toInt, Bignum.mag, Bool.false_eq_true, if_false] at hm ⊢
    omega
  · rw [rbInt2big, if_neg hneg]
    exact toInt_rbUint2big (by omega) (by omega)

theorem Fixnum.toInt_rbInt2big {L : LongSize} (n : Fixnum L) :
    (rbInt2big L n.val).toInt = n.val := by
  have h0 := n.min_le
  have h1 := n.le_max
  refine MacRuby.toInt_rbInt2big ?_ ?_ <;> cases L <;>
    simp [LongSize.fixnumMin, LongSize.fixnumMax, LongSize.bits, LongSize.bytes] at * <;> omega

/-! ## Normal forms -/

/-- A top digit that is not zero puts the magnitude at or above its own unit. -/
theorem pow_le_mag_of_top_ne_zero {x : Bignum} {n : ℕ} (hn : x.len = n + 1)
    (htop : digitAt x.digits n ≠ 0) : bigrad ^ n ≤ x.mag := by
  have hmag : x.mag = Radix.val bigrad (digitAt x.digits) (n + 1) := by rw [← hn]; rfl
  have h1 : 1 ≤ digitAt x.digits n := by
    have := digitAt_nonneg x.digits n
    omega
  have hmul : 1 * bigrad ^ n ≤ digitAt x.digits n * bigrad ^ n :=
    mul_le_mul_of_nonneg_right h1 (pow_nonneg bigrad_pos.le n)
  have hnn := Radix.val_nonneg (n := n) bigrad_pos.le (fun i _ => digitAt_nonneg x.digits i)
  rw [hmag, Radix.val_succ]
  linarith

/-- What `bigtrunc` leaves has a non-zero top digit, or a single digit at most. -/
theorem bigtrunc_top (x : Bignum) :
    (bigtrunc x).len ≤ 1 ∨
      ∃ n, (bigtrunc x).len = n + 1 ∧ digitAt (bigtrunc x).digits n ≠ 0 := by
  by_cases hl : x.len = 0
  · simp [bigtrunc, hl]
  · obtain ⟨h1, h2, -, h4⟩ := trimLen_spec x.digits (Nat.pos_of_ne_zero hl)
    have hlen : (bigtrunc x).len = trimLen x.digits x.len := by
      rw [bigtrunc, if_neg hl]
      simp only [Bignum.len, List.length_take] at h2 ⊢
      omega
    rcases h4 with h4 | h4
    · exact Or.inl (by omega)
    · refine Or.inr ⟨trimLen x.digits x.len - 1, by omega, ?_⟩
      rw [bigtrunc, if_neg hl, digitAt_take (by omega)]
      exact h4

/-- **A value in the fixnum range normalises to a fixnum.** -/
theorem bignorm_of_fixable {L : LongSize} {x : Bignum} (n : Fixnum L) (hx : x.toInt = n.val) :
    bignorm L x = .fixnum n := by
  have hmin := n.min_le
  have hmax := n.le_max
  have hbits : (2 : ℤ) ^ L.bits = 2 * 2 ^ (L.bits - 1) := by cases L <;> rfl
  have hmin' : L.fixnumMin = -2 ^ (L.bits - 2) := by cases L <;> decide
  have hmax' : L.fixnumMax = 2 ^ (L.bits - 2) - 1 := by cases L <;> decide
  have hhalf : (2 : ℤ) ^ (L.bits - 1) = 2 * 2 ^ (L.bits - 2) := by cases L <;> rfl
  have hpos : (0 : ℤ) < 2 ^ (L.bits - 2) := by positivity
  have hmag : x.mag ≤ 2 ^ (L.bits - 2) := by
    rw [← Bignum.abs_toInt, hx]
    exact abs_le.mpr ⟨by omega, by omega⟩
  -- the trimmed number takes no more digits than a `long` has room for
  have hlen : (bigtrunc x).len * 4 ≤ L.bytes := by
    rcases bigtrunc_top x with h | ⟨m, hm, htop⟩
    · cases L <;> simp only [LongSize.bytes] <;> omega
    · have hle := pow_le_mag_of_top_ne_zero hm htop
      rw [mag_bigtrunc] at hle
      have hlt : bigrad ^ m < bigrad ^ L.digsPerLong := by
        refine lt_of_le_of_lt (hle.trans hmag) ?_
        cases L <;> norm_num [bigrad, LongSize.bits, LongSize.bytes, LongSize.digsPerLong]
      have hlt' : m < L.digsPerLong :=
        (pow_lt_pow_iff_right₀ (by norm_num [bigrad] : (1 : ℤ) < bigrad)).mp hlt
      cases L <;> simp only [LongSize.bytes, LongSize.digsPerLong] at hlt' ⊢ <;> omega
  have hfold : L.toLong x.mag = x.mag := by
    have h0 := x.mag_nonneg
    exact Int.bmod_eq_of_le (by push_cast; omega) (by push_cast; omega)
  have hval : Radix.val bigrad (digitAt (bigtrunc x).digits) (bigtrunc x).len = x.mag :=
    mag_bigtrunc x
  rw [bignorm, bigfixize, if_pos hlen, bigfixize_fold L _ _ hlen, hval, hfold, fixizeLong,
    dif_pos x.mag_nonneg, sign_bigtrunc]
  rcases n with ⟨v, hv1, hv2⟩
  dsimp only at hx hmin hmax
  by_cases hs : x.sign = true
  · have hv : x.mag = v := by simpa [Bignum.toInt, hs] using hx
    rw [if_pos hs, dif_pos (by omega)]
    simp [hv]
  · have hv : -x.mag = v := by simpa [Bignum.toInt, hs] using hx
    rw [if_neg hs, dif_pos (by omega)]
    simp [hv]

end MacRuby
