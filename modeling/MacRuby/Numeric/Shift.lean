import MacRuby.Bignum.Square
import MacRuby.Numeric.Integer

/-!
# Shifts and bits of Integers

`<<`, `>>` and `[]` of bignums and fixnums. A negative bignum is shifted right in two's complement:
its digits are complemented in place, shifted with the sign coming in from the top, and complemented
back, which may need a digit more. A fixnum whose bits would be shifted out is shifted as a bignum.

## Main definitions

* `bigLshift`, `bigRshift`, `rbBigLshift`, `rbBigRshift`, `rbBigAref` — bignums.
* `fixLshift`, `fixRshift`, `rbFixLshift`, `rbFixRshift`, `fixAref` — fixnums.
* `ExactShifts` — what is required of an Integer and a count.

## Main results

* `shiftUp_spec`, `shiftDown_spec` — the digits that are shifted.
* `bigLshift_is`, `bigRshift_is`, `rbBigAref_eq` — bignums.
* `shifts_exact` — shifts and bits are those of the number.
-/

namespace MacRuby

/-! ## Bignums -/

section Bignums

variable {L : LongSize}

/-- The loop of `big_lshift`: the digits from the lowest on, and the carry on top. -/
def shiftUp (s2 : ℕ) : List BDigit → ℕ → List BDigit
  | [], num => [biglo num]
  | d :: ds, num =>
      let num := num ||| (d.toNat <<< s2)
      biglo num :: shiftUp s2 ds (num >>> 32)

/-- `big_lshift(x, shift)`. -/
def bigLshift (L : LongSize) (x : Bignum) (shift : ℕ) : Inum L :=
  let s1 := shift / 32
  let s2 := shift % 32
  bignorm L ⟨x.sign, List.replicate s1 0 ++ shiftUp s2 x.digits 0⟩

/-- The loop of `big_rshift`, which starts from the top with `num`: what it ends with, and the
digits. -/
def shiftDown (s2 num : ℕ) : List BDigit → ℕ × List BDigit
  | [] => (num, [])
  | d :: ds =>
      let s := shiftDown s2 num ds
      ((bigup d.toNat).toNat, biglo ((s.1 ||| d.toNat) >>> s2 : ℕ) :: s.2)

/-- What is left of a number when all its digits are shifted out. -/
def shiftedOut (L : LongSize) (sign : Bool) : Inum L :=
  if sign then .zero L else .fixnum ⟨-1, fixnumMin_le_neg_one L, neg_one_le_fixnumMax L⟩

/-- `((BDIGIT_DBL)~0) << BITSPERDIG`. -/
def signFill : ℕ := (2 ^ 64 - 1) * 2 ^ 32 % 2 ^ 64

/-- `big_rshift(x, shift)`. -/
def bigRshift (L : LongSize) (x : Bignum) (shift : ℕ) : Inum L :=
  let s1 := shift / 32
  let s2 := shift % 32
  if s1 > x.len then shiftedOut L x.sign
  else
    let xds := x.twosDigits
    let j := xds.length - s1
    if j = 0 then shiftedOut L x.sign
    else
      let zds := (shiftDown s2 (if x.sign then 0 else signFill) (xds.drop s1)).2
      bignorm L ⟨x.sign, if x.sign then zds else get2comp zds⟩

/-- `big2ulong(x, type, 1)`; no result is the `RangeError`. -/
def big2ulong (L : LongSize) (x : Bignum) : Option ℕ :=
  if x.len > L.digsPerLong then none
  else some ((Loop.downFrom (fun i num => toDbl (bigup num + digitAt x.digits i)) x.len 0).toNat %
    2 ^ L.bits)

/-- `check_shiftdown(y, x)`; no result is `nil`. -/
def checkShiftdown (L : LongSize) (y x : Bignum) : Option (Inum L) :=
  if x.len = 0 then some (.zero L)
  else if y.len > L.bytes / 4 then some (shiftedOut L x.sign)
  else none

/-- `rb_big_lshift(x, y)`, for an Integer `y`; no result is the `RangeError`. -/
def rbBigLshift (x : Bignum) : Inum L → Option (Inum L)
  | .fixnum y =>
      if y.val < 0 then some (bigRshift L x (L.toLong (-y.val)).toNat)
      else some (bigLshift L x y.val.toNat)
  | .bignum y =>
      if y.sign then (big2ulong L y).map (bigLshift L x)
      else
        match checkShiftdown L y x with
        | some t => some t
        | none => (big2ulong L y).map (bigRshift L x)

/-- `rb_big_rshift(x, y)`, for an Integer `y`; no result is the `RangeError`. -/
def rbBigRshift (x : Bignum) : Inum L → Option (Inum L)
  | .fixnum y =>
      if y.val < 0 then some (bigLshift L x (L.toLong (-y.val)).toNat)
      else some (bigRshift L x y.val.toNat)
  | .bignum y =>
      if y.sign then
        match checkShiftdown L y x with
        | some t => some t
        | none => (big2ulong L y).map (bigRshift L x)
      else (big2ulong L y).map (bigLshift L x)

/-- `num` of `rb_big_aref` after the digits up to `i`: a digit of the two's complement, and the
carry. -/
def complementNum (xds : List BDigit) : ℕ → ℤ
  | 0 => toDbl (1 + (~~~ xds.getD 0 0).toNat)
  | i + 1 => toDbl (bigdn (complementNum xds i) + (~~~ xds.getD (i + 1) 0).toNat)

/-- The bit `shift` in `rb_big_aref`. -/
def bigBit (x : Bignum) (shift : ℕ) : ℤ :=
  let s1 := shift / 32
  let s2 := shift % 32
  if s1 ≥ x.len then if x.sign then 0 else 1
  else
    let num := if x.sign then digitAt x.digits s1 else complementNum x.digits s1
    if num.toNat.testBit s2 then 1 else 0

/-- `rb_big_aref(x, y)`, for an Integer `y`. -/
def rbBigAref (x : Bignum) : Inum L → ℤ
  | .fixnum y => if y.val < 0 then 0 else bigBit x y.val.toNat
  | .bignum y =>
      if !y.sign then 0
      else
        match big2ulong L (bigtrunc y) with
        | none => if x.sign then 0 else 1
        | some shift => bigBit x shift

end Bignums

/-! ## Fixnums -/

section Fixnums

variable {L : LongSize}

/-- `ULONG2NUM(v)`. -/
def ulong2num (L : LongSize) (v : ℕ) : Inum L :=
  if h : (v : ℤ) < L.fixnumMax + 1 then
    .fixnum ⟨v, L.fixnumMin_nonpos.trans (Int.natCast_nonneg v), Int.lt_add_one_iff.mp h⟩
  else .bignum (rbUint2big L v)

/-- `fix_lshift(val, width)`. -/
def fixLshift (L : LongSize) (val : ℤ) (width : ℕ) : Option (Inum L) :=
  if width > L.bits - 1 ∨ val % 2 ^ L.bits / 2 ^ (L.bits - 1 - width) > 0 then
    rbBigLshift (rbInt2big L val) (ulong2num L width)
  else some (long2num L (L.toLong (val * 2 ^ width)))

/-- `fix_rshift(val, i)`. -/
def fixRshift (L : LongSize) (val : ℤ) (i : ℕ) : Inum L :=
  if i ≥ L.bits - 1 then shiftedOut L (val ≥ 0) else .fixnum (long2fix L (val / 2 ^ i))

/-- `rb_fix_lshift(x, y)`, for an Integer `y`. -/
def rbFixLshift (x : Fixnum L) : Inum L → Option (Inum L)
  | .bignum y => rbBigLshift (rbInt2big L x.val) (.bignum y)
  | .fixnum y =>
      if y.val < 0 then some (fixRshift L x.val (L.toLong (-y.val)).toNat)
      else fixLshift L x.val y.val.toNat

/-- `rb_fix_rshift(x, y)`, for an Integer `y`. -/
def rbFixRshift (x : Fixnum L) : Inum L → Option (Inum L)
  | .bignum y => rbBigRshift (rbInt2big L x.val) (.bignum y)
  | .fixnum y =>
      if y.val = 0 then some (.fixnum x)
      else if y.val < 0 then fixLshift L x.val (L.toLong (-y.val)).toNat
      else some (fixRshift L x.val y.val.toNat)

/-- `fix_aref(fix, idx)`, for an Integer `idx`. -/
def fixAref (x : Fixnum L) (idx : Inum L) : ℤ :=
  let idx : Inum L := match idx with
    | .fixnum i => .fixnum i
    | .bignum y => bignorm L y
  match idx with
  | .bignum y => if !y.sign ∨ x.val ≥ 0 then 0 else 1
  | .fixnum i =>
      if i.val < 0 then 0
      else if L.bits - 1 < i.val.toNat then if x.val < 0 then 1 else 0
      else if x.val.testBit i.val.toNat then 1 else 0

end Fixnums

/-! ## Integers -/

section Integers

variable {L : LongSize}

/-- `x << y`. -/
def intLshift : Inum L → Inum L → Option (Inum L)
  | .fixnum x, y => rbFixLshift x y
  | .bignum x, y => rbBigLshift x y

/-- `x >> y`. -/
def intRshift : Inum L → Inum L → Option (Inum L)
  | .fixnum x, y => rbFixRshift x y
  | .bignum x, y => rbBigRshift x y

/-- `x[y]`. -/
def intAref : Inum L → Inum L → ℤ
  | .fixnum x, y => fixAref x y
  | .bignum x, y => rbBigAref x y

end Integers

/-! ## Shifting left -/

section Left

variable {L : LongSize} {s2 num : ℕ}

/-- **The digits of `big_lshift`** are those of the multiple and what was carried in. -/
theorem shiftUp_spec (hs : s2 ≤ 31) (ds : List BDigit) (hnum : num < 2 ^ s2) :
    magnitude (shiftUp s2 ds num) = magnitude ds * 2 ^ s2 + num := by
  induction ds generalizing num with
  | nil =>
      have hlt : num < 2 ^ 32 := hnum.trans_le (Nat.pow_le_pow_right (by decide) (by omega))
      rw [shiftUp, magnitude_cons, toNat_biglo, Int.emod_eq_of_lt (Int.natCast_nonneg num)
        (by rw [bigrad]; exact_mod_cast hlt)]
      simp [magnitude]
  | cons d ds ih =>
      have hd : d.toNat < 2 ^ 32 := d.toNat_lt
      have hor : num ||| d.toNat <<< s2 = 2 ^ s2 * d.toNat + num := by
        rw [Nat.shiftLeft_eq, Nat.lor_comm, mul_comm, Nat.two_pow_add_eq_or_of_lt hnum]
      have hcarry : (2 ^ s2 * d.toNat + num) / 2 ^ 32 < 2 ^ s2 := by
        refine Nat.div_lt_of_lt_mul ?_
        calc 2 ^ s2 * d.toNat + num < 2 ^ s2 * d.toNat + 2 ^ s2 := by omega
          _ = 2 ^ s2 * (d.toNat + 1) := by ring
          _ ≤ 2 ^ s2 * 2 ^ 32 := Nat.mul_le_mul_left _ hd
          _ = 2 ^ 32 * 2 ^ s2 := mul_comm _ _
      rw [shiftUp, hor, magnitude_cons, toNat_biglo, Nat.shiftRight_eq_div_pow, ih hcarry,
        magnitude_cons]
      have hsplit := emod_add_bigdn ((2 ^ s2 * d.toNat + num : ℕ) : ℤ)
      rw [bigdn] at hsplit
      have hdiv : (((2 ^ s2 * d.toNat + num) / 2 ^ 32 : ℕ) : ℤ) =
          ((2 ^ s2 * d.toNat + num : ℕ) : ℤ) / bigrad := by
        rw [bigrad]
        push_cast
        rfl
      rw [hdiv]
      push_cast at hsplit ⊢
      linear_combination hsplit

/-- A shift by digits and by bits. -/
theorem pow_shift (shift : ℕ) : bigrad ^ (shift / 32) * 2 ^ (shift % 32) = 2 ^ shift := by
  rw [bigrad, ← pow_mul, ← pow_add, Nat.div_add_mod]

/-- **`big_lshift` multiplies.** -/
theorem bigLshift_is (L : LongSize) (x : Bignum) (shift : ℕ) :
    (bigLshift L x shift).Is (x.toInt * 2 ^ shift) := by
  refine bignorm_is ?_
  have hmag : magnitude (List.replicate (shift / 32) 0 ++ shiftUp (shift % 32) x.digits 0) =
      x.mag * 2 ^ shift := by
    rw [magnitude_append, magnitude_replicate, List.length_replicate,
      shiftUp_spec (by omega) _ (by positivity), ← pow_shift shift, Bignum.mag]
    push_cast
    ring
  rw [Bignum.toInt, Bignum.toInt, Bignum.mag, hmag]
  split_ifs
  · rfl
  · ring

end Left

/-! ## Shifting right -/

section Right

variable {L : LongSize} {s2 : ℕ}

theorem twos_cons (sign : Bool) (d : BDigit) (ds : List BDigit) :
    twos sign (d :: ds) = d.toNat + bigrad * twos sign ds := by
  rw [twos, twos, magnitude_cons, List.length_cons, pow_succ]
  split_ifs <;> ring

/-- **The digits of `big_rshift`** are those of the quotient, the sign being continued at the
top. -/
theorem shiftDown_spec (hs : s2 ≤ 31) (sign : Bool) (ds : List BDigit) :
    ((shiftDown s2 (if sign then 0 else signFill) ds).1 : ℤ) = twos sign ds % bigrad * bigrad ∧
      twos sign (shiftDown s2 (if sign then 0 else signFill) ds).2 = twos sign ds / 2 ^ s2 ∧
      (shiftDown s2 (if sign then 0 else signFill) ds).2.length = ds.length := by
  have hrad : bigrad = 2 ^ s2 * 2 ^ (32 - s2) := by
    rw [← pow_add, Nat.add_sub_cancel' (by omega)]
    rfl
  induction ds with
  | nil =>
      refine ⟨?_, ?_, rfl⟩
      · rw [shiftDown]
        cases sign <;> decide
      · cases sign with
        | true => simp [shiftDown, twos, magnitude]
        | false =>
            have hpow : (0 : ℤ) < 2 ^ s2 := by positivity
            have hminus : (-1 : ℤ) / 2 ^ s2 = -1 := by
              rw [Int.neg_one_ediv, Int.sign_eq_one_of_pos hpow]
            simpa [shiftDown, twos, magnitude] using hminus.symm
  | cons d ds ih =>
      obtain ⟨hnum, hval, hlen⟩ := ih
      have hd : d.toNat < 2 ^ 32 := d.toNat_lt
      have hd' : (d.toNat : ℤ) < bigrad := by rw [bigrad]; exact_mod_cast hd
      rw [shiftDown]
      generalize shiftDown s2 (if sign then 0 else signFill) ds = s at hnum hval hlen
      dsimp only
      refine ⟨?_, ?_, by rw [List.length_cons, hlen, List.length_cons]⟩
      · have hup : bigup d.toNat = d.toNat * bigrad := by
          simp only [bigup, toDbl, bigrad] at *
          omega
        rw [hup, Int.toNat_of_nonneg (mul_nonneg (Int.natCast_nonneg _) bigrad_pos.le),
          twos_cons, Int.add_mul_emod_self_left,
          Int.emod_eq_of_lt (by omega) hd']
      · -- the digit above and this one side by side
        have hor : ((s.1 ||| d.toNat : ℕ) : ℤ) = twos sign ds % bigrad * bigrad + d.toNat := by
          have h0 := Int.emod_nonneg (twos sign ds) bigrad_pos.ne'
          obtain ⟨c, hc⟩ : ∃ c : ℕ, s.1 = 2 ^ 32 * c := by
            refine ⟨(twos sign ds % bigrad).toNat, ?_⟩
            zify
            rw [hnum, Int.toNat_of_nonneg h0, bigrad]
            ring
          rw [← hnum, hc, ← Nat.two_pow_add_eq_or_of_lt hd]
          push_cast
          rfl
        rw [twos_cons, toNat_biglo, Nat.shiftRight_eq_div_pow, hval, twos_cons]
        push_cast
        rw [hor]
        exact shift_digit hrad (by positivity) (by positivity) (by omega) hd'

theorem twos_bounds (sign : Bool) (ds : List BDigit) :
    -bigrad ^ ds.length ≤ twos sign ds ∧ twos sign ds < bigrad ^ ds.length := by
  have h0 := magnitude_nonneg ds
  have h1 := magnitude_lt ds
  rw [twos]
  split_ifs <;> constructor <;> omega

/-- The digits left by a shift by whole digits. -/
theorem twos_drop (sign : Bool) {ds : List BDigit} {s1 : ℕ} (h : s1 ≤ ds.length) :
    twos sign (ds.drop s1) = twos sign ds / bigrad ^ s1 := by
  have hsplit := magnitude_append (ds.take s1) (ds.drop s1)
  have htake : (ds.take s1).length = s1 := by
    rw [List.length_take]
    exact Nat.min_eq_left h
  have hpow : bigrad ^ ds.length = bigrad ^ s1 * bigrad ^ (ds.length - s1) := by
    rw [← pow_add, Nat.add_sub_cancel' h]
  have h0 := magnitude_nonneg (ds.take s1)
  have h1 := magnitude_lt (ds.take s1)
  rw [htake] at h1 hsplit
  rw [List.take_append_drop] at hsplit
  have hval : twos sign ds = magnitude (ds.take s1) + bigrad ^ s1 * twos sign (ds.drop s1) := by
    rw [twos, twos, hsplit, List.length_drop, hpow]
    split_ifs <;> ring
  have hpos : 0 < bigrad ^ s1 := pow_pos bigrad_pos _
  rw [hval, Int.add_mul_ediv_left _ _ hpos.ne', Int.ediv_eq_zero_of_lt h0 h1, zero_add]

/-- What is left when all is shifted out. -/
theorem shiftedOut_is {sign : Bool} {a : ℤ} {shift : ℕ} (hsign : sign = true → 0 ≤ a)
    (hneg : sign = false → a < 0) (hlow : -2 ^ shift ≤ a) (hhigh : a < 2 ^ shift) :
    (shiftedOut L sign).Is (a / 2 ^ shift) := by
  cases sign with
  | true =>
      rw [Int.ediv_eq_zero_of_lt (hsign rfl) hhigh]
      exact Inum.zero_is L
  | false =>
      have hone : a / 2 ^ shift = -1 := by
        refine (Int.ediv_emod_unique (r := a + 2 ^ shift) (by positivity)).mpr ?_ |>.1
        have := hneg rfl
        exact ⟨by ring, by omega, by omega⟩
      rw [hone]
      exact ⟨trivial, rfl⟩

/-- **`big_rshift` divides, rounding down.** -/
theorem bigRshift_is {x : Bignum} (hx : x.Trimmed) (shift : ℕ) :
    (bigRshift L x shift).Is (x.toInt / 2 ^ shift) := by
  have hnonneg : x.sign = true → 0 ≤ x.toInt := x.nonneg_of_sign
  have hneg : x.sign = false → x.toInt < 0 := hx.neg_of_sign
  have hpow : ∀ n, n ≤ shift / 32 → bigrad ^ n ≤ 2 ^ shift := by
    intro n hn
    rw [bigrad, ← pow_mul]
    exact pow_le_pow_right₀ (by decide) (by omega)
  obtain ⟨hval, hlen⟩ := hx.twos_eq
  rw [bigRshift]
  dsimp only
  by_cases hout : shift / 32 > x.len
  · have hmag : |x.toInt| < 2 ^ shift := by
      rw [x.abs_toInt]
      exact (magnitude_lt x.digits).trans_le (hpow x.len hout.le)
    obtain ⟨hlow, hhigh⟩ := abs_lt.mp hmag
    rw [if_pos hout]
    exact shiftedOut_is hnonneg hneg hlow.le hhigh
  rw [if_neg hout]
  by_cases hnone : x.twosDigits.length - shift / 32 = 0
  · have hle := hpow x.twosDigits.length (by omega)
    obtain ⟨hlow, hhigh⟩ := twos_bounds x.sign x.twosDigits
    rw [hval] at hlow hhigh
    rw [if_pos hnone]
    exact shiftedOut_is hnonneg hneg (by omega) (by omega)
  · obtain ⟨-, hdown, hdlen⟩ :=
      shiftDown_spec (by omega : shift % 32 ≤ 31) x.sign (x.twosDigits.drop (shift / 32))
    rw [List.length_drop] at hdlen
    rw [if_neg hnone]
    refine bignorm_is ?_
    rw [toInt_twos (by omega), hdown, twos_drop _ (by omega), hval,
      Int.ediv_ediv_of_nonneg (pow_nonneg bigrad_pos.le _), pow_shift]

end Right

/-! ## Counts -/

section Counts

variable {L : LongSize}

/-- `big2ulong` of a bignum of a word's digits. -/
theorem big2ulong_eq {x : Bignum} (hlen : x.len ≤ L.digsPerLong) :
    big2ulong L x = some x.mag.toNat := by
  have hfold : Loop.downFrom (fun i num => toDbl (bigup num + digitAt x.digits i)) x.len 0 =
      x.mag := by
    have hd := digitAt_nonneg x.digits
    have hd' := digitAt_lt x.digits
    have hone : ∀ i, toDbl (bigup 0 + digitAt x.digits i) = digitAt x.digits i := by
      intro i
      simpa using toDbl_bigup_add le_rfl bigrad_pos (hd i) (hd' i)
    have hcases : x.len = 0 ∨ x.len = 1 ∨ x.len = 2 := by
      have hdigs : L.digsPerLong ≤ 2 := by cases L <;> decide
      omega
    rw [Bignum.mag, magnitude]
    change _ = Radix.val bigrad (digitAt x.digits) x.len
    rcases hcases with h | h | h
    · rw [h, Loop.downFrom_zero, Radix.val_zero]
    · rw [h, Radix.val_one]
      exact hone 0
    · rw [h, Radix.val_succ, Radix.val_one, pow_one]
      simp only [Loop.downFrom, hone]
      exact toDbl_bigup_add (hd 1) (hd' 1) (hd 0) (hd' 0)
  have hlt : x.mag.toNat < 2 ^ L.bits := by
    have h0 := x.mag_nonneg
    have h1 : x.mag < bigrad ^ x.len := magnitude_lt x.digits
    have h2 : bigrad ^ x.len ≤ bigrad ^ L.digsPerLong :=
      pow_le_pow_right₀ (by norm_num [bigrad]) hlen
    have h3 : bigrad ^ L.digsPerLong = ((2 ^ L.bits : ℕ) : ℤ) := by cases L <;> decide
    omega
  rw [big2ulong, if_neg (not_lt.mpr hlen), hfold, Nat.mod_eq_of_lt hlt]

/-- A shift of a bignum to the left by a word. -/
theorem rbBigLshift_ulong (x : Bignum) {width : ℕ} (hwidth : width < 2 ^ L.bits) :
    rbBigLshift x (ulong2num L width) = some (bigLshift L x width) := by
  rw [ulong2num]
  split_ifs with hfix
  · rw [rbBigLshift, if_neg (by dsimp only; omega)]
    rfl
  · have hmag : (rbUint2big L width).mag = width :=
      mag_rbUint2big (Int.natCast_nonneg _) (by exact_mod_cast hwidth)
    have hlen : (rbUint2big L width).len ≤ L.digsPerLong := by
      have htrim := trimmed_rbUint2big L (width : ℤ)
      have hdigs : bigrad ^ L.digsPerLong = ((2 ^ L.bits : ℕ) : ℤ) := by cases L <;> decide
      refine htrim.len_le (by cases L <;> decide) ?_
      rw [hmag, hdigs]
      exact_mod_cast hwidth
    show (big2ulong L (rbUint2big L width)).map (bigLshift L x) = _
    rw [big2ulong_eq hlen, hmag]
    rfl

/-- The opposite of a negative count. -/
theorem toLong_neg_count (n : Fixnum L) (hneg : n.val < 0) :
    (L.toLong (-n.val)).toNat = (-n.val).toNat ∧ (-n.val).toNat < 2 ^ L.bits := by
  obtain ⟨hmin, hmax, hhalf⟩ := L.fixnum_range
  have h0 := n.min_le
  have hbits : ((2 ^ L.bits : ℕ) : ℤ) = 2 * 2 ^ (L.bits - 1) := by cases L <;> rfl
  have hpos : (0 : ℤ) < 2 ^ (L.bits - 2) := by positivity
  rw [LongSize.toLong_eq (by omega) (by omega)]
  exact ⟨rfl, by omega⟩

theorem toNat_count_lt (n : Fixnum L) : n.val.toNat < 2 ^ L.bits := by
  obtain ⟨-, hmax, hhalf⟩ := L.fixnum_range
  have h1 := n.le_max
  have hbits : ((2 ^ L.bits : ℕ) : ℤ) = 2 * 2 ^ (L.bits - 1) := by cases L <;> rfl
  have hpos : (0 : ℤ) < 2 ^ (L.bits - 2) := by positivity
  omega

end Counts

/-! ## Shifting fixnums -/

section Fix

variable {L : LongSize}

/-- **`fix_lshift` multiplies**: a word is shifted only if no bit that is set is lost, and a
negative one never. -/
theorem fixLshift_is (n : Fixnum L) {width : ℕ} (hwidth : width < 2 ^ L.bits) :
    ∃ r, fixLshift L n.val width = some r ∧ r.Is (n.val * 2 ^ width) := by
  obtain ⟨hmin, hmax, hhalf⟩ := L.fixnum_range
  have h0 := n.min_le
  have h1 := n.le_max
  have hbits : (2 : ℤ) ^ L.bits = 2 * 2 ^ (L.bits - 1) := by cases L <;> rfl
  have hpos : (0 : ℤ) < 2 ^ (L.bits - 2) := by positivity
  rw [fixLshift]
  split_ifs with hbig
  · refine ⟨bigLshift L (rbInt2big L n.val) width, rbBigLshift_ulong _ hwidth, ?_⟩
    have h := bigLshift_is L (rbInt2big L n.val) width
    rwa [n.toInt_rbInt2big] at h
  · rw [not_or, not_lt, not_lt] at hbig
    obtain ⟨hle, hzero⟩ := hbig
    have hsplit : (2 : ℤ) ^ (L.bits - 1) = 2 ^ (L.bits - 1 - width) * 2 ^ width := by
      rw [← pow_add, Nat.sub_add_cancel hle]
    have hpow : (0 : ℤ) < 2 ^ (L.bits - 1 - width) := by positivity
    have hlow := Int.lt_mul_of_ediv_lt hpow (hzero.trans_lt one_pos)
    have hle' : (2 : ℤ) ^ (L.bits - 1 - width) ≤ 2 ^ (L.bits - 1) :=
      pow_le_pow_right₀ (by decide) (Nat.sub_le _ _)
    have hnonneg : 0 ≤ n.val := by
      by_contra hneg
      have hword : n.val % 2 ^ L.bits = n.val + 2 ^ L.bits := by
        rw [← Int.add_emod_right, Int.emod_eq_of_lt (by omega) (by omega)]
      omega
    rw [Int.emod_eq_of_lt hnonneg (by omega), one_mul] at hlow
    have hfit : n.val * 2 ^ width < 2 ^ (L.bits - 1) := by
      rw [hsplit]
      exact mul_lt_mul_of_pos_right hlow (by positivity)
    have hfit' : 0 ≤ n.val * 2 ^ width := by positivity
    rw [LongSize.toLong_eq (by omega) hfit]
    exact ⟨_, rfl, long2num_is (by omega) hfit⟩

/-- **`fix_rshift` divides, rounding down.** -/
theorem fixRshift_is (n : Fixnum L) (i : ℕ) : (fixRshift L n.val i).Is (n.val / 2 ^ i) := by
  obtain ⟨hmin, hmax, hhalf⟩ := L.fixnum_range
  have h0 := n.min_le
  have h1 := n.le_max
  have hpos : (0 : ℤ) < 2 ^ (L.bits - 2) := by positivity
  rw [fixRshift]
  split_ifs with hout
  · have hle : (2 : ℤ) ^ (L.bits - 1) ≤ 2 ^ i := pow_le_pow_right₀ (by decide) hout
    refine shiftedOut_is (fun h => ?_) (fun h => ?_) (by omega) (by omega)
    · exact of_decide_eq_true h
    · exact not_le.mp (of_decide_eq_false h)
  · have hone : (1 : ℤ) ≤ 2 ^ i := one_le_pow₀ (by decide)
    refine long2fix_is_of_range ?_ ?_
    · rw [Int.le_ediv_iff_mul_le (by positivity)]
      have := L.fixnumMin_nonpos
      nlinarith
    · exact Int.ediv_le_of_le_mul (by positivity) (by have := L.fixnumMax_nonneg; nlinarith)

/-- **Shifts of fixnums.** -/
theorem rbFixLshift_is (x n : Fixnum L) :
    ∃ r, rbFixLshift x (.fixnum n) = some r ∧
      r.Is (if n.val < 0 then x.val / 2 ^ (-n.val).toNat else x.val * 2 ^ n.val.toNat) := by
  rw [rbFixLshift]
  split_ifs with hneg
  · rw [(toLong_neg_count n hneg).1]
    exact ⟨_, rfl, fixRshift_is x _⟩
  · exact fixLshift_is x (toNat_count_lt n)

theorem rbFixRshift_is (x n : Fixnum L) :
    ∃ r, rbFixRshift x (.fixnum n) = some r ∧
      r.Is (if n.val < 0 then x.val * 2 ^ (-n.val).toNat else x.val / 2 ^ n.val.toNat) := by
  rw [rbFixRshift]
  by_cases hzero : n.val = 0
  · rw [if_pos hzero, if_neg (by omega), hzero, Int.toNat_zero, pow_zero, Int.ediv_one]
    exact ⟨_, rfl, trivial, rfl⟩
  rw [if_neg hzero]
  split_ifs with hneg
  · obtain ⟨hcount, hlt⟩ := toLong_neg_count n hneg
    rw [hcount]
    exact fixLshift_is x hlt
  · exact ⟨_, rfl, fixRshift_is x _⟩

end Fix

/-! ## Shifting bignums -/

section Big

variable {L : LongSize} {x : Bignum}

/-- **Shifts of bignums.** -/
theorem rbBigLshift_is (hx : x.Trimmed) (n : Fixnum L) :
    ∃ r, rbBigLshift x (.fixnum n) = some r ∧
      r.Is (if n.val < 0 then x.toInt / 2 ^ (-n.val).toNat else x.toInt * 2 ^ n.val.toNat) := by
  rw [rbBigLshift]
  split_ifs with hneg
  · rw [(toLong_neg_count n hneg).1]
    exact ⟨_, rfl, bigRshift_is hx _⟩
  · exact ⟨_, rfl, bigLshift_is L x _⟩

theorem rbBigRshift_is (hx : x.Trimmed) (n : Fixnum L) :
    ∃ r, rbBigRshift x (.fixnum n) = some r ∧
      r.Is (if n.val < 0 then x.toInt * 2 ^ (-n.val).toNat else x.toInt / 2 ^ n.val.toNat) := by
  rw [rbBigRshift]
  split_ifs with hneg
  · rw [(toLong_neg_count n hneg).1]
    exact ⟨_, rfl, bigLshift_is L x _⟩
  · exact ⟨_, rfl, bigRshift_is hx _⟩

end Big

/-! ## Bits -/

section Bits

variable {L : LongSize} {x : Bignum}

theorem toNat_not (d : BDigit) : ((~~~ d).toNat : ℤ) = bigrad - 1 - d.toNat := by
  have hd := d.toNat_lt
  rw [UInt32.toNat_not, bigrad]
  simp only [UInt32.size]
  omega

/-- **`num` of `rb_big_aref`**: the digits so far, taken from the next power, without those below
the last. -/
theorem complementNum_eq (xds : List BDigit) (i : ℕ) :
    complementNum xds i =
      (bigrad ^ (i + 1) - Radix.val bigrad (digitAt xds) (i + 1)) / bigrad ^ i := by
  have hrange : ∀ n : ℤ, 0 ≤ n → n ≤ 2 * bigrad → toDbl n = n := by
    intro n h0 h1
    rw [bigrad] at h1
    exact toDbl_eq h0 (by omega)
  induction i with
  | zero =>
      have h0 := digitAt_nonneg xds 0
      have h1 := digitAt_lt xds 0
      rw [complementNum, toNat_not, zero_add, pow_one, pow_zero, Int.ediv_one, Radix.val_one]
      change toDbl (1 + (bigrad - 1 - digitAt xds 0)) = _
      rw [hrange _ (by omega) (by omega)]
      ring
  | succ i ih =>
      have hpos : 0 < bigrad ^ (i + 1) := pow_pos bigrad_pos _
      have hd0 := digitAt_nonneg xds (i + 1)
      have hd1 := digitAt_lt xds (i + 1)
      have hv0 := Radix.val_nonneg (n := i + 1) bigrad_pos.le fun j _ => digitAt_nonneg xds j
      have hv1 := Radix.val_lt (n := i + 1) bigrad_pos fun j _ => digitAt_lt xds j
      generalize hS : bigrad ^ (i + 1) - Radix.val bigrad (digitAt xds) (i + 1) = S at ih
      have hcarry : bigdn (complementNum xds i) = S / bigrad ^ (i + 1) := by
        rw [ih, bigdn, Int.ediv_ediv_of_nonneg (pow_nonneg bigrad_pos.le _), pow_succ]
      have hc0 : 0 ≤ S / bigrad ^ (i + 1) := Int.ediv_nonneg (by omega) hpos.le
      have hc1 : S / bigrad ^ (i + 1) ≤ 1 := Int.ediv_le_of_le_mul hpos (by omega)
      have hnext : bigrad ^ (i + 1 + 1) - Radix.val bigrad (digitAt xds) (i + 1 + 1) =
          S + (bigrad - 1 - digitAt xds (i + 1)) * bigrad ^ (i + 1) := by
        rw [Radix.val_succ, ← hS, pow_succ bigrad (i + 1)]
        ring
      rw [complementNum, toNat_not, hcarry]
      change toDbl (S / bigrad ^ (i + 1) + (bigrad - 1 - digitAt xds (i + 1))) = _
      rw [hrange _ (by omega) (by omega), hnext, Int.add_mul_ediv_right _ _ hpos.ne']

/-- The bits of a natural number, by division. -/
theorem bit_of_nat (m i : ℕ) : (if m.testBit i then 1 else 0) = (m : ℤ) / 2 ^ i % 2 := by
  have hnat : ((m / 2 ^ i % 2 : ℕ) : ℤ) = (m : ℤ) / 2 ^ i % 2 := by
    push_cast
    rfl
  rw [← hnat, Nat.testBit_eq_decide_div_mod_eq]
  rcases Nat.mod_two_eq_zero_or_one (m / 2 ^ i) with hbit | hbit
  · rw [hbit]
    rfl
  · rw [hbit]
    rfl

/-- The bit of a number that is a multiple of the radix off. -/
theorem bit_of_eq {a num k : ℤ} {s2 : ℕ} (hs : s2 ≤ 31) (h0 : 0 ≤ num) (h : a = num + bigrad * k) :
    (if num.toNat.testBit s2 then 1 else 0) = a / 2 ^ s2 % 2 := by
  have hrad : bigrad = 2 ^ s2 * (2 * 2 ^ (31 - s2)) := by
    rw [← pow_succ', ← pow_add, show s2 + (31 - s2 + 1) = 32 by omega]
    rfl
  have hdiv : a / 2 ^ s2 = num / 2 ^ s2 + 2 * (2 ^ (31 - s2) * k) := by
    rw [h, hrad, show 2 ^ s2 * (2 * 2 ^ (31 - s2)) * k = 2 ^ s2 * (2 * (2 ^ (31 - s2) * k)) by ring,
      Int.add_mul_ediv_left _ _ (by positivity)]
  have hbit := bit_of_nat num.toNat s2
  rw [Int.toNat_of_nonneg h0] at hbit
  rw [hdiv, Int.add_mul_emod_self_left, hbit]

/-- **`rb_big_aref` reads the bit** of the two's complement that goes on for ever. -/
theorem bigBit_eq (hx : x.Trimmed) (shift : ℕ) : bigBit x shift = x.toInt / 2 ^ shift % 2 := by
  rw [bigBit]
  dsimp only
  by_cases hout : shift / 32 ≥ x.len
  · have hpow : bigrad ^ x.len ≤ 2 ^ shift := by
      rw [bigrad, ← pow_mul]
      exact pow_le_pow_right₀ (by decide) (by omega)
    have hmag : |x.toInt| < 2 ^ shift := by
      rw [x.abs_toInt]
      exact (magnitude_lt x.digits).trans_le hpow
    obtain ⟨hlow, hhigh⟩ := abs_lt.mp hmag
    have hval := (shiftedOut_is (L := .lp64) x.nonneg_of_sign hx.neg_of_sign hlow.le hhigh).value
    rw [if_pos hout, ← hval]
    cases x.sign <;> rfl
  rw [if_neg hout]
  rw [not_le] at hout
  generalize hs1 : shift / 32 = s1 at hout ⊢
  obtain ⟨R, hR⟩ : ∃ R, x.mag =
      Radix.val bigrad (digitAt x.digits) (s1 + 1) + bigrad ^ (s1 + 1) * R := by
    obtain ⟨m, hm⟩ := Nat.exists_eq_add_of_le (Nat.succ_le_of_lt hout)
    refine ⟨Radix.val bigrad (fun i => digitAt x.digits (s1 + 1 + i)) m, ?_⟩
    rw [← Radix.val_add]
    exact congrArg _ hm
  have hpos : 0 < bigrad ^ s1 := pow_pos bigrad_pos _
  have hd0 := digitAt_nonneg x.digits s1
  have hv0 := Radix.val_nonneg (n := s1) bigrad_pos.le fun j _ => digitAt_nonneg x.digits j
  have hv1 := Radix.val_lt (n := s1) bigrad_pos fun j _ => digitAt_lt x.digits j
  rw [← pow_shift shift, hs1, ← Int.ediv_ediv_of_nonneg hpos.le]
  cases hs : x.sign with
  | true =>
      rw [if_pos rfl]
      refine bit_of_eq (k := R) (by omega) hd0 ?_
      rw [Bignum.toInt, if_pos hs, hR, Radix.val_succ, pow_succ]
      have hsum : Radix.val bigrad (digitAt x.digits) s1 + digitAt x.digits s1 * bigrad ^ s1 +
          bigrad ^ s1 * bigrad * R = Radix.val bigrad (digitAt x.digits) s1 +
            bigrad ^ s1 * (digitAt x.digits s1 + bigrad * R) := by ring
      rw [hsum, Int.add_mul_ediv_left _ _ hpos.ne', Int.ediv_eq_zero_of_lt hv0 hv1, zero_add]
  | false =>
      rw [if_neg Bool.false_ne_true, complementNum_eq]
      have hw1 := Radix.val_lt (n := s1 + 1) bigrad_pos fun j _ => digitAt_lt x.digits j
      refine bit_of_eq (k := -(R + 1)) (by omega) (Int.ediv_nonneg (by omega) hpos.le) ?_
      rw [Bignum.toInt, hs, if_neg Bool.false_ne_true, hR, pow_succ]
      generalize Radix.val bigrad (digitAt x.digits) (s1 + 1) = v
      have hsum : -(v + bigrad ^ s1 * bigrad * R) =
          bigrad ^ s1 * bigrad - v + bigrad ^ s1 * (bigrad * -(R + 1)) := by ring
      rw [hsum, Int.add_mul_ediv_left _ _ hpos.ne']

/-- The bits of an Integer, by division. -/
theorem ite_testBit (a : ℤ) (i : ℕ) : (if a.testBit i then 1 else 0) = a / 2 ^ i % 2 := by
  cases a with
  | ofNat m => exact bit_of_nat m i
  | negSucc m =>
      have hbit := bit_of_nat m i
      have hdiv : Int.negSucc m / 2 ^ i = -((m : ℤ) / 2 ^ i + 1) :=
        Int.negSucc_ediv m (by positivity)
      change (if !m.testBit i then 1 else 0) = _
      rw [hdiv]
      cases h : m.testBit i with
      | true =>
          rw [h, if_pos rfl] at hbit
          rw [Bool.not_true, if_neg Bool.false_ne_true]
          omega
      | false =>
          rw [h, if_neg Bool.false_ne_true] at hbit
          rw [Bool.not_false, if_pos rfl]
          omega

theorem fixAref_eq (n i : Fixnum L) (hi : 0 ≤ i.val) :
    fixAref n (.fixnum i) = n.val / 2 ^ i.val.toNat % 2 := by
  have h0 := n.min_le
  have h1 := n.le_max
  obtain ⟨hmin, hmax, hhalf⟩ := L.fixnum_range
  simp only [fixAref, if_neg (not_lt.mpr hi)]
  split_ifs with hout hneg hbit
  · have hle : (2 : ℤ) ^ (L.bits - 1) ≤ 2 ^ i.val.toNat := pow_le_pow_right₀ (by decide) hout.le
    have hout' : (shiftedOut L false).Is (n.val / 2 ^ i.val.toNat) :=
      shiftedOut_is (fun h => absurd h Bool.false_ne_true) (fun _ => hneg) (by omega) (by omega)
    rw [← hout'.value]
    rfl
  · have hle : (2 : ℤ) ^ (L.bits - 1) ≤ 2 ^ i.val.toNat := pow_le_pow_right₀ (by decide) hout.le
    rw [Int.ediv_eq_zero_of_lt (by omega) (by omega)]
    rfl
  · rw [← ite_testBit, if_pos hbit]
  · rw [← ite_testBit, if_neg hbit]

end Bits

/-! ## Integers -/

section Exact

variable {L : LongSize}

/-- The shifts of `x` by `n`, and the bit `n` of `x`, are those of the number: by the methods of
Integers as by those of bignums. -/
structure ExactShifts (x : Inum L) (n : Fixnum L) : Prop where
  lshift : 0 ≤ n.val → ∃ r, intLshift x (.fixnum n) = some r ∧
    rbBigLshift x.toBignum (.fixnum n) = some r ∧ r.Is (x.toInt * 2 ^ n.val.toNat)
  rshift : 0 ≤ n.val → ∃ r, intRshift x (.fixnum n) = some r ∧
    rbBigRshift x.toBignum (.fixnum n) = some r ∧ r.Is (x.toInt.fdiv (2 ^ n.val.toNat))
  /-- A negative count shifts the other way. -/
  lshift_neg : n.val < 0 → ∃ r, intLshift x (.fixnum n) = some r ∧
    rbBigLshift x.toBignum (.fixnum n) = some r ∧ r.Is (x.toInt.fdiv (2 ^ (-n.val).toNat))
  rshift_neg : n.val < 0 → ∃ r, intRshift x (.fixnum n) = some r ∧
    rbBigRshift x.toBignum (.fixnum n) = some r ∧ r.Is (x.toInt * 2 ^ (-n.val).toNat)
  aref : 0 ≤ n.val → rbBigAref x.toBignum (.fixnum n) = x.toInt.fdiv (2 ^ n.val.toNat) % 2 ∧
    rbBigAref x.toBignum (.fixnum n) = (if x.toInt.testBit n.val.toNat then 1 else 0) ∧
    intAref x (.fixnum n) = rbBigAref x.toBignum (.fixnum n)

/-- The methods of fixnums and of bignums give one result. -/
theorem exists_same {f : Option (Inum L)} {g : Option (Inum L)} {a : ℤ}
    (hf : ∃ r, f = some r ∧ r.Is a) (hg : ∃ r, g = some r ∧ r.Is a) :
    ∃ r, f = some r ∧ g = some r ∧ r.Is a := by
  obtain ⟨r, hr, ha⟩ := hf
  obtain ⟨r', hr', ha'⟩ := hg
  exact ⟨r, hr, ha'.unique ha ▸ hr', ha⟩

theorem intLshift_is {x : Inum L} (hx : x.Canonical) (n : Fixnum L) :
    ∃ r, intLshift x (.fixnum n) = some r ∧ rbBigLshift x.toBignum (.fixnum n) = some r ∧
      r.Is (if n.val < 0 then x.toInt / 2 ^ (-n.val).toNat else x.toInt * 2 ^ n.val.toNat) := by
  have hbig := rbBigLshift_is hx.trimmed n
  rw [x.toInt_toBignum_eq] at hbig
  cases x with
  | fixnum k => exact exists_same (rbFixLshift_is k n) hbig
  | bignum z => exact exists_same (rbBigLshift_is hx.trimmed n) hbig

theorem intRshift_is {x : Inum L} (hx : x.Canonical) (n : Fixnum L) :
    ∃ r, intRshift x (.fixnum n) = some r ∧ rbBigRshift x.toBignum (.fixnum n) = some r ∧
      r.Is (if n.val < 0 then x.toInt * 2 ^ (-n.val).toNat else x.toInt / 2 ^ n.val.toNat) := by
  have hbig := rbBigRshift_is hx.trimmed n
  rw [x.toInt_toBignum_eq] at hbig
  cases x with
  | fixnum k => exact exists_same (rbFixRshift_is k n) hbig
  | bignum z => exact exists_same (rbBigRshift_is hx.trimmed n) hbig

/-- **Shifts and bits agree with exact arithmetic.** -/
theorem shifts_exact {x : Inum L} (hx : x.Canonical) (n : Fixnum L) : ExactShifts x n := by
  have hfloor : ∀ k, x.toInt.fdiv (2 ^ k) = x.toInt / 2 ^ k := fun k =>
    Int.fdiv_eq_ediv_of_nonneg _ (by positivity)
  have hl := intLshift_is hx n
  have hr := intRshift_is hx n
  refine ⟨fun h => ?_, fun h => ?_, fun h => ?_, fun h => ?_, fun h => ?_⟩
  · rwa [if_neg (not_lt.mpr h)] at hl
  · rw [hfloor]
    rwa [if_neg (not_lt.mpr h)] at hr
  · rw [hfloor]
    rwa [if_pos h] at hl
  · rwa [if_pos h] at hr
  · have hbit : rbBigAref x.toBignum (.fixnum n : Inum L) = x.toInt / 2 ^ n.val.toNat % 2 := by
      rw [rbBigAref, if_neg (not_lt.mpr h), bigBit_eq hx.trimmed, x.toInt_toBignum_eq]
    refine ⟨by rw [hbit, hfloor], by rw [hbit, ite_testBit], ?_⟩
    cases x with
    | fixnum k => exact (fixAref_eq k n h).trans hbit.symm
    | bignum z => rfl

/-- -2^96 + 1, whose quotient by 2^32 needs a digit more than is left of it. -/
theorem shifts_exact_carry :
    ExactShifts (.bignum ⟨false, [4294967295, 4294967295, 4294967295]⟩ : Inum .lp64)
      ⟨32, by decide, by decide⟩ :=
  shifts_exact (x := .bignum ⟨false, [4294967295, 4294967295, 4294967295]⟩)
    ⟨by decide, by decide, by decide⟩ _

end Exact

end MacRuby
