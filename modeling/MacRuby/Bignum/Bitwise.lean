import MacRuby.Bignum.Arith
import Mathlib.Data.Int.Bitwise

/-!
# Bitwise operators

`&`, `|`, `^` and `~` on bignums.  A negative operand is copied and complemented in place, so that
its digits are the low digits of its two's complement; the shorter operand is continued by the
digits its sign stands for; a negative result is complemented back.

## Main definitions

* `get2comp` — the two's complement of the digits.
* `bigBitop`, `rbBigAnd`, `rbBigOr`, `rbBigXor`, `rbBigNeg` — the operators.
* `twos` — the integer that digits continued by a sign stand for.

## Main results

* `testBit_twos` — the bits of such an integer.
* `bitwise_exact` — the operators act bit by bit.
-/

namespace MacRuby

/-! ## The operators -/

/-- `get2comp(x)`, on the digits. -/
def get2comp (ds : List BDigit) : List BDigit :=
  if ds.length = 0 then ds
  else
    let s := Loop.upto (fun i (s : Carry) => Carry.step (digitAt s.zds i) i s) ds.length
      ⟨1, ds.map (~~~ ·)⟩
    if s.num ≠ 0 then s.zds ++ [1] else s.zds

/-- The digits `rb_big_and` and its siblings work on: those of a copy, complemented when the number
is negative. -/
def Bignum.twosDigits (x : Bignum) : List BDigit := if x.sign then x.digits else get2comp x.digits

/-- The digits of `z`: `op` as far as the shorter operand goes, then `rest`. -/
def bitopDigits (op : BDigit → BDigit → BDigit) (rest : Bool → BDigit → BDigit)
    (ds1 ds2 : List BDigit) (sign : Bool) : List BDigit :=
  List.zipWith op ds1 ds2 ++ (ds2.drop ds1.length).map (rest sign)

/-- What `rb_big_and`, `rb_big_or` and `rb_big_xor` have in common. -/
def bigBitop (op : BDigit → BDigit → BDigit) (rest : Bool → BDigit → BDigit)
    (zsign : Bool → Bool → Bool) (L : LongSize) (x : Bignum) (y : Inum L) : Inum L :=
  let y := y.toBignum
  let yds := y.twosDigits
  let xds := x.twosDigits
  let zds := if xds.length > yds.length then bitopDigits op rest yds xds y.sign
    else bitopDigits op rest xds yds x.sign
  let sign := zsign x.sign y.sign
  bignorm L ⟨sign, if sign then zds else get2comp zds⟩

/-- `rb_big_and(x, y)`, for an Integer `y`. -/
def rbBigAnd : (L : LongSize) → Bignum → Inum L → Inum L :=
  bigBitop (· &&& ·) (fun sign d => if sign then 0 else d) (· || ·)

/-- `rb_big_or(x, y)`, for an Integer `y`. -/
def rbBigOr : (L : LongSize) → Bignum → Inum L → Inum L :=
  bigBitop (· ||| ·) (fun sign d => if sign then d else biglo (bigrad - 1)) (· && ·)

/-- `rb_big_xor(x, y)`, for an Integer `y`. -/
def rbBigXor : (L : LongSize) → Bignum → Inum L → Inum L :=
  bigBitop (· ^^^ ·) (fun sign d => if sign then d else ~~~ d) (fun s t => !(s ^^ t))

/-- `rb_big_neg(x)`. -/
def rbBigNeg (L : LongSize) (x : Bignum) : Inum L :=
  if x.len = 0 then .fixnum ⟨-1, by cases L <;> decide, by cases L <;> decide⟩
  else
    let zds := x.twosDigits
    let zds := (zds.take x.len).map (~~~ ·) ++ zds.drop x.len
    bignorm L ⟨!x.sign, if x.sign then get2comp zds else zds⟩

theorem fixnumMin_le_neg_one (L : LongSize) : L.fixnumMin ≤ -1 := by cases L <;> decide

theorem neg_one_le_fixnumMax (L : LongSize) : -1 ≤ L.fixnumMax := by cases L <;> decide

/-- `LONG2FIX(v)`, of a number that has passed the range check. -/
def Fixnum.ofMem {L : LongSize} {v : ℤ} (h : L.fixnumMin ≤ v ∧ v ≤ L.fixnumMax) : Fixnum L :=
  ⟨v, h.1, h.2⟩

/-- `LONG2NUM(v)`. -/
def long2num (L : LongSize) (v : ℤ) : Inum L :=
  if h : L.fixnumMin ≤ v ∧ v ≤ L.fixnumMax then .fixnum (.ofMem h) else .bignum (rbInt2big L v)

/-- What `fix_and`, `fix_or` and `fix_xor` have in common. -/
def fixBitop {L : LongSize} (word : ℤ → ℤ → ℤ) (big : Bignum → Inum L → Inum L) (x : Fixnum L)
    (y : Inum L) : Inum L :=
  match y with
  | .bignum y => big y (.fixnum x)
  | .fixnum y => long2num L (word x.val y.val)

/-- `fix_and(x, y)`, for an Integer `y`. -/
def fixAnd {L : LongSize} : Fixnum L → Inum L → Inum L := fixBitop Int.land (rbBigAnd L)

/-- `fix_or(x, y)`, for an Integer `y`. -/
def fixOr {L : LongSize} : Fixnum L → Inum L → Inum L := fixBitop Int.lor (rbBigOr L)

/-- `fix_xor(x, y)`, for an Integer `y`. -/
def fixXor {L : LongSize} : Fixnum L → Inum L → Inum L := fixBitop Int.xor (rbBigXor L)

/-! ## Complements -/

theorem digitAt_map_not {ds : List BDigit} {i : ℕ} (hi : i < ds.length) :
    digitAt (ds.map (~~~ ·)) i = bigrad - 1 - digitAt ds i := by
  have hlt := digitAt_lt ds i
  unfold bigrad at *
  simp only [digitAt, List.getD_eq_getElem?_getD, List.getElem?_map, List.getElem?_eq_getElem hi,
    Option.map_some, Option.getD_some, UInt32.toNat_not, UInt32.size] at *
  omega

/-- The number whose digits are all complements. -/
theorem val_complement (d : ℕ → ℤ) (n : ℕ) :
    Radix.val bigrad (fun i => bigrad - 1 - d i) n = bigrad ^ n - 1 - Radix.val bigrad d n := by
  induction n with
  | zero => simp
  | succ n ih =>
      rw [Radix.val_succ, Radix.val_succ, ih, pow_succ]
      ring

theorem magnitude_map_not (ds : List BDigit) :
    magnitude (ds.map (~~~ ·)) = bigrad ^ ds.length - 1 - magnitude ds := by
  rw [magnitude, List.length_map, Radix.val_congr fun i hi => digitAt_map_not hi, val_complement,
    magnitude]

theorem magnitude_append_one (ds : List BDigit) :
    magnitude (ds ++ [1]) = magnitude ds + bigrad ^ ds.length := by
  have hlow : Radix.val bigrad (digitAt (ds ++ [1])) ds.length = magnitude ds := by
    refine Radix.val_congr fun i hi => ?_
    simp [digitAt, List.getD_eq_getElem?_getD, List.getElem?_append_left hi]
  have htop : digitAt (ds ++ [1]) ds.length = 1 := by
    simp [digitAt, List.getD_eq_getElem?_getD]
  rw [magnitude, List.length_append, List.length_singleton, Radix.val_succ, hlow, htop, one_mul]

/-- **`get2comp` takes the digits from the next power**; a carry out of them is kept. -/
theorem get2comp_spec {ds : List BDigit} (hpos : 0 < ds.length) :
    magnitude (get2comp ds) = bigrad ^ ds.length - magnitude ds ∧
      (magnitude ds ≠ 0 → (get2comp ds).length = ds.length) := by
  have hc0 := digitAt_nonneg (ds.map (~~~ ·))
  have hc1 := digitAt_lt (ds.map (~~~ ·))
  -- the digits passed and the carry, against one more than the complement
  have hrun := Loop.upto_induction (n := ds.length) (a := (⟨1, ds.map (~~~ ·)⟩ : Carry))
    (f := fun i (s : Carry) => Carry.step (digitAt s.zds i) i s)
    (fun i s => 0 ≤ s.num ∧ s.num ≤ 1 ∧ s.zds.length = ds.length ∧
      (∀ k, i ≤ k → digitAt s.zds k = digitAt (ds.map (~~~ ·)) k) ∧
      Radix.val bigrad (digitAt s.zds) i + s.num * bigrad ^ i =
        1 + Radix.val bigrad (digitAt (ds.map (~~~ ·))) i)
    ⟨by norm_num, le_rfl, by simp, fun _ _ => rfl, by simp⟩ ?_
  · have hcomp : Radix.val bigrad (digitAt (ds.map (~~~ ·))) ds.length =
        bigrad ^ ds.length - 1 - magnitude ds := by
      rw [← magnitude_map_not, magnitude, List.length_map]
    rw [get2comp, if_neg (by omega)]
    generalize Loop.upto _ ds.length _ = s at hrun ⊢
    obtain ⟨h0, h1, hlen, -, hval⟩ := hrun
    have hmag : Radix.val bigrad (digitAt s.zds) ds.length = magnitude s.zds := by
      rw [magnitude, hlen]
    rw [hcomp, hmag] at hval
    dsimp only
    by_cases hnum : s.num = 0
    · rw [if_neg (by simpa using hnum)]
      rw [hnum] at hval
      exact ⟨by linarith, fun _ => hlen⟩
    · have hone : s.num = 1 := by omega
      rw [if_pos hnum, magnitude_append_one, hlen]
      rw [hone] at hval
      refine ⟨by linarith, fun hne => ?_⟩
      have hnn := magnitude_nonneg s.zds
      have := magnitude_nonneg ds
      omega
  · intro i s hi hs
    obtain ⟨h0, h1, hlen, hrest, hval⟩ := hs
    have hd := hrest i le_rfl
    have hb := bigrad_pos
    have hb' : bigrad = 4294967296 := by norm_num [bigrad]
    have hsum0 : 0 ≤ s.num + digitAt s.zds i := by rw [hd]; linarith [hc0 i]
    have hsum1 : s.num + digitAt s.zds i ≤ bigrad := by rw [hd]; linarith [hc1 i]
    rw [Carry.step_eq hsum0 (by omega)]
    set n := s.num + digitAt s.zds i with hn
    refine ⟨?_, ?_, by simpa using hlen, ?_, ?_⟩
    · show 0 ≤ bigdn n
      unfold bigdn bigrad
      omega
    · show bigdn n ≤ 1
      unfold bigdn bigrad
      omega
    · intro k hk
      rw [digitAt_set_ne (by omega)]
      exact hrest k (by omega)
    · have hpre : Radix.val bigrad (digitAt (s.zds.set i (biglo n))) i =
          Radix.val bigrad (digitAt s.zds) i :=
        Radix.val_congr fun j hj => digitAt_set_ne (by omega) _
      rw [Radix.val_succ, Radix.val_succ, hpre, digitAt_set_self (by omega), toNat_biglo, pow_succ]
      linear_combination hval + bigrad ^ i * emod_add_bigdn n + bigrad ^ i * hn + bigrad ^ i * hd

/-! ## Bits -/

/-- The integer that digits stand for when their sign continues them for ever. -/
def twos (sign : Bool) (ds : List BDigit) : ℤ :=
  magnitude ds - if sign then 0 else bigrad ^ ds.length

theorem magnitude_cons (d : BDigit) (ds : List BDigit) :
    magnitude (d :: ds) = d.toNat + bigrad * magnitude ds := by
  rw [magnitude, List.length_cons, Radix.val_succ', magnitude]
  rfl

/-- The bits of a magnitude are those of its digits. -/
theorem testBit_magnitude (ds : List BDigit) (i : ℕ) :
    (magnitude ds).toNat.testBit i = (ds.getD (i / 32) 0).toNat.testBit (i % 32) := by
  induction ds generalizing i with
  | nil => simp [magnitude]
  | cons d ds ih =>
      have hval : (magnitude (d :: ds)).toNat = 2 ^ 32 * (magnitude ds).toNat + d.toNat := by
        have hnn := magnitude_nonneg ds
        rw [magnitude_cons, bigrad]
        omega
      rw [hval, Nat.testBit_two_pow_mul_add _ d.toNat_lt]
      by_cases hi : i < 32
      · rw [if_pos hi, Nat.div_eq_of_lt hi, Nat.mod_eq_of_lt hi]
        rfl
      · obtain ⟨k, rfl⟩ := Nat.exists_eq_add_of_le (Nat.le_of_not_lt hi)
        have hdiv : (32 + k) / 32 = k / 32 + 1 := by omega
        have hmod : (32 + k) % 32 = k % 32 := by omega
        rw [if_neg hi, Nat.add_sub_cancel_left, ih, hdiv, hmod, List.getD_cons_succ]

/-- **The bits of a two's complement are those of its digits and then its sign.** -/
theorem testBit_twos (sign : Bool) (ds : List BDigit) (i : ℕ) :
    (twos sign ds).testBit i =
      if i / 32 < ds.length then (ds.getD (i / 32) 0).toNat.testBit (i % 32) else !sign := by
  have hnn := magnitude_nonneg ds
  have hlt : (magnitude ds).toNat < 2 ^ (32 * ds.length) := by
    have h := magnitude_lt ds
    rw [bigrad, ← pow_mul] at h
    have hcast : ((magnitude ds).toNat : ℤ) < ((2 ^ (32 * ds.length) : ℕ) : ℤ) := by
      rw [Int.toNat_of_nonneg hnn]
      exact_mod_cast h
    exact_mod_cast hcast
  have hbit := testBit_magnitude ds i
  have hhigh : ¬ i / 32 < ds.length → (ds.getD (i / 32) 0).toNat.testBit (i % 32) = false := by
    intro hi
    have hnone : ds.getD (i / 32) 0 = 0 := by
      simp [List.getD_eq_getElem?_getD, List.getElem?_eq_none (Nat.le_of_not_lt hi)]
    rw [hnone]
    exact Nat.zero_testBit _
  cases sign with
  | true =>
      have hval : twos true ds = ((magnitude ds).toNat : ℤ) := by simp [twos, hnn]
      rw [hval]
      show (magnitude ds).toNat.testBit i = _
      rw [hbit]
      split_ifs with hi
      · rfl
      · exact hhigh hi
  | false =>
      have hval : twos false ds =
          Int.negSucc (2 ^ (32 * ds.length) - ((magnitude ds).toNat + 1)) := by
        have hpow : bigrad ^ ds.length = ((2 ^ (32 * ds.length) : ℕ) : ℤ) := by
          rw [bigrad, ← pow_mul]
          push_cast
          rfl
        simp only [twos, Bool.false_eq_true, if_false, hpow, Int.negSucc_eq]
        omega
      rw [hval]
      show (!(2 ^ (32 * ds.length) - ((magnitude ds).toNat + 1)).testBit i) = _
      rw [Nat.testBit_two_pow_sub_succ hlt, hbit]
      have hiff : i < 32 * ds.length ↔ i / 32 < ds.length := by omega
      by_cases hi : i / 32 < ds.length
      · simp [hi, hiff]
      · simp [hi, hiff]

/-- The digits an operator works on stand for the number. -/
theorem Bignum.Trimmed.twos_eq {x : Bignum} (hx : x.Trimmed) :
    twos x.sign x.twosDigits = x.toInt ∧ 0 < x.twosDigits.length := by
  have hpos : 0 < x.digits.length := hx.pos
  cases hs : x.sign with
  | true => simp [twos, Bignum.twosDigits, hs, Bignum.toInt, Bignum.mag, hpos]
  | false =>
      have hneg := hx.neg_of_sign hs
      have hval : x.toInt = -magnitude x.digits := by simp [Bignum.toInt, hs, Bignum.mag]
      obtain ⟨hmag, hlen⟩ := get2comp_spec hpos
      have hlen' := hlen (by omega)
      simp only [twos, Bignum.twosDigits, hs, Bool.false_eq_true, if_false, hmag, hlen', hval]
      exact ⟨by ring, hpos⟩

/-- A result is complemented back to the number its digits stand for. -/
theorem toInt_twos {ds : List BDigit} (hpos : 0 < ds.length) (sign : Bool) :
    (Bignum.mk sign (if sign then ds else get2comp ds)).toInt = twos sign ds := by
  cases sign with
  | true => simp [Bignum.toInt, Bignum.mag, twos]
  | false =>
      simp only [Bignum.toInt, Bignum.mag, twos, Bool.false_eq_true, if_false,
        (get2comp_spec hpos).1]
      ring

/-! ## The operators, bit by bit -/

/-- The digits of `z`, one by one. -/
theorem getD_bitopDigits {op : BDigit → BDigit → BDigit} {rest : Bool → BDigit → BDigit}
    {ds1 ds2 : List BDigit} (hlen : ds1.length ≤ ds2.length) (sign : Bool) {k : ℕ}
    (hk : k < ds2.length) :
    (bitopDigits op rest ds1 ds2 sign).getD k 0 =
      if k < ds1.length then op (ds1.getD k 0) (ds2.getD k 0) else rest sign (ds2.getD k 0) := by
  have hzip : (List.zipWith op ds1 ds2).length = ds1.length := by simp [hlen]
  by_cases hk1 : k < ds1.length
  · simp [bitopDigits, List.getD_eq_getElem?_getD, List.getElem?_append_left (hzip ▸ hk1), hk1, hk]
  · have hge : (List.zipWith op ds1 ds2).length ≤ k := by omega
    have hsub : ds1.length + (k - ds1.length) = k := by omega
    simp [bitopDigits, List.getD_eq_getElem?_getD, List.getElem?_append_right hge, hzip, hk1, hsub,
      hk]

theorem length_bitopDigits {op : BDigit → BDigit → BDigit} {rest : Bool → BDigit → BDigit}
    {ds1 ds2 : List BDigit} (hlen : ds1.length ≤ ds2.length) (sign : Bool) :
    (bitopDigits op rest ds1 ds2 sign).length = ds2.length := by
  simp only [bitopDigits, List.length_append, List.length_zipWith, List.length_map,
    List.length_drop]
  omega

/-- What makes the parts of an operator those of an operation on bits. -/
structure IsBitop (op : BDigit → BDigit → BDigit) (rest : Bool → BDigit → BDigit)
    (zsign : Bool → Bool → Bool) (bit : Bool → Bool → Bool) : Prop where
  op_bit : ∀ a b i, (op a b).toNat.testBit i = bit (a.toNat.testBit i) (b.toNat.testBit i)
  rest_bit : ∀ sign b i, i < 32 → (rest sign b).toNat.testBit i = bit (!sign) (b.toNat.testBit i)
  sign_bit : ∀ s t, zsign s t = !bit (!s) (!t)
  comm : ∀ a b, bit a b = bit b a

section Bitop

variable {op : BDigit → BDigit → BDigit} {rest : Bool → BDigit → BDigit}
  {zsign : Bool → Bool → Bool} {bit : Bool → Bool → Bool} {L : LongSize}

/-- The bits of `z`, where the first operand is not longer than the second. -/
theorem IsBitop.testBit_digits (hop : IsBitop op rest zsign bit) {ds1 ds2 : List BDigit}
    (hlen : ds1.length ≤ ds2.length) (s1 s2 : Bool) (i : ℕ) :
    (twos (zsign s1 s2) (bitopDigits op rest ds1 ds2 s1)).testBit i =
      bit ((twos s1 ds1).testBit i) ((twos s2 ds2).testBit i) := by
  rw [testBit_twos, testBit_twos, testBit_twos, length_bitopDigits hlen]
  by_cases h2 : i / 32 < ds2.length
  · rw [if_pos h2, if_pos h2, getD_bitopDigits hlen s1 h2]
    by_cases h1 : i / 32 < ds1.length
    · rw [if_pos h1, if_pos h1, hop.op_bit]
    · rw [if_neg h1, if_neg h1, hop.rest_bit _ _ _ (Nat.mod_lt _ (by decide))]
  · have h1 : ¬ i / 32 < ds1.length := by omega
    rw [if_neg h2, if_neg h2, if_neg h1, hop.sign_bit, Bool.not_not]

/-- **The operators act bit by bit.** -/
theorem IsBitop.testBit_bigBitop (hop : IsBitop op rest zsign bit) {x : Bignum} {y : Inum L}
    (hx : x.Trimmed) (hy : y.Canonical) (i : ℕ) :
    (bigBitop op rest zsign L x y).toInt.testBit i =
      bit (x.toInt.testBit i) (y.toInt.testBit i) := by
  rw [← y.toInt_toBignum_eq, bigBitop, toInt_bignorm]
  obtain ⟨hxval, hxpos⟩ := hx.twos_eq
  obtain ⟨hyval, hypos⟩ := hy.trimmed.twos_eq
  rw [← hxval, ← hyval]
  generalize y.toBignum = y at *
  by_cases hlen : x.twosDigits.length > y.twosDigits.length
  · have hsymm : zsign x.sign y.sign = zsign y.sign x.sign := by
      rw [hop.sign_bit, hop.sign_bit, hop.comm]
    rw [if_pos hlen, toInt_twos (by rw [length_bitopDigits hlen.le]; exact hxpos), hsymm,
      hop.testBit_digits hlen.le, hop.comm]
  · have hle := Nat.le_of_not_lt hlen
    rw [if_neg hlen, toInt_twos (by rw [length_bitopDigits hle]; exact hypos),
      hop.testBit_digits hle]

end Bitop

theorem isBitop_and :
    IsBitop (· &&& ·) (fun sign d => if sign then 0 else d) (· || ·) (· && ·) where
  op_bit a b i := by simp
  rest_bit sign b i _ := by cases sign <;> simp
  sign_bit s t := by cases s <;> cases t <;> rfl
  comm a b := Bool.and_comm a b

theorem isBitop_or :
    IsBitop (· ||| ·) (fun sign d => if sign then d else biglo (bigrad - 1)) (· && ·)
      (· || ·) where
  op_bit a b i := by simp
  rest_bit sign b i hi := by
    have hones : (biglo (bigrad - 1)).toNat = 2 ^ 32 - 1 := by decide
    cases sign with
    | true => simp
    | false =>
        simp only [Bool.false_eq_true, if_false, hones, Nat.testBit_two_pow_sub_one, hi]
        rfl
  sign_bit s t := by cases s <;> cases t <;> rfl
  comm a b := Bool.or_comm a b

/-- The bits of a complemented digit. -/
theorem testBit_not (d : BDigit) {i : ℕ} (hi : i < 32) :
    (~~~ d).toNat.testBit i = !d.toNat.testBit i := by
  have hval : (~~~ d).toNat = 2 ^ 32 - (d.toNat + 1) := by
    rw [UInt32.toNat_not, UInt32.size]
    omega
  rw [hval, Nat.testBit_two_pow_sub_succ d.toNat_lt]
  simp [hi]

theorem isBitop_xor :
    IsBitop (· ^^^ ·) (fun sign d => if sign then d else ~~~ d) (fun s t => !(s ^^ t))
      (· ^^ ·) where
  op_bit a b i := by simp
  rest_bit sign b i hi := by
    cases sign with
    | true => simp
    | false =>
        rw [if_neg (by simp), testBit_not b hi]
        simp
  sign_bit s t := by cases s <;> cases t <;> rfl
  comm a b := Bool.xor_comm a b

/-- **`~` is one less than the opposite.** -/
theorem toInt_rbBigNeg {L : LongSize} {x : Bignum} (hx : x.Trimmed) :
    (rbBigNeg L x).toInt = -x.toInt - 1 := by
  have hpos : 0 < x.digits.length := hx.pos
  have hlen0 : x.len ≠ 0 := hx.pos.ne'
  rw [rbBigNeg, if_neg hlen0, toInt_bignorm]
  cases hs : x.sign with
  | true =>
      have hzds : (x.twosDigits.take x.len).map (~~~ ·) ++ x.twosDigits.drop x.len =
          x.digits.map (~~~ ·) := by
        simp [Bignum.twosDigits, hs, Bignum.len]
      have hpos' : 0 < (x.digits.map (~~~ ·)).length := by simpa using hpos
      have hmag := (get2comp_spec hpos').1
      rw [magnitude_map_not, List.length_map] at hmag
      simp only [hzds, if_true, Bignum.toInt, Bool.not_true, Bool.false_eq_true, if_false, hs,
        Bignum.mag, hmag]
      ring
  | false =>
      have hneg := hx.neg_of_sign hs
      have hval : x.toInt = -magnitude x.digits := by simp [Bignum.toInt, hs, Bignum.mag]
      obtain ⟨hmag, hlen⟩ := get2comp_spec hpos
      have hlen' := hlen (by omega)
      have hzds : (x.twosDigits.take x.len).map (~~~ ·) ++ x.twosDigits.drop x.len =
          (get2comp x.digits).map (~~~ ·) := by
        simp only [Bignum.twosDigits, hs, Bool.false_eq_true, if_false, Bignum.len, ← hlen',
          List.take_length, List.drop_length, List.append_nil]
      have hmag' := magnitude_map_not (get2comp x.digits)
      rw [hmag, hlen'] at hmag'
      simp only [hzds, Bool.false_eq_true, if_false, Bignum.toInt, Bool.not_false, if_true, hs,
        Bignum.mag, hmag']
      ring

/-- The bits of the opposite less one. -/
theorem testBit_neg_sub_one (n : ℤ) (i : ℕ) : (-n - 1).testBit i = !n.testBit i := by
  have hnot : -n - 1 = n.lnot := by
    cases n with
    | ofNat n =>
        show _ = Int.negSucc n
        rw [Int.negSucc_eq, Int.ofNat_eq_natCast]
        ring
    | negSucc n =>
        show _ = (n : ℤ)
        rw [Int.negSucc_eq]
        ring
  rw [hnot, Int.testBit_lnot]

/-- **The bitwise operators act on the infinite two's complement expansions**, in either order of
the operands and with a fixnum as either of them, and give normalised results. -/
theorem bitwise_exact (L : LongSize) (x y : Inum L) (hx : x.Canonical) (hy : y.Canonical) :
    ((∀ i, (rbBigAnd L x.toBignum y).toInt.testBit i = (x.toInt.testBit i && y.toInt.testBit i)) ∧
      (rbBigAnd L x.toBignum y).Canonical) ∧
    ((∀ i, (rbBigOr L x.toBignum y).toInt.testBit i = (x.toInt.testBit i || y.toInt.testBit i)) ∧
      (rbBigOr L x.toBignum y).Canonical) ∧
    ((∀ i, (rbBigXor L x.toBignum y).toInt.testBit i = (x.toInt.testBit i ^^ y.toInt.testBit i)) ∧
      (rbBigXor L x.toBignum y).Canonical) ∧
    ((∀ i, (rbBigNeg L x.toBignum).toInt.testBit i = !x.toInt.testBit i) ∧
      (rbBigNeg L x.toBignum).Canonical) ∧
    ∀ (n : Fixnum L) (b : Bignum), y = .bignum b →
      ((∀ i, (fixAnd n y).toInt.testBit i = (n.val.testBit i && y.toInt.testBit i)) ∧
        (fixAnd n y).Canonical) ∧
      ((∀ i, (fixOr n y).toInt.testBit i = (n.val.testBit i || y.toInt.testBit i)) ∧
        (fixOr n y).Canonical) ∧
      ((∀ i, (fixXor n y).toInt.testBit i = (n.val.testBit i ^^ y.toInt.testBit i)) ∧
        (fixXor n y).Canonical) := by
  have hval := x.toInt_toBignum_eq
  refine ⟨⟨fun i => ?_, bignorm_canonical L _⟩, ⟨fun i => ?_, bignorm_canonical L _⟩,
    ⟨fun i => ?_, bignorm_canonical L _⟩, ⟨fun i => ?_, ?_⟩, ?_⟩
  · rw [rbBigAnd, isBitop_and.testBit_bigBitop hx.trimmed hy, hval]
  · rw [rbBigOr, isBitop_or.testBit_bigBitop hx.trimmed hy, hval]
  · rw [rbBigXor, isBitop_xor.testBit_bigBitop hx.trimmed hy, hval]
  · rw [toInt_rbBigNeg hx.trimmed, testBit_neg_sub_one, hval]
  · rw [rbBigNeg, if_neg hx.trimmed.pos.ne']
    exact bignorm_canonical L _
  · intro n b hb
    subst hb
    have htrim : b.Trimmed := hy.trimmed
    have hn : Inum.Canonical (.fixnum n) := trivial
    refine ⟨⟨fun i => ?_, bignorm_canonical L _⟩, ⟨fun i => ?_, bignorm_canonical L _⟩,
      ⟨fun i => ?_, bignorm_canonical L _⟩⟩
    · exact (isBitop_and.testBit_bigBitop htrim hn i).trans (isBitop_and.comm _ _)
    · exact (isBitop_or.testBit_bigBitop htrim hn i).trans (isBitop_or.comm _ _)
    · exact (isBitop_xor.testBit_bigBitop htrim hn i).trans (isBitop_xor.comm _ _)

/-- -2^64, whose complement needs no more digits than it has, and the fixnum -1. -/
theorem bitwise_exact_pow :
    Inum.Canonical (.bignum ⟨false, [0, 0, 1]⟩ : Inum .lp64) ∧
      (rbBigAnd .lp64 ⟨false, [0, 0, 1]⟩ (.fixnum ⟨-1, by decide, by decide⟩)).Canonical := by
  have hx : Inum.Canonical (.bignum ⟨false, [0, 0, 1]⟩ : Inum .lp64) :=
    ⟨by decide, by decide, by decide⟩
  exact ⟨hx, (bitwise_exact .lp64 _ (.fixnum ⟨-1, by decide, by decide⟩) hx trivial).1.2⟩

end MacRuby
