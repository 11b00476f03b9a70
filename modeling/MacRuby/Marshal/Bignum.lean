import Mathlib.Algebra.Order.Ring.Star
import Mathlib.Tactic.IntervalCases
import MacRuby.Bignum.Arith
import MacRuby.Lib.Result
import MacRuby.Marshal.Long
import MacRuby.String.Object

/-!
# Marshalling a bignum

A bignum is written as a sign, the number of the 16-bit units that it has without leading zeros, and
these units, the lowest first.  It is read back into digits of 32 bits, the last of which may be
half filled, and normalised.  The number of units is computed as a `long`, but `shortlen` returns an
`int`, so that `w_long` cannot refuse a number that is too big for it.

## Main definitions

* `shortlen`, `wBignum`, `rBignum` — the functions.
* `BigRoundTrip` — what is written of a bignum is read back.

## Main results

* `rDigits_wDigits` — the digits are read back.
* `marshal_roundTrip_iff` — integers are read back exactly when `shortlen` does not overflow.
-/

namespace MacRuby

section Code

variable (L : LongSize) (enc : CFEncoding)

/-- `while (num) { num = SHORTDN(num); offset++; }`: a digit has two units at most. -/
def shortOffset (num : BDigit) : ℕ :=
  if num = 0 then 0 else if num >>> 16 = 0 then 1 else 2

/-- The number that `shortlen` computes, before it is an `int`. -/
def shorts (ds : List BDigit) : ℕ := (ds.length - 1) * 2 + shortOffset (ds.getD (ds.length - 1) 0)

/-- `shortlen(len, ds)`. -/
def shortlen (ds : List BDigit) : ℤ := toCInt (shorts ds)

/-- `w_short(x)`, of the low 16 bits of a digit. -/
def wShort (x : BDigit) : List UInt8 := [x.toUInt8, (x >>> 8).toUInt8]

/-- The units of a digit; of the last digit the upper one is left out if it is zero. -/
def wDigit (num : BDigit) (last : Bool) : List UInt8 :=
  wShort (num &&& 0xffff) ++
    let num := num >>> 16
    if last ∧ num = 0 then [] else wShort (num &&& 0xffff)

/-- The loop that writes the digits. -/
def wDigits : List BDigit → List UInt8
  | [] => []
  | d :: ds => wDigit d ds.isEmpty ++ wDigits ds

/-- `w_object`, of a bignum, after the type. -/
def wBignum (x : Bignum) : Except MarshalError (List UInt8) := do
  let len ← wLong L (BitVec.ofInt L.bits (shortlen x.digits))
  return (if x.sign then 0x2b else 0x2d) :: len ++ wDigits x.digits

/-- `r_bytes0(len)`, from the bytes of a string: the string that `rb_str_new` makes of them. -/
def rBytes0 (len : ℤ) (src : List UInt8) : Except MarshalError (StringObject × List UInt8) :=
  if len = 0 then .ok (strNewNull 0, src)
  else if src.length ≥ len then
    if len < 0 then .error (.argument "negative string size (or size too big)")
    else .ok (strNew enc src len.toNat, src.drop len.toNat)
  else .error (.argument "marshal data too short")

/-- `num |= (int)p[i] << shift`, for the four bytes of a digit. -/
def rDigit (p0 p1 p2 p3 : UInt8) : BDigit :=
  p0.toUInt32 ||| p1.toUInt32 <<< 8 ||| p2.toUInt32 <<< 16 ||| p3.toUInt32 <<< 24

/-- The loop that makes digits of the bytes. -/
def rDigits : List UInt8 → List BDigit
  | p0 :: p1 :: p2 :: p3 :: p => rDigit p0 p1 p2 p3 :: rDigits p
  | _ => []

/-- The digits of `r_object0`, of a sign and a number of units, whose bytes are copied from the
front of the string.  A negative number has got past `r_bytes0` only where its double is no
`long`. -/
def rBignumData (sign : Bool) (len : ℤ) (src : List UInt8) :
    Except MarshalError (Inum L × List UInt8) := do
  let (data, src) ← rBytes0 enc (L.toLong (len * 2)) src
  if len < 0 then .error .undefined
  else
    let size := (len + 1) * 2 / 4
    let bytes := (data.cstr enc).take (len * 2).toNat
    let digits := bytes ++ List.replicate (size * 4 - len * 2).toNat 0
    .ok (bignorm L ⟨sign, rDigits digits⟩, src)

/-- `r_object0`, of a bignum, after the type. -/
def rBignum (src : List UInt8) : Except MarshalError (Inum L × List UInt8) := do
  let (c, src) ← rByte src
  let (len, src) ← rLong L src
  rBignumData L enc (c = 0x2b) len.toInt src

end Code

/-- **What is written of a bignum is read back**, whatever follows, which is left. -/
def BigRoundTrip (L : LongSize) (enc : CFEncoding) (x : BigObject L) : Prop :=
  ∃ bytes, wBignum L x.big = .ok bytes ∧ ∀ t, rBignum L enc (bytes ++ t) = .ok (.bignum x.big, t)

/-! ## The digits -/

section Digits

/-- The bytes of a digit are put together to the digit. -/
theorem rDigit_bytes (d : BDigit) :
    rDigit d.toUInt8 (d >>> 8).toUInt8 (d >>> 16).toUInt8 (d >>> 16 >>> 8).toUInt8 = d := by
  apply UInt32.toBitVec_inj.mp
  simp only [rDigit, UInt32.toBitVec_or, UInt32.toBitVec_shiftLeft, UInt8.toBitVec_toUInt32,
    UInt32.toBitVec_toUInt8, UInt32.toBitVec_shiftRight]
  ext i hi
  interval_cases i <;> simp

/-- The mask does not change the bytes that are written. -/
theorem wShort_mask (d : BDigit) : wShort (d &&& 0xffff) = [d.toUInt8, (d >>> 8).toUInt8] := by
  have hlow : (d &&& 0xffff).toUInt8 = d.toUInt8 := by
    apply UInt8.toBitVec_inj.mp
    simp only [UInt32.toBitVec_toUInt8, UInt32.toBitVec_and]
    ext i hi
    interval_cases i <;> simp
  have hhigh : ((d &&& 0xffff) >>> 8).toUInt8 = (d >>> 8).toUInt8 := by
    apply UInt8.toBitVec_inj.mp
    simp only [UInt32.toBitVec_toUInt8, UInt32.toBitVec_and, UInt32.toBitVec_shiftRight]
    ext i hi
    interval_cases i <;> simp
  rw [wShort, hlow, hhigh]

/-- A digit that has two units. -/
theorem wDigit_full (d : BDigit) (last : Bool) (h : ¬(last = true ∧ d >>> 16 = 0)) :
    wDigit d last = [d.toUInt8, (d >>> 8).toUInt8, (d >>> 16).toUInt8,
      (d >>> 16 >>> 8).toUInt8] := by
  simp only [wDigit, wShort_mask, if_neg h]
  rfl

/-- A digit whose upper unit is left out. -/
theorem wDigit_half (d : BDigit) (h : d >>> 16 = 0) :
    wDigit d true = [d.toUInt8, (d >>> 8).toUInt8] := by
  simp only [wDigit, wShort_mask, h, and_self, if_true]
  rfl

theorem shorts_cons (d e : BDigit) (ds : List BDigit) :
    shorts (d :: e :: ds) = shorts (e :: ds) + 2 := by
  simp [shorts]
  omega

theorem shorts_single {d : BDigit} (hd : d ≠ 0) :
    shorts [d] = if d >>> 16 = 0 then 1 else 2 := by
  simp [shorts, shortOffset, hd]

/-- The digits are filled by the units, the last of them at least by half. -/
theorem shorts_bounds {ds : List BDigit} (hne : ds ≠ []) (htop : ds.getD (ds.length - 1) 0 ≠ 0) :
    ds.length * 2 - 1 ≤ shorts ds ∧ shorts ds ≤ ds.length * 2 := by
  have hpos := List.length_pos_iff.mpr hne
  rw [shorts, shortOffset, if_neg htop]
  split <;> omega

/-- **The digits are read back**, from as many units as `shorts` says, filled up with zeros. -/
theorem rDigits_wDigits {ds : List BDigit} (hne : ds ≠ []) (htop : ds.getD (ds.length - 1) 0 ≠ 0) :
    (wDigits ds).length = shorts ds * 2 ∧
      rDigits (wDigits ds ++ List.replicate (ds.length * 4 - shorts ds * 2) 0) = ds := by
  induction ds with
  | nil => exact absurd rfl hne
  | cons d ds ih =>
      have hdigit := rDigit_bytes d
      cases ds with
      | nil =>
          have hd : d ≠ 0 := htop
          rw [wDigits, wDigits, List.append_nil, shorts_single hd]
          by_cases h16 : d >>> 16 = 0
          · rw [h16] at hdigit
            rw [List.isEmpty_nil, wDigit_half d h16, if_pos h16]
            refine ⟨rfl, ?_⟩
            change [rDigit d.toUInt8 (d >>> 8).toUInt8 0 0] = [d]
            exact congrArg (fun e => [e]) hdigit
          · rw [wDigit_full d _ (fun h => h16 h.2), if_neg h16]
            refine ⟨rfl, ?_⟩
            exact congrArg (fun e => [e]) hdigit
      | cons e ds =>
          have htop' : (e :: ds).getD ((e :: ds).length - 1) 0 ≠ 0 := by
            simpa using htop
          obtain ⟨hlen, hread⟩ := ih (List.cons_ne_nil e ds) htop'
          have hfull : ¬((e :: ds).isEmpty = true ∧ d >>> 16 = 0) := fun h => Bool.noConfusion h.1
          have hpad : (d :: e :: ds).length * 4 - (shorts (e :: ds) + 2) * 2 =
              (e :: ds).length * 4 - shorts (e :: ds) * 2 := by
            simp only [List.length_cons]
            omega
          rw [wDigits, wDigit_full d _ hfull, shorts_cons, hpad]
          refine ⟨?_, ?_⟩
          · rw [List.length_append, hlen]
            simp
            omega
          · rw [List.append_assoc]
            refine (congrArg (rDigit _ _ _ _ :: ·) hread).trans ?_
            rw [hdigit]

/-- Four bytes are a digit. -/
theorem length_rDigits : ∀ bytes : List UInt8, (rDigits bytes).length = bytes.length / 4
  | [] => by simp [rDigits]
  | [_] => by simp [rDigits]
  | [_, _] => by simp [rDigits]
  | [_, _, _] => by simp [rDigits]
  | _ :: _ :: _ :: _ :: p => by
      have ih := length_rDigits p
      simp only [rDigits, List.length_cons, ih]
      omega

end Digits

/-! ## The round trip -/

section RoundTrip

variable {L : LongSize} {enc : CFEncoding}

/-- The number of units is written as an `int`, which a `long` holds. -/
theorem shortlen_mem (ds : List BDigit) : -2 ^ 31 ≤ shortlen ds ∧ shortlen ds < 2 ^ 31 := by
  have hle := Int.le_bmod (x := (shorts ds : ℤ)) (m := 2 ^ 32) (by positivity)
  have hlt := Int.bmod_lt (x := (shorts ds : ℤ)) (m := 2 ^ 32) (by positivity)
  exact ⟨hle, hlt⟩

theorem toInt_ofInt_shortlen (ds : List BDigit) :
    (BitVec.ofInt L.bits (shortlen ds)).toInt = shortlen ds := by
  obtain ⟨hle, hlt⟩ := shortlen_mem ds
  have hbits : L.bits = 32 ∨ L.bits = 64 := by cases L <;> decide
  rcases hbits with hbits | hbits <;>
  · apply BitVec.toInt_ofInt_eq_self (by omega) <;>
    · rw [hbits]
      norm_num
      omega

/-- As many bytes as there are. -/
theorem rBytes0_eq {n : ℕ} {src : List UInt8} (hn : n ≤ src.length) :
    rBytes0 enc n src = .ok (strNew enc src n, src.drop n) := by
  unfold rBytes0
  by_cases h0 : n = 0
  · subst h0
    rfl
  · rw [if_neg (by omega), if_pos (by omega), if_neg (by omega)]
    rfl

/-- The bytes that the string is made of stand at its front. -/
theorem take_cstr_strNew {n : ℕ} {src : List UInt8} (hn : n ≤ src.length) :
    ((strNew enc src n).cstr enc).take n = src.take n := by
  rw [cstr_strNew hn, List.take_append_of_le_length (List.length_take_of_le hn).ge,
    List.take_take, Nat.min_self]

theorem rBignum_cons (c : UInt8) (src : List UInt8) :
    rBignum L enc (c :: src) =
      rLong L src >>= fun r => rBignumData L enc (c = 0x2b) r.1.toInt r.2 := rfl

/-- **The number of units is read back**, and then what follows is. -/
theorem bigRoundTrip_iff (x : BigObject L) :
    BigRoundTrip L enc x ↔ ∀ t, rBignumData L enc x.big.sign (shortlen x.big.digits)
      (wDigits x.big.digits ++ t) = .ok (.bignum x.big, t) := by
  have hlong := longRoundTrip (BitVec.ofInt L.bits (shortlen x.big.digits))
  rw [LongRoundTrip, toInt_ofInt_shortlen, if_pos (shortlen_mem _)] at hlong
  obtain ⟨len, hwrite, hread⟩ := hlong
  have hw : wBignum L x.big =
      .ok ((if x.big.sign then 0x2b else 0x2d) :: len ++ wDigits x.big.digits) := by
    simp only [wBignum, hwrite, Result.ok_bind, pure, Except.pure]
  have hr : ∀ t, rBignum L enc ((if x.big.sign then 0x2b else 0x2d) :: len ++
      wDigits x.big.digits ++ t) = rBignumData L enc x.big.sign (shortlen x.big.digits)
        (wDigits x.big.digits ++ t) := by
    intro t
    have hsign : decide ((if x.big.sign then 0x2b else 0x2d : UInt8) = 0x2b) = x.big.sign := by
      cases x.big.sign <;> simp
    rw [List.append_assoc, List.cons_append, rBignum_cons, hread, Result.ok_bind,
      toInt_ofInt_shortlen, hsign]
  constructor
  · intro h t
    obtain ⟨bytes, hbytes, hback⟩ := h
    have hb := Except.ok.inj (hw.symm.trans hbytes)
    rw [← hr, hb]
    exact hback t
  · intro h
    refine ⟨_, hw, fun t => ?_⟩
    rw [hr]
    exact h t

/-- A number of units that is zero or more makes no more digits than it fills. -/
theorem abs_toInt_rBignumData {sign : Bool} {len : ℤ} {src t : List UInt8} {n : Inum L}
    (h0 : 0 ≤ len) (hlong : len * 2 ≤ L.longMax)
    (h : rBignumData L enc sign len src = .ok (n, t)) :
    |n.toInt| < bigrad ^ ((len + 1) / 2).toNat := by
  have hmax := L.longMax_pos
  have hmin := L.longMin_eq
  obtain ⟨k, hk⟩ : ∃ k : ℕ, len * 2 = k := ⟨(len * 2).toNat, by omega⟩
  rw [rBignumData, LongSize.toLong_of_mem (by omega) hlong, hk] at h
  obtain ⟨⟨data, src'⟩, hdata, h⟩ := Result.bind_eq_ok.mp h
  dsimp only at h
  rw [if_neg (by omega)] at h
  cases h
  rw [toInt_bignorm, Bignum.abs_toInt]
  have hlen : ((data.cstr enc).take (k : ℤ).toNat).length ≤ k := List.length_take_le _ _
  have hmag := magnitude_lt (rDigits ((data.cstr enc).take (k : ℤ).toNat ++ List.replicate
    ((len + 1) * 2 / 4 * 4 - k).toNat 0))
  rw [length_rDigits, List.length_append, List.length_replicate] at hmag
  refine hmag.trans_le (pow_le_pow_right₀ (by norm_num [bigrad]) ?_)
  omega

/-- **A number of units that is negative is refused.** -/
theorem rBignumData_neg {sign : Bool} {len : ℤ} {src : List UInt8} {n : Inum L} {t : List UInt8}
    (h0 : len < 0) : rBignumData L enc sign len src ≠ .ok (n, t) := by
  intro h
  obtain ⟨⟨data, src'⟩, hdata, h⟩ := Result.bind_eq_ok.mp h
  dsimp only at h
  rw [if_pos h0] at h
  cases h

/-- The units that `shortlen` gets right are read back, and make the bignum that is normalised. -/
theorem rBignumData_eq {x : Bignum} (hpos : 0 < x.len) (htop : digitAt x.digits (x.len - 1) ≠ 0)
    (hfits : (x.len : ℤ) * 4 ≤ L.longMax) (h : shorts x.digits < 2 ^ 31) (t : List UInt8) :
    rBignumData L enc x.sign (shortlen x.digits) (wDigits x.digits ++ t)
      = .ok (bignorm L x, t) := by
  have hne : x.digits ≠ [] := List.length_pos_iff.mp hpos
  have htop' := mt (digitAt_eq_zero_iff _ _).mpr htop
  obtain ⟨hlow, hhigh⟩ := shorts_bounds hne htop'
  obtain ⟨hlen, hread⟩ := rDigits_wDigits hne htop'
  have hfits' : (x.digits.length : ℤ) * 4 ≤ L.longMax := hfits
  have hmax := L.longMax_pos
  have hmin := L.longMin_eq
  have hs : shortlen x.digits = shorts x.digits := by
    rw [shortlen, toCInt, Int.bmod_eq_of_le] <;> omega
  have hpos' : 0 < x.digits.length := hpos
  have hlong : L.toLong ((shorts x.digits : ℤ) * 2) = (shorts x.digits * 2 : ℕ) := by
    rw [LongSize.toLong_of_mem (by omega) (by omega)]
    omega
  have hle : shorts x.digits * 2 ≤ (wDigits x.digits ++ t).length := by
    rw [List.length_append]
    omega
  have hcopied : ((strNew enc (wDigits x.digits ++ t) _).cstr enc).take _ = _ :=
    take_cstr_strNew hle
  rw [← hlen, List.take_left, hlen] at hcopied
  have hcount : ((shorts x.digits : ℤ) * 2).toNat = shorts x.digits * 2 := by omega
  have hpad : (((shorts x.digits : ℤ) + 1) * 2 / 4 * 4 - shorts x.digits * 2).toNat =
      x.digits.length * 4 - shorts x.digits * 2 := by
    omega
  rw [rBignumData, hs, hlong, rBytes0_eq hle, Result.ok_bind]
  dsimp only
  rw [if_neg (by omega), hcount, hcopied, hpad, hread, ← hlen, List.drop_left]

/-- The units of a bignum that `shortlen` gets right are read back. -/
theorem rBignumData_shortlen (x : BigObject L) (h : shorts x.big.digits < 2 ^ 31)
    (t : List UInt8) : rBignumData L enc x.big.sign (shortlen x.big.digits)
      (wDigits x.big.digits ++ t) = .ok (.bignum x.big, t) := by
  obtain ⟨-, hpos, htop⟩ := x.canonical
  have heq := (bignorm_canonical L x.big).ext x.canonical (toInt_bignorm L x.big)
  rw [rBignumData_eq hpos htop x.fits h, ← heq]

/-- **A `long` is read back, and a bignum exactly when `shortlen` does not overflow**: when it has
fewer than 2^31 units. -/
theorem marshal_roundTrip_iff (L : LongSize) (enc : CFEncoding) :
    (∀ x : BitVec L.bits, LongRoundTrip L x) ∧
      ∀ x : BigObject L, BigRoundTrip L enc x ↔ shorts x.big.digits < 2 ^ 31 := by
  refine ⟨longRoundTrip, fun x => ?_⟩
  rw [bigRoundTrip_iff]
  refine ⟨fun h => ?_, fun h => rBignumData_shortlen x h⟩
  by_contra hbig
  obtain ⟨-, hpos, htop⟩ := x.canonical
  have hne : x.big.digits ≠ [] := List.length_pos_iff.mp hpos
  obtain ⟨hlow, hhigh⟩ := shorts_bounds hne (mt (digitAt_eq_zero_iff _ _).mpr htop)
  have hfits : (x.big.digits.length : ℤ) * 4 ≤ L.longMax := x.fits
  have hmem := shortlen_mem x.big.digits
  rcases lt_or_ge (shortlen x.big.digits) 0 with hneg | hge
  · exact rBignumData_neg hneg (h [])
  · -- the length that is read is short by a multiple of 2^32, and the number is too small
    have hwrap : shortlen x.big.digits ≤ shorts x.big.digits - 2 ^ 32 := by
      have hdiv := Int.bdiv_add_bmod (shorts x.big.digits) (2 ^ 32)
      rw [shortlen, toCInt] at hmem hge ⊢
      omega
    have hexp : ((shortlen x.big.digits + 1) / 2).toNat ≤ x.big.len - 1 := by
      rw [Bignum.len]
      omega
    have hsmall := abs_toInt_rBignumData hge (by omega) (h [])
    have hle := pow_le_pow_right₀ (show 1 ≤ bigrad by norm_num [bigrad]) hexp
    have hlarge : bigrad ^ (x.big.len - 1) ≤ x.big.mag :=
      pow_le_mag_of_top_ne_zero (n := x.big.len - 1) (by omega) htop
    have habs : |(Inum.bignum x.big : Inum L).toInt| = x.big.mag := x.big.abs_toInt
    omega

/-- The bignum of one bit, the highest of `n + 1` digits. -/
def highBit (n : ℕ) : Bignum := ⟨true, List.replicate n 0 ++ [0x80000000]⟩

theorem shorts_highBit (n : ℕ) : shorts (highBit n).digits = 2 * n + 2 := by
  have hlen : (highBit n).digits.length = n + 1 := by simp [highBit]
  have htop : (highBit n).digits.getD n 0 = 0x80000000 := by simp [highBit]
  rw [shorts, hlen, Nat.add_sub_cancel, htop, mul_comm]
  rfl

theorem len_highBit (n : ℕ) : (highBit n).len = n + 1 := by simp [highBit, Bignum.len]

theorem canonical_highBit (L : LongSize) {n : ℕ} (h2 : 2 ≤ n) :
    (Inum.bignum (highBit n) : Inum L).Canonical := by
  have hlen := len_highBit n
  have htop : digitAt (highBit n).digits n ≠ 0 := by simp [highBit, digitAt]
  have hlarge := pow_le_mag_of_top_ne_zero hlen htop
  have hpow := pow_le_pow_right₀ (show 1 ≤ bigrad by norm_num [bigrad]) h2
  have hmax : L.fixnumMax < bigrad ^ 2 := by cases L <;> decide
  refine ⟨Or.inr ((hmax.trans_le hpow).trans_le hlarge), by omega, ?_⟩
  rw [hlen]
  exact htop

theorem fits_highBit {L : LongSize} {n : ℕ} (hfits : ((n + 1 : ℕ) : ℤ) * 4 ≤ L.longMax) :
    ((highBit n).len : ℤ) * 4 ≤ L.longMax := by
  rw [len_highBit]
  exact hfits

/-- The bignum as an object. -/
def highBitObject (L : LongSize) (n : ℕ) (h2 : 2 ≤ n) (hfits : ((n + 1 : ℕ) : ℤ) * 4 ≤ L.longMax) :
    BigObject L where
  big := highBit n
  canonical := canonical_highBit L h2
  fits := fits_highBit hfits

/-- `1 << 34359738367` has 2^31 units, and what is written of it is not read back. -/
theorem not_bigRoundTrip_highBit :
    ¬BigRoundTrip .lp64 asciiEncoding (highBitObject .lp64 (2 ^ 30 - 1) (by norm_num)
      (by decide)) := by
  have hneg : shortlen (highBit (2 ^ 30 - 1)).digits < 0 := by
    rw [shortlen, shorts_highBit]
    decide
  rw [bigRoundTrip_iff]
  intro h
  exact rBignumData_neg hneg (h [])

end RoundTrip

end MacRuby
