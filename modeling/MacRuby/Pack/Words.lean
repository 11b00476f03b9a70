import MacRuby.Pack.Pack
import Mathlib.Data.Int.ModEq

/-!
# The two sides of an Integer directive

What `pack` writes for an Integer is read by `unpack` as the Integer reduced to the width of the
directive.

## Main definitions

* `NumberType.signed`, `NumberType.reduce` — the range of a directive, and the reduction to it.

## Main results

* `leNat_leBytes`, `swap16_leNat`, `swap32_leNat`, `extend32_eq` — bytes, and their order.
* `num2i32_eq`, `rbQuadPack_eq` — the words are the Integer modulo a power of two.
* `decode_encode` — the two sides of a directive.
-/

namespace MacRuby.Pack

variable {L : LongSize}

/-! ## Bytes -/

theorem leNat_cons (b : UInt8) (bs : List UInt8) : leNat (b :: bs) = b.toNat + 256 * leNat bs := by
  simp [leNat, Nat.ofDigits_cons]

theorem leBytes_succ (w : ℕ) (n : ℤ) :
    leBytes (w + 1) n = UInt8.ofNat (n % 256).toNat :: leBytes w (n / 256) := by
  rw [leBytes, List.range_succ_eq_map, List.map_cons, List.map_map, leBytes]
  congr 1
  · simp
  · refine List.map_congr_left fun i _ => ?_
    show UInt8.ofNat (n / 256 ^ (i + 1) % 256).toNat = UInt8.ofNat (n / 256 / 256 ^ i % 256).toNat
    rw [pow_succ', Int.ediv_ediv_of_nonneg (by norm_num)]

@[simp] theorem length_leBytes (w : ℕ) (n : ℤ) : (leBytes w n).length = w := by simp [leBytes]

/-- **The bytes of a word stand for it.** -/
theorem leNat_leBytes (w : ℕ) (n : ℤ) : (leNat (leBytes w n) : ℤ) = n % 256 ^ w := by
  induction w generalizing n with
  | zero => simp [leBytes, leNat]
  | succ w ih =>
      have hbyte : (UInt8.ofNat (n % 256).toNat).toNat = (n % 256).toNat := by
        rw [UInt8.toNat_ofNat_of_lt']
        show (n % 256).toNat < 256
        omega
      rw [leBytes_succ, leNat_cons]
      push_cast
      rw [ih, hbyte, Int.toNat_of_nonneg (by omega), pow_succ', Int.emod_def n (256 * 256 ^ w),
        ← Int.ediv_ediv_of_nonneg (by norm_num), Int.emod_def n 256, Int.emod_def (n / 256)]
      ring

/-! ## Byte order -/

/-- A byte out of the middle of a word. -/
theorem and_byte (x k : ℕ) : x &&& 255 * 2 ^ k = x / 2 ^ k % 256 * 2 ^ k := by
  have hmod : x / 2 ^ k % 256 = (x >>> k) &&& 255 := by
    rw [Nat.shiftRight_eq_div_pow, show 255 = 2 ^ 8 - 1 from rfl, Nat.and_two_pow_sub_one_eq_mod]
  rw [hmod, ← Nat.shiftLeft_eq, ← Nat.shiftLeft_eq]
  refine Nat.eq_of_testBit_eq fun i => ?_
  simp only [Nat.testBit_and, Nat.testBit_shiftLeft, Nat.testBit_shiftRight]
  by_cases h : k ≤ i
  · simp [h]
  · simp [h]

theorem byte_shiftLeft (b k j : ℕ) : (b * 2 ^ k) <<< j = 2 ^ (k + j) * b := by
  rw [Nat.shiftLeft_eq, pow_add]
  ring

theorem byte_shiftRight (b : ℕ) {k j : ℕ} (h : j ≤ k) : (b * 2 ^ k) >>> j = 2 ^ (k - j) * b := by
  rw [Nat.shiftRight_eq_div_pow, ← Nat.sub_add_cancel h, pow_add, ← mul_assoc,
    Nat.mul_div_cancel _ (by positivity), Nat.add_sub_cancel, mul_comm]

/-- The byte of a word at a multiple of eight bits. -/
def byteOf (x k : ℕ) : ℕ := x / 2 ^ k % 256

theorem byteOf_lt (x k : ℕ) : byteOf x k < 256 := Nat.mod_lt _ (by norm_num)

/-- The value of `swap16`, byte by byte. -/
theorem swap16_eq (x : ℕ) : swap16 x = 2 ^ 8 * byteOf x 0 + byteOf x 8 := by
  have h0 : x &&& 0xFF = byteOf x 0 * 2 ^ 0 := and_byte x 0
  have h1 : x >>> 8 &&& 0xFF = byteOf x 8 := by
    rw [Nat.shiftRight_eq_div_pow]
    exact Nat.and_two_pow_sub_one_eq_mod _ 8
  have hlt := byteOf_lt x 8
  rw [swap16, h0, h1, byte_shiftLeft, ← Nat.two_pow_add_eq_or_of_lt (i := 0 + 8) (by omega)]

/-- The value of `swap32`, byte by byte. -/
theorem swap32_eq (x : ℕ) : swap32 x =
    2 ^ 24 * byteOf x 0 + (2 ^ 16 * byteOf x 8 + (2 ^ 8 * byteOf x 16 + byteOf x 24)) := by
  have h0 : x &&& 0xFF = byteOf x 0 * 2 ^ 0 := and_byte x 0
  have h1 : x &&& 0x0000FF00 = byteOf x 8 * 2 ^ 8 := and_byte x 8
  have h2 : x &&& 0x00FF0000 = byteOf x 16 * 2 ^ 16 := and_byte x 16
  have h3 : x >>> 24 &&& 0xFF = byteOf x 24 := by
    rw [Nat.shiftRight_eq_div_pow]
    exact Nat.and_two_pow_sub_one_eq_mod _ 8
  have hb1 := byteOf_lt x 8
  have hb2 := byteOf_lt x 16
  have hb3 := byteOf_lt x 24
  rw [swap32, h0, h1, h2, h3, byte_shiftLeft, byte_shiftLeft, byte_shiftRight _ (by norm_num)]
  generalize byteOf x 0 = b0
  generalize byteOf x 8 = b1 at hb1 ⊢
  generalize byteOf x 16 = b2 at hb2 ⊢
  generalize byteOf x 24 = b3 at hb3 ⊢
  -- in the order of their places the bytes do not overlap
  calc 2 ^ 24 * b0 ||| b3 ||| 2 ^ 16 * b1 ||| 2 ^ 8 * b2
      = 2 ^ 24 * b0 ||| (2 ^ 16 * b1 ||| (2 ^ 8 * b2 ||| b3)) := by ac_rfl
    _ = 2 ^ 24 * b0 + (2 ^ 16 * b1 + (2 ^ 8 * b2 + b3)) := by
        rw [← Nat.two_pow_add_eq_or_of_lt (i := 8) (by omega),
          ← Nat.two_pow_add_eq_or_of_lt (i := 16) (by omega),
          ← Nat.two_pow_add_eq_or_of_lt (i := 24) (by omega)]

/-- The value of `swapl` on a 64-bit `long`, byte by byte. -/
theorem swapl_eq (x : ℕ) : swapl .lp64 x =
    2 ^ 56 * byteOf x 0 + (2 ^ 48 * byteOf x 8 + (2 ^ 40 * byteOf x 16 + (2 ^ 32 * byteOf x 24
      + (2 ^ 24 * byteOf x 32 + (2 ^ 16 * byteOf x 40 +
        (2 ^ 8 * byteOf x 48 + byteOf x 56)))))) := by
  have h0 : x &&& 0x00000000000000FF = byteOf x 0 * 2 ^ 0 := and_byte x 0
  have h1 : x &&& 0x000000000000FF00 = byteOf x 8 * 2 ^ 8 := and_byte x 8
  have h2 : x &&& 0x0000000000FF0000 = byteOf x 16 * 2 ^ 16 := and_byte x 16
  have h3 : x &&& 0x00000000FF000000 = byteOf x 24 * 2 ^ 24 := and_byte x 24
  have h4 : x &&& 0x000000FF00000000 = byteOf x 32 * 2 ^ 32 := and_byte x 32
  have h5 : x &&& 0x0000FF0000000000 = byteOf x 40 * 2 ^ 40 := and_byte x 40
  have h6 : x &&& 0x00FF000000000000 = byteOf x 48 * 2 ^ 48 := and_byte x 48
  have h7 : x &&& 0xFF00000000000000 = byteOf x 56 * 2 ^ 56 := and_byte x 56
  have hb1 := byteOf_lt x 8
  have hb2 := byteOf_lt x 16
  have hb3 := byteOf_lt x 24
  have hb4 := byteOf_lt x 32
  have hb5 := byteOf_lt x 40
  have hb6 := byteOf_lt x 48
  have hb7 := byteOf_lt x 56
  simp only [swapl, h0, h1, h2, h3, h4, h5, h6, h7, byte_shiftLeft,
    byte_shiftRight _ (show 56 ≤ 56 by norm_num), byte_shiftRight _ (show 40 ≤ 48 by norm_num),
    byte_shiftRight _ (show 24 ≤ 40 by norm_num), byte_shiftRight _ (show 8 ≤ 32 by norm_num)]
  generalize byteOf x 0 = b0
  generalize byteOf x 8 = b1 at hb1 ⊢
  generalize byteOf x 16 = b2 at hb2 ⊢
  generalize byteOf x 24 = b3 at hb3 ⊢
  generalize byteOf x 32 = b4 at hb4 ⊢
  generalize byteOf x 40 = b5 at hb5 ⊢
  generalize byteOf x 48 = b6 at hb6 ⊢
  generalize byteOf x 56 = b7 at hb7 ⊢
  calc 2 ^ 56 * b0 ||| 2 ^ 0 * b7 ||| 2 ^ 48 * b1 ||| 2 ^ 8 * b6 ||| 2 ^ 40 * b2 ||| 2 ^ 16 * b5
        ||| 2 ^ 32 * b3 ||| 2 ^ 24 * b4
      = 2 ^ 56 * b0 ||| (2 ^ 48 * b1 ||| (2 ^ 40 * b2 ||| (2 ^ 32 * b3 ||| (2 ^ 24 * b4
          ||| (2 ^ 16 * b5 ||| (2 ^ 8 * b6 ||| 2 ^ 0 * b7)))))) := by ac_rfl
    _ = _ := by
        rw [pow_zero, one_mul, ← Nat.two_pow_add_eq_or_of_lt (i := 8) (by omega),
          ← Nat.two_pow_add_eq_or_of_lt (i := 16) (by omega),
          ← Nat.two_pow_add_eq_or_of_lt (i := 24) (by omega),
          ← Nat.two_pow_add_eq_or_of_lt (i := 32) (by omega),
          ← Nat.two_pow_add_eq_or_of_lt (i := 40) (by omega),
          ← Nat.two_pow_add_eq_or_of_lt (i := 48) (by omega),
          ← Nat.two_pow_add_eq_or_of_lt (i := 56) (by omega)]

/-- **Swapping two bytes twice.** -/
theorem swap16_swap16 (x : ℕ) : swap16 (swap16 x) = x % 2 ^ 16 := by
  have hx : x % 2 ^ 16 = byteOf x 0 + 2 ^ 8 * byteOf x 8 := by
    simp only [byteOf, pow_zero, Nat.div_one]
    omega
  have h0 := byteOf_lt x 0
  have h1 := byteOf_lt x 8
  rw [hx, swap16_eq x]
  generalize byteOf x 0 = b0 at h0 ⊢
  generalize byteOf x 8 = b1 at h1 ⊢
  rw [swap16_eq, byteOf, byteOf]
  omega

/-- **What `N` reads out of the bytes that it wrote.** -/
theorem swapl_swap32 (L : LongSize) (x : ℕ) :
    swapl L (swap32 x * 256 ^ (L.bytes - 4)) = x % 2 ^ 32 := by
  have hx : x % 2 ^ 32
      = byteOf x 0 + 2 ^ 8 * byteOf x 8 + 2 ^ 16 * byteOf x 16 + 2 ^ 24 * byteOf x 24 := by
    simp only [byteOf, pow_zero, Nat.div_one]
    omega
  have h0 := byteOf_lt x 0
  have h1 := byteOf_lt x 8
  have h2 := byteOf_lt x 16
  have h3 := byteOf_lt x 24
  rw [hx, swap32_eq x]
  generalize byteOf x 0 = b0 at h0 ⊢
  generalize byteOf x 8 = b1 at h1 ⊢
  generalize byteOf x 16 = b2 at h2 ⊢
  generalize byteOf x 24 = b3 at h3 ⊢
  generalize hw : 2 ^ 24 * b0 + (2 ^ 16 * b1 + (2 ^ 8 * b2 + b3)) = w
  have w0 : w % 256 = b3 := by omega
  have w1 : w / 2 ^ 8 % 256 = b2 := by omega
  have w2 : w / 2 ^ 16 % 256 = b1 := by omega
  have w3 : w / 2 ^ 24 % 256 = b0 := by omega
  cases L with
  | ilp32 =>
      rw [show LongSize.ilp32.bytes - 4 = 0 from rfl, pow_zero, mul_one, swapl, swap32_eq]
      simp only [byteOf, pow_zero, Nat.div_one, w0, w1, w2, w3]
      ring
  | lp64 =>
      -- the four bytes are the upper half of the word
      have hlow : ∀ k, k ≤ 24 → byteOf (w * 256 ^ 4) k = 0 := by
        intro k hk
        have hsplit : 256 ^ 4 = 256 * 2 ^ (24 - k) * 2 ^ k := by
          rw [mul_assoc, ← pow_add, Nat.sub_add_cancel hk]
          norm_num
        rw [byteOf, hsplit, ← mul_assoc, Nat.mul_div_cancel _ (by positivity), ← mul_assoc,
          mul_comm w, mul_assoc, Nat.mul_mod_right]
      have hhigh : ∀ k, byteOf (w * 256 ^ 4) (32 + k) = w / 2 ^ k % 256 := by
        intro k
        rw [byteOf, pow_add, ← Nat.div_div_eq_div_mul, show 256 ^ 4 = 2 ^ 32 by norm_num,
          Nat.mul_div_cancel _ (by positivity)]
      rw [show LongSize.lp64.bytes - 4 = 4 from rfl, swapl_eq, hlow 0 (by norm_num),
        hlow 8 (by norm_num), hlow 16 (by norm_num), hlow 24 (by norm_num), hhigh 0, hhigh 8,
        hhigh 16, hhigh 24, pow_zero, Nat.div_one, w0, w1, w2, w3]
      ring

/-- **`EXTEND32` is sign extension.** -/
theorem extend32_eq {x : ℕ} (hx : x < 2 ^ 32) :
    LongSize.lp64.toLong (extend32 x) = (x : ℤ).bmod (2 ^ 32) := by
  rcases lt_or_ge x (2 ^ 31) with h | h
  · have hval : extend32 x = x := by
      have hsub : (2 ^ 31 - 1 + 2 ^ 64 - x) % 2 ^ 64 = 2 ^ 31 - (x + 1) := by omega
      rw [extend32, hsub]
      refine Nat.eq_of_testBit_eq fun i => ?_
      rw [Nat.testBit_xor, Nat.testBit_two_pow_sub_succ h, Nat.testBit_two_pow_sub_one]
      by_cases hi : i < 31
      · simp [hi]
      · have : x.testBit i = false := Nat.testBit_lt_two_pow (h.trans_le
          (Nat.pow_le_pow_right (by norm_num) (by omega)))
        simp [hi, this]
    have hbits : LongSize.lp64.bits = 64 := rfl
    rw [hval, LongSize.toLong, hbits, Int.bmod_eq_of_le (by omega) (by omega),
      Int.bmod_eq_of_le (by omega) (by omega)]
  · have hval : extend32 x = 2 ^ 64 - (2 ^ 32 - x) := by
      have hk : x - 2 ^ 31 < 2 ^ 31 := by omega
      have hsub : (2 ^ 31 - 1 + 2 ^ 64 - x) % 2 ^ 64 = 2 ^ 64 - (x - 2 ^ 31 + 1) := by omega
      have hres : 2 ^ 64 - (2 ^ 32 - x) = 2 ^ 64 - (2 ^ 31 - (x - 2 ^ 31 + 1) + 1) := by omega
      rw [extend32, hsub, hres]
      refine Nat.eq_of_testBit_eq fun i => ?_
      have e1 := Nat.testBit_two_pow_sub_succ (x := x - 2 ^ 31) (n := 64) (by omega) i
      have e2 := Nat.testBit_two_pow_sub_succ (x := 2 ^ 31 - (x - 2 ^ 31 + 1)) (n := 64) (by omega)
        i
      rw [Nat.testBit_xor, e1, e2, Nat.testBit_two_pow_sub_succ hk, Nat.testBit_two_pow_sub_one]
      by_cases hi : i < 31
      · have hi' : i < 64 := by omega
        simp [hi, hi']
      · have : (x - 2 ^ 31).testBit i = false := Nat.testBit_lt_two_pow (hk.trans_le
          (Nat.pow_le_pow_right (by norm_num) (by omega)))
        rw [this]
        simp [hi]
    have hcast : ((extend32 x : ℕ) : ℤ) = (x - 2 ^ 32) + 2 ^ 64 := by
      rw [hval]
      omega
    rw [hcast, LongSize.toLong]
    have hbits : ((2 ^ LongSize.lp64.bits : ℕ) : ℤ) = 2 ^ 64 := rfl
    rw [← hbits, Int.add_bmod_right, Int.bmod_eq_of_le
      (by simp [LongSize.bits, LongSize.bytes]; omega)
      (by simp [LongSize.bits, LongSize.bytes]; omega)]
    have h32 : (x : ℤ) - 2 ^ 32 = x - (2 ^ 32 : ℕ) := rfl
    rw [h32, ← Int.sub_bmod_right x (2 ^ 32), Int.bmod_eq_of_le (by push_cast; omega)
      (by push_cast; omega)]

/-! ## Words -/

/-- Up to two digits are folded without loss. -/
theorem foldDigits_eq (ds : List BDigit) {n : ℕ} (hn : n ≤ 2) :
    foldDigits ds n = Radix.val bigrad (digitAt ds) n := by
  have hd := digitAt_nonneg ds
  have hd' := digitAt_lt ds
  have hone : ∀ i, toDbl (bigup 0 + digitAt ds i) = digitAt ds i := by
    intro i
    simpa using toDbl_bigup_add le_rfl bigrad_pos (hd i) (hd' i)
  obtain rfl | rfl | rfl : n = 0 ∨ n = 1 ∨ n = 2 := by omega
  · simp [foldDigits]
  · simp only [foldDigits, Loop.downFrom, Radix.val_one, hone]
  · simp only [foldDigits, Loop.downFrom, hone, toDbl_bigup_add (hd 1) (hd' 1) (hd 0) (hd' 0)]
    rw [Radix.val_succ, Radix.val_one, pow_one]

/-- The lowest digits of a number are its remainder. -/
theorem foldDigits_emod (ds : List BDigit) {n : ℕ} (hn : n ≤ 2) :
    foldDigits ds (min ds.length n) % bigrad ^ n = magnitude ds % bigrad ^ n := by
  rw [foldDigits_eq ds (by omega), magnitude]
  rcases le_total ds.length n with h | h
  · rw [min_eq_left h]
  · rw [min_eq_right h, ← Nat.add_sub_cancel' h, Radix.val_add, Int.add_mul_emod_self_left]

theorem two_pow_bits_eq (L : LongSize) : (2 : ℤ) ^ L.bits = bigrad ^ L.digsPerLong := by
  cases L <;> norm_num [LongSize.bits, LongSize.bytes, LongSize.digsPerLong, bigrad]

theorem digsPerLong_le (L : LongSize) : L.digsPerLong ≤ 2 := by cases L <;> decide

/-- A sign does not matter for a reduction. -/
theorem signed_emod {a b m : ℤ} (h : a % m = b % m) (s : Bool) :
    (if s then a else -a) % m = (if s then b else -b) % m := by
  cases s with
  | true => exact h
  | false => exact Int.ModEq.neg h

/-- **`num2i32` is the Integer modulo the size of a word.** -/
theorem num2i32_eq (x : Inum L) : num2i32 x = x.toInt % 2 ^ L.bits := by
  cases x with
  | fixnum n => rfl
  | bignum z =>
      have h := foldDigits_emod z.digits (digsPerLong_le L)
      show (if z.sign then _ else -_) % (2 : ℤ) ^ L.bits = z.toInt % 2 ^ L.bits
      rw [two_pow_bits_eq, Bignum.toInt]
      exact signed_emod h z.sign

/-- **`rb_quad_pack` is the Integer modulo 2^64.** -/
theorem rbQuadPack_eq (x : Inum L) : rbQuadPack x = x.toInt % 2 ^ 64 := by
  cases x with
  | fixnum n => rfl
  | bignum z =>
      have h := foldDigits_emod z.digits (le_refl 2)
      have hrad : (2 : ℤ) ^ 64 = bigrad ^ 2 := by norm_num [bigrad]
      show (if z.sign then _ else -_) % (2 : ℤ) ^ 64 = z.toInt % 2 ^ 64
      rw [hrad, Bignum.toInt]
      exact signed_emod h z.sign

/-! ## Integers out of words -/

/-- `rb_uint2inum` keeps the value. -/
theorem rbUint2inum_is {n : ℤ} (h0 : 0 ≤ n) (h1 : n < 2 ^ L.bits) : (rbUint2inum L n).Is n := by
  rw [rbUint2inum]
  split_ifs with h
  · exact ⟨trivial, rfl⟩
  · have hval := toInt_rbUint2big h0 h1
    have hne : n ≠ 0 := by
      intro hn
      exact h ⟨hn ▸ L.fixnumMax_nonneg, h0⟩
    have htrim := trimmed_rbUint2big L n
    exact ⟨⟨by rw [hval]; omega, htrim.pos, htrim.top_ne_zero (by rw [hval]; exact hne)⟩, hval⟩

/-- A `short`, signed or not, is a fixnum. -/
theorem long2fix_is {v : ℤ} (h0 : -2 ^ 15 ≤ v) (h1 : v < 2 ^ 16) :
    (Inum.fixnum (long2fix L v)).Is v := by
  refine ⟨trivial, ?_⟩
  have hbig : (2 : ℤ) ^ 17 ≤ 2 ^ (L.bits - 1) := by cases L <;> decide
  show v.bmod (2 ^ (L.bits - 1)) = v
  exact Int.bmod_eq_of_le (by push_cast; omega) (by push_cast; omega)

/-- The Integer for a quad. -/
theorem quad2inum_is {v : ℤ} (h0 : -2 ^ 63 ≤ v) (h1 : v < 2 ^ 64) : (quad2inum L v).Is v := by
  rw [quad2inum]
  by_cases h : L.fixnumMin ≤ v ∧ v ≤ L.fixnumMax
  · rw [dif_pos h]
    exact ⟨trivial, rfl⟩
  · rw [dif_neg h]
    have hne : v ≠ 0 := by
      rintro rfl
      exact h ⟨L.fixnumMin_nonpos, L.fixnumMax_nonneg⟩
    have hdbl : (if v < 0 then toDbl (-v) else v) = |v| := by
      unfold toDbl
      split_ifs with hneg
      · rw [abs_of_neg hneg]
        omega
      · rw [abs_of_nonneg (by omega)]
    have habs : 0 < |v| ∧ |v| < 2 ^ 64 := by
      refine ⟨abs_pos.mpr hne, ?_⟩
      rw [abs_lt]
      omega
    have hmag := (rbUll2big_spec habs.1 habs.2).1
    rw [hdbl]
    refine bignorm_is ?_
    show (if decide (0 ≤ v) = true then (rbUll2big |v|).mag else -(rbUll2big |v|).mag) = v
    rw [hmag]
    by_cases hpos : 0 ≤ v
    · rw [if_pos (by simpa using hpos), abs_of_nonneg hpos]
    · rw [if_neg (by simpa using hpos), abs_of_neg (by omega), neg_neg]

/-! ## The two sides -/

/-- The directives that read signed numbers. -/
def NumberType.signed : NumberType → Bool
  | .c | .s | .i | .l | .q => true
  | _ => false

/-- An Integer modulo 2^w, in the range of the directive; `w` is its width in bits. -/
def NumberType.reduce (L : LongSize) (t : NumberType) (v : ℤ) : ℤ :=
  let m := 2 ^ (8 * t.size L false)
  if t.signed then v.bmod m else v % (m : ℕ)

theorem length_encode {t : NumberType} (ht : t.isInteger = true) (x : Inum L) :
    (t.encode false x).length = t.size L false := by
  cases t <;> first | exact length_leBytes _ _ | cases ht

/-- Bytes of `num2i32` stand for the Integer modulo a smaller power of two. -/
theorem leNat_num2i32 (x : Inum L) {w : ℕ} (hw : 8 * w ≤ L.bits) :
    (leNat (leBytes w (num2i32 x)) : ℤ) = x.toInt % (2 ^ (8 * w) : ℕ) := by
  have hpow : (256 : ℤ) ^ w = 2 ^ (8 * w) := by
    rw [pow_mul]
    norm_num
  rw [leNat_leBytes, num2i32_eq, hpow]
  push_cast
  exact Int.emod_emod_of_dvd _ (pow_dvd_pow 2 hw)

/-- The range of a signed reduction. -/
theorem bmod_range (v : ℤ) (k : ℕ) :
    -2 ^ k ≤ v.bmod (2 ^ (k + 1)) ∧ v.bmod (2 ^ (k + 1)) < 2 ^ k := by
  have h0 := Int.le_bmod (x := v) (m := 2 ^ (k + 1)) (by positivity)
  have h1 := Int.bmod_lt (x := v) (m := 2 ^ (k + 1)) (by positivity)
  have hpow : ((2 ^ (k + 1) : ℕ) : ℤ) = 2 * 2 ^ k := by
    push_cast
    ring
  rw [hpow] at h0 h1
  omega

theorem reduce_of_signed {t : NumberType} {w : ℕ} (h : t.signed = true) (hw : t.size L false = w)
    (v : ℤ) : t.reduce L v = v.bmod (2 ^ (8 * w)) := by
  simp only [NumberType.reduce, h, hw, if_true]

theorem reduce_of_unsigned {t : NumberType} {w : ℕ} (h : t.signed = false)
    (hw : t.size L false = w) (v : ℤ) : t.reduce L v = v % (2 ^ (8 * w) : ℕ) := by
  simp only [NumberType.reduce, h, hw, Bool.false_eq_true, if_false]

/-- The values of the words that are not swapped. -/
theorem leNat_words (x : Inum L) :
    (leNat (leBytes 1 (num2i32 x)) : ℤ) = x.toInt % (2 ^ 8 : ℕ) ∧
      (leNat (leBytes 2 (num2i32 x)) : ℤ) = x.toInt % (2 ^ 16 : ℕ) ∧
      (leNat (leBytes 4 (num2i32 x)) : ℤ) = x.toInt % (2 ^ 32 : ℕ) ∧
      (leNat (leBytes 8 (rbQuadPack x)) : ℤ) = x.toInt % (2 ^ 64 : ℕ) := by
  refine ⟨leNat_num2i32 x ?_, leNat_num2i32 x ?_, leNat_num2i32 x ?_, ?_⟩
  · cases L <;> decide
  · cases L <;> decide
  · cases L <;> decide
  · rw [leNat_leBytes, rbQuadPack_eq]
    push_cast
    norm_num

/-- A signed reduction to 32 bits is a `long`, and an unsigned one a word. -/
theorem word32_range (L : LongSize) (v : ℤ) :
    (-2 ^ (L.bits - 1) ≤ v.bmod (2 ^ 32) ∧ v.bmod (2 ^ 32) < 2 ^ (L.bits - 1)) ∧
      0 ≤ v % (2 ^ 32 : ℕ) ∧ v % (2 ^ 32 : ℕ) < 2 ^ L.bits := by
  have hlong : (2 : ℤ) ^ 31 ≤ 2 ^ (L.bits - 1) := by cases L <;> decide
  have hword : (2 : ℤ) ^ 32 ≤ 2 ^ L.bits := by cases L <;> decide
  have hi : -2 ^ 31 ≤ v.bmod (2 ^ 32) ∧ v.bmod (2 ^ 32) < 2 ^ 31 := bmod_range v 31
  refine ⟨⟨by omega, by omega⟩, by omega, by omega⟩

theorem decode_encode_l (x : Inum L) : ∃ r : Inum L,
    NumberType.decode L false (NumberType.encode false x .l) .l = .integer r ∧
      r.Is (x.toInt.bmod (2 ^ 32)) := by
  obtain ⟨-, -, h4, -⟩ := leNat_words x
  obtain ⟨⟨h0, h1⟩, -⟩ := word32_range L x.toInt
  have hlong : (long2num L (x.toInt.bmod (2 ^ 32))).Is (x.toInt.bmod (2 ^ 32)) := long2num_is h0 h1
  cases L with
  | ilp32 =>
      have hval : LongSize.ilp32.toLong (leNat (leBytes 4 (num2i32 x)))
        = x.toInt.bmod (2 ^ 32) := by
        rw [h4]
        exact Int.emod_bmod _ _
      refine ⟨long2num .ilp32 (LongSize.ilp32.toLong (leNat (leBytes 4 (num2i32 x)))), rfl, ?_⟩
      rw [hval]
      exact hlong
  | lp64 =>
      have hval : LongSize.lp64.toLong (extend32 (leNat (leBytes 4 (num2i32 x))))
          = x.toInt.bmod (2 ^ 32) := by
        rw [extend32_eq (by omega), h4]
        exact Int.emod_bmod _ _
      refine ⟨long2num .lp64 (LongSize.lp64.toLong (extend32 (leNat (leBytes 4 (num2i32 x))))),
        rfl, ?_⟩
      rw [hval]
      exact hlong

/-- The bytes of a swapped short. -/
theorem swap16_leNat (x : Inum L) :
    (swap16 (leNat (leBytes 2 (swap16 (num2i32 x % 2 ^ 16).toNat))) : ℤ)
      = x.toInt % (2 ^ 16 : ℕ) := by
  obtain ⟨-, h2, -, -⟩ := leNat_words x
  have hmod := leNat_leBytes 2 (num2i32 x)
  rw [h2] at hmod
  generalize num2i32 x = n at hmod ⊢
  have hlt : swap16 (n % 2 ^ 16).toNat < 2 ^ 16 := by
    have hb0 := byteOf_lt (n % 2 ^ 16).toNat 0
    have hb1 := byteOf_lt (n % 2 ^ 16).toNat 8
    rw [swap16_eq]
    omega
  have hnat : leNat (leBytes 2 (swap16 (n % 2 ^ 16).toNat)) = swap16 (n % 2 ^ 16).toNat := by
    have := leNat_leBytes 2 (swap16 (n % 2 ^ 16).toNat)
    omega
  rw [hnat, swap16_swap16, hmod]
  omega

/-- The bytes of a swapped word. -/
theorem swapl_leNat (x : Inum L) :
    (swapl L (leNat (leBytes 4 (natintHtonl (num2i32 x))) * 256 ^ (L.bytes - 4)) : ℤ)
      = x.toInt % (2 ^ 32 : ℕ) := by
  have hpos : 0 ≤ num2i32 x := by
    rw [num2i32_eq]
    exact Int.emod_nonneg _ (by positivity)
  obtain ⟨-, -, h4, -⟩ := leNat_words x
  have hmod := leNat_leBytes 4 (num2i32 x)
  rw [h4] at hmod
  generalize num2i32 x = n at hmod hpos ⊢
  have hlt : swap32 n.toNat < 2 ^ 32 := by
    have hb0 := byteOf_lt n.toNat 0
    have hb1 := byteOf_lt n.toNat 8
    have hb2 := byteOf_lt n.toNat 16
    have hb3 := byteOf_lt n.toNat 24
    rw [swap32_eq]
    omega
  have hnat : leNat (leBytes 4 (natintHtonl n)) = swap32 n.toNat := by
    have := leNat_leBytes 4 (natintHtonl n)
    rw [natintHtonl] at this ⊢
    omega
  rw [hnat, swapl_swap32, hmod]
  omega

/-- **What `pack` writes for an Integer `unpack` reads as the Integer reduced to the width of the
directive.** -/
theorem decode_encode {t : NumberType} (ht : t.isInteger = true) (x : Inum L) :
    ∃ r : Inum L, t.decode L false (t.encode false x) = .integer r ∧ r.Is (t.reduce L x.toInt) := by
  obtain ⟨h1, h2, h4, h8⟩ := leNat_words x
  obtain ⟨⟨hi0, hi1⟩, hu0, hu1⟩ := word32_range L x.toInt
  have hword : x.toInt % (2 ^ 16 : ℕ) < 2 ^ L.bits := by
    have : (2 : ℤ) ^ 16 ≤ 2 ^ L.bits := by cases L <;> decide
    omega
  cases t with
  | c =>
      have hc : -2 ^ 7 ≤ x.toInt.bmod (2 ^ 8) ∧ x.toInt.bmod (2 ^ 8) < 2 ^ 7 := bmod_range _ 7
      refine ⟨_, rfl, ?_⟩
      rw [reduce_of_signed (w := 1) rfl rfl, NumberType.encode, h1, Int.emod_bmod]
      exact long2fix_is (by omega) (by omega)
  | C =>
      refine ⟨_, rfl, ?_⟩
      rw [reduce_of_unsigned (w := 1) rfl rfl, NumberType.encode, h1]
      exact long2fix_is (by omega) (by omega)
  | s =>
      have hs : -2 ^ 15 ≤ x.toInt.bmod (2 ^ 16) ∧ x.toInt.bmod (2 ^ 16) < 2 ^ 15 := bmod_range _ 15
      refine ⟨_, rfl, ?_⟩
      rw [reduce_of_signed (w := 2) rfl rfl, NumberType.encode, h2, Int.emod_bmod]
      exact long2fix_is (by omega) (by omega)
  | S =>
      refine ⟨_, rfl, ?_⟩
      rw [reduce_of_unsigned (w := 2) rfl rfl, NumberType.encode, h2]
      exact long2fix_is (by omega) (by omega)
  | i =>
      refine ⟨_, rfl, ?_⟩
      rw [reduce_of_signed (w := 4) rfl rfl, NumberType.encode, h4, Int.emod_bmod]
      exact long2num_is hi0 hi1
  | I =>
      refine ⟨_, rfl, ?_⟩
      rw [reduce_of_unsigned (w := 4) rfl rfl, NumberType.encode, h4]
      exact rbUint2inum_is hu0 hu1
  | l =>
      obtain ⟨r, hr, his⟩ := decode_encode_l x
      rw [reduce_of_signed (w := 4) rfl rfl]
      exact ⟨r, hr, his⟩
  | L =>
      refine ⟨_, rfl, ?_⟩
      rw [reduce_of_unsigned (w := 4) rfl rfl, NumberType.encode, if_neg (by decide), h4]
      exact rbUint2inum_is hu0 hu1
  | q =>
      have hq : -2 ^ 63 ≤ x.toInt.bmod (2 ^ 64) ∧ x.toInt.bmod (2 ^ 64) < 2 ^ 63 := bmod_range _ 63
      refine ⟨_, rfl, ?_⟩
      rw [reduce_of_signed (w := 8) rfl rfl, NumberType.encode, rbQuadUnpack, if_pos rfl,
        toDblSigned, h8, Int.emod_bmod]
      exact quad2inum_is (by omega) (by omega)
  | Q =>
      refine ⟨_, rfl, ?_⟩
      rw [reduce_of_unsigned (w := 8) rfl rfl, NumberType.encode, rbQuadUnpack,
        if_neg (by decide), h8]
      exact quad2inum_is (by omega) (by omega)
  | n =>
      refine ⟨_, rfl, ?_⟩
      rw [reduce_of_unsigned (w := 2) rfl rfl, NumberType.encode, swap16_leNat]
      exact rbUint2inum_is (by omega) hword
  | N =>
      refine ⟨_, rfl, ?_⟩
      rw [reduce_of_unsigned (w := 4) rfl rfl, NumberType.encode, swapl_leNat]
      exact rbUint2inum_is hu0 hu1
  | v =>
      refine ⟨_, rfl, ?_⟩
      rw [reduce_of_unsigned (w := 2) rfl rfl, NumberType.encode, h2]
      exact rbUint2inum_is (by omega) hword
  | V =>
      refine ⟨_, rfl, ?_⟩
      rw [reduce_of_unsigned (w := 4) rfl rfl, NumberType.encode, h4]
      exact rbUint2inum_is hu0 hu1
  | _ => cases ht

end MacRuby.Pack
