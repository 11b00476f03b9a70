import MacRuby.Bignum.Basic

/-!
# Logarithms of Words

`floor_log2` and `ceil_log2`, which `big2str_karatsuba` takes its exponents from. The highest bit of
a word is spread over all bits below it, and these are counted.

## Main definitions

* `ones`, `spreadBits` — counting bits and spreading the highest one.
* `floorLog2`, `ceilLog2` — the logarithms.

## Main results

* `spreadBits_eq` — all bits up to the highest one are set.
* `floorLog2_eq` — the logarithm, rounded down.
* `ceilLog2_spec` — the exponent of the least power of two that is not below the word.
-/

namespace MacRuby

/-! ## The code -/

section Code

variable (L : LongSize)

/-- `ones(x)`, the number of bits that are set. -/
def ones (x : BitVec L.bits) : ℕ :=
  let mask55 : BitVec L.bits := BitVec.ofNat _ 0x5555555555555555
  let mask33 : BitVec L.bits := BitVec.ofNat _ 0x3333333333333333
  let mask0f : BitVec L.bits := BitVec.ofNat _ 0x0f0f0f0f0f0f0f0f
  let x := x - ((x >>> 1) &&& mask55)
  let x := ((x >>> 2) &&& mask33) + (x &&& mask33)
  let x := ((x >>> 4) + x) &&& mask0f
  let x := x + (x >>> 8)
  let x := x + (x >>> 16)
  let x := if L = .lp64 then x + (x >>> 32) else x
  (x &&& BitVec.ofNat _ 0x7f).toNat

/-- `x |= x >> n` for the powers of two below the bits of a word. -/
def spreadBits (x : BitVec L.bits) : BitVec L.bits :=
  let x := x ||| x >>> 1
  let x := x ||| x >>> 2
  let x := x ||| x >>> 4
  let x := x ||| x >>> 8
  let x := x ||| x >>> 16
  if L = .lp64 then x ||| x >>> 32 else x

/-- `floor_log2(x)`. -/
def floorLog2 (x : BitVec L.bits) : ℤ := ones L (spreadBits L x) - 1

/-- `ceil_log2(x)`. -/
def ceilLog2 (x : BitVec L.bits) : ℤ := floorLog2 L x + if x &&& (x - 1) = 0 then 0 else 1

end Code

/-! ## Bits -/

section Bits

variable {w k s : ℕ} {x : BitVec w}

/-- The highest bit of a word is bit `k`, and so are the `s` bits from it downwards. -/
structure Spread (x : BitVec w) (k s : ℕ) : Prop where
  lt : x.toNat < 2 ^ (k + 1)
  bit : ∀ j, j ≤ k → k < j + s → x.getLsbD j = true

/-- Bits that are shifted down by the number of those that are set double them. -/
theorem Spread.step (h : Spread x k s) : Spread (x ||| x >>> s) k (2 * s) := by
  refine ⟨?_, fun j hj hlt => ?_⟩
  · rw [BitVec.toNat_or, BitVec.toNat_ushiftRight]
    refine Nat.or_lt_two_pow h.lt (lt_of_le_of_lt ?_ h.lt)
    rw [Nat.shiftRight_eq_div_pow]
    exact Nat.div_le_self _ _
  · rw [BitVec.getLsbD_or, BitVec.getLsbD_ushiftRight, Bool.or_eq_true]
    by_cases hhigh : k < j + s
    · exact .inl (h.bit j hj hhigh)
    · exact .inr (h.bit (s + j) (by omega) (by omega))

/-- The highest bit is set. -/
theorem spread_log2 (hx : x ≠ 0) : Spread x (Nat.log2 x.toNat) 1 := by
  have hne : x.toNat ≠ 0 := fun h => hx (BitVec.eq_of_toNat_eq h)
  refine ⟨(Nat.log2_lt hne).mp (Nat.lt_succ_self _), fun j hj hlt => ?_⟩
  obtain rfl : j = Nat.log2 x.toNat := by omega
  exact Nat.testBit_log2 hne

/-- If all bits up to the highest one are set, the word is one below a power of two. -/
theorem Spread.toNat_eq (h : Spread x k s) (hs : k < s) : x.toNat = 2 ^ (k + 1) - 1 := by
  refine Nat.eq_of_testBit_eq fun j => ?_
  rw [Nat.testBit_two_pow_sub_one]
  by_cases hj : j < k + 1
  · rw [decide_eq_true hj]
    exact h.bit j (by omega) (by omega)
  · rw [decide_eq_false hj]
    exact Nat.testBit_lt_two_pow (h.lt.trans_le (Nat.pow_le_pow_right (by norm_num) (by omega)))

end Bits

/-! ## Logarithms -/

section Logarithms

variable {L : LongSize} {x : BitVec L.bits}

theorem log2_lt_bits (hx : x ≠ 0) : Nat.log2 x.toNat < L.bits := by
  have hne : x.toNat ≠ 0 := fun h => hx (BitVec.eq_of_toNat_eq h)
  exact (Nat.log2_lt hne).mpr x.isLt

/-- **All bits up to the highest one are set.** -/
theorem spreadBits_eq (hx : x ≠ 0) : (spreadBits L x).toNat = 2 ^ (Nat.log2 x.toNat + 1) - 1 := by
  have hlog := log2_lt_bits hx
  have h := (spread_log2 hx).step.step.step.step.step
  rw [spreadBits]
  cases L with
  | ilp32 => exact h.toNat_eq hlog
  | lp64 => exact h.step.toNat_eq hlog

/-- The bits of a word with no gaps are counted. -/
theorem ones_two_pow_sub_one (L : LongSize) {k : ℕ} (hk : k < L.bits) :
    ones L (BitVec.ofNat L.bits (2 ^ (k + 1) - 1)) = k + 1 := by
  cases L with
  | ilp32 =>
      have hall : ∀ k : Fin 32, ones .ilp32 (BitVec.ofNat 32 (2 ^ (k.val + 1) - 1))
        = k + 1 := by decide
      exact hall ⟨k, hk⟩
  | lp64 =>
      have hall : ∀ k : Fin 64, ones .lp64 (BitVec.ofNat 64 (2 ^ (k.val + 1) - 1))
        = k + 1 := by decide
      exact hall ⟨k, hk⟩

/-- **The logarithm is rounded down.** -/
theorem floorLog2_eq (hx : x ≠ 0) : floorLog2 L x = Nat.log2 x.toNat := by
  have hspread : spreadBits L x = BitVec.ofNat L.bits (2 ^ (Nat.log2 x.toNat + 1) - 1) := by
    rw [← spreadBits_eq hx, BitVec.ofNat_toNat, BitVec.setWidth_eq]
  rw [floorLog2, hspread, ones_two_pow_sub_one L (log2_lt_bits hx)]
  push_cast
  ring

/-- **The exponent of the least power of two that is not below the word.** -/
theorem ceilLog2_spec (hx : x ≠ 0) :
    ∃ m : ℕ, ceilLog2 L x = m ∧ x.toNat ≤ 2 ^ m ∧ 2 ^ m < 2 * x.toNat := by
  have hne : x.toNat ≠ 0 := fun h => hx (BitVec.eq_of_toNat_eq h)
  have hle : 2 ^ Nat.log2 x.toNat ≤ x.toNat := Nat.log2_self_le hne
  have hlt : x.toNat < 2 ^ (Nat.log2 x.toNat + 1) := Nat.lt_log2_self
  have hand : x &&& (x - 1) = 0 ↔ x.toNat.isPowerOfTwo := by
    have hsub : (x - 1).toNat = x.toNat - 1 := by
      have hone : (1 : BitVec L.bits).toNat = 1 := by cases L <;> decide
      rw [BitVec.toNat_sub_of_le, hone]
      rw [BitVec.le_def, hone]
      omega
    rw [← Nat.and_sub_one_eq_zero_iff_isPowerOfTwo hne, ← hsub, ← BitVec.toNat_and]
    exact ⟨fun h => by rw [h]; rfl, fun h => BitVec.eq_of_toNat_eq h⟩
  rw [ceilLog2, floorLog2_eq hx]
  by_cases hpow : x &&& (x - 1) = 0
  · obtain ⟨k, hk⟩ := hand.mp hpow
    rw [if_pos hpow, hk, Nat.log2_two_pow]
    refine ⟨k, by ring, le_rfl, ?_⟩
    have : 0 < 2 ^ k := Nat.two_pow_pos k
    omega
  · rw [if_neg hpow]
    refine ⟨Nat.log2 x.toNat + 1, by push_cast; ring, hlt.le, ?_⟩
    have hstrict : 2 ^ Nat.log2 x.toNat ≠ x.toNat := fun h => hpow (hand.mpr ⟨_, h.symm⟩)
    rw [pow_succ]
    omega

end Logarithms

end MacRuby
