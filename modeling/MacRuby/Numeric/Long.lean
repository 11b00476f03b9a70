import MacRuby.Numeric.Integer

/-!
# The C type `long`

A `long` as an integer that carries its bounds, and signed arithmetic on it.  A signed result
outside of the bounds is undefined in C; `LongSize.signed` shows it as `none`, and
`LongSize.toLong` is the word an implementation that wraps would keep.

## Main definitions

* `LongSize.longMin`, `LongSize.longMax` — `LONG_MIN` and `LONG_MAX`.
* `Long` — a value of the type.
* `LongSize.signed` — the result of a signed operation, unless it overflows.
* `toCInt` — the conversion to `int`.
* `BigObject` — a bignum as an object is one.
-/

namespace MacRuby

namespace LongSize

/-- `LONG_MIN`. -/
def longMin (L : LongSize) : ℤ := -2 ^ (L.bits - 1)

/-- `LONG_MAX`. -/
def longMax (L : LongSize) : ℤ := 2 ^ (L.bits - 1) - 1

/-- The result of a signed operation whose exact result is `n`; none when it overflows. -/
def signed (L : LongSize) (n : ℤ) : Option ℤ :=
  if L.longMin ≤ n ∧ n ≤ L.longMax then some n else none

variable (L : LongSize)

theorem longMax_pos : 0 < L.longMax := by
  cases L <;> decide

theorem longMin_eq : L.longMin = -L.longMax - 1 := by
  unfold longMin longMax
  ring

variable {L} {n : ℤ}

/-- **An operation whose exact result fits is defined**, and gives that result. -/
theorem signed_of_mem (hmin : L.longMin ≤ n) (hmax : n ≤ L.longMax) : L.signed n = some n :=
  if_pos ⟨hmin, hmax⟩

theorem signed_eq_none_iff : L.signed n = none ↔ n < L.longMin ∨ L.longMax < n := by
  unfold signed
  split <;> rename_i h
  · simp only [reduceCtorEq, false_iff]
    omega
  · simp only [true_iff]
    omega

/-- A word keeps a result that fits. -/
theorem toLong_of_mem (hmin : L.longMin ≤ n) (hmax : n ≤ L.longMax) : L.toLong n = n :=
  toLong_eq hmin (Int.lt_of_le_sub_one hmax)

/-- What a word keeps is a `long`. -/
theorem toLong_le (n : ℤ) : L.toLong n ≤ L.longMax := by
  have hlt := Int.bmod_lt (x := n) (m := 2 ^ L.bits) (by positivity)
  apply Int.le_sub_one_of_lt
  cases L <;> exact hlt

end LongSize

/-- A value of type `long`. -/
@[ext] structure Long (L : LongSize) where
  val : ℤ
  min_le : L.longMin ≤ val
  le_max : val ≤ L.longMax
  deriving DecidableEq

/-- The conversion of an integer to `int`. -/
def toCInt (n : ℤ) : ℤ := n.bmod (2 ^ 32)

/-- A bignum as an object is one: normalised, and in memory. -/
structure BigObject (L : LongSize) where
  big : Bignum
  canonical : (Inum.bignum big : Inum L).Canonical
  fits : (big.len : ℤ) * 4 ≤ L.longMax

end MacRuby
