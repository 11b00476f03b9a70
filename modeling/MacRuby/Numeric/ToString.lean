import MacRuby.Bignum.Division
import MacRuby.Bignum.Log2
import MacRuby.Lib.Numerals
import MacRuby.Numeric.Power

/-!
# Printing Bignums

`rb_big2str0`. A text is written from its end: `big2str_orig` divides by the fourth power of the
base and writes four digits at a time. A long text is split by `big2str_karatsuba` at a power of the
base whose exponent is a power of two; the powers are kept in a cache. The number of digits that a
text has room for is computed with a `double` and is a parameter here. A buffer is the list of the
bytes that have been written to it.

## Main definitions

* `powerCacheGetPower` — the powers, and the cache.
* `big2strOrig`, `big2strKaratsuba` — the two ways of writing digits.
* `rbBig2str0` — the function.
-/

namespace MacRuby

/-! ## Digits -/

/-- `ruby_digitmap[d]` -/
def rubyDigitmap (d : ℕ) : UInt8 := UInt8.ofNat (if d < 10 then 48 + d else 87 + d)

/-- The loop that writes `k` digits of `num` before the bytes of `out`, where there is room for `j`
bytes; the last digits of a number may stop at zero. -/
def putDigits (base : ℕ) (last : Bool) : ℕ → ℕ → ℕ → List UInt8 → ℕ × List UInt8
  | 0, j, _, out => (j, out)
  | k + 1, j, num, out =>
      let out := rubyDigitmap (num % base) :: out
      let num := num / base
      let j := j - 1
      if j = 0 then (j, out)
      else if last && num == 0 then (j, out)
      else putDigits base last k j num out

attribute [grind =] putDigits

theorem putDigits_le (base : ℕ) (last : Bool) (k j num : ℕ) (out : List UInt8) :
    (putDigits base last k j num out).1 ≤ j := by
  induction k generalizing j num out with
  | zero => exact le_rfl
  | succ k ih =>
      rw [putDigits]
      split_ifs
      · exact Nat.sub_le _ _
      · exact Nat.sub_le _ _
      · exact (ih ..).trans (Nat.sub_le _ _)

/-- A turn takes up room. -/
theorem putDigits_lt (base : ℕ) (last : Bool) (k : ℕ) {j : ℕ} (hj : j ≠ 0) (num : ℕ)
    (out : List UInt8) : (putDigits base last (k + 1) j num out).1 < j := by
  rw [putDigits]
  split_ifs
  · omega
  · omega
  · exact (putDigits_le ..).trans_lt (by omega)

/-- The loop of `big2str_orig` over the digits `ds` that are in use; `j` bytes are left. -/
def big2strLoop (base hbase : ℕ) (trim : Bool) (ds : List BDigit) (j : ℕ) (out : List UInt8) :
    List UInt8 :=
  if ds = [] ∨ j = 0 then out
  else
    let r := shortDivide (UInt32.ofNat hbase) ⟨true, ds⟩
    let ds := if trim ∧ r.2.getD (r.2.length - 1) 0 = 0 then r.2.dropLast else r.2
    let s := putDigits base (trim && ds.isEmpty) 4 j r.1.toNat out
    big2strLoop base hbase trim ds s.1 s.2
termination_by j
decreasing_by exact putDigits_lt _ _ _ (by tauto) _ _

/-- `big2str_orig(x, base, ptr, len, hbase, trim)`, the bytes that are returned. -/
def big2strOrig (x : Bignum) (base : ℕ) (len : ℤ) (hbase : ℕ) (trim : Bool) : List UInt8 :=
  let out := big2strLoop base hbase trim x.digits len.toNat []
  if trim then out.dropWhile fun c => decide (c = 48) else out

/-! ## Powers -/

/-- How printing can fail. -/
inductive PrintError
  /-- `ArgumentError`: "invalid radix %d". -/
  | invalidRadix (base : ℤ)
  /-- `RangeError`: "bignum too big to convert into `string'". -/
  | tooBig
  /-- `rb_bug(..)` -/
  | bug
  /-- What should be a bignum is none. -/
  | notBignum
  /-- A shift of an `int` into its sign, or beyond it. -/
  | undefinedShift
  /-- A length is negative. -/
  | outOfBounds
  | div (e : DivError)
  deriving DecidableEq, Repr

/-- `big2str_power_cache`, by `base - 2` and the index of the power. -/
def PowerCache := ℕ → ℕ → Option Bignum

/-- `power_cache_init()` -/
def PowerCache.init : PowerCache := fun _ _ => none

/-- An entry is made. -/
def PowerCache.put (cache : PowerCache) (b i : ℕ) (p : Bignum) : PowerCache :=
  fun b' i' => if b' = b ∧ i' = i then some p else cache b' i'

section Code

variable (L : LongSize) {F : Type} (fl : Floats F) (fuel : ℕ)

/-- `INT2FIX(KARATSUBA_DIGITS)` -/
def karatsubaDigits : Fixnum L := ⟨128, by cases L <;> decide, by cases L <;> decide⟩

/-- `power_cache_get_power0(base, i)` -/
def powerCacheGetPower0 (base : ℕ) : ℕ → PowerCache → Except PrintError (Bignum × PowerCache)
  | 0, cache =>
      match cache (base - 2) 0 with
      | some p => .ok (p, cache)
      | none =>
          match rbBigPow fl (rbInt2big L base) (.fixnum (karatsubaDigits L)) with
          | .int (.bignum p) => .ok (p, cache.put (base - 2) 0 p)
          | _ => .error .notBignum
  | i + 1, cache =>
      match cache (base - 2) (i + 1) with
      | some p => .ok (p, cache)
      | none => do
          let (q, cache) ← powerCacheGetPower0 base i cache
          let p := square L q
          return (p, cache.put (base - 2) (i + 1) p)

/-- `power_cache_get_power(base, n1, &m1)`: the power and `m1`. -/
def powerCacheGetPower (base : ℕ) (n1 : ℤ) (cache : PowerCache) :
    Except PrintError ((Bignum × ℤ) × PowerCache) :=
  if n1 ≤ 128 then .error .bug
  else
    let m := ceilLog2 L (BitVec.ofInt L.bits n1)
    -- `1 << m` is an `int`
    if 31 ≤ m then .error .undefinedShift
    else do
      let i := if m - 7 ≥ 64 then 63 else m - 7
      let (t, cache) ← powerCacheGetPower0 L fl base i.toNat cache
      let j := 128 * 2 ^ i.toNat
      match Loop.whileFuel (fun s => decide (s.2 < n1)) (fun s => (square L s.1,
        s.2 * 2)) fuel (t, j)
      with
      | some s => return ((s.1, 2 ^ m.toNat), cache)
      | none => .error (.div .outOfFuel)

/-- `big2str_karatsuba(x, base, ptr, n1, len, hbase, trim)`: the bytes that are returned. Quotients
and remainders are bignums, so there is no case for a fixnum. -/
def big2strKaratsuba (base hbase : ℕ) : ℕ → Bignum → ℤ → ℤ → Bool → PowerCache →
    Except PrintError (List UInt8 × PowerCache)
  | 0, _, _, _, _, _ => .error (.div .outOfFuel)
  | depth + 1, x, n1, len, trim, cache =>
      if len < 0 then .error .outOfBounds
      else if bigzerop x then .ok (if trim then [] else List.replicate len.toNat 48, cache)
      else if n1 ≤ 128 then .ok (big2strOrig x base len hbase trim, cache)
      else do
        let ((b, m1), cache) ← powerCacheGetPower L fl fuel base n1 cache
        let (q, r) ← (bigdivmod L fuel x b).mapError .div
        let (h, cache) ← big2strKaratsuba base hbase depth q ((len - m1).tdiv 2) (len - m1) trim
          cache
        let (l, cache) ← big2strKaratsuba base hbase depth r (m1.tdiv 2) m1
          (h.isEmpty && trim) cache
        return (h ++ l, cache)

variable (estimate : ℤ → ℕ → ℤ)

/-- `big2str_find_n1(x, base)`, for a bignum; `estimate bits base` is
`(long)ceil(bits/log_2[base - 2])`. -/
def big2strFindN1 (x : Bignum) (base : ℕ) : Except PrintError ℤ :=
  if base < 2 ∨ 36 < base then .error .bug
  else if bigzerop x then .ok 0
  else if (2 ^ (L.bits - 1) - 1) / 32 ≤ x.len then .error .tooBig
  else .ok (estimate (32 * x.len) base)

/-- `hbase` in `rb_big2str0`. -/
def hbaseOf (base : ℕ) : ℕ := (base * base) * (base * base)

/-- `ptr[0]`, unless it is a plus sign that is erased. -/
def signText (x : Bignum) (trim : Bool) : List UInt8 :=
  if trim && x.sign then [] else if x.sign then [43] else [45]

/-- `rb_big2str0(x, base, trim)`, for a bignum. -/
def rbBig2str0 (x : Bignum) (base : ℤ) (trim : Bool) (cache : PowerCache) :
    Except PrintError (List UInt8 × PowerCache) :=
  if bigzerop x then .ok ([48], cache)
  else if base < 2 ∨ 36 < base then .error (.invalidRadix base)
  else do
    let n2 ← big2strFindN1 L estimate x base.toNat
    let n1 := (n2 + 1).tdiv 2
    let hbase := hbaseOf base.toNat
    let xx := { x with sign := true }
    let (text, cache) ←
      (if n1 ≤ 128 then .ok (big2strOrig xx base.toNat n2 hbase trim, cache)
      else big2strKaratsuba L fl fuel base.toNat hbase fuel xx n1 n2 trim cache)
    return (signText x trim ++ text, cache)

end Code

end MacRuby
