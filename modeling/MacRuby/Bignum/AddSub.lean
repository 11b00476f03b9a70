import MacRuby.Bignum.Basic

/-!
# Bignum addition and subtraction

`bigsub` subtracts the smaller magnitude from the larger, and `bigadd` dispatches
on the signs.  Both walk the digits with a carry, leave the carry loop as soon as
the carry dies out, and copy what is left.

`bigsub` decides which operand is larger by their stored lengths first.  It is
exact when a longer operand is not the smaller one, and it is called with stored
leading zeros by the division code, so that condition is a hypothesis of
`toInt_bigsub` rather than an invariant of the type.

## Main definitions

* `bigsub x y`, `bigadd x y sign`.
* `toInt_bigsub`, `toInt_bigadd` — their values.
-/

namespace MacRuby

/-- The accumulator of a carry loop: `num` and the digits of `z`. -/
structure Carry where
  num : ℤ
  zds : List BDigit

namespace Carry

/-- `num += n; zds[i] = BIGLO(num); num = BIGDN(num);` on a `BDIGIT_DBL_SIGNED`. -/
def stepSigned (n : ℤ) (i : ℕ) (s : Carry) : Carry :=
  let num := toDblSigned (s.num + n)
  ⟨bigdn num, s.zds.set i (biglo num)⟩

/-- The same on a `BDIGIT_DBL`. -/
def step (n : ℤ) (i : ℕ) (s : Carry) : Carry :=
  let num := toDbl (s.num + n)
  ⟨bigdn num, s.zds.set i (biglo num)⟩

/-- `zds[i] = d;` leaving `num` alone. -/
def copy (d : BDigit) (i : ℕ) (s : Carry) : Carry := { s with zds := s.zds.set i d }

end Carry

/-- The scan of `bigsub` for two operands of the same length: from the top digit
down, whether the first difference asks for a swap. -/
def bigsubScan (xds yds : List BDigit) : ℕ → Bool
  | 0 => false
  | i + 1 =>
      if xds.getD i 0 > yds.getD i 0 then false
      else if xds.getD i 0 < yds.getD i 0 then true
      else bigsubScan xds yds i

/-- Whether `bigsub` swaps its operands. -/
def bigsubSwaps (x y : Bignum) : Bool :=
  if x.len < y.len then true
  else if x.len = y.len then bigsubScan x.digits y.digits x.len
  else false

/-- The three digit loops of `bigsub`, for operands already in order. -/
def bigsubDigits (xds yds : List BDigit) : List BDigit :=
  let s1 := Loop.upto (fun i => Carry.stepSigned (digitAt xds i - digitAt yds i) i)
    yds.length ⟨0, List.replicate xds.length 0⟩
  let s2 := Loop.whileUpto (fun s => s.num != 0) (fun i => Carry.stepSigned (digitAt xds i) i)
    (xds.length - yds.length) yds.length s1
  (Loop.upto (fun j => Carry.copy (xds.getD (s2.1 + j) 0) (s2.1 + j))
    (xds.length - s2.1) s2.2).zds

/-- `bigsub(x, y)`. -/
def bigsub (x y : Bignum) : Bignum :=
  if bigsubSwaps x y then ⟨false, bigsubDigits y.digits x.digits⟩
  else ⟨true, bigsubDigits x.digits y.digits⟩

/-- The three digit loops of `bigadd` and its last store, `xds` being the shorter. -/
def bigaddDigits (xds yds : List BDigit) : List BDigit :=
  let s1 := Loop.upto (fun i => Carry.step (digitAt xds i + digitAt yds i) i)
    xds.length ⟨0, List.replicate (yds.length + 1) 0⟩
  let s2 := Loop.whileUpto (fun s => s.num != 0) (fun i => Carry.step (digitAt yds i) i)
    (yds.length - xds.length) xds.length s1
  let s3 := Loop.upto (fun j => Carry.copy (yds.getD (s2.1 + j) 0) (s2.1 + j))
    (yds.length - s2.1) s2.2
  s3.zds.set yds.length (biglo s3.num)

/-- `bigadd(x, y, sign)`: `x + y` when `sign` is set, `x - y` when it is not. -/
def bigadd (x y : Bignum) (sign : Bool) : Bignum :=
  let sign := sign == y.sign
  if x.sign != sign then
    if sign then bigsub y x else bigsub x y
  else if x.len > y.len then ⟨sign, bigaddDigits y.digits x.digits⟩
  else ⟨sign, bigaddDigits x.digits y.digits⟩

/-! ## The carry loops -/

section CarryLoops

variable {xds yds zds : List BDigit} {n i : ℕ} {num d : ℤ}

/-- Loop invariant: the digits written so far and the carry make up the first `i`
digits of the exact result, whose digits are `e`. -/
structure Carry.Inv (e : ℕ → ℤ) (n : ℕ) (lo hi : ℤ) (i : ℕ) (s : Carry) : Prop where
  length : s.zds.length = n
  value : Radix.val bigrad (digitAt s.zds) i + s.num * bigrad ^ i = Radix.val bigrad e i
  lo_le : lo ≤ s.num
  le_hi : s.num ≤ hi

/-- Storing the low half of the running sum and carrying the high half. -/
theorem Carry.Inv.store {e : ℕ → ℤ} {lo hi : ℤ} {s : Carry} (h : Carry.Inv e n lo hi i s)
    (hi' : i < n) (hlo : lo * bigrad ≤ s.num + e i)
    (hhi : s.num + e i < (hi + 1) * bigrad) :
    Carry.Inv e n lo hi (i + 1) ⟨bigdn (s.num + e i), s.zds.set i (biglo (s.num + e i))⟩ := by
  have hpre : Radix.val bigrad (digitAt (s.zds.set i (biglo (s.num + e i)))) i =
      Radix.val bigrad (digitAt s.zds) i :=
    Radix.val_congr (fun j hj => digitAt_set_ne (by omega) _)
  refine ⟨by simpa using h.length, ?_, ?_, ?_⟩
  · have hlen := h.length
    rw [Radix.val_succ, Radix.val_succ, hpre, digitAt_set_self (by omega), toNat_biglo, pow_succ,
      ← h.value]
    linear_combination bigrad ^ i * emod_add_bigdn (s.num + e i)
  · exact (Int.le_ediv_iff_mul_le bigrad_pos).mpr hlo
  · exact Int.le_of_lt_add_one (Int.ediv_lt_of_lt_mul bigrad_pos hhi)

/-- A dead carry lets the remaining digits be copied. -/
theorem Carry.Inv.copy {e : ℕ → ℤ} {lo hi : ℤ} {s : Carry} (h : Carry.Inv e n lo hi i s)
    (hi' : i < n) (hnum : s.num = 0) {v : BDigit} (hv : (v.toNat : ℤ) = e i) :
    Carry.Inv e n lo hi (i + 1) (Carry.copy v i s) := by
  have hpre : Radix.val bigrad (digitAt (s.zds.set i v)) i = Radix.val bigrad (digitAt s.zds) i :=
    Radix.val_congr (fun j hj => digitAt_set_ne (by omega) _)
  have hlen := h.length
  refine ⟨by simpa [Carry.copy] using hlen, ?_, h.lo_le, h.le_hi⟩
  have hval := h.value
  dsimp only [Carry.copy]
  rw [Radix.val_succ, Radix.val_succ, hpre, digitAt_set_self (by omega), hv, ← hval, hnum]
  ring

theorem Carry.stepSigned_eq {s : Carry} (h1 : -2 ^ 62 ≤ s.num + d) (h2 : s.num + d < 2 ^ 62) :
    Carry.stepSigned d i s = ⟨bigdn (s.num + d), s.zds.set i (biglo (s.num + d))⟩ := by
  have h : toDblSigned (s.num + d) = s.num + d := Int.bmod_eq_of_le (by omega) (by omega)
  simp only [Carry.stepSigned, h]

theorem Carry.step_eq {s : Carry} (h1 : 0 ≤ s.num + d) (h2 : s.num + d < 2 ^ 64) :
    Carry.step d i s = ⟨bigdn (s.num + d), s.zds.set i (biglo (s.num + d))⟩ := by
  have h : toDbl (s.num + d) = s.num + d := Int.emod_eq_of_lt h1 h2
  simp only [Carry.step, h]

/-- The copying tail: from an invariant at `j` whose carry has died (or that is
already at the end) to the invariant at the end. -/
theorem Carry.Inv.copyTail {e : ℕ → ℤ} {lo hi : ℤ} {s : Carry} {m j : ℕ}
    (h : Carry.Inv e n lo hi j s) (xds : List BDigit) (hjm : j ≤ m) (hm : m ≤ n)
    (hend : j = m ∨ s.num = 0)
    (hsrc : ∀ i, j ≤ i → i < m → digitAt xds i = e i) :
    Carry.Inv e n lo hi m
      (Loop.upto (fun k => Carry.copy (xds.getD (j + k) 0) (j + k)) (m - j) s) := by
  have hrun := Loop.upto_induction (n := m - j) (a := s)
    (f := fun k => Carry.copy (xds.getD (j + k) 0) (j + k))
    (fun k t => Carry.Inv e n lo hi (j + k) t ∧ (j = m ∨ t.num = 0)) ⟨h, hend⟩ (by
      rintro k t hk ⟨ht, hz⟩
      have hz' : t.num = 0 := by
        rcases hz with hz | hz
        · omega
        · exact hz
      exact ⟨ht.copy (by omega) hz' (hsrc (j + k) (by omega) (by omega)), Or.inr hz'⟩)
  have hidx : j + (m - j) = m := by omega
  rw [hidx] at hrun
  exact hrun.1

end CarryLoops

/-! ## Values -/

/-- The exact value of the digit-wise difference or sum of two arrays. -/
theorem val_sub_digits (xds yds : List BDigit) (n : ℕ) :
    Radix.val bigrad (fun i => digitAt xds i - digitAt yds i) n =
      Radix.val bigrad (digitAt xds) n - Radix.val bigrad (digitAt yds) n := by
  simp [Radix.val, sub_mul]

theorem val_add_digits (xds yds : List BDigit) (n : ℕ) :
    Radix.val bigrad (fun i => digitAt xds i + digitAt yds i) n =
      Radix.val bigrad (digitAt xds) n + Radix.val bigrad (digitAt yds) n := by
  simp [Radix.val, add_mul, Finset.sum_add_distrib]

/-- **The loops of `bigsub` compute the difference** of two magnitudes in order. -/
theorem magnitude_bigsubDigits (xds yds : List BDigit) (hlen : yds.length ≤ xds.length)
    (hle : magnitude yds ≤ magnitude xds) :
    magnitude (bigsubDigits xds yds) = magnitude xds - magnitude yds := by
  let e : ℕ → ℤ := fun i => digitAt xds i - digitAt yds i
  have hx0 := digitAt_nonneg xds
  have hx1 := digitAt_lt xds
  have hy0 := digitAt_nonneg yds
  have hy1 := digitAt_lt yds
  -- one signed store keeps the invariant, the borrow being 0 or -1
  have hstep : ∀ i s, i < xds.length → Carry.Inv e xds.length (-1) 0 i s →
      Carry.Inv e xds.length (-1) 0 (i + 1) (Carry.stepSigned (e i) i s) := by
    intro i s hi h
    have hlo := h.lo_le
    have hhi := h.le_hi
    have := hx0 i
    have := hx1 i
    have := hy0 i
    have := hy1 i
    rw [Carry.stepSigned_eq (by simp only [e, bigrad] at *; omega)
      (by simp only [e, bigrad] at *; omega)]
    exact h.store hi (by simp only [e]; omega) (by simp only [e]; omega)
  have h1 := Loop.upto_induction (n := yds.length)
    (f := fun i => Carry.stepSigned (digitAt xds i - digitAt yds i) i)
    (a := ⟨0, List.replicate xds.length 0⟩) (Carry.Inv e xds.length (-1) 0)
    ⟨by simp, by simp, by simp, le_rfl⟩ (fun i s hi h => hstep i s (by omega) h)
  obtain ⟨j, hj, hj', hrun, h2, hend⟩ := Loop.whileUpto_induction (k := xds.length - yds.length)
    (c := fun s : Carry => s.num != 0) (f := fun i => Carry.stepSigned (digitAt xds i) i)
    (Carry.Inv e xds.length (-1) 0) h1 (by
      intro i s hi hi' _ h
      have he : digitAt xds i = e i := by simp only [e, digitAt_of_le hi, sub_zero]
      rw [he]
      exact hstep i s (by omega) h)
  have h3 := h2.copyTail xds (m := xds.length) (by omega) le_rfl
    (hend.imp (fun h => by omega) (fun h => by simpa using h))
    (fun i hi _ => by simp only [e, @digitAt_of_le yds i (by omega), sub_zero])
  have hfin : Radix.val bigrad e xds.length = magnitude xds - magnitude yds := by
    rw [val_sub_digits, magnitude_eq_val yds (n := xds.length)]
    · rfl
    · exact fun i hi => digitAt_of_le (by omega)
  dsimp only [bigsubDigits]
  rw [hrun]
  generalize Loop.upto _ (xds.length - j) _ = s at h3
  have hval := h3.value
  have hlt := Radix.val_lt (n := xds.length) bigrad_pos (fun i _ => digitAt_lt s.zds i)
  rw [hfin] at hval
  have hnum : s.num = 0 := by
    have hlo := h3.lo_le
    have hhi := h3.le_hi
    have hne : s.num ≠ -1 := by
      intro h
      rw [h] at hval
      linarith
    omega
  rw [magnitude, h3.length]
  simpa [hnum] using hval

/-- **The loops of `bigadd` compute the sum.** -/
theorem magnitude_bigaddDigits (xds yds : List BDigit) (hlen : xds.length ≤ yds.length) :
    magnitude (bigaddDigits xds yds) = magnitude xds + magnitude yds := by
  let e : ℕ → ℤ := fun i => digitAt xds i + digitAt yds i
  have hx0 := digitAt_nonneg xds
  have hx1 := digitAt_lt xds
  have hy0 := digitAt_nonneg yds
  have hy1 := digitAt_lt yds
  -- one store keeps the invariant, the carry being 0 or 1
  have hstep : ∀ i s, i < yds.length + 1 → Carry.Inv e (yds.length + 1) 0 1 i s →
      Carry.Inv e (yds.length + 1) 0 1 (i + 1) (Carry.step (e i) i s) := by
    intro i s hi h
    have hlo := h.lo_le
    have hhi := h.le_hi
    have := hx0 i
    have := hx1 i
    have := hy0 i
    have := hy1 i
    rw [Carry.step_eq (by simp only [e, bigrad] at *; omega)
      (by simp only [e, bigrad] at *; omega)]
    exact h.store hi (by simp only [e]; omega) (by simp only [e]; omega)
  have h1 := Loop.upto_induction (n := xds.length)
    (f := fun i => Carry.step (digitAt xds i + digitAt yds i) i)
    (a := ⟨0, List.replicate (yds.length + 1) 0⟩) (Carry.Inv e (yds.length + 1) 0 1)
    ⟨by simp, by simp, le_rfl, by simp⟩ (fun i s hi h => hstep i s (by omega) h)
  obtain ⟨j, hj, hj', hrun, h2, hend⟩ := Loop.whileUpto_induction (k := yds.length - xds.length)
    (c := fun s : Carry => s.num != 0) (f := fun i => Carry.step (digitAt yds i) i)
    (Carry.Inv e (yds.length + 1) 0 1) h1 (by
      intro i s hi hi' _ h
      have he : digitAt yds i = e i := by simp only [e, digitAt_of_le hi, zero_add]
      rw [he]
      exact hstep i s (by omega) h)
  have h3 := h2.copyTail yds (m := yds.length) (by omega) (by omega)
    (hend.imp (fun h => by omega) (fun h => by simpa using h))
    (fun i hi _ => by simp only [e, @digitAt_of_le xds i (by omega), zero_add])
  have hfin : Radix.val bigrad e yds.length = magnitude xds + magnitude yds := by
    rw [val_add_digits, magnitude_eq_val xds (n := yds.length)]
    · rfl
    · exact fun i hi => digitAt_of_le (by omega)
  dsimp only [bigaddDigits]
  rw [hrun]
  generalize Loop.upto _ (yds.length - j) _ = s at h3
  have hval := h3.value
  have hl := h3.length
  have hlo := h3.lo_le
  have hhi := h3.le_hi
  have hpre : Radix.val bigrad (digitAt (s.zds.set yds.length (biglo s.num))) yds.length =
      Radix.val bigrad (digitAt s.zds) yds.length :=
    Radix.val_congr (fun i hi => digitAt_set_ne (by omega) _)
  have hmod : s.num % bigrad = s.num :=
    Int.emod_eq_of_lt hlo (by simp only [bigrad]; omega)
  rw [magnitude, List.length_set, hl, Radix.val_succ, hpre, digitAt_set_self (by omega),
    toNat_biglo, hmod, hval, hfin]

/-- The scan of `bigsub` orders the first `n` digits. -/
theorem bigsubScan_spec (xds yds : List BDigit) (n : ℕ) :
    (bigsubScan xds yds n = true →
      Radix.val bigrad (digitAt xds) n ≤ Radix.val bigrad (digitAt yds) n) ∧
    (bigsubScan xds yds n = false →
      Radix.val bigrad (digitAt yds) n ≤ Radix.val bigrad (digitAt xds) n) := by
  induction n with
  | zero => simp
  | succ n ih =>
      have hcmp : ∀ u v : List BDigit, u.getD n 0 < v.getD n 0 →
          Radix.val bigrad (digitAt u) (n + 1) ≤ Radix.val bigrad (digitAt v) (n + 1) := by
        intro u v huv
        have hlt := Radix.val_lt (n := n) bigrad_pos (fun i _ => digitAt_lt u i)
        have h0 := Radix.val_nonneg (n := n) bigrad_pos.le (fun i _ => digitAt_nonneg v i)
        have hd : digitAt u n + 1 ≤ digitAt v n := by
          have := UInt32.lt_iff_toNat_lt.mp huv
          simp only [digitAt]
          omega
        have hmul : (digitAt u n + 1) * bigrad ^ n ≤ digitAt v n * bigrad ^ n :=
          mul_le_mul_of_nonneg_right hd (pow_nonneg bigrad_pos.le n)
        rw [Radix.val_succ, Radix.val_succ]
        linarith
      by_cases hgt : xds.getD n 0 > yds.getD n 0
      · rw [bigsubScan, if_pos hgt]
        exact ⟨by simp, fun _ => hcmp yds xds hgt⟩
      · by_cases hlt : xds.getD n 0 < yds.getD n 0
        · rw [bigsubScan, if_neg hgt, if_pos hlt]
          exact ⟨fun _ => hcmp xds yds hlt, by simp⟩
        · have heq : digitAt xds n = digitAt yds n := by
            have : xds.getD n 0 = yds.getD n 0 :=
              UInt32.le_antisymm (UInt32.not_lt.mp hgt) (UInt32.not_lt.mp hlt)
            rw [digitAt, this, digitAt]
          rw [bigsubScan, if_neg hgt, if_neg hlt, Radix.val_succ, Radix.val_succ, heq]
          exact ⟨fun h => by linarith [ih.1 h], fun h => by linarith [ih.2 h]⟩

/-- **`bigsub` subtracts magnitudes**, provided a longer operand is not the smaller
one. -/
theorem toInt_bigsub {x y : Bignum} (hx : x.len < y.len → x.mag ≤ y.mag)
    (hy : y.len < x.len → y.mag ≤ x.mag) : (bigsub x y).toInt = x.mag - y.mag := by
  have horder : (bigsubSwaps x y = true → x.len ≤ y.len ∧ x.mag ≤ y.mag) ∧
      (bigsubSwaps x y = false → y.len ≤ x.len ∧ y.mag ≤ x.mag) := by
    simp only [bigsubSwaps]
    by_cases hlt : x.len < y.len
    · simp [hlt, hlt.le, hx hlt]
    · by_cases heq : x.len = y.len
      · have hscan := bigsubScan_spec x.digits y.digits x.len
        have hmx : Radix.val bigrad (digitAt x.digits) x.len = x.mag := rfl
        have hmy : Radix.val bigrad (digitAt y.digits) x.len = y.mag := by rw [heq]; rfl
        rw [hmx, hmy] at hscan
        simp only [if_neg hlt, if_pos heq]
        exact ⟨fun h => ⟨heq.le, hscan.1 h⟩, fun h => ⟨heq.ge, hscan.2 h⟩⟩
      · have hgt : y.len < x.len := by omega
        simp [hlt, heq, hgt.le, hy hgt]
  by_cases hs : bigsubSwaps x y = true
  · obtain ⟨hl, hm⟩ := horder.1 hs
    have hd := magnitude_bigsubDigits y.digits x.digits hl hm
    rw [bigsub, if_pos hs, Bignum.toInt, Bignum.mag, hd]
    simp [Bignum.mag]
  · obtain ⟨hl, hm⟩ := horder.2 (by simpa using hs)
    have hd := magnitude_bigsubDigits x.digits y.digits hl hm
    rw [bigsub, if_neg hs, Bignum.toInt, Bignum.mag, hd]
    simp [Bignum.mag]

/-- **`bigadd` adds or subtracts**, under the same proviso as `bigsub` where it
falls back on it. -/
theorem toInt_bigadd {x y : Bignum} {sign : Bool}
    (hx : x.sign ≠ (sign == y.sign) → x.len < y.len → x.mag ≤ y.mag)
    (hy : x.sign ≠ (sign == y.sign) → y.len < x.len → y.mag ≤ x.mag) :
    (bigadd x y sign).toInt = if sign then x.toInt + y.toInt else x.toInt - y.toInt := by
  have hsigned : (if sign then x.toInt + y.toInt else x.toInt - y.toInt) =
      x.toInt + if sign == y.sign then y.mag else -y.mag := by
    cases sign <;> cases hs : y.sign <;> simp [Bignum.toInt, hs]; ring
  rw [hsigned]
  dsimp only [bigadd]
  by_cases hne : x.sign = (sign == y.sign)
  · have hb : (x.sign != (sign == y.sign)) = false := by simp [hne]
    rw [hb, ← hne]
    simp only [Bool.false_eq_true, if_false]
    split
    · rename_i hgt
      have hd := magnitude_bigaddDigits y.digits x.digits (Nat.le_of_lt hgt)
      rw [Bignum.toInt, Bignum.mag, hd]
      cases hs : x.sign <;> simp [Bignum.toInt, Bignum.mag, hs]; ring
    · rename_i hgt
      have hd := magnitude_bigaddDigits x.digits y.digits (Nat.le_of_not_lt hgt)
      rw [Bignum.toInt, Bignum.mag, hd]
      cases hs : x.sign <;> simp [Bignum.toInt, Bignum.mag, hs]; ring
  · have hb : (x.sign != (sign == y.sign)) = true := by simpa using hne
    rw [hb]
    simp only [if_true]
    cases hsg : (sign == y.sign) with
    | true =>
        have hxs : x.sign = false := by rw [hsg] at hne; simpa using hne
        simp only [if_true]
        rw [toInt_bigsub (hy hne) (hx hne), Bignum.toInt, hxs]
        simp
        ring
    | false =>
        have hxs : x.sign = true := by rw [hsg] at hne; simpa using hne
        simp only [Bool.false_eq_true, if_false]
        rw [toInt_bigsub (hx hne) (hy hne), Bignum.toInt, hxs]
        simp
        ring

end MacRuby
