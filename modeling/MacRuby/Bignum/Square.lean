import MacRuby.Bignum.Bitwise

/-!
# Squares of bignums

`bigsqr` squares a long bignum by halves: the squares of the halves stand side by side, and twice
the product of the halves is added in between. A digit that is read or written behind the end of the
result is an error here.

## Main definitions

* `addTwice`, `propagate` — adding the product of the halves, and what is carried out of it.
* `recombine` — putting the parts together.
* `bigsqr` — the function.

## Main results

* `addTwice_spec`, `propagate_spec` — the sum and its carry.
* `bigsqr_exact` — the square, with all its digits in the result.
-/

namespace MacRuby

/-! ## The function -/

/-- `num += zds[i] + (a2[i] << 1); zds[i] = BIGLO(num); num = BIGDN(num);` over the digits of `a2`,
from digit `i` of `zds` on. -/
def addTwice : List BDigit → ℕ → ℤ → List BDigit → Option (ℤ × List BDigit)
  | [], _, num, zds => some (num, zds)
  | d :: ds, i, num, zds =>
      if i < zds.length then
        let num := toDbl (num + toDbl (digitAt zds i + toDbl (d.toNat * 2)))
        addTwice ds (i + 1) (bigdn num) (zds.set i (biglo num))
      else none

/-- The same without a number to add, while there is a carry. -/
def propagate (i : ℕ) (num : ℤ) (zds : List BDigit) : ℤ × List BDigit :=
  if i < zds.length ∧ num ≠ 0 then
    let num := toDbl (num + digitAt zds i)
    propagate (i + 1) (bigdn num) (zds.set i (biglo num))
  else (num, zds)
termination_by zds.length - i
decreasing_by
  rw [List.length_set]
  omega

/-- The square of the upper half and twice the product of the halves, added to the square `z` of the
lower half. -/
def recombine (k : ℕ) (z a2 ab : Bignum) : Option Bignum := do
  let zds := (z.digits ++ List.replicate (2 * k - z.len) 0).take (2 * k) ++ a2.digits
  let r ← addTwice ab.digits k 0 zds
  let r := propagate (k + ab.len) r.1 r.2
  return bigtrunc ⟨z.sign, if r.1 ≠ 0 then r.2 ++ [biglo r.1] else r.2⟩

/-- `bigsqr(x)`. -/
def bigsqr (L : LongSize) (x : Bignum) : Option Bignum :=
  let k := x.len / 2
  if x.len < 4000 / 32 then some (bigtrunc (rbBigMul0 L x (.bignum x)))
  else do
    let a : Bignum := ⟨true, x.digits.drop k⟩
    let b : Bignum := ⟨true, x.digits.take k⟩
    let a2 ← bigsqr L a
    let z ← bigsqr L b
    recombine k z (bigtrunc a2) (bigtrunc (rbBigMul0 L a (.bignum b)))
termination_by x.len
decreasing_by
  · simp only [Bignum.len, List.length_drop] at *
    omega
  · simp only [Bignum.len, List.length_take] at *
    omega

/-! ## Adding -/

theorem magnitude_append (ds es : List BDigit) :
    magnitude (ds ++ es) = magnitude ds + bigrad ^ ds.length * magnitude es := by
  induction ds with
  | nil => simp [magnitude]
  | cons d ds ih =>
      rw [List.cons_append, magnitude_cons, magnitude_cons, ih, List.length_cons, pow_succ]
      ring

theorem magnitude_replicate (n : ℕ) : magnitude (List.replicate n 0) = 0 := by
  rw [magnitude_eq_val _ (n := 0) fun i _ => digitAt_replicate _ i, Radix.val_zero]

theorem bigrad_eq : bigrad = 4294967296 := rfl

theorem toDbl_eq {n : ℤ} (h0 : 0 ≤ n) (h1 : n < 2 ^ 64) : toDbl n = n := Int.emod_eq_of_lt h0 h1

/-- What one digit of a sum does to the number. -/
theorem magnitude_set_biglo {zds : List BDigit} {i : ℕ} (hi : i < zds.length) (n : ℤ) :
    magnitude (zds.set i (biglo n)) + bigdn n * bigrad ^ (i + 1) =
      magnitude zds + (n - digitAt zds i) * bigrad ^ i := by
  have hsplit := emod_add_bigdn n
  rw [magnitude_set hi, toNat_biglo, pow_succ]
  linear_combination bigrad ^ i * hsplit

/-- **Twice a number is added from a digit on**, with a carry of at most three. -/
theorem addTwice_spec (ds : List BDigit) {i : ℕ} {num : ℤ} {zds : List BDigit}
    (hlen : i + ds.length ≤ zds.length) (h0 : 0 ≤ num) (h1 : num < 4) :
    ∃ num' zds', addTwice ds i num zds = some (num', zds') ∧ zds'.length = zds.length ∧
      0 ≤ num' ∧ num' < 4 ∧
      magnitude zds' + num' * bigrad ^ (i + ds.length) =
        magnitude zds + num * bigrad ^ i + 2 * magnitude ds * bigrad ^ i := by
  induction ds generalizing i num zds with
  | nil =>
      refine ⟨num, zds, rfl, rfl, h0, h1, ?_⟩
      simp [magnitude]
  | cons d ds ih =>
      rw [List.length_cons] at hlen
      have hi : i < zds.length := by omega
      have hz0 := digitAt_nonneg zds i
      have hz1 := digitAt_lt zds i
      have hd : (d.toNat : ℤ) < 2 ^ 32 := by exact_mod_cast d.toNat_lt
      rw [bigrad_eq] at hz1
      have hn : toDbl (num + toDbl (digitAt zds i + toDbl (d.toNat * 2))) =
          num + (digitAt zds i + d.toNat * 2) := by
        have htwice : toDbl (d.toNat * 2) = (d.toNat : ℤ) * 2 := toDbl_eq (by omega) (by omega)
        have hdigit : toDbl (digitAt zds i + (d.toNat : ℤ) * 2) = digitAt zds i + d.toNat * 2 :=
          toDbl_eq (by omega) (by omega)
        rw [htwice, hdigit]
        exact toDbl_eq (by omega) (by omega)
      generalize hsum : num + (digitAt zds i + (d.toNat : ℤ) * 2) = n at hn
      have hcarry0 : 0 ≤ bigdn n := by rw [bigdn, bigrad_eq]; omega
      have hcarry1 : bigdn n < 4 := by rw [bigdn, bigrad_eq]; omega
      have hroom : i + 1 + ds.length ≤ (zds.set i (biglo n)).length := by
        rw [List.length_set]
        omega
      obtain ⟨num', zds', hrun, hlen', h0', h1', hval⟩ := ih hroom hcarry0 hcarry1
      have hset := magnitude_set_biglo hi n
      refine ⟨num', zds', ?_, by rw [hlen', List.length_set], h0', h1', ?_⟩
      · rw [addTwice, if_pos hi, hn]
        exact hrun
      · have hexp : i + (d :: ds).length = i + 1 + ds.length := by
          rw [List.length_cons]
          omega
        rw [hexp, hval, magnitude_cons, pow_succ]
        rw [pow_succ] at hset
        linear_combination hset - bigrad ^ i * hsum

/-- **A carry is added from a digit on**, as far as there are digits. -/
theorem propagate_spec {i : ℕ} {num : ℤ} {zds : List BDigit} (hi : i ≤ zds.length) (h0 : 0 ≤ num)
    (h1 : num < bigrad) :
    ∃ num' zds', propagate i num zds = (num', zds') ∧ zds'.length = zds.length ∧ 0 ≤ num' ∧
      num' < bigrad ∧
      magnitude zds' + num' * bigrad ^ zds.length = magnitude zds + num * bigrad ^ i := by
  fun_induction propagate i num zds with
  | case1 i num zds h n ih =>
      have hz0 := digitAt_nonneg zds i
      have hz1 := digitAt_lt zds i
      rw [bigrad_eq] at h1 hz1
      have hn : n = num + digitAt zds i := toDbl_eq (by omega) (by omega)
      have hcarry0 : 0 ≤ bigdn n := by rw [bigdn, bigrad_eq]; omega
      have hcarry1 : bigdn n < bigrad := by rw [bigdn, bigrad_eq]; omega
      obtain ⟨num', zds', hrun, hlen', h0', h1', hval⟩ :=
        ih (by rw [List.length_set]; omega) hcarry0 hcarry1
      have hset := magnitude_set_biglo h.1 n
      rw [List.length_set] at hlen' hval
      refine ⟨num', zds', hrun, hlen', h0', h1', ?_⟩
      rw [hval, hset, hn]
      ring
  | case2 i num zds h =>
      refine ⟨num, zds, rfl, rfl, h0, h1, ?_⟩
      rcases not_and_or.mp h with h | h
      · have hend : i = zds.length := by omega
        rw [hend]
      · rw [not_not.mp h, zero_mul, zero_mul]

/-! ## The square -/

/-- A number that is less than a power of the radix has no more digits than that. -/
theorem Bignum.Trimmed.len_le {x : Bignum} (hx : x.Trimmed) {n : ℕ} (hn : 0 < n)
    (hlt : x.mag < bigrad ^ n) : x.len ≤ n := by
  by_contra hlen
  rcases hx.top with htop | ⟨hone, -⟩
  · have hpos := hx.pos
    have hle := pow_le_mag_of_top_ne_zero (by omega : x.len = x.len - 1 + 1) htop
    have hpow : bigrad ^ n ≤ bigrad ^ (x.len - 1) :=
      pow_le_pow_right₀ (by rw [bigrad_eq]; decide) (by omega)
    exact absurd hlt (not_lt.mpr (hpow.trans hle))
  · omega

theorem trimmed_bigtrunc {x : Bignum} (hpos : 0 < x.len) (hsign : x.sign = true) :
    (bigtrunc x).Trimmed := by
  obtain ⟨h1, h2, -, -⟩ := trimLen_spec x.digits hpos
  have hlen : (bigtrunc x).len = trimLen x.digits x.len := by
    rw [bigtrunc, if_neg hpos.ne', Bignum.len, List.length_take]
    exact Nat.min_eq_left h2
  have hpos' : 0 < (bigtrunc x).len := by rw [hlen]; exact h1
  refine ⟨hpos', ?_⟩
  rcases bigtrunc_top x with hone | ⟨n, hn, htop⟩
  · exact .inr ⟨by omega, by rw [sign_bigtrunc, hsign]⟩
  · rw [hn, Nat.add_sub_cancel]
    exact .inl htop

theorem len_rbBigMul0 (L : LongSize) (x y : Bignum) :
    (rbBigMul0 L x (.bignum y)).len = x.len + y.len + 1 := by
  have hrun : MulInv x.digits y.digits x.len (bigmul1 x.digits y.digits) :=
    mulInv_bigmul1 x.digits y.digits
  exact hrun.length

theorem mag_rbBigMul0 (L : LongSize) (x y : Bignum) :
    (rbBigMul0 L x (.bignum y)).mag = x.mag * y.mag := magnitude_bigmul1 x.digits y.digits

/-- What `bigsqr` returns. -/
structure SquareOf (x : Bignum) (z : Bignum) : Prop where
  sign : z.sign = true
  trimmed : z.Trimmed
  mag : z.mag = x.mag * x.mag

/-- **What is put together fits its buffer**, and is the sum. -/
theorem recombine_spec {k : ℕ} {z a2 ab : Bignum} (hk : 0 < k) (hsign : z.sign = true)
    (hz : z.len ≤ 2 * k) (hab : ab.len ≤ k + a2.len) :
    ∃ w, recombine k z a2 ab = some w ∧ w.sign = true ∧ w.Trimmed ∧
      w.mag = z.mag + bigrad ^ (2 * k) * a2.mag + 2 * ab.mag * bigrad ^ k := by
  have hpad : (z.digits ++ List.replicate (2 * k - z.len) 0).length = 2 * k := by
    rw [List.length_append, List.length_replicate]
    simp only [Bignum.len] at hz ⊢
    omega
  have hlen : k + ab.digits.length ≤
      (z.digits ++ List.replicate (2 * k - z.len) 0 ++ a2.digits).length := by
    rw [List.length_append, hpad]
    simp only [Bignum.len] at hab
    omega
  obtain ⟨num, zds, hadd, hlen', h0, h1, hval⟩ :=
    addTwice_spec ab.digits hlen (le_refl 0) (by decide)
  have hi : k + ab.len ≤ zds.length := by
    rw [hlen']
    exact hlen
  obtain ⟨num', zds', hprop, hlen'', h0', h1', hval'⟩ :=
    propagate_spec hi h0 (h1.trans (by rw [bigrad_eq]; decide))
  have hmag : magnitude (if num' ≠ 0 then zds' ++ [biglo num'] else zds') =
      magnitude zds' + num' * bigrad ^ zds.length := by
    split_ifs with hnum
    · have hdigit : magnitude [biglo num'] = num' := by
        rw [magnitude_cons, toNat_biglo, Int.emod_eq_of_lt h0' h1']
        simp [magnitude]
      rw [magnitude_append, hdigit, hlen'', mul_comm]
    · rw [not_not.mp hnum, zero_mul, add_zero]
  have hpos : 0 < (if num' ≠ 0 then zds' ++ [biglo num'] else zds').length := by
    have hlong : 0 < zds'.length := by
      rw [hlen'', hlen', List.length_append, hpad]
      omega
    split_ifs
    · rw [List.length_append]
      omega
    · exact hlong
  refine ⟨bigtrunc ⟨z.sign, if num' ≠ 0 then zds' ++ [biglo num'] else zds'⟩, ?_, ?_, ?_, ?_⟩
  · rw [recombine, List.take_of_length_le hpad.le, hadd, Option.bind_eq_bind, Option.bind_some]
    dsimp only
    rw [hprop]
    rfl
  · rw [sign_bigtrunc, hsign]
  · exact trimmed_bigtrunc hpos hsign
  · rw [mag_bigtrunc, Bignum.mag, hmag, hval']
    have hsum : magnitude (z.digits ++ List.replicate (2 * k - z.len) 0 ++ a2.digits) =
        z.mag + bigrad ^ (2 * k) * a2.mag := by
      rw [magnitude_append, magnitude_append, hpad, magnitude_replicate, mul_zero, add_zero]
      rfl
    rw [hsum, zero_mul, add_zero] at hval
    exact hval

/-- **`bigsqr` does not leave its buffer, and its result is the square.** -/
theorem bigsqr_spec (L : LongSize) (x : Bignum) : ∃ z, bigsqr L x = some z ∧ SquareOf x z := by
  induction hn : x.len using Nat.strong_induction_on generalizing x with
  | _ n ih =>
      rw [bigsqr]
      by_cases hshort : x.len < 4000 / 32
      · have hpos : 0 < (rbBigMul0 L x (.bignum x)).len := by
          rw [len_rbBigMul0]
          omega
        have hsign : (rbBigMul0 L x (.bignum x)).sign = true := beq_self_eq_true _
        rw [if_pos hshort]
        refine ⟨_, rfl, by rw [sign_bigtrunc, hsign], trimmed_bigtrunc hpos hsign, ?_⟩
        rw [mag_bigtrunc, mag_rbBigMul0]
      rw [if_neg hshort]
      generalize hk : x.len / 2 = k
      generalize ha : (⟨true, x.digits.drop k⟩ : Bignum) = a
      generalize hb : (⟨true, x.digits.take k⟩ : Bignum) = b
      have halen : a.len = x.len - k := by rw [← ha, Bignum.len, List.length_drop, Bignum.len]
      have hblen : b.len = k := by
        rw [← hb, Bignum.len, List.length_take]
        exact Nat.min_eq_left (by rw [← hk]; exact Nat.div_le_self _ _)
      have hx : x.mag = b.mag + bigrad ^ k * a.mag := by
        have hsplit := magnitude_append (x.digits.take k) (x.digits.drop k)
        rw [List.take_append_drop] at hsplit
        rw [Bignum.mag, hsplit, ← ha, ← hb]
        have htake : (x.digits.take k).length = k := by rw [← hb] at hblen; exact hblen
        rw [htake]
        rfl
      obtain ⟨sqa, hsqa, hsa⟩ := ih a.len (by omega) a rfl
      obtain ⟨sqb, hsqb, hsb⟩ := ih b.len (by omega) b rfl
      have hk0 : 0 < k := by omega
      have hbmag : b.mag < bigrad ^ k := hblen ▸ magnitude_lt b.digits
      have hb0 := b.mag_nonneg
      have ha0 := a.mag_nonneg
      have hqb : sqb.len ≤ 2 * k := by
        refine hsb.trimmed.len_le (by omega) ?_
        rw [hsb.mag, Nat.two_mul, pow_add]
        exact mul_lt_mul'' hbmag hbmag hb0 hb0
      -- the product is below the square of the upper half, shifted by the lower one
      have hmul : a.mag * b.mag < bigrad ^ (k + (bigtrunc sqa).len) := by
        have hsquare : (bigtrunc sqa).mag < bigrad ^ (bigtrunc sqa).len := magnitude_lt _
        rw [mag_bigtrunc, hsa.mag] at hsquare
        have hle : a.mag ≤ a.mag * a.mag := by
          rcases ha0.eq_or_lt with hzero | hpos
          · rw [← hzero, mul_zero]
          · exact le_mul_of_one_le_left ha0 hpos
        rw [pow_add, mul_comm (bigrad ^ k)]
        exact mul_lt_mul'' (hle.trans_lt hsquare) hbmag ha0 hb0
      have hsab : (rbBigMul0 L a (.bignum b)).sign = true := by rw [← ha, ← hb]; rfl
      have hlab : 0 < (rbBigMul0 L a (.bignum b)).len := by rw [len_rbBigMul0]; omega
      have hab : (bigtrunc (rbBigMul0 L a (.bignum b))).len ≤ k + (bigtrunc sqa).len := by
        refine (trimmed_bigtrunc hlab hsab).len_le (by omega) ?_
        rw [mag_bigtrunc, mag_rbBigMul0]
        exact hmul
      obtain ⟨w, hw, hsign, htrim, hmag⟩ := recombine_spec hk0 hsb.sign hqb hab
      dsimp only
      rw [hsqa, Option.bind_eq_bind, Option.bind_some, hsqb, Option.bind_some]
      refine ⟨w, hw, hsign, htrim, ?_⟩
      rw [hmag, mag_bigtrunc, hsa.mag, hsb.mag, mag_bigtrunc, mag_rbBigMul0, hx]
      ring

/-- **The square of a bignum of any length.** -/
theorem bigsqr_exact (L : LongSize) (x : Bignum) :
    ∃ z, bigsqr L x = some z ∧ z.toInt = x.toInt * x.toInt := by
  obtain ⟨z, hz, hsquare⟩ := bigsqr_spec L x
  refine ⟨z, hz, ?_⟩
  rw [Bignum.toInt, if_pos hsquare.sign, hsquare.mag, ← x.abs_toInt, abs_mul_abs_self]

end MacRuby
