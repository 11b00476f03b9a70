import MacRuby.Bignum.DivRemSpec
import Mathlib.Data.Nat.Bitwise

/-!
# Bignum division is floored division

`bigdivrem` around its inner loop: the normalising shift, short division, and the
extraction of quotient and remainder.  Then the sign corrections of `bigdivmod`
and the methods on top of it.

The test that lets a dividend be its own remainder compares stored lengths.  It is
wrong for a divisor stored with so many leading zeros that it is longer than a
dividend of at least its size, which `DivOk` rules out; a divisor with
leading zeros that is not longer than the dividend is divided correctly.

## Main results

* `bigdivrem_spec` — quotient and remainder of the magnitudes, path by path.
* `bigdivmod_spec` — the floored quotient and modulus.
* `exactDivision_iff` — the routines and methods divide exactly when `DivOk`.
-/

namespace MacRuby

variable {xds yds zds : List BDigit}

/-! ## Shifts -/

theorem dropZeros_spec (ds : List BDigit) {n : ℕ} (h : Radix.val bigrad (digitAt ds) n ≠ 0) :
    0 < dropZeros ds n ∧ dropZeros ds n ≤ n ∧ digitAt ds (dropZeros ds n - 1) ≠ 0 ∧
      ∀ i, dropZeros ds n ≤ i → i < n → digitAt ds i = 0 := by
  induction n with
  | zero => simp at h
  | succ n ih =>
      by_cases hz : ds.getD n 0 = 0
      · have hd : digitAt ds n = 0 := (digitAt_eq_zero_iff ds n).mpr hz
        rw [Radix.val_succ, hd] at h
        obtain ⟨h1, h2, h3, h4⟩ := ih (by simpa using h)
        have hdrop : dropZeros ds (n + 1) = dropZeros ds n := by rw [dropZeros, if_pos hz]
        rw [hdrop]
        refine ⟨h1, by omega, h3, ?_⟩
        intro i hi hi'
        rcases Nat.lt_succ_iff_lt_or_eq.mp hi' with hlt | rfl
        · exact h4 i hi hlt
        · exact hd
      · have hdrop : dropZeros ds (n + 1) = n + 1 := by rw [dropZeros, if_neg hz]
        rw [hdrop]
        exact ⟨by omega, le_rfl, fun hd => hz ((digitAt_eq_zero_iff ds n).mp hd), by omega⟩

/-- The guard of the search for the normalising shift. -/
theorem and_topBit_eq_zero_iff (q : BDigit) : (q &&& 0x80000000 == 0) = true ↔
    q.toNat < 2 ^ 31 := by
  have hq := q.toNat_lt
  have htop : (0x80000000 : UInt32).toNat = 2 ^ 31 := rfl
  rw [beq_iff_eq, ← UInt32.toNat_inj, UInt32.toNat_and, htop, Nat.and_two_pow]
  rw [show (0 : UInt32).toNat = 0 from rfl]
  by_cases hlt : q.toNat < 2 ^ 31
  · simpa [Nat.testBit_lt_two_pow hlt] using hlt
  · have hbit : q.toNat.testBit 31 = true := by
      rw [Nat.testBit_eq_decide_div_mod_eq]
      simp
      omega
    simpa [hbit] using hlt

/-- The search stops within `n` turns if `n` doublings bring the top bit up. -/
theorem whileFuel_normShift (n : ℕ) : ∀ (fuel : ℕ) (p : BDigit) (c : ℕ), n ≤ fuel →
    2 ^ 31 ≤ p.toNat * 2 ^ n →
    ∃ p' d, Loop.whileFuel (fun s : BDigit × ℕ => s.1 &&& 0x80000000 == 0)
        (fun s => (s.1 <<< 1, s.2 + 1)) fuel (p, c) = some (p', c + d) ∧
      d ≤ n ∧ p'.toNat = p.toNat * 2 ^ d ∧ 2 ^ 31 ≤ p'.toNat := by
  have hstop : ∀ (fuel : ℕ) (p : BDigit) (c : ℕ), ¬ p.toNat < 2 ^ 31 →
      Loop.whileFuel (fun s : BDigit × ℕ => s.1 &&& 0x80000000 == 0)
        (fun s => (s.1 <<< 1, s.2 + 1)) fuel (p, c) = some (p, c) := by
    intro fuel p c hp
    refine Loop.whileFuel_of_not ?_ fuel
    rw [← Bool.not_eq_true]
    exact fun h => hp ((and_topBit_eq_zero_iff p).mp h)
  induction n with
  | zero =>
      intro fuel p c _ hp
      have hp' : 2 ^ 31 ≤ p.toNat := by simpa using hp
      exact ⟨p, 0, hstop fuel p c (by omega), le_rfl, by simp, hp'⟩
  | succ n ih =>
      intro fuel p c hn hp
      by_cases hlt : p.toNat < 2 ^ 31
      · obtain ⟨f, rfl⟩ : ∃ f, fuel = f + 1 := ⟨fuel - 1, by omega⟩
        have hdouble : (p <<< 1).toNat = p.toNat * 2 := by
          rw [UInt32.toNat_shiftLeft, show (1 : UInt32).toNat % 32 = 1 from rfl,
            Nat.shiftLeft_eq, pow_one]
          exact Nat.mod_eq_of_lt (by omega)
        have hguard := (and_topBit_eq_zero_iff p).mpr hlt
        rw [Loop.whileFuel_of_guard (a := (p, c)) hguard]
        obtain ⟨p', d, hrun, hd, hval, hbig⟩ := ih f (p <<< 1) (c + 1) (by omega) (by
          rw [hdouble, Nat.mul_assoc, ← pow_succ']
          exact hp)
        refine ⟨p', d + 1, ?_, by omega, ?_, hbig⟩
        · rw [hrun, Nat.add_assoc, Nat.add_comm 1 d]
        · rw [hval, hdouble, Nat.mul_assoc, ← pow_succ']
      · exact ⟨p, 0, hstop fuel p c hlt, by omega, by simp, by omega⟩

/-- **The normalising shift** is found within 31 turns and brings the top bit up. -/
theorem normShift_spec {fuel : ℕ} (hfuel : 31 ≤ fuel) {q : BDigit} (hq : q.toNat ≠ 0) :
    ∃ dd, normShift fuel q = some dd ∧ dd ≤ 31 ∧ 2 ^ 31 ≤ q.toNat * 2 ^ dd ∧
      q.toNat * 2 ^ dd < 2 ^ 32 := by
  have h31 : 2 ^ 31 ≤ q.toNat * 2 ^ 31 := Nat.le_mul_of_pos_left _ (by omega)
  obtain ⟨p', d, hrun, hd, hval, hbig⟩ := whileFuel_normShift 31 fuel q 0 hfuel h31
  refine ⟨d, ?_, hd, by omega, ?_⟩
  · rw [normShift, hrun]
    simp
  · rw [← hval]
    exact p'.toNat_lt

/-- Shifting left: digits and carry make up the shifted number. -/
theorem shiftLeft_spec (src dst : List BDigit) {dd n : ℕ} (hdd : dd ≤ 31) (hn : n ≤ dst.length) :
    Carry.Inv (fun i => digitAt src i * 2 ^ dd) dst.length 0 (2 ^ dd - 1) n
      (shiftLeft src dd n dst) := by
  have hpow0 : (1 : ℤ) ≤ 2 ^ dd := one_le_pow₀ (by norm_num)
  have hpow1 : (2 : ℤ) ^ dd ≤ 2 ^ 31 := pow_le_pow_right₀ (by norm_num) hdd
  refine Loop.upto_induction (Carry.Inv (fun i => digitAt src i * 2 ^ dd) dst.length 0 (2 ^ dd - 1))
    ⟨rfl, by simp, le_rfl, by dsimp only; omega⟩ ?_
  intro i s hi h
  have hlo := h.lo_le
  have hhi := h.le_hi
  have hd0 := digitAt_nonneg src i
  have hd1 := digitAt_lt src i
  have he0 : 0 ≤ digitAt src i * 2 ^ dd := by positivity
  have he1 : digitAt src i * 2 ^ dd ≤ (bigrad - 1) * 2 ^ dd :=
    mul_le_mul_of_nonneg_right (by omega) (by positivity)
  have hsum : s.num + digitAt src i * 2 ^ dd < 2 ^ dd * bigrad := by linarith
  have hcap : (2 : ℤ) ^ dd * bigrad ≤ 2 ^ 31 * bigrad :=
    mul_le_mul_of_nonneg_right hpow1 bigrad_pos.le
  have hfit : s.num + digitAt src i * 2 ^ dd < 2 ^ 64 := by
    simp only [bigrad] at *
    omega
  rw [Carry.step_eq (by omega) hfit]
  exact h.store (by omega) (by omega) (by simpa using hsum)

/-- Dividing by a divisor of the radix, one digit at a time. -/
theorem shift_digit {b d e h z : ℤ} (hb : b = d * e) (hd : 0 < d) (he : 0 < e) (hz0 : 0 ≤ z)
    (hz : z < b) : ((h % b) * b + z) / d % b + b * (h / d) = (z + b * h) / d := by
  have h1 : (z + b * h) / d = z / d + e * h := by
    rw [hb, show z + d * e * h = z + d * (e * h) by ring, Int.add_mul_ediv_left _ _ hd.ne']
  have h2 : ((h % b) * b + z) / d = z / d + e * (h % b) := by
    rw [hb, show h % (d * e) * (d * e) + z = z + d * (e * (h % (d * e))) by ring,
      Int.add_mul_ediv_left _ _ hd.ne']
  have hzd0 : 0 ≤ z / d := Int.ediv_nonneg hz0 hd.le
  have hzd1 : z / d < e := Int.ediv_lt_of_lt_mul hd (by rw [mul_comm, ← hb]; exact hz)
  have hm0 := Int.emod_nonneg h hd.ne'
  have hm1 := Int.emod_lt_of_pos h hd
  have hdm := Int.emod_add_mul_ediv h d
  have hbm := Int.emod_add_mul_ediv h b
  -- the low digit of the quotient is what is left of `h` below `d`, and `z / d`
  have hlow : (z / d + e * (h % b)) % b = z / d + e * (h % d) := by
    have hcongr : z / d + e * (h % b) =
        z / d + e * (h % d) + b * (h / d - e * (h / b)) := by
      have he' : e * (h % b) = e * (h % d) + e * d * (h / d) - e * b * (h / b) := by
        linear_combination e * hbm - e * hdm
      rw [he', hb]
      ring
    rw [hcongr, Int.add_mul_emod_self_left]
    refine Int.emod_eq_of_lt (by positivity) ?_
    have : e * (h % d) ≤ e * (d - 1) := mul_le_mul_of_nonneg_left (by omega) he.le
    rw [hb]
    linarith
  rw [h1, h2, hlow, hb]
  linear_combination e * hdm

/-- **Shifting right divides** the first `n` digits by `2 ^ dd`. -/
theorem shiftRight_spec {dd n : ℕ} (hdd : dd ≤ 31) (hn : n ≤ zds.length) :
    (shiftRight dd n zds).length = zds.length ∧
      window (shiftRight dd n zds) 0 n = window zds 0 n / 2 ^ dd := by
  have hrad : bigrad = 2 ^ dd * 2 ^ (32 - dd) := by
    rw [← pow_add, show dd + (32 - dd) = 32 by omega]
    rfl
  have hrun := Loop.downFrom_induction (n := n) (a := ((0 : ℕ), zds))
    (f := fun i (s : ℕ × List BDigit) =>
      let t2 := (s.1 ||| (s.2.getD i 0).toNat) >>> dd
      ((bigup (digitAt s.2 i)).toNat, s.2.set i (biglo t2)))
    (fun i s => s.2.length = zds.length ∧ (∀ j, j < i → digitAt s.2 j = digitAt zds j) ∧
      (s.1 : ℤ) = window zds i (n - i) % bigrad * bigrad ∧
      window s.2 i (n - i) = window zds i (n - i) / 2 ^ dd)
    ⟨rfl, fun _ _ => rfl, by simp [window], by simp [window]⟩ (by
      rintro i ⟨t2, ds⟩ hi ⟨hlen, hlow, ht2, hval⟩
      dsimp only at hlen hlow ht2 hval ⊢
      have hni : n - i = n - (i + 1) + 1 := by omega
      have hz := hlow i (by omega)
      have hz0 := digitAt_nonneg zds i
      have hz1 := digitAt_lt zds i
      have hH := window_succ' zds i (n - (i + 1))
      rw [← hni] at hH
      refine ⟨by simpa using hlen, ?_, ?_, ?_⟩
      · intro j hj
        rw [digitAt_set_ne (by omega)]
        exact hlow j (by omega)
      · -- the digit kept for the next turn is the low digit of what has been read
        have hup : bigup (digitAt zds i) = digitAt zds i * bigrad := by
          simp only [bigup, toDbl, bigrad] at *
          omega
        rw [hz, hup, Int.toNat_of_nonneg (mul_nonneg hz0 bigrad_pos.le), hH,
          Int.add_mul_emod_self_left,
          Int.emod_eq_of_lt hz0 hz1]
      · have hor : ((t2 ||| (ds.getD i 0).toNat : ℕ) : ℤ) =
            window zds (i + 1) (n - (i + 1)) % bigrad * bigrad + digitAt zds i := by
          obtain ⟨c, hc⟩ : ∃ c : ℕ, t2 = 2 ^ 32 * c := by
            refine ⟨(window zds (i + 1) (n - (i + 1)) % bigrad).toNat, ?_⟩
            have h0 := Int.emod_nonneg (window zds (i + 1) (n - (i + 1))) bigrad_pos.ne'
            zify
            rw [ht2, Int.toNat_of_nonneg h0]
            simp only [bigrad]
            ring
          have hlt : (ds.getD i 0).toNat < 2 ^ 32 := (ds.getD i 0).toNat_lt
          rw [← ht2, ← hz, hc, ← Nat.two_pow_add_eq_or_of_lt hlt]
          push_cast
          rfl
        have hset : window (ds.set i (biglo ((t2 ||| (ds.getD i 0).toNat) >>> dd : ℕ))) (i + 1)
            (n - (i + 1)) = window ds (i + 1) (n - (i + 1)) :=
          window_congr (fun j hj _ => digitAt_set_ne (by omega) _)
        rw [hni, window_succ', hset, ← hni, hval, digitAt_set_self (by omega), toNat_biglo,
          Nat.shiftRight_eq_div_pow]
        push_cast
        rw [hor, hH]
        exact shift_digit hrad (by positivity) (by positivity) hz0 hz1)
  obtain ⟨h1, -, -, h4⟩ := hrun
  rw [Nat.sub_zero] at h4
  exact ⟨h1, h4⟩

/-! ## Short division -/

/-- **Short division** by a non-zero digit. -/
theorem shortDivide_spec {dd : BDigit} (hdd : 0 < dd.toNat) (x : Bignum) :
    x.mag = magnitude (shortDivide dd x).2 * dd.toNat + (shortDivide dd x).1 ∧
      0 ≤ (shortDivide dd x).1 ∧ (shortDivide dd x).1 < dd.toNat := by
  have hd0 : (0 : ℤ) < dd.toNat := by exact_mod_cast hdd
  have hd1 : (dd.toNat : ℤ) < bigrad := by
    have := dd.toNat_lt
    simp only [bigrad]
    omega
  have hrun := Loop.downFrom_induction (n := x.len) (a := ((0 : ℤ), x.digits))
    (f := fun i (s : ℤ × List BDigit) =>
      let t2 := toDbl (bigup s.1 + digitAt s.2 i)
      (t2 % dd.toNat, s.2.set i (biglo (t2 / dd.toNat))))
    (fun i s => s.2.length = x.len ∧ (∀ j, j < i → digitAt s.2 j = digitAt x.digits j) ∧
      (0 ≤ s.1 ∧ s.1 < dd.toNat) ∧
      window x.digits i (x.len - i) = window s.2 i (x.len - i) * dd.toNat + s.1)
    ⟨rfl, fun _ _ => rfl, ⟨le_rfl, hd0⟩, by simp [window]⟩ (by
      rintro i ⟨r, ds⟩ hi ⟨hlen, hlow, ⟨hr0, hr1⟩, hval⟩
      dsimp only at hlen hlow hr0 hr1 hval ⊢
      have hz := hlow i (by omega)
      have hz0 := digitAt_nonneg ds i
      have hz1 := digitAt_lt ds i
      have ht2 : toDbl (bigup r + digitAt ds i) = digitAt ds i + r * bigrad :=
        toDbl_bigup_add hr0 (by omega) hz0 hz1
      have hni : x.len - i = x.len - (i + 1) + 1 := by omega
      rw [ht2]
      -- the quotient digit is a digit, since the remainder carried in is below `dd`
      have hq : (digitAt ds i + r * bigrad) / dd.toNat % bigrad =
          (digitAt ds i + r * bigrad) / dd.toNat := by
        refine Int.emod_eq_of_lt (Int.ediv_nonneg ?_ hd0.le) (Int.ediv_lt_of_lt_mul hd0 ?_)
        · exact add_nonneg hz0 (mul_nonneg hr0 bigrad_pos.le)
        · have : (r + 1) * bigrad ≤ dd.toNat * bigrad :=
            mul_le_mul_of_nonneg_right hr1 bigrad_pos.le
          linarith
      have hdm := Int.emod_add_mul_ediv (digitAt ds i + r * bigrad) dd.toNat
      refine ⟨by simpa using hlen, ?_, ⟨Int.emod_nonneg _ hd0.ne', Int.emod_lt_of_pos _ hd0⟩, ?_⟩
      · intro j hj
        rw [digitAt_set_ne (by omega)]
        exact hlow j (by omega)
      · have hset : window (ds.set i (biglo ((digitAt ds i + r * bigrad) / dd.toNat))) (i + 1)
            (x.len - (i + 1)) = window ds (i + 1) (x.len - (i + 1)) :=
          window_congr (fun j hj _ => digitAt_set_ne (by omega) _)
        rw [hni, window_succ', window_succ', hset, digitAt_set_self (by omega), toNat_biglo, hq,
          hval, ← hz]
        linear_combination -hdm)
  obtain ⟨hlen, -, ⟨hr0, hr1⟩, hval⟩ := hrun
  rw [Nat.sub_zero, window_zero, window_zero] at hval
  refine ⟨?_, hr0, hr1⟩
  rw [Bignum.mag, magnitude, magnitude, shortDivide, hlen]
  exact hval

/-! ## Quotient and remainder -/

/-- Moving the quotient down. -/
theorem moveQuotient_spec {ny cnt : ℕ} (zds : List BDigit) (hlen : ny + cnt ≤ zds.length) :
    magnitude (moveQuotient ny cnt zds) = window zds ny cnt := by
  have hrun := Loop.upto_induction (n := cnt) (a := zds)
    (f := fun i (ds : List BDigit) => ds.set i (ds.getD (i + ny) 0))
    (fun i ds => ds.length = zds.length ∧ (∀ j, j < i → digitAt ds j = digitAt zds (ny + j)) ∧
      ∀ j, i ≤ j → digitAt ds j = digitAt zds j)
    ⟨rfl, by simp, fun _ _ => rfl⟩ (by
      rintro i ds hi ⟨hl, hlow, hhigh⟩
      refine ⟨by simpa using hl, ?_, ?_⟩
      · intro j hj
        rcases Nat.lt_succ_iff_lt_or_eq.mp hj with hlt | rfl
        · rw [digitAt_set_ne (by omega)]
          exact hlow j hlt
        · rw [digitAt_set_self (by omega), Nat.add_comm ny j]
          exact hhigh (j + ny) (by omega)
      · intro j hj
        rw [digitAt_set_ne (by omega)]
        exact hhigh j (by omega))
  obtain ⟨-, hlow, -⟩ := hrun
  rw [moveQuotient, magnitude_take (n := cnt) le_rfl (by omega)]
  exact Radix.val_congr hlow

/-- Trimming the remainder and shifting it back. -/
theorem takeRemainder_spec {ny dd : ℕ} (hny : 0 < ny) (hdd : dd ≤ 31) (hlen : ny ≤ zds.length) :
    magnitude (takeRemainder ny dd zds) = window zds 0 ny / 2 ^ dd := by
  obtain ⟨-, h2, h3, -⟩ := trimLen_spec zds hny
  have htrim : window zds 0 ny = window zds 0 (trimLen zds ny) := by
    rw [window_zero, window_zero]
    exact Radix.val_of_le h2 h3
  simp only [takeRemainder]
  rw [magnitude_take (n := trimLen zds ny) le_rfl (by omega), htrim, ← window_zero]
  by_cases hz : dd = 0
  · simp [hz]
  · rw [if_pos hz]
    exact (shiftRight_spec hdd (by omega)).2

/-! ## Normalised operands -/

/-- The shift leaves the digits above it alone. -/
theorem digitAt_shiftLeft_of_le (src dst : List BDigit) (dd : ℕ) {n j : ℕ} (hj : n ≤ j) :
    digitAt (shiftLeft src dd n dst).zds j = digitAt dst j := by
  have hrun := Loop.upto_induction (n := n) (a := (⟨0, dst⟩ : Carry))
    (f := fun j => Carry.step (digitAt src j * 2 ^ dd) j)
    (fun i s => ∀ j, i ≤ j → digitAt s.zds j = digitAt dst j) (fun _ _ => rfl) (by
      intro i s _ h j hj
      simp only [Carry.step]
      rw [digitAt_set_ne (by omega)]
      exact h j (by omega))
  exact hrun j hj

/-- The value of scaled digits. -/
theorem val_mul_digits (ds : List BDigit) (c : ℤ) (n : ℕ) :
    Radix.val bigrad (fun i => digitAt ds i * c) n = Radix.val bigrad (digitAt ds) n * c := by
  simp only [Radix.val, Finset.sum_mul]
  exact Finset.sum_congr rfl (fun i _ => by ring)

/-- **The normalised divisor** is the divisor times `2 ^ dd`, and its top bit is set. -/
theorem normalizeDivisor_spec {y : Bignum} {dd ny : ℕ} (hny : 0 < ny) (hlen : ny ≤ y.len)
    (hz : ∀ i, ny ≤ i → i < y.len → digitAt y.digits i = 0) (hdd : dd ≤ 31)
    (hlo : 2 ^ 31 ≤ digitAt y.digits (ny - 1) * 2 ^ dd)
    (hhi : digitAt y.digits (ny - 1) * 2 ^ dd < bigrad) :
    Radix.val bigrad (digitAt (normalizeDivisor dd ny y)) ny = y.mag * 2 ^ dd ∧
      2 ^ 31 ≤ digitAt (normalizeDivisor dd ny y) (ny - 1) := by
  obtain ⟨n, rfl⟩ : ∃ n, ny = n + 1 := ⟨ny - 1, by omega⟩
  simp only [Nat.add_sub_cancel] at hlo hhi ⊢
  have hB := pow_pos bigrad_pos n
  have hD : (0 : ℤ) < 2 ^ dd := by positivity
  have hmag : y.mag = Radix.val bigrad (digitAt y.digits) (n + 1) := Radix.val_of_le hlen hz
  have hval : Radix.val bigrad (digitAt (normalizeDivisor dd (n + 1) y)) (n + 1) =
      y.mag * 2 ^ dd := by
    by_cases h0 : dd = 0
    · simp [normalizeDivisor, h0, hmag]
    · have hinv := shiftLeft_spec y.digits y.digits (n := n + 1) hdd hlen
      rw [normalizeDivisor, if_pos h0]
      generalize shiftLeft y.digits dd (n + 1) y.digits = s at hinv
      have hv := hinv.value
      rw [val_mul_digits, ← hmag] at hv
      -- nothing is carried out of the top: the top digit still fits
      have hfit : y.mag * 2 ^ dd < bigrad ^ (n + 1) := by
        have hlt := Radix.val_lt (n := n) bigrad_pos (fun i _ => digitAt_lt y.digits i)
        have hdiv : (2 : ℤ) ^ dd ∣ bigrad := by
          rw [show bigrad = 2 ^ 32 from rfl]
          exact pow_dvd_pow 2 (by omega)
        obtain ⟨e, he⟩ := hdiv
        have htop : digitAt y.digits n + 1 ≤ e := by
          rw [he, mul_comm] at hhi
          exact lt_of_mul_lt_mul_left hhi hD.le
        have h1 : (digitAt y.digits n + 1) * bigrad ^ n ≤ e * bigrad ^ n :=
          mul_le_mul_of_nonneg_right htop hB.le
        have h2 : y.mag < e * bigrad ^ n := by
          rw [hmag, Radix.val_succ]
          linarith
        have h3 : y.mag * 2 ^ dd < e * bigrad ^ n * 2 ^ dd := mul_lt_mul_of_pos_right h2 hD
        have h4 : e * bigrad ^ n * 2 ^ dd = bigrad ^ (n + 1) := by
          rw [pow_succ]
          linear_combination -bigrad ^ n * he
        rwa [h4] at h3
      have hnum : s.num = 0 := by
        have h0 := hinv.lo_le
        have hnn := Radix.val_nonneg (n := n + 1) bigrad_pos.le
          (fun i _ => digitAt_nonneg s.zds i)
        by_contra hne
        have : 1 * bigrad ^ (n + 1) ≤ s.num * bigrad ^ (n + 1) :=
          mul_le_mul_of_nonneg_right (by omega) (pow_pos bigrad_pos _).le
        linarith
      simpa [hnum] using hv
  refine ⟨hval, ?_⟩
  have hlt := Radix.val_lt (n := n) bigrad_pos
    (fun i _ => digitAt_lt (normalizeDivisor dd (n + 1) y) i)
  have hnn := Radix.val_nonneg (n := n) bigrad_pos.le (fun i _ => digitAt_nonneg y.digits i)
  rw [hmag, Radix.val_succ, Radix.val_succ] at hval
  have h1 : 2 ^ 31 * bigrad ^ n ≤ digitAt y.digits n * 2 ^ dd * bigrad ^ n :=
    mul_le_mul_of_nonneg_right hlo hB.le
  have h2 : 0 ≤ Radix.val bigrad (digitAt y.digits) n * 2 ^ dd := mul_nonneg hnn hD.le
  have h3 : 2 ^ 31 * bigrad ^ n < (digitAt (normalizeDivisor dd (n + 1) y) n + 1) * bigrad ^ n := by
    linarith
  exact Int.le_of_lt_add_one (lt_of_mul_lt_mul_right h3 hB.le)

/-- **The normalised dividend** is the dividend times `2 ^ dd`. -/
theorem normalizeDividend_spec (x : Bignum) {dd nz : ℕ} (hdd : dd ≤ 31) (hnz : x.len < nz) :
    (normalizeDividend dd x (List.replicate nz 0)).length = nz ∧
      Radix.val bigrad (digitAt (normalizeDividend dd x (List.replicate nz 0))) nz =
        x.mag * 2 ^ dd := by
  have hD : (0 : ℤ) < 2 ^ dd := by positivity
  by_cases h0 : dd = 0
  · have hrun := Loop.downFrom_induction (n := x.len)
      (a := (List.replicate nz (0 : BDigit)).set x.len 0)
      (f := fun j ds => ds.set j (x.digits.getD j 0))
      (fun i ds => ds.length = nz ∧ (∀ j, i ≤ j → digitAt ds j = digitAt x.digits j))
      ⟨by simp, ?_⟩ ?_
    · obtain ⟨hl, hd⟩ := hrun
      simp only [normalizeDividend, h0, ne_eq, not_true_eq_false, if_false, pow_zero, mul_one]
      refine ⟨hl, ?_⟩
      rw [Bignum.mag, magnitude_eq_val _ (n := nz)]
      · exact Radix.val_congr (fun i _ => hd i (by omega))
      · exact fun i hi => digitAt_of_le (le_trans hnz.le hi)
    · intro j hj
      rw [@digitAt_of_le x.digits j hj]
      by_cases hjx : j = x.len
      · subst hjx
        rw [digitAt_set_self (by simpa using hnz)]
        rfl
      · rw [digitAt_set_ne (by omega), digitAt_replicate]
    · rintro i ds hi ⟨hl, hd⟩
      refine ⟨by simpa using hl, ?_⟩
      intro j hj
      by_cases hji : j = i
      · subst hji
        rw [digitAt_set_self (by omega)]
        rfl
      · rw [digitAt_set_ne (by omega)]
        exact hd j (by omega)
  · have hinv := shiftLeft_spec x.digits (List.replicate nz 0) (n := x.len) hdd
      (by simpa using hnz.le)
    have hout := fun j (hj : x.len ≤ j) => digitAt_shiftLeft_of_le x.digits
      (List.replicate nz 0) dd hj
    simp only [normalizeDividend, ne_eq, h0, not_false_eq_true, if_true]
    generalize shiftLeft x.digits dd x.len (List.replicate nz 0) = s at hinv hout
    have hl := hinv.length
    rw [List.length_replicate] at hl
    have hlo := hinv.lo_le
    have hhi := hinv.le_hi
    have hcap : (2 : ℤ) ^ dd ≤ 2 ^ 31 := pow_le_pow_right₀ (by norm_num) hdd
    have hnum : s.num % bigrad = s.num := Int.emod_eq_of_lt hlo (by simp only [bigrad]; omega)
    refine ⟨by simpa using hl, ?_⟩
    rw [Radix.val_of_le (m := x.len + 1) hnz, Radix.val_succ, digitAt_set_self (by omega),
      toNat_biglo, hnum]
    · have hpre : Radix.val bigrad (digitAt (s.zds.set x.len (biglo s.num))) x.len =
          Radix.val bigrad (digitAt s.zds) x.len :=
        Radix.val_congr (fun i hi => digitAt_set_ne (by omega) _)
      rw [hpre, hinv.value, val_mul_digits]
      rfl
    · intro i hi _
      rw [digitAt_set_ne (by omega), hout i (by omega), digitAt_replicate]

/-! ## `bigdivrem` -/

/-- The operands on which the length test of `bigdivrem` is right: the divisor is not
stored longer than the dividend, or the dividend really is the smaller one. -/
def DivOk (x y : Bignum) : Prop := y.len ≤ x.len ∨ x.mag < y.mag

/-- What `bigdivrem` leaves: quotient and remainder of the magnitudes, the sign of the
dividend on the remainder, and a remainder that is not stored longer than the
divisor. -/
structure DivRem (L : LongSize) (x y q r : Bignum) : Prop where
  mag_eq : x.mag = q.mag * y.mag + r.mag
  rem_lt : r.mag < y.mag
  quo_sign : q.sign = (x.sign == y.sign) ∨ q = rbInt2big L 0
  rem_sign : r.sign = x.sign
  rem_len : r.len ≤ y.len

/-- A top digit that is smaller makes the whole number smaller. -/
theorem mag_lt_of_top_lt {x y : Bignum} (hlen : x.len = y.len)
    (htop : x.digits.getD (x.len - 1) 0 < y.digits.getD (y.len - 1) 0) : x.mag < y.mag := by
  have hd : digitAt x.digits (x.len - 1) + 1 ≤ digitAt y.digits (y.len - 1) := by
    have := UInt32.lt_iff_toNat_lt.mp htop
    simp only [digitAt]
    omega
  have hpos : 0 < y.len := by
    by_contra h
    have h0 := digitAt_nonneg x.digits (x.len - 1)
    have h1 : digitAt y.digits (y.len - 1) = 0 :=
      digitAt_of_le (show y.len ≤ y.len - 1 by omega)
    omega
  obtain ⟨n, hn⟩ : ∃ n, y.len = n + 1 := ⟨y.len - 1, by omega⟩
  have hx : x.mag = Radix.val bigrad (digitAt x.digits) (n + 1) := by rw [← hn, ← hlen]; rfl
  have hy : y.mag = Radix.val bigrad (digitAt y.digits) (n + 1) := by rw [← hn]; rfl
  rw [hlen, hn, Nat.add_sub_cancel] at hd
  have hlt := Radix.val_lt (n := n) bigrad_pos (fun i _ => digitAt_lt x.digits i)
  have hnn := Radix.val_nonneg (n := n) bigrad_pos.le (fun i _ => digitAt_nonneg y.digits i)
  have hmul : (digitAt x.digits n + 1) * bigrad ^ n ≤ digitAt y.digits n * bigrad ^ n :=
    mul_le_mul_of_nonneg_right hd (pow_nonneg bigrad_pos.le n)
  rw [hx, hy, Radix.val_succ, Radix.val_succ]
  linarith

/-- A word below the radix takes a single digit. -/
theorem len_rbUint2big {L : LongSize} {n : ℤ} (h0 : 0 ≤ n) (hn : n < bigrad) :
    (rbUint2big L n).len ≤ 1 := by
  have hword : n < 2 ^ L.bits :=
    lt_of_lt_of_le hn (by cases L <;> norm_num [bigrad, LongSize.bits, LongSize.bytes])
  have hmag := mag_rbUint2big h0 hword
  have hpos : 0 < L.digsPerLong := by cases L <;> decide
  by_contra hlen
  dsimp only [rbUint2big, Bignum.len, Bignum.mag] at hmag hlen
  generalize Loop.upto _ L.digsPerLong _ = s at hmag hlen
  obtain ⟨h1, h2, h3, h4⟩ := trimLen_spec s.2 hpos
  rw [List.length_take] at hlen
  -- a second digit would be non-zero, so that the number would not be below the radix
  obtain ⟨m, hm⟩ : ∃ m, trimLen s.2 L.digsPerLong = m + 2 :=
    ⟨trimLen s.2 L.digsPerLong - 2, by omega⟩
  rw [magnitude_take le_rfl (by omega), hm, Radix.val_succ] at hmag
  have htop : 1 ≤ digitAt s.2 (m + 1) := by
    have := digitAt_nonneg s.2 (m + 1)
    rcases h4 with h4 | h4
    · omega
    · rw [hm] at h4
      rw [show m + 2 - 1 = m + 1 by omega] at h4
      omega
  have hnn := Radix.val_nonneg (n := m + 1) bigrad_pos.le (fun i _ => digitAt_nonneg s.2 i)
  have hB : bigrad ≤ bigrad ^ (m + 1) := by
    rw [pow_succ]
    exact le_mul_of_one_le_left bigrad_pos.le (one_le_pow₀ (by simp only [bigrad]; norm_num))
  have hmul : 1 * bigrad ^ (m + 1) ≤ digitAt s.2 (m + 1) * bigrad ^ (m + 1) :=
    mul_le_mul_of_nonneg_right htop (pow_nonneg bigrad_pos.le _)
  linarith

theorem toInt_rbInt2big_zero (L : LongSize) : (rbInt2big L 0).toInt = 0 :=
  toInt_rbInt2big (by cases L <;> norm_num) (by positivity)

section Paths

variable {L : LongSize} {fuel : ℕ} {x y : Bignum}

/-- The early return: the dividend is its own remainder. -/
theorem bigdivrem_early (hy : bigzerop y = false) (hok : DivOk x y)
    (hearly : x.len < y.len ∨
      (x.len = y.len ∧ x.digits.getD (x.len - 1) 0 < y.digits.getD (y.len - 1) 0)) :
    ∃ q r, bigdivrem L fuel x y = .ok (q, r) ∧ DivRem L x y q r := by
  have hlt : x.mag < y.mag := by
    rcases hearly with hlt | ⟨heq, htop⟩
    · exact hok.resolve_left (by omega)
    · exact mag_lt_of_top_lt heq htop
  have hq0 : (rbInt2big L 0).mag = 0 :=
    (Bignum.toInt_eq_zero_iff _).mp (toInt_rbInt2big_zero L)
  refine ⟨rbInt2big L 0, x, ?_, ?_, hlt, Or.inr rfl, rfl, by omega⟩
  · simp only [bigdivrem, hy, Bool.false_eq_true, if_false, if_pos hearly]
  · rw [hq0]
    ring

/-- A divisor of one digit. -/
theorem bigdivrem_single (hy : bigzerop y = false) (hymag : y.mag ≠ 0) (hone : y.len = 1)
    (hearly : ¬ (x.len < y.len ∨
      (x.len = y.len ∧ x.digits.getD (x.len - 1) 0 < y.digits.getD (y.len - 1) 0))) :
    ∃ q r, bigdivrem L fuel x y = .ok (q, r) ∧ DivRem L x y q r := by
  have hmag : y.mag = (y.digits.getD 0 0).toNat := by
    rw [Bignum.mag, magnitude, show y.digits.length = 1 from hone, Radix.val_one]
    rfl
  have hdd : 0 < (y.digits.getD 0 0).toNat := by
    rcases Nat.eq_zero_or_pos (y.digits.getD 0 0).toNat with h | h
    · rw [h] at hmag
      exact absurd hmag hymag
    · exact h
  obtain ⟨hdiv, hr0, hr1⟩ := shortDivide_spec hdd x
  have hrad : (shortDivide (y.digits.getD 0 0) x).1 < bigrad :=
    lt_trans hr1 (digitAt_lt y.digits 0)
  have hword : (shortDivide (y.digits.getD 0 0) x).1 < 2 ^ L.bits :=
    lt_of_lt_of_le hrad (by cases L <;> norm_num [bigrad, LongSize.bits, LongSize.bytes])
  have hrun : bigdivrem L fuel x y =
      .ok (⟨x.sign == y.sign, (shortDivide (y.digits.getD 0 0) x).2⟩,
        { rbUint2big L (shortDivide (y.digits.getD 0 0) x).1 with sign := x.sign }) := by
    simp only [bigdivrem, hy, Bool.false_eq_true, if_false, if_neg hearly, if_pos hone,
      Int.emod_eq_of_lt hr0 hword]
  have hrmag : Bignum.mag { rbUint2big L (shortDivide (y.digits.getD 0 0) x).1 with
      sign := x.sign } = (shortDivide (y.digits.getD 0 0) x).1 := mag_rbUint2big hr0 hword
  refine ⟨_, _, hrun, ?_, ?_, Or.inl rfl, rfl, ?_⟩
  · rw [hdiv, hrmag, hmag]
    rfl
  · rw [hrmag, hmag]
    exact hr1
  · rw [hone]
    exact len_rbUint2big hr0 hrad

/-- A divisor of several stored digits: long division on normalised operands. -/
theorem bigdivrem_long (hfuel : 31 ≤ fuel) (hy : bigzerop y = false) (hymag : y.mag ≠ 0)
    (hone : y.len ≠ 1)
    (hearly : ¬ (x.len < y.len ∨
      (x.len = y.len ∧ x.digits.getD (x.len - 1) 0 < y.digits.getD (y.len - 1) 0))) :
    ∃ q r, bigdivrem L fuel x y = .ok (q, r) ∧ DivRem L x y q r := by
  obtain ⟨h1, h2, h3, h4⟩ := dropZeros_spec y.digits (n := y.len) hymag
  obtain ⟨dd, hdd, hdd31, hlo, hhi⟩ := normShift_spec hfuel
    (q := y.digits.getD (dropZeros y.digits y.len - 1) 0) (by simpa [digitAt] using h3)
  obtain ⟨ny, hny⟩ : ∃ ny, ny = dropZeros y.digits y.len := ⟨_, rfl⟩
  rw [← hny] at h1 h2 h3 h4 hdd hlo hhi
  obtain ⟨hYval, hYtop⟩ := normalizeDivisor_spec h1 h2 h4 hdd31
    (by simp only [digitAt]; exact_mod_cast hlo)
    (by simp only [digitAt, bigrad]; exact_mod_cast hhi)
  have hxy : y.len ≤ x.len := by omega
  -- the `K` quotient digits and the `ny` remainder digits fit in `z`
  obtain ⟨K, hK⟩ : ∃ K, K = (if x.len = ny then x.len + 1 else x.len) + 1 - ny := ⟨_, rfl⟩
  obtain ⟨nz, hnz⟩ : ∃ nz, nz = if x.len = y.len then x.len + 2 else x.len + 1 := ⟨_, rfl⟩
  have hcnt : (if x.len = ny then x.len + 2 else x.len + 1) - ny = K := by
    rw [hK]
    split <;> omega
  have hfit : ny + K ≤ nz := by
    rw [hK, hnz]
    split <;> split <;> omega
  have hxK : x.len + 1 ≤ ny + K := by
    rw [hK]
    split <;> omega
  obtain ⟨hZlen, hZval⟩ := normalizeDividend_spec x hdd31
    (by rw [hnz]; split <;> omega : x.len < nz)
  have hB : (0 : ℤ) < 2 ^ dd := by positivity
  have hxlt : x.mag * 2 ^ dd < 2 ^ 31 * bigrad ^ x.len := by
    have ha : x.mag * 2 ^ dd < bigrad ^ x.len * 2 ^ dd :=
      mul_lt_mul_of_pos_right (magnitude_lt x.digits) hB
    have hb : bigrad ^ x.len * 2 ^ dd ≤ bigrad ^ x.len * 2 ^ 31 :=
      mul_le_mul_of_nonneg_left (pow_le_pow_right₀ (by norm_num) hdd31)
        (pow_nonneg bigrad_pos.le _)
    linarith
  have hpowK : bigrad ^ (x.len + 1) ≤ bigrad ^ (ny + K) :=
    pow_le_pow_right₀ (by simp only [bigrad]; norm_num) hxK
  -- the digits that `bigdivrem1` divides hold all of the dividend
  have hZ : window (normalizeDividend dd x (List.replicate nz 0)) 0 (ny + K) =
      x.mag * 2 ^ dd := by
    rw [← hZval, window_zero]
    have hsplit := Radix.val_add bigrad
      (digitAt (normalizeDividend dd x (List.replicate nz 0))) (ny + K) (nz - (ny + K))
    rw [Nat.add_sub_cancel' hfit, hZval] at hsplit
    have hlow := Radix.val_nonneg (n := ny + K) bigrad_pos.le
      (fun i _ => digitAt_nonneg (normalizeDividend dd x (List.replicate nz 0)) i)
    have hrest := Radix.val_nonneg (n := nz - (ny + K)) bigrad_pos.le
      (fun i _ => digitAt_nonneg (normalizeDividend dd x (List.replicate nz 0)) (ny + K + i))
    have hz : Radix.val bigrad (fun i =>
        digitAt (normalizeDividend dd x (List.replicate nz 0)) (ny + K + i)) (nz - (ny + K)) =
        0 := by
      by_contra hne
      have hge : bigrad ^ (ny + K) * 1 ≤ bigrad ^ (ny + K) * Radix.val bigrad (fun i =>
          digitAt (normalizeDividend dd x (List.replicate nz 0)) (ny + K + i))
          (nz - (ny + K)) :=
        mul_le_mul_of_nonneg_left (by omega) (pow_nonneg bigrad_pos.le _)
      have hbig : 2 ^ 31 * bigrad ^ x.len ≤ bigrad ^ (x.len + 1) := by
        rw [pow_succ' bigrad]
        exact mul_le_mul_of_nonneg_right (by norm_num [bigrad]) (pow_nonneg bigrad_pos.le _)
      linarith
    rw [hz] at hsplit
    rw [hZval, hsplit]
    ring
  have hYlow : 2 ^ 31 * bigrad ^ (ny - 1) ≤ y.mag * 2 ^ dd := by
    obtain ⟨n, rfl⟩ : ∃ n, ny = n + 1 := ⟨ny - 1, by omega⟩
    rw [← hYval, Radix.val_succ, Nat.add_sub_cancel]
    have hnn := Radix.val_nonneg (n := n) bigrad_pos.le
      (fun i _ => digitAt_nonneg (normalizeDivisor dd (n + 1) y) i)
    have hmul := mul_le_mul_of_nonneg_right hYtop (pow_nonneg bigrad_pos.le n)
    rw [Nat.add_sub_cancel] at hmul
    linarith
  obtain ⟨zs, hrun, hzlen, hdiv, hrem⟩ := bigdivrem1_spec (by omega : 2 ≤ fuel) h1 hK
    (by omega : ny + K ≤ (normalizeDividend dd x (List.replicate nz 0)).length) hYtop (by
      rw [hZ, hYval]
      have hmul : 2 ^ 31 * bigrad ^ (ny - 1) * bigrad ^ K ≤ y.mag * 2 ^ dd * bigrad ^ K :=
        mul_le_mul_of_nonneg_right hYlow (pow_nonneg bigrad_pos.le _)
      have hpow : bigrad ^ x.len ≤ bigrad ^ (ny - 1) * bigrad ^ K := by
        rw [← pow_add]
        exact pow_le_pow_right₀ (by simp only [bigrad]; norm_num) (by omega)
      linarith)
  rw [hZ, hYval] at hdiv
  rw [hYval] at hrem
  -- the shift divides the remainder, so shifting it back is exact
  have hr : window zs 0 ny = (x.mag - window zs ny K * y.mag) * 2 ^ dd := by linarith
  have hq := moveQuotient_spec zs (by omega : ny + K ≤ zs.length)
  have hrm := takeRemainder_spec h1 hdd31 (by omega : ny ≤ zs.length)
  rw [hr, Int.mul_ediv_cancel _ hB.ne'] at hrm
  refine ⟨⟨x.sign == y.sign, moveQuotient ny K zs⟩, ⟨x.sign, takeRemainder ny dd zs⟩, ?_, ?_, ?_,
    Or.inl rfl, rfl, ?_⟩
  · simp only [bigdivrem, hy, Bool.false_eq_true, if_false, if_neg hearly, if_neg hone, ← hny, hdd,
      bignew, ← hnz, hrun, hcnt]
  · simp only [Bignum.mag] at hrm ⊢
    rw [hq, hrm]
    ring
  · simp only [Bignum.mag] at hrm ⊢
    rw [hrm]
    rw [hr] at hrem
    exact lt_of_mul_lt_mul_right hrem hB.le
  · have htrim := (trimLen_spec zs h1).2.1
    simp only [Bignum.len, takeRemainder, List.length_take] at h2 ⊢
    omega

/-- **`bigdivrem` divides magnitudes**, on each of its paths. -/
theorem bigdivrem_spec (hfuel : 31 ≤ fuel) (hy : y.toInt ≠ 0) (hok : DivOk x y) :
    ∃ q r, bigdivrem L fuel x y = .ok (q, r) ∧ DivRem L x y q r := by
  have hyz : bigzerop y = false := by
    rw [← Bool.not_eq_true]
    exact fun h => hy ((bigzerop_eq_true_iff y).mp h)
  have hymag : y.mag ≠ 0 := fun h => hy ((Bignum.toInt_eq_zero_iff y).mpr h)
  by_cases hearly : x.len < y.len ∨
      (x.len = y.len ∧ x.digits.getD (x.len - 1) 0 < y.digits.getD (y.len - 1) 0)
  · exact bigdivrem_early hyz hok hearly
  · by_cases hone : y.len = 1
    · exact bigdivrem_single hyz hymag hone hearly
    · exact bigdivrem_long hfuel hyz hymag hone hearly

end Paths

/-! ## Signs -/

/-- The sign flag as a factor. -/
def Bignum.unit (x : Bignum) : ℤ := if x.sign then 1 else -1

theorem Bignum.toInt_eq_unit_mul (x : Bignum) : x.toInt = x.unit * x.mag := by
  cases hs : x.sign <;> simp [Bignum.toInt, Bignum.unit, hs]

theorem Bignum.unit_mul_self (x : Bignum) : x.unit * x.unit = 1 := by
  cases hs : x.sign <;> simp [Bignum.unit, hs]

section Signs

variable {L : LongSize} {x y q r : Bignum}

theorem DivRem.quo_toInt (h : DivRem L x y q r) : q.toInt = x.unit * y.unit * q.mag := by
  rcases h.quo_sign with hs | rfl
  · cases hx : x.sign <;> cases hy : y.sign <;>
      simp [Bignum.toInt, Bignum.unit, hs, hx, hy]
  · have hz := toInt_rbInt2big_zero L
    rw [hz, (Bignum.toInt_eq_zero_iff _).mp hz]
    ring

theorem DivRem.rem_toInt (h : DivRem L x y q r) : r.toInt = x.unit * r.mag := by
  rw [Bignum.toInt_eq_unit_mul]
  simp only [Bignum.unit, h.rem_sign]

/-- Signed division with remainder. -/
theorem DivRem.toInt_eq (h : DivRem L x y q r) : x.toInt = q.toInt * y.toInt + r.toInt := by
  rw [h.quo_toInt, h.rem_toInt, x.toInt_eq_unit_mul, y.toInt_eq_unit_mul, h.mag_eq]
  linear_combination (-x.unit * q.mag * y.mag) * y.unit_mul_self

theorem DivRem.rem_sign_eq (h : DivRem L x y q r) (hr : r.toInt ≠ 0) :
    r.toInt.sign = x.toInt.sign := by
  have hrpos : 0 < r.mag :=
    lt_of_le_of_ne r.mag_nonneg (fun h0 => hr ((Bignum.toInt_eq_zero_iff r).mpr h0.symm))
  have hxpos : 0 < x.mag := by
    have := mul_nonneg q.mag_nonneg y.mag_nonneg
    have := h.mag_eq
    omega
  rw [h.rem_toInt, x.toInt_eq_unit_mul, Int.sign_mul, Int.sign_mul, Int.sign_eq_one_of_pos hrpos,
    Int.sign_eq_one_of_pos hxpos]

/-- A quotient and a remainder of the sign of the divisor are the floored ones. -/
theorem fdiv_fmod_of_eq {a b d m : ℤ} (heq : a = d * b + m) (habs : |m| < |b|)
    (hsign : 0 ≤ m * b) : d = a.fdiv b ∧ m = a.fmod b := by
  have hb : b ≠ 0 := by
    rintro rfl
    rw [abs_zero] at habs
    exact absurd habs (not_lt.mpr (abs_nonneg m))
  rcases lt_or_gt_of_ne hb with hneg | hpos
  · have hm : m ≤ 0 := by
      by_contra h
      have := mul_neg_of_pos_of_neg (not_le.mp h) hneg
      omega
    rw [abs_of_nonpos hm, abs_of_neg hneg] at habs
    have h := (Int.fdiv_fmod_unique' (a := a) (r := m) (q := d) hneg).mpr
      ⟨by rw [heq]; ring, by omega, hm⟩
    exact ⟨h.1.symm, h.2.symm⟩
  · have hm : 0 ≤ m := by
      by_contra h
      have := mul_neg_of_neg_of_pos (not_le.mp h) hpos
      omega
    rw [abs_of_nonneg hm, abs_of_pos hpos] at habs
    have h := (Int.fdiv_fmod_unique (a := a) (r := m) (q := d) hpos).mpr
      ⟨by rw [heq]; ring, hm, habs⟩
    exact ⟨h.1.symm, h.2.symm⟩

theorem len_rbInt2big_one (L : LongSize) : (rbInt2big L 1).len = 1 := by
  cases L <;> decide

theorem len_rbInt2big_zero (L : LongSize) : (rbInt2big L 0).len = 1 := by
  cases L <;> decide

/-- The correction of the quotient by one, for operands of different signs. -/
theorem DivRem.quo_sub_one (h : DivRem L x y q r) (hne : x.sign ≠ y.sign) :
    (bigadd q (rbInt2big L 1) false).toInt = q.toInt - 1 := by
  have h1 : (rbInt2big L 1).toInt = 1 :=
    toInt_rbInt2big (by cases L <;> decide) (by cases L <;> decide)
  have hs1 : (rbInt2big L 1).sign = true := by cases L <;> decide
  have hlen : q.sign ≠ (false == (rbInt2big L 1).sign) → q.len = (rbInt2big L 1).len := by
    intro hq
    rcases h.quo_sign with hs | rfl
    · rw [hs1] at hq
      cases hx : x.sign <;> cases hy : y.sign <;> simp_all
    · rw [len_rbInt2big_one, len_rbInt2big_zero]
  rw [toInt_bigadd (fun hq => by have := hlen hq; omega) (fun hq => by have := hlen hq; omega), h1]
  simp

/-- The correction of the remainder by the divisor. -/
theorem DivRem.rem_add_divisor (h : DivRem L x y q r) :
    (bigadd r y true).toInt = r.toInt + y.toInt := by
  have hlt := h.rem_lt
  have hlen := h.rem_len
  rw [toInt_bigadd (fun _ _ => hlt.le) (fun _ hl => by omega)]
  simp

/-- **`bigdivmod` turns the truncated results into floored ones.** -/
theorem bigdivmod_spec {fuel : ℕ} (hfuel : 31 ≤ fuel) (hy : y.toInt ≠ 0) (hok : DivOk x y) :
    ∃ d m, bigdivmod L fuel x y = .ok (d, m) ∧
      d.toInt = x.toInt.fdiv y.toInt ∧ m.toInt = x.toInt.fmod y.toInt := by
  obtain ⟨q, r, hrun, h⟩ := bigdivrem_spec (L := L) hfuel hy hok
  have heq := h.toInt_eq
  have hlt := h.rem_lt
  have hr0 := r.mag_nonneg
  have habs : |r.toInt| < |y.toInt| := by rwa [Bignum.abs_toInt, Bignum.abs_toInt]
  by_cases hfix : (x.sign != y.sign && !bigzerop r) = true
  · have hrun' : bigdivmod L fuel x y =
        .ok (bigadd q (rbInt2big L 1) false, bigadd r y true) := by
      simp only [bigdivmod, hrun, bind, Except.bind, hfix, if_true]
      rfl
    rw [Bool.and_eq_true, bne_iff_ne, Bool.not_eq_true', ← Bool.not_eq_true,
      bigzerop_eq_true_iff] at hfix
    obtain ⟨hne, hrz⟩ := hfix
    have hrpos : 0 < r.mag :=
      lt_of_le_of_ne hr0 (fun h0 => hrz ((Bignum.toInt_eq_zero_iff r).mpr h0.symm))
    have hunit : x.unit = -y.unit := by
      cases hx : x.sign <;> cases hs : y.sign <;> simp_all [Bignum.unit]
    -- the corrected remainder is the divisor's sign times a number below the divisor
    have hm : r.toInt + y.toInt = y.unit * (y.mag - r.mag) := by
      rw [h.rem_toInt, y.toInt_eq_unit_mul, hunit]
      ring
    have hres := fdiv_fmod_of_eq (a := x.toInt) (b := y.toInt) (d := q.toInt - 1)
      (m := r.toInt + y.toInt) (by rw [heq]; ring)
      (by
        rw [hm, Bignum.abs_toInt, abs_mul, abs_of_pos (by omega : 0 < y.mag - r.mag)]
        have hu : |y.unit| = 1 := by cases hs : y.sign <;> simp [Bignum.unit, hs]
        rw [hu]
        omega)
      (by
        rw [hm, y.toInt_eq_unit_mul]
        have : y.unit * (y.mag - r.mag) * (y.unit * y.mag) = (y.mag - r.mag) * y.mag := by
          linear_combination ((y.mag - r.mag) * y.mag) * y.unit_mul_self
        rw [this]
        exact mul_nonneg (by omega) y.mag_nonneg)
    refine ⟨_, _, hrun', ?_, ?_⟩
    · rw [h.quo_sub_one hne]
      exact hres.1
    · rw [h.rem_add_divisor]
      exact hres.2
  · have hrun' : bigdivmod L fuel x y = .ok (q, r) := by
      simp only [bigdivmod, hrun, bind, Except.bind, hfix]
      rfl
    have hsign : 0 ≤ r.toInt * y.toInt := by
      rw [h.rem_toInt, y.toInt_eq_unit_mul]
      by_cases hs : x.sign = y.sign
      · have hu : x.unit = y.unit := by simp only [Bignum.unit, hs]
        have : x.unit * r.mag * (y.unit * y.mag) = r.mag * y.mag := by
          rw [hu]
          linear_combination (r.mag * y.mag) * y.unit_mul_self
        rw [this]
        exact mul_nonneg hr0 y.mag_nonneg
      · have hz : bigzerop r = true := by
          by_contra hz
          exact hfix (by simp [hs, hz])
        have hrz : r.mag = 0 := (Bignum.toInt_eq_zero_iff r).mp ((bigzerop_eq_true_iff r).mp hz)
        rw [hrz]
        simp
    have hres := fdiv_fmod_of_eq heq habs hsign
    exact ⟨q, r, hrun', hres.1, hres.2⟩

end Signs

/-! ## Floored division -/

/-- Exact division of `x` by `y`, by the internal routines and by the methods. -/
structure ExactDivision (L : LongSize) (fuel : ℕ) (x : Bignum) (y : Inum L) : Prop where
  bigdivrem : ∃ q r, bigdivrem L fuel x y.toBignum = .ok (q, r) ∧
    x.toInt = q.toInt * y.toInt + r.toInt ∧ |r.toInt| < |y.toInt| ∧
    (r.toInt = 0 ∨ r.toInt.sign = x.toInt.sign)
  bigdivmod : ∃ d m, bigdivmod L fuel x y.toBignum = .ok (d, m) ∧
    d.toInt = x.toInt.fdiv y.toInt ∧ m.toInt = x.toInt.fmod y.toInt
  rb_big_divmod : ∃ d m, rbBigDivmod L fuel x y = .ok (d, m) ∧
    d.toInt = x.toInt.fdiv y.toInt ∧ m.toInt = x.toInt.fmod y.toInt
  rb_big_divide : ∃ d, rbBigDivide L fuel x y = .ok d ∧ d.toInt = x.toInt.fdiv y.toInt
  rb_big_modulo : ∃ m, rbBigModulo L fuel x y = .ok m ∧ m.toInt = x.toInt.fmod y.toInt

theorem Inum.toInt_toBignum {L : LongSize} (y : Inum L) : y.toBignum.toInt = y.toInt := by
  cases y with
  | fixnum n => exact n.toInt_rbInt2big
  | bignum y => rfl

/-- A divisor without leading zeros, as every normalised bignum is, is never stored
longer than a dividend of at least its size. -/
theorem divOk_of_top_ne_zero {x y : Bignum} (hy : digitAt y.digits (y.len - 1) ≠ 0) :
    DivOk x y := by
  by_contra hnot
  simp only [DivOk, not_or, not_le, not_lt] at hnot
  obtain ⟨hlen, hmag⟩ := hnot
  obtain ⟨n, hn⟩ : ∃ n, y.len = n + 1 := ⟨y.len - 1, by omega⟩
  have hymag : y.mag = Radix.val bigrad (digitAt y.digits) (n + 1) := by rw [← hn]; rfl
  rw [hn, Nat.add_sub_cancel] at hy
  have htop : 1 ≤ digitAt y.digits n := by
    have := digitAt_nonneg y.digits n
    omega
  have hmul : 1 * bigrad ^ n ≤ digitAt y.digits n * bigrad ^ n :=
    mul_le_mul_of_nonneg_right htop (pow_nonneg bigrad_pos.le n)
  have hnn := Radix.val_nonneg (n := n) bigrad_pos.le (fun i _ => digitAt_nonneg y.digits i)
  have hxlt : x.mag < bigrad ^ x.len := magnitude_lt x.digits
  have hpow : bigrad ^ x.len ≤ bigrad ^ n :=
    pow_le_pow_right₀ (by norm_num [bigrad]) (by omega)
  rw [hymag, Radix.val_succ] at hmag
  linarith

/-- **Division is exact floored division**, on every path and for every pair of
operands except a divisor whose stored leading zeros make it longer than a dividend
that is not smaller.  That exception is what `DivOk` rules out. -/
theorem exactDivision_iff {L : LongSize} {fuel : ℕ} (hfuel : 31 ≤ fuel) (x : Bignum) (y : Inum L)
    (hy : y.toInt ≠ 0) : ExactDivision L fuel x y ↔ DivOk x y.toBignum := by
  have hyb : y.toBignum.toInt ≠ 0 := by rwa [y.toInt_toBignum]
  constructor
  · intro hex
    by_contra hnot
    simp only [DivOk, not_or, not_le, not_lt] at hnot
    obtain ⟨hlen, hmag⟩ := hnot
    obtain ⟨q, r, hrun, -, habs, -⟩ := hex.bigdivrem
    -- the early return hands back the dividend as the remainder
    have hyz : bigzerop y.toBignum = false := by
      rw [← Bool.not_eq_true]
      exact fun h => hyb ((bigzerop_eq_true_iff _).mp h)
    have hearly : MacRuby.bigdivrem L fuel x y.toBignum = .ok (rbInt2big L 0, x) := by
      simp only [MacRuby.bigdivrem, hyz, Bool.false_eq_true, if_false, if_pos (Or.inl hlen)]
    rw [hearly] at hrun
    injection hrun with hrun
    injection hrun with _ hrun
    rw [← hrun, ← y.toInt_toBignum, Bignum.abs_toInt, Bignum.abs_toInt] at habs
    omega
  · intro hok
    obtain ⟨q, r, hrun, h⟩ := bigdivrem_spec (L := L) hfuel hyb hok
    obtain ⟨d, m, hrun', hd, hm⟩ := bigdivmod_spec (L := L) hfuel hyb hok
    rw [y.toInt_toBignum] at hd hm
    refine ⟨⟨q, r, hrun, ?_, ?_, ?_⟩, ⟨d, m, hrun', hd, hm⟩,
      ⟨bignorm L d, bignorm L m, ?_, by simpa using hd, by simpa using hm⟩,
      ⟨bignorm L d, ?_, by simpa using hd⟩, ⟨bignorm L m, ?_, by simpa using hm⟩⟩
    · rw [← y.toInt_toBignum]
      exact h.toInt_eq
    · rw [← y.toInt_toBignum, Bignum.abs_toInt, Bignum.abs_toInt]
      exact h.rem_lt
    · by_cases hr : r.toInt = 0
      · exact Or.inl hr
      · exact Or.inr (h.rem_sign_eq hr)
    · simp only [rbBigDivmod, hrun', bind, Except.bind]
      rfl
    · simp only [rbBigDivide, hrun', bind, Except.bind]
      rfl
    · simp only [rbBigModulo, hrun', bind, Except.bind]
      rfl

/-- The exactness at one pair of operands whose divisor has a stored leading zero. -/
theorem exactDivision_leading_zero :
    ExactDivision .lp64 31 ⟨false, [7, 1]⟩ (.bignum ⟨true, [3, 0]⟩) :=
  (exactDivision_iff (by norm_num) _ _ (by decide)).mpr (Or.inl (by decide))

/-- Stored with one leading zero, 2 does not divide the one-digit 5. -/
theorem not_exactDivision_of_short_dividend :
    ¬ ∀ (L : LongSize) (fuel : ℕ) (x : Bignum) (y : Inum L), 31 ≤ fuel → y.toInt ≠ 0 →
      ExactDivision L fuel x y := by
  intro hall
  have hex := hall .lp64 31 ⟨true, [5]⟩ (.bignum ⟨true, [2, 0]⟩) le_rfl (by decide)
  obtain ⟨q, r, hrun, -, habs, -⟩ := hex.bigdivrem
  have hr : r = ⟨true, [5]⟩ := by
    have hval : bigdivrem .lp64 31 ⟨true, [5]⟩ ⟨true, [2, 0]⟩ =
        .ok (rbInt2big .lp64 0, ⟨true, [5]⟩) := rfl
    have heq := hval.symm.trans hrun
    injection heq with heq
    injection heq with _ heq
    exact heq.symm
  rw [hr] at habs
  exact absurd habs (by decide)

end MacRuby
