import MacRuby.Bignum.DivRem

/-!
# Bignum division: correctness

The argument is Knuth's, with one shortcut.  For a divisor whose top bit is set,
the one-digit estimate of a quotient digit is never too small, and multiplying it
out overshoots the window of the dividend by less than one unit of its top digit
(`estimate_overshoot`).  So the borrow out of the window is 0 or -1, adding the
divisor back ends as soon as the window is non-negative again, and that takes at
most two turns because the divisor is at least half a unit.

## Main results

* `divStep_spec` — one turn of `bigdivrem1` divides a window of `zds`.
* `bigdivrem1_spec` — the whole loop divides.
-/

namespace MacRuby

variable {xds yds zds : List BDigit} {ny k i : ℕ}

/-- The `n` digits of `ds` from index `k`, as a number. -/
def window (ds : List BDigit) (k n : ℕ) : ℤ := Radix.val bigrad (fun i => digitAt ds (k + i)) n

theorem window_nonneg (ds : List BDigit) (k n : ℕ) : 0 ≤ window ds k n :=
  Radix.val_nonneg bigrad_pos.le (fun _ _ => digitAt_nonneg _ _)

theorem window_lt (ds : List BDigit) (k n : ℕ) : window ds k n < bigrad ^ n :=
  Radix.val_lt bigrad_pos (fun _ _ => digitAt_lt _ _)

theorem window_succ (ds : List BDigit) (k n : ℕ) :
    window ds k (n + 1) = window ds k n + digitAt ds (k + n) * bigrad ^ n :=
  Radix.val_succ bigrad _ n

theorem window_congr {ds es : List BDigit} {k n : ℕ}
    (h : ∀ i, k ≤ i → i < k + n → digitAt ds i = digitAt es i) : window ds k n = window es k n :=
  Radix.val_congr (fun i hi => h (k + i) (by omega) (by omega))

theorem window_zero (ds : List BDigit) (n : ℕ) :
    window ds 0 n = Radix.val bigrad (digitAt ds) n := by
  simp [window]

/-- A window splits at any position. -/
theorem window_add (ds : List BDigit) (k m n : ℕ) :
    window ds k (m + n) = window ds k m + bigrad ^ m * window ds (k + m) n := by
  simp only [window, Radix.val_add, Nat.add_assoc]

/-- Storing a digit back where it came from. -/
theorem set_biglo_digitAt (h : i < zds.length) : zds.set i (biglo (digitAt zds i)) = zds := by
  have hd : biglo (digitAt zds i) = zds.get ⟨i, h⟩ := by
    rw [← UInt32.toNat_inj]
    have h1 := toNat_biglo (digitAt zds i)
    rw [Int.emod_eq_of_lt (digitAt_nonneg zds i) (digitAt_lt zds i)] at h1
    have h2 : digitAt zds i = ((zds.get ⟨i, h⟩).toNat : ℤ) := by
      simp [digitAt, List.getD_eq_getElem?_getD, h]
    exact_mod_cast h1.trans h2
  rw [hd]
  simp

/-- The store the source skips when `ee` is 0 would not have changed anything. -/
theorem skipStore_eq {ee num : ℤ} (h : i < zds.length) (hnum : ee = 0 → num = digitAt zds i) :
    (if ee ≠ 0 then zds.set i (biglo num) else zds) = zds.set i (biglo num) := by
  by_cases hee : ee = 0
  · rw [if_neg (by simpa using hee), hnum hee, set_biglo_digitAt h]
  · rw [if_pos hee]

/-- Wrapping before reading as signed changes nothing. -/
theorem toDblSigned_toDbl (n : ℤ) : toDblSigned (toDbl n) = toDblSigned n := by
  have h := Int.emod_bmod (x := n) (n := 2 ^ 64)
  simp only [toDblSigned, toDbl]
  norm_num at h ⊢
  exact h

/-- Adding a wrapped number and reading the sum as signed gives the exact sum, if
that fits. -/
theorem toDblSigned_add {d e : ℤ} (h1 : -2 ^ 62 ≤ d + e) (h2 : d + e < 2 ^ 62) :
    toDblSigned (d + toDbl e) = d + e := by
  have h : toDblSigned (d + toDbl e) = toDblSigned (d + e) := by
    rw [← toDblSigned_toDbl, ← toDblSigned_toDbl (d + e)]
    simp only [toDbl, Int.add_emod_emod]
  rw [h]
  exact Int.bmod_eq_of_le (by omega) (by omega)

/-! ## The inner loops -/

/-- Loop invariant of multiply-and-subtract: what the window has lost so far is `q`
times the divisor's digits so far, up to the two running carries. -/
structure MulSub.Inv (yds zds : List BDigit) (q : BDigit) (k i : ℕ) (s : MulSub) : Prop where
  length : s.zds.length = zds.length
  outside : ∀ j, j < k ∨ k + i ≤ j → digitAt s.zds j = digitAt zds j
  value : window s.zds k i + (s.num - s.t2) * bigrad ^ i =
    window zds k i - q.toNat * Radix.val bigrad (digitAt yds) i
  num_lo : -1 ≤ s.num
  num_hi : s.num ≤ 0
  t2_lo : 0 ≤ s.t2
  t2_hi : s.t2 < bigrad

/-- One turn of multiply-and-subtract keeps the invariant. -/
theorem MulSub.Inv.next {q : BDigit} {s : MulSub} (h : MulSub.Inv yds zds q k i s)
    (hi : k + i < zds.length) : MulSub.Inv yds zds q k (i + 1) (MulSub.step yds q k i s) := by
  have hlen := h.length
  have hy0 := digitAt_nonneg yds i
  have hy1 := digitAt_lt yds i
  have hq0 : (0 : ℤ) ≤ q.toNat := Int.natCast_nonneg _
  have hq1 : (q.toNat : ℤ) < bigrad := by
    have := q.toNat_lt
    simp only [bigrad]
    omega
  have hz0 := digitAt_nonneg s.zds (k + i)
  have hz1 := digitAt_lt s.zds (k + i)
  have hn0 := h.num_lo
  have hn1 := h.num_hi
  have ht0 := h.t2_lo
  have ht1 := h.t2_hi
  -- the product cannot overflow a double digit
  have hprod0 : 0 ≤ digitAt yds i * q.toNat := mul_nonneg hy0 hq0
  have hprod1 : digitAt yds i * q.toNat ≤ (bigrad - 1) * (bigrad - 1) :=
    mul_le_mul (by omega) (by omega) hq0 (by simp only [bigrad]; omega)
  generalize hP : digitAt yds i * (q.toNat : ℤ) = P at hprod0 hprod1
  have ht2 : toDbl (s.t2 + P) = s.t2 + P :=
    Int.emod_eq_of_lt (by omega) (by simp only [bigrad] at *; omega)
  have hlo0 : 0 ≤ (s.t2 + P) % bigrad := Int.emod_nonneg _ bigrad_pos.ne'
  have hlo1 : (s.t2 + P) % bigrad < bigrad := Int.emod_lt_of_pos _ bigrad_pos
  have hsplit := emod_add_bigdn (s.t2 + P)
  generalize hlo : (s.t2 + P) % bigrad = lo at hlo0 hlo1 hsplit
  have hnum : toDblSigned (toDbl (digitAt s.zds (k + i) + toDbl (s.num - lo))) =
      digitAt s.zds (k + i) + (s.num - lo) := by
    rw [toDblSigned_toDbl]
    exact toDblSigned_add (by simp only [bigrad] at *; omega) (by simp only [bigrad] at *; omega)
  have hstore : (if toDbl (s.num - lo) ≠ 0
        then s.zds.set (k + i) (biglo (digitAt s.zds (k + i) + (s.num - lo))) else s.zds) =
      s.zds.set (k + i) (biglo (digitAt s.zds (k + i) + (s.num - lo))) := by
    refine skipStore_eq (by omega) ?_
    intro hee
    have : s.num - lo = 0 := by simp only [toDbl, bigrad] at *; omega
    omega
  simp only [MulSub.step, hP, ht2, toNat_biglo, hlo, hnum, hstore]
  have hout : digitAt s.zds (k + i) = digitAt zds (k + i) := h.outside _ (Or.inr le_rfl)
  refine ⟨by simpa using hlen, ?_, ?_, ?_, ?_, ?_, ?_⟩
  · intro j hj
    rw [digitAt_set_ne (by omega)]
    exact h.outside j (by omega)
  · have hpre : window (s.zds.set (k + i) (biglo (digitAt s.zds (k + i) + (s.num - lo)))) k i =
        window s.zds k i := window_congr (fun j _ hj => digitAt_set_ne (by omega) _)
    have hval := h.value
    have hdn := emod_add_bigdn (digitAt s.zds (k + i) + (s.num - lo))
    rw [window_succ, window_succ, Radix.val_succ, hpre, digitAt_set_self (by omega), toNat_biglo,
      pow_succ, ← hout]
    linear_combination hval + bigrad ^ i * hdn - bigrad ^ i * hsplit + bigrad ^ i * hP
  · exact (Int.le_ediv_iff_mul_le bigrad_pos).mpr (by omega)
  · exact Int.le_of_lt_add_one (Int.ediv_lt_of_lt_mul bigrad_pos (by omega))
  · exact Int.ediv_nonneg (by omega) bigrad_pos.le
  · refine Int.ediv_lt_of_lt_mul bigrad_pos ?_
    simp only [bigrad] at *
    omega

/-- **Multiply-and-subtract over the whole divisor.** -/
theorem mulSub_spec (yds : List BDigit) (q : BDigit) (h : k + ny ≤ zds.length) :
    MulSub.Inv yds zds q k ny (Loop.upto (MulSub.step yds q k) ny ⟨0, 0, zds⟩) := by
  refine Loop.upto_induction (MulSub.Inv yds zds q k) ?_ ?_
  · exact ⟨rfl, fun _ _ => rfl, by simp [window], by simp, le_rfl, le_rfl, bigrad_pos⟩
  · intro i s hi hs
    exact hs.next (by omega)

/-- Loop invariant of one pass of adding back. -/
structure AddBack.Inv (yds zds : List BDigit) (k i : ℕ) (s : Carry) : Prop where
  length : s.zds.length = zds.length
  outside : ∀ j, j < k ∨ k + i ≤ j → digitAt s.zds j = digitAt zds j
  value : window s.zds k i + s.num * bigrad ^ i =
    window zds k i + Radix.val bigrad (digitAt yds) i
  num_lo : 0 ≤ s.num
  num_hi : s.num ≤ 1

/-- One turn of adding back keeps the invariant. -/
theorem AddBack.Inv.next {s : Carry} (h : AddBack.Inv yds zds k i s) (hi : k + i < zds.length) :
    AddBack.Inv yds zds k (i + 1) (addBackStep yds k i s) := by
  have hlen := h.length
  have hy0 := digitAt_nonneg yds i
  have hy1 := digitAt_lt yds i
  have hz0 := digitAt_nonneg s.zds (k + i)
  have hz1 := digitAt_lt s.zds (k + i)
  have hn0 := h.num_lo
  have hn1 := h.num_hi
  have hnum : toDblSigned (toDbl (digitAt s.zds (k + i) + toDbl (s.num + digitAt yds i))) =
      digitAt s.zds (k + i) + (s.num + digitAt yds i) := by
    rw [toDblSigned_toDbl]
    exact toDblSigned_add (by simp only [bigrad] at *; omega) (by simp only [bigrad] at *; omega)
  have hstore : (if toDbl (s.num + digitAt yds i) ≠ 0
        then s.zds.set (k + i) (biglo (digitAt s.zds (k + i) + (s.num + digitAt yds i)))
        else s.zds) =
      s.zds.set (k + i) (biglo (digitAt s.zds (k + i) + (s.num + digitAt yds i))) := by
    refine skipStore_eq (by omega) ?_
    intro hee
    have : s.num + digitAt yds i = 0 := by simp only [toDbl, bigrad] at *; omega
    omega
  simp only [addBackStep, hnum, hstore]
  have hout : digitAt s.zds (k + i) = digitAt zds (k + i) := h.outside _ (Or.inr le_rfl)
  refine ⟨by simpa using hlen, ?_, ?_, ?_, ?_⟩
  · intro j hj
    rw [digitAt_set_ne (by omega)]
    exact h.outside j (by omega)
  · have hpre : window
        (s.zds.set (k + i) (biglo (digitAt s.zds (k + i) + (s.num + digitAt yds i)))) k i =
        window s.zds k i := window_congr (fun j _ hj => digitAt_set_ne (by omega) _)
    have hval := h.value
    have hdn := emod_add_bigdn (digitAt s.zds (k + i) + (s.num + digitAt yds i))
    rw [window_succ, window_succ, Radix.val_succ, hpre, digitAt_set_self (by omega), toNat_biglo,
      pow_succ, ← hout]
    linear_combination hval + bigrad ^ i * hdn
  · exact (Int.le_ediv_iff_mul_le bigrad_pos).mpr (by omega)
  · exact Int.le_of_lt_add_one (Int.ediv_lt_of_lt_mul bigrad_pos (by omega))

/-- **One pass of adding back.** -/
theorem addBack_spec (yds : List BDigit) (h : k + ny ≤ zds.length) :
    AddBack.Inv yds zds k ny (Loop.upto (addBackStep yds k) ny ⟨0, zds⟩) := by
  refine Loop.upto_induction (AddBack.Inv yds zds k) ?_ ?_
  · exact ⟨rfl, fun _ _ => rfl, by simp [window], le_rfl, by simp⟩
  · intro i s hi hs
    exact hs.next (by omega)

/-! ## The estimate -/

/-- The estimate is the largest digit whose product with the divisor's top digit does
not exceed the top two digits of the window. -/
theorem quotientDigit_bounds (ny : ℕ) {j : ℕ} (hv : 0 < digitAt yds (ny - 1))
    (hzv : digitAt zds j ≤ digitAt yds (ny - 1)) :
    ((quotientDigit yds zds ny j).toNat : ℤ) ≤ bigrad - 1 ∧
      (quotientDigit yds zds ny j).toNat * digitAt yds (ny - 1) ≤
        digitAt zds j * bigrad + digitAt zds (j - 1) ∧
      ((quotientDigit yds zds ny j).toNat = bigrad - 1 ∨
        digitAt zds j * bigrad + digitAt zds (j - 1) <
          ((quotientDigit yds zds ny j).toNat + 1) * digitAt yds (ny - 1)) := by
  have hdig : zds.getD j 0 = yds.getD (ny - 1) 0 ↔ digitAt zds j = digitAt yds (ny - 1) := by
    rw [digitAt, digitAt, Int.natCast_inj, UInt32.toNat_inj]
  have hz0 := digitAt_nonneg zds j
  have hz1 := digitAt_lt zds j
  have hz'0 := digitAt_nonneg zds (j - 1)
  have hz'1 := digitAt_lt zds (j - 1)
  have hB := bigrad_pos
  simp only [quotientDigit, hdig]
  by_cases heq : digitAt zds j = digitAt yds (ny - 1)
  · have hq : ((biglo (bigrad - 1)).toNat : ℤ) = bigrad - 1 := by
      rw [toNat_biglo]
      exact Int.emod_eq_of_lt (by omega) (by omega)
    rw [if_pos heq, hq, heq]
    refine ⟨le_rfl, ?_, Or.inl rfl⟩
    linarith
  · have hlt : digitAt zds j < digitAt yds (ny - 1) := lt_of_le_of_ne hzv heq
    have hquot : (digitAt zds (j - 1) + digitAt zds j * bigrad) / digitAt yds (ny - 1) < bigrad :=
      Int.ediv_lt_of_lt_mul hv (by nlinarith)
    have hq : ((biglo (toDbl (bigup (digitAt zds j) + digitAt zds (j - 1)) /
        digitAt yds (ny - 1))).toNat : ℤ) =
        (digitAt zds (j - 1) + digitAt zds j * bigrad) / digitAt yds (ny - 1) := by
      rw [toNat_biglo, toDbl_bigup_add hz0 hz1 hz'0 hz'1]
      exact Int.emod_eq_of_lt (Int.ediv_nonneg (by positivity) hv.le) hquot
    have hlo := Int.ediv_mul_le (digitAt zds (j - 1) + digitAt zds j * bigrad) hv.ne'
    have hhi := Int.lt_ediv_add_one_mul_self (digitAt zds (j - 1) + digitAt zds j * bigrad) hv
    rw [if_neg heq, hq]
    exact ⟨by omega, by linarith, Or.inr (by linarith)⟩

/-- The estimate is not too small, and multiplied out it overshoots the window by
less than one unit of the top digit. -/
theorem estimate_overshoot (hny : 0 < ny) (hnorm : 2 ^ 31 ≤ digitAt yds (ny - 1))
    (hW : window zds k (ny + 1) < Radix.val bigrad (digitAt yds) ny * bigrad) :
    window zds k (ny + 1) <
        ((quotientDigit yds zds ny (ny + k)).toNat + 1) * Radix.val bigrad (digitAt yds) ny ∧
      (quotientDigit yds zds ny (ny + k)).toNat * Radix.val bigrad (digitAt yds) ny <
        window zds k (ny + 1) + bigrad ^ ny := by
  obtain ⟨n, rfl⟩ : ∃ n, ny = n + 1 := ⟨ny - 1, by omega⟩
  have hB := bigrad_pos
  have hpow : 0 < bigrad ^ n := pow_pos hB n
  have hylo0 := Radix.val_nonneg (n := n) hB.le (fun i _ => digitAt_nonneg yds i)
  have hylo := Radix.val_lt (n := n) hB (fun i _ => digitAt_lt yds i)
  have hsplit : window zds k (n + 1 + 1) = window zds k n +
      (digitAt zds (n + 1 + k) * bigrad + digitAt zds (n + 1 + k - 1)) * bigrad ^ n := by
    rw [window_succ, window_succ, pow_succ, show k + (n + 1) = n + 1 + k by omega,
      show n + 1 + k - 1 = k + n by omega]
    ring
  rw [hsplit, Radix.val_succ] at hW ⊢
  rw [pow_succ]
  have hv : 0 < digitAt yds n := lt_of_lt_of_le (by norm_num) hnorm
  have hzv := Radix.top_le_of_quotient_lt hB hpow hylo (window_nonneg zds k n)
    (digitAt_nonneg zds _) hW
  obtain ⟨h1, h2, h3⟩ := quotientDigit_bounds (n + 1) hv hzv
  exact Radix.quotient_estimate hpow hylo0 hylo (window_nonneg zds k n) (window_lt zds k n) hW
    (Int.natCast_nonneg _) h1 h2 h3

/-! ## One quotient digit -/

/-- What holds around the "add back" loop: the window and the borrow make up what is
left of `W` after `q` times the divisor `Y`, and the rest of `zds` is untouched. -/
structure AddBack.Around (zds : List BDigit) (ny k : ℕ) (W Y : ℤ) (s : AddBack) : Prop where
  length : s.zds.length = zds.length
  outside : ∀ j, j < k ∨ k + ny ≤ j → digitAt s.zds j = digitAt zds j
  value : window s.zds k ny + s.num * bigrad ^ ny = W - s.q.toNat * Y
  num_cases : s.num = 0 ∨ s.num = -1
  small : W - s.q.toNat * Y < Y

namespace AddBack.Around

variable {W Y : ℤ} {s : AddBack}

theorem num_eq_zero (h : AddBack.Around zds ny k W Y s) (hpos : 0 ≤ W - s.q.toNat * Y) :
    s.num = 0 := by
  rcases h.num_cases with hz | hz
  · exact hz
  · have hval := h.value
    have hlt := window_lt s.zds k ny
    rw [hz] at hval
    linarith

/-- One turn of the loop keeps it. -/
theorem next (h : AddBack.Around zds ny k W (Radix.val bigrad (digitAt yds) ny) s)
    (hW : 0 ≤ W) (hnum : s.num = -1) (hk : k + ny ≤ zds.length) :
    AddBack.Around zds ny k W (Radix.val bigrad (digitAt yds) ny) (AddBack.body yds ny k s) ∧
      ((AddBack.body yds ny k s).q.toNat : ℤ) = s.q.toNat - 1 := by
  have hpass := addBack_spec yds (by rw [h.length]; exact hk : k + ny ≤ s.zds.length)
  generalize hY : Radix.val bigrad (digitAt yds) ny = Y at *
  have hval := h.value
  have hlt := window_lt s.zds k ny
  have hneg : W - s.q.toNat * Y < 0 := by
    rw [← hval, hnum]
    linarith
  -- the quotient digit is not yet 0, since `W` itself is not negative
  have hq : 0 < s.q.toNat := by
    rcases Nat.eq_zero_or_pos s.q.toNat with hz | hz
    · rw [hz] at hneg
      simp only [Nat.cast_zero, zero_mul, sub_zero] at hneg
      omega
    · exact hz
  have hq1 : ((s.q - 1).toNat : ℤ) = s.q.toNat - 1 := by
    have h1 : (1 : UInt32).toNat = 1 := rfl
    rw [UInt32.toNat_sub_of_le _ _ (UInt32.le_iff_toNat_le.mpr (by omega))]
    omega
  have hn0 := hpass.num_lo
  have hn1 := hpass.num_hi
  have hbody : AddBack.body yds ny k s =
      ⟨(Loop.upto (addBackStep yds k) ny ⟨0, s.zds⟩).num - 1, s.q - 1,
        (Loop.upto (addBackStep yds k) ny ⟨0, s.zds⟩).zds⟩ := by
    simp only [AddBack.body]
    congr 1
    exact Int.bmod_eq_of_le (by omega) (by omega)
  rw [hbody]
  refine ⟨⟨?_, ?_, ?_, ?_, ?_⟩, hq1⟩
  · exact hpass.length.trans h.length
  · intro j hj
    exact (hpass.outside j hj).trans (h.outside j hj)
  · have hpv := hpass.value
    dsimp only
    rw [hY] at hpv
    rw [hq1]
    rw [hnum] at hval
    linear_combination hpv + hval
  · dsimp only
    omega
  · dsimp only
    rw [hq1]
    linarith

/-- **The loop ends**, with a non-negative window, when the fuel covers the deficit. -/
theorem run (h : AddBack.Around zds ny k W (Radix.val bigrad (digitAt yds) ny) s) (fuel : ℕ)
    (hW : 0 ≤ W) (hk : k + ny ≤ zds.length)
    (hfuel : 0 ≤ W - s.q.toNat * Radix.val bigrad (digitAt yds) ny +
      fuel * Radix.val bigrad (digitAt yds) ny) :
    ∃ t, Loop.whileFuel (fun t : AddBack => t.num != 0) (AddBack.body yds ny k) fuel s = some t ∧
      AddBack.Around zds ny k W (Radix.val bigrad (digitAt yds) ny) t ∧ t.num = 0 := by
  induction fuel generalizing s with
  | zero =>
      have hz := h.num_eq_zero (by simpa using hfuel)
      exact ⟨s, Loop.whileFuel_of_not (by simp [hz]) 0, h, hz⟩
  | succ fuel ih =>
      rcases h.num_cases with hz | hz
      · exact ⟨s, Loop.whileFuel_of_not (by simp [hz]) _, h, hz⟩
      · obtain ⟨hn, hq⟩ := h.next hW hz hk
        rw [Loop.whileFuel_of_guard (by simp [hz])]
        refine ih hn ?_
        rw [hq]
        push_cast at hfuel
        linarith

end AddBack.Around

/-- **One turn of `bigdivrem1`** divides the window of `ny + 1` digits from index `k`:
the quotient digit goes to the top of it, the remainder below. -/
theorem divStep_spec {fuel : ℕ} (hfuel : 2 ≤ fuel) (hny : 0 < ny)
    (hnorm : 2 ^ 31 ≤ digitAt yds (ny - 1)) (hlen : ny + k < zds.length)
    (hW : window zds k (ny + 1) < Radix.val bigrad (digitAt yds) ny * bigrad) :
    ∃ zs, divStep fuel yds ny (ny + k) zds = some zs ∧ zs.length = zds.length ∧
      (∀ j, j < k ∨ k + ny < j → digitAt zs j = digitAt zds j) ∧
      window zds k (ny + 1) =
        digitAt zs (ny + k) * Radix.val bigrad (digitAt yds) ny + window zs k ny ∧
      window zs k ny < Radix.val bigrad (digitAt yds) ny := by
  obtain ⟨hlo, hhi⟩ := estimate_overshoot hny hnorm hW
  have hsub : ny + k - ny = k := by omega
  have hW0 := window_nonneg zds k (ny + 1)
  have hWsplit := window_succ zds k ny
  have hYbig : bigrad ^ ny ≤ 2 * Radix.val bigrad (digitAt yds) ny := by
    obtain ⟨n, rfl⟩ : ∃ n, ny = n + 1 := ⟨ny - 1, by omega⟩
    have h0 := Radix.val_nonneg (n := n) bigrad_pos.le (fun i _ => digitAt_nonneg yds i)
    have h1 : 2 ^ 31 * bigrad ^ n ≤ digitAt yds n * bigrad ^ n :=
      mul_le_mul_of_nonneg_right hnorm (pow_nonneg bigrad_pos.le n)
    have h2 : bigrad ^ (n + 1) = 2 * (2 ^ 31 * bigrad ^ n) := by
      rw [pow_succ, show bigrad = 2 * 2 ^ 31 from rfl]
      ring
    rw [Radix.val_succ, h2]
    linarith
  simp only [divStep, hsub]
  generalize quotientDigit yds zds ny (ny + k) = q at *
  by_cases hq : q = 0
  · -- a zero quotient digit: nothing is subtracted
    subst hq
    rw [if_neg (by simp)]
    have hz : (0 : UInt32).toNat = 0 := rfl
    rw [hz] at hlo hhi
    have hpre : window (zds.set (ny + k) 0) k ny = window zds k ny :=
      window_congr (fun j _ hj => digitAt_set_ne (by omega) _)
    have htop : digitAt zds (k + ny) = 0 := by
      by_contra hne
      have h1 : 1 ≤ digitAt zds (k + ny) := by
        have := digitAt_nonneg zds (k + ny)
        omega
      have h2 : 1 * bigrad ^ ny ≤ digitAt zds (k + ny) * bigrad ^ ny :=
        mul_le_mul_of_nonneg_right h1 (pow_nonneg bigrad_pos.le ny)
      have h3 : Radix.val bigrad (digitAt yds) ny < bigrad ^ ny :=
        Radix.val_lt bigrad_pos (fun i _ => digitAt_lt yds i)
      have h4 := window_nonneg zds k ny
      push_cast at hlo
      linarith
    refine ⟨_, rfl, by simp, ?_, ?_, ?_⟩
    · intro j hj
      exact digitAt_set_ne (by omega) _
    · rw [hpre, digitAt_set_self hlen, hz, hWsplit, htop]
      simp
    · rw [hpre]
      rw [hWsplit, htop] at hlo
      push_cast at hlo
      linarith
  · rw [if_pos hq]
    have hms := mulSub_spec yds q (by omega : k + ny ≤ zds.length)
    generalize Loop.upto (MulSub.step yds q k) ny ⟨0, 0, zds⟩ = s at hms
    have hzj : digitAt s.zds (ny + k) = digitAt zds (k + ny) := by
      rw [Nat.add_comm]
      exact hms.outside _ (Or.inr le_rfl)
    have hval := hms.value
    have hs0 := window_nonneg s.zds k ny
    have hs1 := window_lt s.zds k ny
    have hB := pow_pos bigrad_pos ny
    -- the borrow out of the window
    have hnumval : window s.zds k ny +
        (s.num + (digitAt zds (k + ny) - s.t2)) * bigrad ^ ny =
        window zds k (ny + 1) - q.toNat * Radix.val bigrad (digitAt yds) ny := by
      rw [hWsplit]
      linear_combination hval
    have hnumcases : s.num + (digitAt zds (k + ny) - s.t2) = 0 ∨
        s.num + (digitAt zds (k + ny) - s.t2) = -1 := by
      have hYlt : Radix.val bigrad (digitAt yds) ny < bigrad ^ ny :=
        Radix.val_lt bigrad_pos (fun i _ => digitAt_lt yds i)
      have h1 : s.num + (digitAt zds (k + ny) - s.t2) < 1 := by
        by_contra hge
        have : 1 * bigrad ^ ny ≤ (s.num + (digitAt zds (k + ny) - s.t2)) * bigrad ^ ny :=
          mul_le_mul_of_nonneg_right (by omega) hB.le
        linarith
      have h2 : -2 < s.num + (digitAt zds (k + ny) - s.t2) := by
        by_contra hge
        have : (s.num + (digitAt zds (k + ny) - s.t2)) * bigrad ^ ny ≤ -2 * bigrad ^ ny :=
          mul_le_mul_of_nonneg_right (by omega) hB.le
        linarith
      omega
    have hnum : toDblSigned (s.num + toDbl (digitAt s.zds (ny + k) - s.t2)) =
        s.num + (digitAt zds (k + ny) - s.t2) := by
      rw [hzj]
      exact toDblSigned_add (by omega) (by omega)
    rw [hnum]
    have haround : AddBack.Around zds ny k (window zds k (ny + 1))
        (Radix.val bigrad (digitAt yds) ny)
        ⟨s.num + (digitAt zds (k + ny) - s.t2), q, s.zds⟩ :=
      ⟨hms.length, hms.outside, hnumval, hnumcases, by dsimp only; linarith⟩
    obtain ⟨t, hrun, ht, hnum0⟩ := haround.run fuel hW0 (by omega) (by
      have hY0 : 0 ≤ Radix.val bigrad (digitAt yds) ny := by linarith
      have hf : (2 : ℤ) * Radix.val bigrad (digitAt yds) ny ≤
          fuel * Radix.val bigrad (digitAt yds) ny :=
        mul_le_mul_of_nonneg_right (by exact_mod_cast hfuel) hY0
      dsimp only
      linarith)
    rw [hrun]
    have htlen := ht.length
    have htval := ht.value
    have htsmall := ht.small
    have hpre : window (t.zds.set (ny + k) t.q) k ny = window t.zds k ny :=
      window_congr (fun j _ hj => digitAt_set_ne (by omega) _)
    rw [hnum0] at htval
    refine ⟨_, rfl, by simpa using htlen, ?_, ?_, ?_⟩
    · intro j hj
      rw [digitAt_set_ne (by omega)]
      exact ht.outside j (by omega)
    · rw [hpre, digitAt_set_self (by omega)]
      linarith
    · rw [hpre]
      linarith

/-! ## The whole quotient -/

theorem window_succ' (ds : List BDigit) (k n : ℕ) :
    window ds k (n + 1) = digitAt ds k + bigrad * window ds (k + 1) n := by
  have h := window_add ds k 1 n
  rw [Nat.add_comm 1 n] at h
  rw [h]
  simp [window, Radix.val_one]

/-- What holds when `k` of `K` quotient digits are still to be found: the quotient so
far is stored above the `ny + k` digits that are left of the dividend `Z`. -/
structure LongDiv (Z Y : ℤ) (ny K len : ℕ) (k : ℕ) (zs : List BDigit) : Prop where
  length : zs.length = len
  value : Z = window zs (ny + k) (K - k) * bigrad ^ k * Y + window zs 0 (ny + k)
  small : window zs 0 (ny + k) < Y * bigrad ^ k

/-- One turn of the outer loop finds one more digit. -/
theorem LongDiv.next {Z : ℤ} {K len fuel : ℕ} {zs : List BDigit}
    (h : LongDiv Z (Radix.val bigrad (digitAt yds) ny) ny K len (k + 1) zs)
    (hfuel : 2 ≤ fuel) (hny : 0 < ny) (hnorm : 2 ^ 31 ≤ digitAt yds (ny - 1))
    (hk : k < K) (hlen : ny + K ≤ len) :
    ∃ zs', divStep fuel yds ny (ny + k) zs = some zs' ∧
      LongDiv Z (Radix.val bigrad (digitAt yds) ny) ny K len k zs' := by
  have hl := h.length
  have hB := pow_pos bigrad_pos k
  have hsplit : window zs 0 (ny + (k + 1)) =
      window zs 0 k + bigrad ^ k * window zs k (ny + 1) := by
    have := window_add zs 0 k (ny + 1)
    rwa [Nat.zero_add, show k + (ny + 1) = ny + (k + 1) by omega] at this
  have hW : window zs k (ny + 1) < Radix.val bigrad (digitAt yds) ny * bigrad := by
    have h0 := window_nonneg zs 0 k
    have hsm := h.small
    rw [hsplit, pow_succ] at hsm
    refine lt_of_mul_lt_mul_left (a := bigrad ^ k) ?_ hB.le
    linarith
  obtain ⟨zs', hrun, hlen', hout, hdiv, hrem⟩ :=
    divStep_spec hfuel hny hnorm (by omega : ny + k < zs.length) hW
  refine ⟨zs', hrun, hlen'.trans hl, ?_, ?_⟩
  · have hlow : window zs' 0 k = window zs 0 k :=
      window_congr (fun j _ hj => hout j (by omega))
    have hhigh : window zs' (ny + k + 1) (K - (k + 1)) = window zs (ny + (k + 1)) (K - (k + 1)) :=
      window_congr (fun j hj _ => hout j (by omega))
    have hq : window zs' (ny + k) (K - k) =
        digitAt zs' (ny + k) + bigrad * window zs (ny + (k + 1)) (K - (k + 1)) := by
      rw [show K - k = K - (k + 1) + 1 by omega, window_succ', hhigh]
    have hr : window zs' 0 (ny + k) = window zs 0 k + bigrad ^ k * window zs' k ny := by
      have := window_add zs' 0 k ny
      rwa [Nat.zero_add, Nat.add_comm k ny, hlow] at this
    rw [h.value, hq, hr, hsplit, pow_succ, hdiv]
    ring
  · have hr : window zs' 0 (ny + k) = window zs' 0 k + bigrad ^ k * window zs' k ny := by
      have := window_add zs' 0 k ny
      rwa [Nat.zero_add, Nat.add_comm k ny] at this
    have hlow := window_lt zs' 0 k
    rw [hr]
    have hmul : bigrad ^ k * (window zs' k ny + 1) ≤
        bigrad ^ k * Radix.val bigrad (digitAt yds) ny :=
      mul_le_mul_of_nonneg_left (by omega) hB.le
    linarith

/-- **`bigdivrem1` divides**: it leaves the quotient in the digits from index `ny` and
the remainder in the `ny` digits below. -/
theorem bigdivrem1_spec {fuel nx K : ℕ} (hfuel : 2 ≤ fuel) (hny : 0 < ny)
    (hK : K = (if nx = ny then nx + 1 else nx) + 1 - ny) (hlen : ny + K ≤ zds.length)
    (hnorm : 2 ^ 31 ≤ digitAt yds (ny - 1))
    (hZ : window zds 0 (ny + K) < Radix.val bigrad (digitAt yds) ny * bigrad ^ K) :
    ∃ zs, bigdivrem1 fuel nx ny yds zds = some zs ∧ zs.length = zds.length ∧
      window zds 0 (ny + K) =
        window zs ny K * Radix.val bigrad (digitAt yds) ny + window zs 0 ny ∧
      window zs 0 ny < Radix.val bigrad (digitAt yds) ny := by
  have hrun := Loop.downFrom_induction (n := K) (a := some zds)
    (f := fun k o => o.bind (divStep fuel yds ny (ny + k)))
    (fun k o => ∃ zs, o = some zs ∧
      LongDiv (window zds 0 (ny + K)) (Radix.val bigrad (digitAt yds) ny) ny K zds.length k zs)
    ⟨zds, rfl, rfl, by simp [window], hZ⟩ (by
      rintro k o hk ⟨zs, rfl, h⟩
      obtain ⟨zs', hstep, h'⟩ := h.next hfuel hny hnorm hk hlen
      exact ⟨zs', by simpa using hstep, h'⟩)
  obtain ⟨zs, hzs, h⟩ := hrun
  refine ⟨zs, ?_, h.length, ?_, ?_⟩
  · simp only [bigdivrem1]
    rw [← hK]
    exact hzs
  · simpa using h.value
  · simpa using h.small

end MacRuby
