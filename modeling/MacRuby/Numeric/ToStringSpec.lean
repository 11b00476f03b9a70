import MacRuby.Lib.Result
import MacRuby.Numeric.ToString

/-!
# Bignums Are Printed Alike

Both ways of writing digits are compared with the numeral of the same width. `big2str_orig` writes
it four digits at a time. `big2str_karatsuba` writes the numerals of the quotient and of the
remainder side by side: the width of the lower one is the exponent of the divisor, and it is
stripped only if nothing is left of the upper one. The exponent is a power of two that is computed
as an `int`, so a text can be too long for it.

## Main definitions

* `PowerCache.Exact` — the entries of the cache are the powers that they stand for.
* `PowerCache.Reachable` — the caches that any calls leave.
* `PrintsAlike` — the two ways of writing digits give the same text.

## Main results

* `big2strOrig_eq` — the digits one after the other.
* `big2strKaratsuba_eq` — the digits by halves.
* `PowerCache.Reachable.exact` — the cache over all runs.
* `printsAlike_iff` — printing does not depend on the way, up to a width of `2 ^ 31`.
-/

namespace MacRuby

open Numerals Result

/-! ## Digits one after the other -/

section Digits

variable {base : ℕ} {trim last : Bool}

theorem rubyDigitmap_zero : rubyDigitmap 0 = 48 := rfl

theorem rubyDigitmap_eq_zero {d : ℕ} (hd : d < 36) (h : rubyDigitmap d = rubyDigitmap 0) :
    d = 0 := by
  have hall : ∀ d : Fin 36, rubyDigitmap d = rubyDigitmap 0 → d = 0 := by decide
  exact congrArg Fin.val (hall ⟨d, hd⟩ h)

/-- **The loop over four digits**: it writes the lowest digits, as many as there is room for, or the
last digits of a number up to its first one. -/
theorem putDigits_spec (base : ℕ) (last : Bool) (k : ℕ) {j : ℕ} (hj : j ≠ 0) (num : ℕ)
    (out : List UInt8) :
    ∃ t, putDigits base last k j num out = (j - t, padded rubyDigitmap base t num ++ out) ∧
      t ≤ j ∧ t ≤ k ∧ ((t = j ∨ t = k) ∨ last = true ∧ num / base ^ t = 0) := by
  induction k generalizing j num out with
  | zero => exact ⟨0, rfl, Nat.zero_le _, le_rfl, .inl (.inr rfl)⟩
  | succ k ih =>
      have hone : padded rubyDigitmap base 1 num = [rubyDigitmap (num % base)] := rfl
      rw [putDigits]
      by_cases hroom : j - 1 = 0
      · rw [if_pos hroom]
        exact ⟨1, rfl, by omega, by omega, .inl (.inl (by omega))⟩
      · rw [if_neg hroom]
        by_cases hstop : (last && num / base == 0) = true
        · rw [if_pos hstop]
          rw [Bool.and_eq_true, beq_iff_eq] at hstop
          refine ⟨1, rfl, by omega, by omega, .inr ⟨hstop.1, ?_⟩⟩
          rw [pow_one]
          exact hstop.2
        · rw [if_neg hstop]
          obtain ⟨t, hrun, htj, htk, hend⟩ := ih hroom (num / base)
            (rubyDigitmap (num % base) :: out)
          refine ⟨t + 1, ?_, by omega, by omega, ?_⟩
          · rw [hrun, padded_add rubyDigitmap base t 1, pow_one, hone, List.append_assoc,
              List.singleton_append, Nat.sub_sub, Nat.add_comm 1 t]
          · rcases hend with h | ⟨hlast, hzero⟩
            · exact .inl (by omega)
            · refine .inr ⟨hlast, ?_⟩
              rw [pow_succ', ← Nat.div_div_eq_div_mul]
              exact hzero

/-- Without its last digit a number is the same, if that is zero. -/
theorem magnitude_dropLast {ds : List BDigit} (h : ds.getD (ds.length - 1) 0 = 0) :
    magnitude ds.dropLast = magnitude ds := by
  rcases List.eq_nil_or_concat ds with rfl | ⟨es, e, rfl⟩
  · rfl
  · rw [List.concat_eq_append] at h ⊢
    rw [List.length_append, List.length_singleton, Nat.add_sub_cancel,
      List.getD_append_right _ _ _ _ le_rfl, Nat.sub_self] at h
    obtain rfl : e = 0 := h
    rw [List.dropLast_concat, magnitude_append]
    have hzero : magnitude [0] = 0 := rfl
    rw [hzero, mul_zero, add_zero]

theorem length_shortDivide (dd : BDigit) (x : Bignum) : (shortDivide dd x).2.length = x.len := by
  exact Loop.downFrom_induction (n := x.len) (a := ((0 : ℤ), x.digits))
    (f := fun i (s : ℤ × List BDigit) =>
      let t2 := toDbl (bigup s.1 + digitAt s.2 i)
      (t2 % dd.toNat, s.2.set i (biglo (t2 / dd.toNat))))
    (fun _ s => s.2.length = x.len) rfl (fun i s _ h => (List.length_set ..).trans h)

/-- The natural number that digits stand for. -/
def natOf (ds : List BDigit) : ℕ := (magnitude ds).toNat

theorem natOf_nil : natOf [] = 0 := rfl

theorem hbaseOf_eq (base : ℕ) : hbaseOf base = base ^ 4 := by
  rw [hbaseOf]
  ring

/-- Short division by the fourth power of the base, in natural numbers. -/
theorem natOf_shortDivide (h2 : 2 ≤ base) (h36 : base ≤ 36) (ds : List BDigit) :
    let r := shortDivide (UInt32.ofNat (hbaseOf base)) ⟨true, ds⟩
    natOf r.2 = natOf ds / base ^ 4 ∧ r.1.toNat = natOf ds % base ^ 4 := by
  intro r
  have hpow : base ^ 4 < 2 ^ 32 := by
    calc base ^ 4 ≤ 36 ^ 4 := Nat.pow_le_pow_left h36 4
      _ < 2 ^ 32 := by norm_num
  have hpos : 0 < base ^ 4 := by positivity
  have hdd : (UInt32.ofNat (hbaseOf base)).toNat = base ^ 4 := by
    rw [hbaseOf_eq, UInt32.toNat_ofNat_of_lt' hpow]
  have hdd0 : 0 < (UInt32.ofNat (hbaseOf base)).toNat := by
    rw [hdd]
    exact hpos
  obtain ⟨hval, hr0, hr1⟩ := shortDivide_spec hdd0 ⟨true, ds⟩
  rw [hdd] at hval hr1
  have hmag : (⟨true, ds⟩ : Bignum).mag = natOf ds :=
    (Int.toNat_of_nonneg (magnitude_nonneg _)).symm
  have hquo : magnitude r.2 = natOf r.2 := (Int.toNat_of_nonneg (magnitude_nonneg _)).symm
  have hrem : r.1 = (r.1.toNat : ℤ) := (Int.toNat_of_nonneg hr0).symm
  have hnat : natOf ds = natOf r.2 * base ^ 4 + r.1.toNat := by
    have := hval
    rw [hmag, hquo, hrem] at this
    exact_mod_cast this
  have hlt : r.1.toNat < base ^ 4 := by
    have : (r.1.toNat : ℤ) < (base ^ 4 : ℕ) := hrem ▸ hr1
    exact_mod_cast this
  rw [hnat, Nat.mul_comm, Nat.mul_add_div hpos, Nat.div_eq_of_lt hlt, Nat.mul_add_mod,
    Nat.mod_eq_of_lt hlt]
  exact ⟨(Nat.add_zero _).symm, rfl⟩

/-- **The loop of `big2str_orig`** writes the lowest digits, as many as there is room for; if it
trims, it may stop where the number is used up. -/
theorem big2strLoop_spec (h2 : 2 ≤ base) (h36 : base ≤ 36) (ds : List BDigit) (j : ℕ)
    (out : List UInt8) (hds : trim = false → ds ≠ []) :
    ∃ t, big2strLoop base (hbaseOf base) trim ds j out =
        padded rubyDigitmap base t (natOf ds) ++ out ∧
      t ≤ j ∧ (t = j ∨ trim = true ∧ natOf ds / base ^ t = 0) := by
  induction hn : j using Nat.strong_induction_on generalizing j ds out with
  | _ n ih =>
      subst hn
      rw [big2strLoop]
      by_cases hend : ds = [] ∨ j = 0
      · rw [if_pos hend]
        refine ⟨0, rfl, Nat.zero_le _, ?_⟩
        by_cases hj : j = 0
        · exact .inl hj.symm
        · obtain rfl := hend.resolve_right hj
          refine .inr ⟨?_, by rw [natOf_nil, Nat.zero_div]⟩
          cases trim with
          | false => exact absurd rfl (hds rfl)
          | true => rfl
      · rw [if_neg hend]
        rw [not_or] at hend
        dsimp only
        obtain ⟨hquo, hrem⟩ := natOf_shortDivide h2 h36 ds
        have hlen := length_shortDivide (UInt32.ofNat (hbaseOf base)) ⟨true, ds⟩
        generalize shortDivide (UInt32.ofNat (hbaseOf base)) ⟨true, ds⟩ = r at hquo hrem hlen ⊢
        -- the digits that stay in use have the value of the quotient
        obtain ⟨es, hes, hval, hne⟩ : ∃ es, (if trim = true ∧ r.2.getD (r.2.length - 1) 0 = 0 then
            r.2.dropLast else r.2) = es ∧ natOf es = natOf ds / base ^ 4 ∧
              (trim = false → es ≠ []) := by
          refine ⟨_, rfl, ?_, fun h => ?_⟩
          · split_ifs with hdrop
            · rw [natOf, magnitude_dropLast hdrop.2]
              exact hquo
            · exact hquo
          · rw [if_neg fun hdrop => Bool.false_ne_true (h.symm.trans hdrop.1)]
            intro hnil
            rw [hnil] at hlen
            exact hend.1 (List.eq_nil_of_length_eq_zero hlen.symm)
        rw [hes, hrem]
        have hlast : ∀ {t}, t ≤ 4 → padded rubyDigitmap base t (natOf ds % base ^ 4) =
            padded rubyDigitmap base t (natOf ds) := fun ht => padded_mod rubyDigitmap base ht _
        obtain ⟨t, hrun, htj, htk, hstop⟩ := putDigits_spec base (trim && es.isEmpty) 4 hend.2
          (natOf ds % base ^ 4) out
        rw [hrun, hlast htk]
        dsimp only
        have hpos : t ≠ 0 := by
          have := putDigits_lt base (trim && es.isEmpty) 3 hend.2 (natOf ds % base ^ 4) out
          rw [hrun] at this
          dsimp only at this
          omega
        obtain ⟨t', hrun', htj', hstop'⟩ := ih (j - t) (by omega) es (j - t)
          (padded rubyDigitmap base t (natOf ds) ++ out) hne rfl
        rw [hrun', hval]
        rcases hstop with (rfl | rfl) | ⟨hlast', hzero⟩
        · -- there is no room left
          obtain rfl : t' = 0 := by omega
          exact ⟨t, rfl, le_rfl, .inl rfl⟩
        · refine ⟨t' + 4, ?_, by omega, ?_⟩
          · rw [padded_add, List.append_assoc]
          · rcases hstop' with h | ⟨htrim, hzero⟩
            · exact .inl (by omega)
            · refine .inr ⟨htrim, ?_⟩
              rw [hval, Nat.div_div_eq_div_mul, ← pow_add, Nat.add_comm 4 t'] at hzero
              exact hzero
        · -- the number is used up, and so are its digits
          rw [Bool.and_eq_true, List.isEmpty_iff] at hlast'
          obtain ⟨htrim, rfl⟩ := hlast'
          have hsmall : natOf ds / base ^ 4 = 0 := hval.symm.trans natOf_nil
          have hmod : natOf ds % base ^ 4 = natOf ds := by
            refine Nat.mod_eq_of_lt ?_
            exact (Nat.div_eq_zero_iff.mp hsmall).resolve_left (by positivity)
          rw [hmod] at hzero
          rw [big2strLoop, if_pos (.inl rfl)] at hrun'
          obtain rfl : t' = 0 := by
            have hlen := congrArg List.length hrun'
            rw [List.length_append, List.length_append, List.length_append, length_padded,
              length_padded] at hlen
            omega
          exact ⟨t, rfl, htj, .inr ⟨htrim, hzero⟩⟩

/-- The numeral that a text is made of: of full width, or without zeros in front. -/
def numeralText (base : ℕ) (trim : Bool) (width v : ℕ) : List UInt8 :=
  if trim then strip rubyDigitmap (padded rubyDigitmap base width v)
  else padded rubyDigitmap base width v

/-- **`big2str_orig` writes the numeral** of the width that there is room for. -/
theorem big2strOrig_eq (h2 : 2 ≤ base) (h36 : base ≤ 36) {x : Bignum} {len : ℕ}
    (hds : trim = false → x.digits ≠ []) (hfit : trim = true → natOf x.digits < base ^ len) :
    big2strOrig x base len (hbaseOf base) trim = numeralText base trim len (natOf x.digits) := by
  obtain ⟨t, hrun, htj, hend⟩ := big2strLoop_spec h2 h36 x.digits len [] hds
  rw [List.append_nil] at hrun
  rw [big2strOrig, Int.toNat_natCast, hrun, numeralText]
  cases trim with
  | false =>
      obtain rfl := hend.resolve_right fun h => Bool.false_ne_true h.1
      rfl
  | true =>
      rw [if_pos rfl, if_pos rfl]
      rcases hend with rfl | ⟨-, hzero⟩
      · rfl
      · have hlt : natOf x.digits < base ^ t :=
          (Nat.div_eq_zero_iff.mp hzero).resolve_left (by positivity)
        exact (strip_padded_of_lt rubyDigitmap htj hlt).symm

end Digits

/-! ## Powers and their cache -/

section Powers

variable {L : LongSize} {F : Type} {fl : Floats F} {base e i : ℕ} {p : Bignum} {cache : PowerCache}

/-- A bignum without leading zeros that is a power of the base. -/
structure IsPower (p : Bignum) (base e : ℕ) : Prop where
  sign : p.sign = true
  mag : p.mag = (base : ℤ) ^ e
  trimmed : p.Trimmed

/-- **The entries of the cache are the powers** that they stand for. -/
def PowerCache.Exact (cache : PowerCache) : Prop :=
  ∀ base i p, 2 ≤ base → cache (base - 2) i = some p → IsPower p base (128 * 2 ^ i)

theorem PowerCache.exact_init : PowerCache.init.Exact := fun _ _ _ _ h => nomatch h

theorem PowerCache.Exact.put (h : cache.Exact) (hbase : 2 ≤ base)
    (hp : IsPower p base (128 * 2 ^ i)) :
    (cache.put (base - 2) i p).Exact := by
  intro base' i' p' hbase' hget
  rw [PowerCache.put] at hget
  split_ifs at hget with heq
  · cases hget
    obtain ⟨hb, rfl⟩ := heq
    obtain rfl : base' = base := by omega
    exact hp
  · exact h base' i' p' hbase' hget

theorem squareOf_square (L : LongSize) (x : Bignum) : SquareOf x (square L x) := by
  obtain ⟨z, hz, hsq⟩ := bigsqr_spec L x
  have hsquare : square L x = z := Option.get_of_mem _ hz
  rwa [hsquare]

/-- The square of a power. -/
theorem IsPower.square (h : IsPower p base (128 * 2 ^ i)) :
    IsPower (square L p) base (128 * 2 ^ (i + 1)) := by
  have hsq := squareOf_square L p
  refine ⟨hsq.sign, ?_, hsq.trimmed⟩
  rw [hsq.mag, h.mag, ← pow_add]
  congr 1
  ring

/-- The first power is computed exactly, and it is no fixnum. -/
theorem rbBigPow_karatsubaDigits (L : LongSize) (fl : Floats F) (h2 : 2 ≤ base) (h36 : base ≤ 36) :
    ∃ p, rbBigPow fl (rbInt2big L base) (.fixnum (karatsubaDigits L)) = .int (.bignum p) ∧
      IsPower p base 128 := by
  have hword : (base : ℤ) < bigrad := by
    rw [bigrad_eq]
    omega
  have hpos : (0 : ℤ) ≤ base := Int.natCast_nonneg _
  have hval : (rbInt2big L base).toInt = base :=
    toInt_rbInt2big (by cases L <;> norm_num [LongSize.bits, LongSize.bytes])
      (by cases L <;> norm_num [LongSize.bits, LongSize.bytes] <;> omega)
  have hlen : (rbInt2big L base).len ≤ 1 := by
    rw [rbInt2big, if_neg (not_lt.mpr hpos)]
    exact len_rbUint2big hpos hword
  have hexp : (karatsubaDigits L).val = 128 := rfl
  have hlimit : (rbInt2big L base).len * (karatsubaDigits L).val.toNat ≤ biglenLimit := by
    rw [hexp]
    exact (Nat.mul_le_mul_right _ hlen).trans (by decide)
  obtain ⟨r, hrun, hr⟩ := rbBigPow_int fl (rbInt2big L base) (y := karatsubaDigits L)
    (by rw [hexp]; decide) hlimit
  have hnat : (128 : ℤ).toNat = 128 := rfl
  rw [hval, hexp, hnat] at hr
  have hbig : (2 : ℤ) ^ 128 ≤ (base : ℤ) ^ 128 := pow_le_pow_left₀ (by norm_num)
    (by exact_mod_cast h2) _
  cases r with
  | fixnum n =>
      have hmax := n.le_max
      have hn : n.val = (base : ℤ) ^ 128 := hr.value
      have hfix : L.fixnumMax < 2 ^ 128 := by cases L <;> decide
      omega
  | bignum p =>
      have htrim := hr.canonical.trimmed
      have htoInt : p.toInt = (base : ℤ) ^ 128 := hr.value
      have hp0 : 0 < p.toInt := by
        rw [htoInt]
        exact lt_of_lt_of_le (by positivity) hbig
      have hsign : p.sign = true := by
        rw [Bignum.toInt] at hp0
        have hmag := p.mag_nonneg
        cases hs : p.sign with
        | true => rfl
        | false =>
            rw [hs, if_neg Bool.false_ne_true] at hp0
            omega
      refine ⟨p, hrun, hsign, ?_, htrim⟩
      rw [← htoInt, Bignum.toInt, if_pos hsign]

/-- **A power is taken from the cache or put into it.** -/
theorem powerCacheGetPower0_spec (L : LongSize) (fl : Floats F) (h2 : 2 ≤ base) (h36 : base ≤ 36)
    (i : ℕ) (hcache : cache.Exact) :
    ∃ p cache', powerCacheGetPower0 L fl base i cache = .ok (p, cache') ∧
      IsPower p base (128 * 2 ^ i) ∧ cache'.Exact := by
  induction i generalizing cache with
  | zero =>
      rw [powerCacheGetPower0]
      cases hget : cache (base - 2) 0 with
      | some p => exact ⟨p, cache, rfl, hcache base 0 p h2 hget, hcache⟩
      | none =>
          obtain ⟨p, hrun, hp⟩ := rbBigPow_karatsubaDigits L fl h2 h36
          rw [hrun]
          exact ⟨p, _, rfl, hp, hcache.put (i := 0) h2 hp⟩
  | succ i ih =>
      rw [powerCacheGetPower0]
      cases hget : cache (base - 2) (i + 1) with
      | some p => exact ⟨p, cache, rfl, hcache base (i + 1) p h2 hget, hcache⟩
      | none =>
          obtain ⟨q, cache', hrun, hq, hcache'⟩ := ih hcache
          rw [hrun]
          exact ⟨_, _, rfl, hq.square, hcache'.put h2 hq.square⟩

variable {fuel : ℕ} {n1 : ℤ}

/-- The word for a length. -/
theorem toNat_ofInt_of_lt {w : ℕ} (h0 : 0 ≤ n1) (h1 : n1 < 2 ^ w) :
    (BitVec.ofInt w n1).toNat = n1.toNat := by
  rw [BitVec.toNat_ofInt]
  push_cast
  rw [Int.emod_eq_of_lt h0 h1]

/-- The exponent for a length: the least power of two that is not below it. -/
theorem ceilLog2_length (h0 : 0 < n1) (h1 : n1 < 2 ^ (L.bits - 1)) :
    ∃ m : ℕ, ceilLog2 L (BitVec.ofInt L.bits n1) = m ∧ n1 ≤ 2 ^ m ∧ (2 : ℤ) ^ m < 2 * n1 := by
  have hlt : n1 < 2 ^ L.bits := h1.trans (pow_lt_pow_right₀ (by norm_num) (by cases L <;> decide))
  have hnat := toNat_ofInt_of_lt (w := L.bits) h0.le hlt
  have hne : BitVec.ofInt L.bits n1 ≠ 0 := by
    intro h
    rw [h] at hnat
    have hz : (0 : BitVec L.bits).toNat = 0 := rfl
    omega
  obtain ⟨m, hm, hle, hgt⟩ := ceilLog2_spec hne
  rw [hnat] at hle hgt
  have hcast : (n1.toNat : ℤ) = n1 := Int.toNat_of_nonneg h0.le
  refine ⟨m, hm, ?_, ?_⟩
  · rw [← hcast]
    exact_mod_cast hle
  · rw [← hcast]
    exact_mod_cast hgt

/-- **The power that a text is split by.** -/
theorem powerCacheGetPower_spec (fl : Floats F) (fuel : ℕ) (h2 : 2 ≤ base) (h36 : base ≤ 36)
    (hlow : 128 < n1) (hup : n1 ≤ 2 ^ 30) (hcache : cache.Exact) :
    ∃ b m cache', powerCacheGetPower L fl fuel base n1 cache = .ok ((b, 2 ^ m), cache') ∧
      n1 ≤ 2 ^ m ∧ (2 : ℤ) ^ m < 2 * n1 ∧ IsPower b base (2 ^ m) ∧ cache'.Exact := by
  have hword : n1 < 2 ^ (L.bits - 1) := by
    refine hup.trans_lt (pow_lt_pow_right₀ (by norm_num) ?_)
    cases L <;> decide
  obtain ⟨m, hm, hle, hgt⟩ := ceilLog2_length (L := L) (by omega) hword
  have hm7 : 7 < m := by
    by_contra h
    have : (2 : ℤ) ^ m ≤ 2 ^ 7 := pow_le_pow_right₀ (by norm_num) (by omega)
    omega
  have hm30 : m < 31 := by
    by_contra h
    have : (2 : ℤ) ^ 31 ≤ 2 ^ m := pow_le_pow_right₀ (by norm_num) (by omega)
    omega
  have hexp : 128 * 2 ^ (m - 7) = 2 ^ m := by
    have : m = 7 + (m - 7) := by omega
    rw [this, pow_add, Nat.add_sub_cancel_left]
    norm_num
  have hidx : (if (m : ℤ) - 7 ≥ 64 then 63 else (m : ℤ) - 7).toNat = m - 7 := by
    rw [if_neg (by omega)]
    omega
  obtain ⟨t, cache', hrun, ht, hcache'⟩ := powerCacheGetPower0_spec L fl h2 h36 (m - 7) hcache
  have hstop : decide ((128 * 2 ^ (m - 7) : ℤ) < n1) = false := by
    refine decide_eq_false (not_lt.mpr ?_)
    have : (128 * 2 ^ (m - 7) : ℤ) = 2 ^ m := by exact_mod_cast hexp
    rw [this]
    exact hle
  rw [hexp] at ht
  refine ⟨t, m, cache', ?_, hle, hgt, ht, hcache'⟩
  rw [powerCacheGetPower, if_neg (by omega)]
  dsimp only
  rw [hm, if_neg (by omega), hidx, hrun, ok_bind]
  dsimp only
  rw [Loop.whileFuel_of_not (c := fun s : Bignum × ℤ => decide (s.2 < n1))
    (a := (t, 128 * 2 ^ (m - 7))) hstop]
  rfl

/-- **A length above `2 ^ 30` has no power**: the exponent is shifted out of an `int`. -/
theorem powerCacheGetPower_undefined (fl : Floats F) (fuel : ℕ) (hlow : 2 ^ 30 < n1)
    (hup : n1 < 2 ^ (L.bits - 1)) :
    powerCacheGetPower L fl fuel base n1 cache = .error .undefinedShift := by
  obtain ⟨m, hm, hle, -⟩ := ceilLog2_length (L := L) (by omega) hup
  have hm31 : 31 ≤ m := by
    by_contra h
    have : (2 : ℤ) ^ m ≤ 2 ^ 30 := pow_le_pow_right₀ (by norm_num) (by omega)
    omega
  rw [powerCacheGetPower, if_neg (by omega)]
  dsimp only
  rw [hm, if_pos (by exact_mod_cast hm31)]

end Powers

/-! ## Digits by halves -/

section Halves

variable {L : LongSize} {F : Type} {fl : Floats F} {fuel base : ℕ} {trim : Bool}
  {cache : PowerCache}

theorem numeralText_zero (base : ℕ) (trim : Bool) (len : ℕ) :
    numeralText base trim len 0 = if trim then [] else List.replicate len 48 := by
  rw [numeralText, padded_zero, rubyDigitmap_zero]
  cases trim with
  | false => rfl
  | true =>
      have h := strip_replicate rubyDigitmap len []
      rw [List.append_nil, rubyDigitmap_zero] at h
      exact h

/-- **A numeral in two parts**: the lower one is stripped if nothing is left of the upper one. -/
theorem numeralText_split (hb : 0 < base) (trim : Bool) (m : ℕ) {n q r : ℕ} (hr : r < base ^ n) :
    numeralText base trim (m + n) (q * base ^ n + r) = numeralText base trim m q ++
      numeralText base ((numeralText base trim m q).isEmpty && trim) n r := by
  have hsplit := padded_split rubyDigitmap hb m (q := q) hr
  cases trim with
  | false =>
      rw [Bool.and_false]
      exact hsplit
  | true =>
      have htext : numeralText base true m q = strip rubyDigitmap (padded rubyDigitmap base m q) :=
        rfl
      rw [Bool.and_true, htext, numeralText, if_pos rfl, hsplit, strip_append]
      by_cases hnil : strip rubyDigitmap (padded rubyDigitmap base m q) = []
      · rw [if_pos hnil, hnil]
        rfl
      · rw [if_neg hnil, numeralText, if_neg (fun h => hnil (List.isEmpty_iff.mp h))]

theorem natOf_cast (ds : List BDigit) : (natOf ds : ℤ) = magnitude ds :=
  Int.toNat_of_nonneg (magnitude_nonneg ds)

/-- Division by a power of the base. -/
theorem bigdivmod_power (hfuel : 31 ≤ fuel) (h2 : 2 ≤ base) {x b : Bignum} {e : ℕ}
    (hx : x.sign = true) (hb : IsPower b base e) :
    ∃ q r, bigdivmod L fuel x b = .ok (q, r) ∧ q.sign = true ∧ r.sign = true ∧
      natOf x.digits = natOf q.digits * base ^ e + natOf r.digits ∧ natOf r.digits < base ^ e := by
  have hpos : 0 < b.toInt := by
    rw [Bignum.toInt, if_pos hb.sign, hb.mag]
    have : (0 : ℤ) < base := by exact_mod_cast (by omega : 0 < base)
    positivity
  have hok : DivOk x b := divOk_of_top_ne_zero (hb.trimmed.top_ne_zero hpos.ne')
  obtain ⟨q, r, hrun, hdiv⟩ := bigdivrem_spec (L := L) hfuel hpos.ne' hok
  have hsame : (x.sign != b.sign && !bigzerop r) = false := by
    rw [hx, hb.sign]
    rfl
  have hqsign : q.sign = true := by
    rcases hdiv.quo_sign with h | rfl
    · rw [h, hx, hb.sign]
      rfl
    · rfl
  refine ⟨q, r, ?_, hqsign, hdiv.rem_sign.trans hx, ?_, ?_⟩
  · rw [bigdivmod, hrun, ok_bind]
    dsimp only
    rw [hsame]
    rfl
  · have h := hdiv.mag_eq
    rw [hb.mag] at h
    rw [Bignum.mag, Bignum.mag, Bignum.mag, ← natOf_cast, ← natOf_cast, ← natOf_cast] at h
    exact_mod_cast h
  · have h := hdiv.rem_lt
    rw [hb.mag, Bignum.mag, ← natOf_cast] at h
    exact_mod_cast h

theorem digits_ne_nil {x : Bignum} (hx : bigzerop x = false) : x.digits ≠ [] := by
  intro h
  have hzero : x.toInt = 0 := by
    rw [x.toInt_eq_zero_iff, Bignum.mag, h]
    rfl
  rw [(bigzerop_eq_true_iff x).mpr hzero] at hx
  cases hx

/-- The sizes that a text is split into: a width, and about half of it. -/
structure Halves (n1 : ℤ) (len : ℕ) : Prop where
  low : 2 * n1 ≤ len + 1
  up : (len : ℤ) ≤ 2 * n1 + 1

/-- The sizes of the two parts of a text. -/
theorem Halves.parts {n1 : ℤ} {len m d : ℕ} (h : Halves n1 len) (hle : n1 ≤ 2 ^ m)
    (hgt : (2 : ℤ) ^ m < 2 * n1) (hd : n1 ≤ 2 ^ (d + 1)) (hn : n1 ≤ 2 ^ 30) :
    ∃ k, len = k + 2 ^ m ∧ Halves (k / 2) k ∧ Halves (2 ^ m / 2) (2 ^ m) ∧
      ((k : ℤ) / 2 ≤ 2 ^ d ∧ (k : ℤ) / 2 ≤ 2 ^ 30) ∧ (2 : ℤ) ^ m / 2 ≤ 2 ^ d ∧
      (2 : ℤ) ^ m / 2 ≤ 2 ^ 30 := by
  have hlow := h.low
  have hup := h.up
  obtain ⟨k, hk⟩ : ∃ k, len = k + 2 ^ m := by
    refine Nat.exists_eq_add_of_le' ?_
    have : ((2 ^ m : ℕ) : ℤ) ≤ len := by
      push_cast
      omega
    exact_mod_cast this
  have hk' : (len : ℤ) = k + 2 ^ m := by exact_mod_cast hk
  have hm : m ≤ d + 1 := by
    by_contra hm
    have : (2 : ℤ) ^ (d + 2) ≤ 2 ^ m := pow_le_pow_right₀ (by norm_num) (by omega)
    have hdouble : (2 : ℤ) ^ (d + 2) = 2 * 2 ^ (d + 1) := pow_succ' _ _
    omega
  have hm' : (2 : ℤ) ^ m ≤ 2 ^ (d + 1) := pow_le_pow_right₀ (by norm_num) hm
  have hdouble : (2 : ℤ) ^ (d + 1) = 2 * 2 ^ d := pow_succ' _ _
  have hpow : (0 : ℤ) < 2 ^ d := by positivity
  refine ⟨k, hk, ⟨by omega, by omega⟩, ⟨?_, ?_⟩, ⟨by omega, by omega⟩, by omega, by omega⟩
  · push_cast
    omega
  · push_cast
    omega

/-- A short text is not split. -/
theorem big2strKaratsuba_short (fl : Floats F) (fuel : ℕ) (h2 : 2 ≤ base) (h36 : base ≤ 36)
    {x : Bignum} {n1 : ℤ} {len : ℕ} (depth : ℕ) (hfit : natOf x.digits < base ^ len)
    (hshort : bigzerop x = true ∨ n1 ≤ 128) :
    big2strKaratsuba L fl fuel base (hbaseOf base) (depth + 1) x n1 len trim cache =
      .ok (numeralText base trim len (natOf x.digits), cache) := by
  rw [big2strKaratsuba, if_neg (by omega)]
  cases hzero : bigzerop x with
  | true =>
      have hval : natOf x.digits = 0 := by
        rw [natOf, ← Bignum.mag, (x.toInt_eq_zero_iff).mp ((bigzerop_eq_true_iff x).mp hzero)]
        rfl
      rw [if_pos rfl, hval, numeralText_zero, Int.toNat_natCast]
  | false =>
      have hsmall : n1 ≤ 128 := hshort.resolve_left (by rw [hzero]; exact Bool.false_ne_true)
      rw [if_neg Bool.false_ne_true, if_pos hsmall,
        big2strOrig_eq h2 h36 (fun _ => digits_ne_nil hzero) fun _ => hfit]

/-- **`big2str_karatsuba` writes the numeral** of the width that it is given. -/
theorem big2strKaratsuba_eq (fl : Floats F) (trim : Bool) (hfuel : 31 ≤ fuel) (h2 : 2 ≤ base)
    (h36 : base ≤ 36)
    {x : Bignum} {n1 : ℤ} {len d : ℕ} (hx : x.sign = true) (hfit : natOf x.digits < base ^ len)
    (hhalf : Halves n1 len) (hd : n1 ≤ 2 ^ d) (hn : n1 ≤ 2 ^ 30) (hcache : cache.Exact) :
    ∃ cache', big2strKaratsuba L fl fuel base (hbaseOf base) (d + 1) x n1 len trim cache =
      .ok (numeralText base trim len (natOf x.digits), cache') ∧ cache'.Exact := by
  induction d generalizing x n1 len trim cache with
  | zero =>
      have hsmall : n1 ≤ 128 := hd.trans (by norm_num)
      exact ⟨cache, big2strKaratsuba_short fl fuel h2 h36 0 hfit (.inr hsmall), hcache⟩
  | succ d ih =>
      by_cases hshort : bigzerop x = true ∨ n1 ≤ 128
      · exact ⟨cache, big2strKaratsuba_short fl fuel h2 h36 (d + 1) hfit hshort, hcache⟩
      · rw [not_or, not_le] at hshort
        obtain ⟨b, m, cache₁, hpow, hle, hgt, hb, hcache₁⟩ :=
          powerCacheGetPower_spec (L := L) fl fuel h2 h36 hshort.2 hn hcache
        obtain ⟨q, r, hdiv, hq, hr, hval, hrem⟩ := bigdivmod_power (L := L) hfuel h2 hx hb
        obtain ⟨k, rfl, hhalf₁, hhalf₂, ⟨hd₁, hn₁⟩, hd₂, hn₂⟩ := hhalf.parts hle hgt hd hn
        have hquo : natOf q.digits < base ^ k := by
          rw [pow_add] at hfit
          refine lt_of_mul_lt_mul_right (lt_of_le_of_lt ?_ hfit) (Nat.zero_le (base ^ 2 ^ m))
          rw [hval]
          exact Nat.le_add_right _ _
        obtain ⟨cache₂, hrun₁, hcache₂⟩ := ih trim hq hquo hhalf₁ hd₁ hn₁ hcache₁
        obtain ⟨cache₃, hrun₂, hcache₃⟩ := ih
          ((numeralText base trim k (natOf q.digits)).isEmpty && trim) hr hrem hhalf₂ hd₂ hn₂
            hcache₂
        have hk : ((k + 2 ^ m : ℕ) : ℤ) - 2 ^ m = (k : ℕ) := by
          push_cast
          ring
        have hk2 : ((k : ℕ) : ℤ).tdiv 2 = k / 2 := Int.tdiv_eq_ediv_of_nonneg (Int.natCast_nonneg k)
        have hm2 : ((2 : ℤ) ^ m).tdiv 2 = 2 ^ m / 2 := Int.tdiv_eq_ediv_of_nonneg (by positivity)
        have hm : ((2 ^ m : ℕ) : ℤ) = 2 ^ m := by push_cast; rfl
        rw [hm] at hrun₂
        refine ⟨cache₃, ?_, hcache₃⟩
        rw [big2strKaratsuba, if_neg (by omega), if_neg hshort.1,
          if_neg (not_le.mpr hshort.2), hpow,
          ok_bind]
        dsimp only
        rw [hdiv, hk, hk2, hm2]
        dsimp only [Except.mapError]
        rw [ok_bind]
        dsimp only
        rw [hrun₁, ok_bind]
        dsimp only
        rw [hrun₂, ok_bind, hval, numeralText_split (by omega) trim k hrem]
        rfl

end Halves

/-! ## The cache over all runs -/

section Runs

variable {L : LongSize} {F : Type} {fl : Floats F} {fuel base : ℕ} {estimate : ℤ → ℕ → ℤ}
  {cache cache' : PowerCache}

theorem powerCacheGetPower_exact (h2 : 2 ≤ base) (h36 : base ≤ 36) {n1 : ℤ} {r : Bignum × ℤ}
    (hcache : cache.Exact) (hrun : powerCacheGetPower L fl fuel base n1 cache = .ok (r, cache')) :
    cache'.Exact := by
  rw [powerCacheGetPower] at hrun
  dsimp only at hrun
  split_ifs at hrun
  all_goals
    obtain ⟨⟨t, cache₁⟩, hget, hrun⟩ := bind_eq_ok.mp hrun
    obtain ⟨p, cache₂, hget', -, hexact⟩ := powerCacheGetPower0_spec L fl h2 h36 _ hcache
    rw [hget'] at hget
    cases hget
    dsimp only at hrun
    split at hrun
    · cases hrun
      exact hexact
    · cases hrun

/-- **The cache stays exact** while digits are written. -/
theorem big2strKaratsuba_exact (h2 : 2 ≤ base) (h36 : base ≤ 36) {hbase depth : ℕ} {x : Bignum}
    {n1 len : ℤ} {trim : Bool} {text : List UInt8} (hcache : cache.Exact)
    (hrun : big2strKaratsuba L fl fuel base hbase depth x n1 len trim cache = .ok (text, cache')) :
    cache'.Exact := by
  induction depth generalizing x n1 len trim text cache cache' with
  | zero => cases hrun
  | succ depth ih =>
      rw [big2strKaratsuba] at hrun
      split_ifs at hrun
      · cases hrun
        exact hcache
      · cases hrun
        exact hcache
      · cases hrun
        exact hcache
      · obtain ⟨⟨⟨b, m1⟩, cache₁⟩, hpow, hrun⟩ := bind_eq_ok.mp hrun
        obtain ⟨⟨q, r⟩, -, hrun⟩ := bind_eq_ok.mp hrun
        obtain ⟨⟨h, cache₂⟩, hhigh, hrun⟩ := bind_eq_ok.mp hrun
        obtain ⟨⟨l, cache₃⟩, hlow, hrun⟩ := bind_eq_ok.mp hrun
        cases hrun
        exact ih (ih (powerCacheGetPower_exact h2 h36 hcache hpow) hhigh) hlow

theorem rbBig2str0_exact {x : Bignum} {base : ℤ} {trim : Bool} {text : List UInt8}
    (hcache : cache.Exact)
    (hrun : rbBig2str0 L fl fuel estimate x base trim cache = .ok (text, cache')) :
    cache'.Exact := by
  rw [rbBig2str0] at hrun
  split_ifs at hrun with hzero hbase
  · cases hrun
    exact hcache
  · obtain ⟨n2, -, hrun⟩ := bind_eq_ok.mp hrun
    obtain ⟨⟨t, cache₁⟩, hwrite, hrun⟩ := bind_eq_ok.mp hrun
    cases hrun
    split_ifs at hwrite
    · cases hwrite
      exact hcache
    · exact big2strKaratsuba_exact (by omega) (by omega) hcache hwrite

/-- The caches that calls leave, whatever they print. -/
inductive PowerCache.Reachable (L : LongSize) (fl : Floats F) (fuel : ℕ) (estimate : ℤ → ℕ → ℤ) :
    PowerCache → Prop
  | init : Reachable L fl fuel estimate .init
  | print {cache cache' : PowerCache} {x : Bignum} {base : ℤ} {trim : Bool} {text : List UInt8} :
      Reachable L fl fuel estimate cache →
      rbBig2str0 L fl fuel estimate x base trim cache = .ok (text, cache') →
      Reachable L fl fuel estimate cache'

/-- **Every cache that is reached is exact.** -/
theorem PowerCache.Reachable.exact (h : PowerCache.Reachable L fl fuel estimate cache) :
    cache.Exact := by
  induction h with
  | init => exact PowerCache.exact_init
  | print _ hrun ih => exact rbBig2str0_exact ih hrun

end Runs

/-! ## Both ways -/

section Both

variable {L : LongSize} {F : Type} {fl : Floats F} {fuel base : ℕ} {estimate : ℤ → ℕ → ℤ}
  {cache : PowerCache} {x : Bignum} {trim : Bool}

/-- `rb_big2str0` without a way for long texts. -/
def plainBig2str0 (L : LongSize) (estimate : ℤ → ℕ → ℤ) (x : Bignum) (base : ℤ) (trim : Bool) :
    Except PrintError (List UInt8) :=
  if bigzerop x then .ok [48]
  else if base < 2 ∨ 36 < base then .error (.invalidRadix base)
  else do
    let n2 ← big2strFindN1 L estimate x base.toNat
    return signText x trim ++
      big2strOrig { x with sign := true } base.toNat n2 (hbaseOf base.toNat) trim

/-- **The text does not depend on the way that its digits are written.** -/
structure PrintsAlike (L : LongSize) (fl : Floats F) (fuel : ℕ) (estimate : ℤ → ℕ → ℤ)
    (cache : PowerCache) (x : Bignum) (base : ℕ) (trim : Bool) : Prop where
  digits : ∀ n2, big2strFindN1 L estimate x base = .ok n2 →
    (big2strKaratsuba L fl fuel base (hbaseOf base) fuel { x with sign := true }
      ((n2 + 1).tdiv 2) n2 trim cache).map Prod.fst =
        .ok (big2strOrig { x with sign := true } base n2 (hbaseOf base) trim)
  text : (rbBig2str0 L fl fuel estimate x base trim cache).map Prod.fst =
    plainBig2str0 L estimate x base trim

/-- A bignum has more digits than can be printed. -/
def TooBig (L : LongSize) (x : Bignum) : Prop := (2 ^ (L.bits - 1) - 1) / 32 ≤ x.len

/-- The estimate is not below the number of digits, and one can be added to it. -/
structure Estimated (L : LongSize) (estimate : ℤ → ℕ → ℤ) (x : Bignum) (base : ℕ) : Prop where
  enough : x.mag < base ^ (estimate (32 * x.len) base).toNat
  fits : estimate (32 * x.len) base + 1 < 2 ^ (L.bits - 1)

/-- Where digits are written, there is room for at most `2 ^ 31` of them. -/
def WidthFits (L : LongSize) (estimate : ℤ → ℕ → ℤ) (x : Bignum) (base : ℕ) : Prop :=
  x.toInt = 0 ∨ TooBig L x ∨ estimate (32 * x.len) base ≤ 2 ^ 31

theorem big2strFindN1_eq (estimate : ℤ → ℕ → ℤ) (h2 : 2 ≤ base) (h36 : base ≤ 36)
    (hzero : bigzerop x = false)
    (hbig : ¬ TooBig L x) : big2strFindN1 L estimate x base = .ok (estimate (32 * x.len) base) := by
  rw [big2strFindN1, if_neg (by omega), hzero, if_neg Bool.false_ne_true]
  exact if_neg hbig

/-- Nothing is written where there is no room. -/
theorem big2strOrig_no_room (x : Bignum) (base hbase : ℕ) (trim : Bool) :
    big2strOrig x base 0 hbase trim = [] := by
  have hloop : big2strLoop base hbase trim x.digits 0 [] = [] := by
    rw [big2strLoop, if_pos (.inr rfl)]
  rw [big2strOrig, Int.toNat_zero, hloop]
  cases trim <;> rfl

/-- **A zero** is printed alike. -/
theorem printsAlike_zero (hfuel : 31 ≤ fuel) (h2 : 2 ≤ base) (h36 : base ≤ 36)
    (hzero : bigzerop x = true) : PrintsAlike L fl fuel estimate cache x base trim := by
  obtain ⟨d, rfl⟩ : ∃ d, fuel = d + 1 := ⟨fuel - 1, by omega⟩
  have hval : natOf x.digits = 0 := by
    rw [natOf, ← Bignum.mag, (x.toInt_eq_zero_iff).mp ((bigzerop_eq_true_iff x).mp hzero)]
    rfl
  refine ⟨fun n2 hn2 => ?_, ?_⟩
  · rw [big2strFindN1, if_neg (by omega), hzero, if_pos rfl] at hn2
    cases hn2
    have hfit : natOf x.digits < base ^ 0 := by
      rw [hval, pow_zero]
      exact Nat.one_pos
    have hrun : big2strKaratsuba L fl (d + 1) base (hbaseOf base) (d + 1) { x with sign := true } 0
        ((0 : ℕ) : ℤ) trim cache = .ok (numeralText base trim 0 (natOf x.digits), cache) :=
      big2strKaratsuba_short fl (d + 1) h2 h36 d hfit (.inl hzero)
    rw [big2strOrig_no_room]
    refine (congrArg (Except.map Prod.fst) hrun).trans ?_
    rw [hval, numeralText_zero]
    cases trim <;> rfl
  · rw [rbBig2str0, plainBig2str0, if_pos hzero, if_pos hzero]
    rfl

/-- **What is too big** is refused by both. -/
theorem printsAlike_tooBig (h2 : 2 ≤ base) (h36 : base ≤ 36) (hzero : bigzerop x = false)
    (hbig : TooBig L x) : PrintsAlike L fl fuel estimate cache x base trim := by
  have hfind : big2strFindN1 L estimate x base = .error .tooBig := by
    rw [big2strFindN1, if_neg (by omega), hzero, if_neg Bool.false_ne_true]
    exact if_pos hbig
  refine ⟨fun n2 hn2 => ?_, ?_⟩
  · rw [hfind] at hn2
    cases hn2
  · rw [rbBig2str0, plainBig2str0, hzero, if_neg Bool.false_ne_true, if_neg Bool.false_ne_true,
      if_neg (by omega), if_neg (by omega), Int.toNat_natCast, hfind]
    rfl

theorem natOf_lt {n : ℕ} (h : x.mag < (base : ℤ) ^ n) : natOf x.digits < base ^ n := by
  rw [Bignum.mag, ← natOf_cast] at h
  exact_mod_cast h

theorem natOf_pos (hzero : bigzerop x = false) : 0 < natOf x.digits := by
  refine Nat.pos_of_ne_zero fun h => ?_
  have hmag : x.mag = 0 := by
    rw [Bignum.mag, ← natOf_cast, h]
    rfl
  rw [(bigzerop_eq_true_iff x).mpr ((x.toInt_eq_zero_iff).mpr hmag)] at hzero
  cases hzero

/-- The sizes that `rb_big2str0` starts with. -/
theorem halves_init {n2 : ℤ} (h0 : 0 < n2) : Halves ((n2 + 1).tdiv 2) n2.toNat := by
  have hdiv : (n2 + 1).tdiv 2 = (n2 + 1) / 2 := Int.tdiv_eq_ediv_of_nonneg (by omega)
  rw [hdiv]
  exact ⟨by omega, by omega⟩

/-- **Digits are written alike** in a width that fits. -/
theorem printsAlike_width (hfuel : 31 ≤ fuel) (h2 : 2 ≤ base) (h36 : base ≤ 36)
    (hcache : cache.Exact) (hzero : bigzerop x = false) (hbig : ¬ TooBig L x)
    (hest : Estimated L estimate x base) (hfits : estimate (32 * x.len) base ≤ 2 ^ 31) :
    PrintsAlike L fl fuel estimate cache x base trim := by
  have hfind := big2strFindN1_eq estimate h2 h36 hzero hbig
  have hfit := natOf_lt hest.enough
  generalize estimate (32 * x.len) base = n2 at hfind hfit hfits
  have hpos : 0 < n2 := by
    by_contra h
    have hval := natOf_pos hzero
    rw [Int.toNat_of_nonpos (not_lt.mp h), pow_zero] at hfit
    omega
  obtain ⟨len, rfl⟩ : ∃ len : ℕ, n2 = len := ⟨n2.toNat, (Int.toNat_of_nonneg hpos.le).symm⟩
  rw [Int.toNat_natCast] at hfit
  have hhalf := halves_init hpos
  rw [Int.toNat_natCast] at hhalf
  have hup : ((len : ℤ) + 1).tdiv 2 ≤ 2 ^ 30 := by
    have := hhalf.low
    omega
  have horig : big2strOrig { x with sign := true } base len (hbaseOf base) trim =
      numeralText base trim len (natOf x.digits) :=
    big2strOrig_eq h2 h36 (fun _ => digits_ne_nil hzero) fun _ => hfit
  obtain ⟨d, rfl⟩ : ∃ d, fuel = d + 1 := ⟨fuel - 1, by omega⟩
  have hd : ((len : ℤ) + 1).tdiv 2 ≤ 2 ^ d := hup.trans (pow_le_pow_right₀ (by norm_num) (by omega))
  obtain ⟨cache', hrun, -⟩ := big2strKaratsuba_eq (L := L) fl trim hfuel h2 h36
    (rfl : ({ x with sign := true } : Bignum).sign = true) hfit hhalf hd hup hcache
  refine ⟨fun n2' hn2' => ?_, ?_⟩
  · obtain rfl : (len : ℤ) = n2' := Except.ok.inj (hfind.symm.trans hn2')
    rw [hrun, horig]
    rfl
  · rw [rbBig2str0, plainBig2str0, hzero, if_neg Bool.false_ne_true, if_neg Bool.false_ne_true,
      if_neg (by omega), if_neg (by omega), Int.toNat_natCast, hfind, ok_bind, ok_bind]
    dsimp only
    split_ifs
    · rfl
    · rw [hrun, ok_bind, horig]
      rfl

/-- **Printing does not depend on the way digits are written** if and only if the width fits. -/
theorem printsAlike_iff (hfuel : 31 ≤ fuel) (h2 : 2 ≤ base) (h36 : base ≤ 36)
    (hcache : PowerCache.Reachable L fl fuel estimate cache)
    (hest : ¬ TooBig L x → Estimated L estimate x base) :
    PrintsAlike L fl fuel estimate cache x base trim ↔ WidthFits L estimate x base := by
  cases hzero : bigzerop x with
  | true =>
      exact ⟨fun _ => .inl ((bigzerop_eq_true_iff x).mp hzero),
        fun _ => printsAlike_zero hfuel h2 h36 hzero⟩
  | false =>
      have hne : x.toInt ≠ 0 := by
        intro h
        rw [(bigzerop_eq_true_iff x).mpr h] at hzero
        cases hzero
      by_cases hbig : TooBig L x
      · exact ⟨fun _ => .inr (.inl hbig), fun _ => printsAlike_tooBig h2 h36 hzero hbig⟩
      · refine ⟨fun h => .inr (.inr ?_), fun h => ?_⟩
        · by_contra hwide
          have hfind := big2strFindN1_eq estimate h2 h36 hzero hbig
          have hdigits := h.digits _ hfind
          have hfits := (hest hbig).fits
          have hdiv : (estimate (32 * x.len) base + 1).tdiv 2
            = (estimate (32 * x.len) base + 1) / 2 :=
            Int.tdiv_eq_ediv_of_nonneg (by omega)
          obtain ⟨d, rfl⟩ : ∃ d, fuel = d + 1 := ⟨fuel - 1, by omega⟩
          have hzero' : bigzerop { x with sign := true } = false := hzero
          rw [hdiv, big2strKaratsuba, if_neg (by omega), hzero', if_neg Bool.false_ne_true,
            if_neg (by omega),
            powerCacheGetPower_undefined fl (d + 1) (by omega) (by omega)] at hdigits
          cases hdigits
        · have hwidth := (h.resolve_left hne).resolve_left hbig
          exact printsAlike_width hfuel h2 h36 hcache.exact hzero hbig (hest hbig) hwidth

/-- Binary digits are as many as the bits. -/
theorem estimated_bits (ds : List BDigit) (hlen : 32 * (ds.length : ℤ) + 1 < 2 ^ (L.bits - 1)) :
    Estimated L (fun bits _ => bits) ⟨true, ds⟩ 2 := by
  refine ⟨?_, hlen⟩
  have hlt := magnitude_lt ds
  have hwidth : (32 * (ds.length : ℤ)).toNat = 32 * ds.length := by omega
  have hpow : bigrad ^ ds.length = (2 : ℤ) ^ (32 * ds.length) := by
    rw [pow_mul]
    rfl
  rw [hpow, ← hwidth] at hlt
  exact hlt

/-- 640 binary digits are written by halves. -/
theorem printsAlike_halves : PowerCache.Reachable .lp64 unitFloats 31 (fun bits _ => bits) .init ∧
    Estimated .lp64 (fun bits _ => bits) ⟨true, List.replicate 20 1⟩ 2 ∧
    PrintsAlike .lp64 unitFloats 31 (fun bits _ => bits) .init ⟨true, List.replicate 20 1⟩ 2 true :=
  have hest : Estimated .lp64 (fun bits _ => bits) ⟨true, List.replicate 20 1⟩ 2 :=
    estimated_bits _ (by decide)
  ⟨.init, hest, (printsAlike_iff le_rfl le_rfl (by decide) .init fun _ => hest).mpr
    (.inr (.inr (by decide)))⟩

/-- **More than `2 ^ 31` binary digits**, where words have 64 bits: the exponent of the power that
the text is split by is shifted into the sign of an `int`. -/
theorem not_forall_printsAlike : ¬ ∀ (L : LongSize) (fuel : ℕ) (estimate : ℤ → ℕ → ℤ)
    (cache : PowerCache) (x : Bignum) (base : ℕ) (trim : Bool), 31 ≤ fuel → 2 ≤ base → base ≤ 36 →
    x.sign = true → PowerCache.Reachable L unitFloats fuel estimate cache →
    (¬ TooBig L x → Estimated L estimate x base) →
    PrintsAlike L unitFloats fuel estimate cache x base trim := by
  intro h
  obtain ⟨n, hn⟩ : ∃ n, n + 1 = 2 ^ 26 + 1 := ⟨2 ^ 26, rfl⟩
  have hlen : (⟨true, List.replicate (n + 1) 1⟩ : Bignum).len = 2 ^ 26 + 1 := by
    rw [Bignum.len, List.length_replicate, hn]
  have hest : Estimated .lp64 (fun bits _ => bits) ⟨true, List.replicate (n + 1) 1⟩ 2 := by
    refine estimated_bits _ ?_
    rw [List.length_replicate, hn]
    decide
  have hwidth := (printsAlike_iff le_rfl le_rfl (by decide) .init fun _ => hest).mp
    (h .lp64 31 (fun bits _ => bits) .init _ 2 true le_rfl le_rfl (by decide) rfl .init
      fun _ => hest)
  rcases hwidth with hzero | hbig | hfits
  · have hmag : (⟨true, List.replicate (n + 1) 1⟩ : Bignum).mag = 0 :=
      (Bignum.toInt_eq_zero_iff _).mp hzero
    have hnn := magnitude_nonneg (List.replicate n 1)
    have hone : ((1 : BDigit).toNat : ℤ) = 1 := rfl
    rw [Bignum.mag, List.replicate_succ, magnitude_cons, hone, bigrad_eq] at hmag
    omega
  · rw [TooBig, hlen] at hbig
    exact absurd hbig (by decide)
  · rw [hlen] at hfits
    exact absurd hfits (by decide)

/-- **The text without the zeros in front** is made of the digits of the number. -/
theorem plainBig2str0_digits (h2 : 2 ≤ base) (h36 : base ≤ 36) (hzero : bigzerop x = false)
    (hbig : ¬ TooBig L x) (hest : Estimated L estimate x base) :
    plainBig2str0 L estimate x base true =
      .ok (signText x true ++ ((Nat.digits base (natOf x.digits)).map rubyDigitmap).reverse) := by
  have hfind := big2strFindN1_eq estimate h2 h36 hzero hbig
  have hfit := natOf_lt hest.enough
  have hpos : 0 ≤ estimate (32 * x.len) base := by
    by_contra h
    have hval := natOf_pos hzero
    rw [Int.toNat_of_nonpos (not_le.mp h).le, pow_zero] at hfit
    omega
  have horig : big2strOrig { x with sign := true } base
      ((estimate (32 * x.len) base).toNat : ℕ) (hbaseOf base) true =
        numeralText base true (estimate (32 * x.len) base).toNat (natOf x.digits) :=
    big2strOrig_eq h2 h36 (fun _ => digits_ne_nil hzero) fun _ => hfit
  have hdigits : numeralText base true (estimate (32 * x.len) base).toNat (natOf x.digits) =
      ((Nat.digits base (natOf x.digits)).map rubyDigitmap).reverse :=
    strip_padded h2 (fun d hd h => rubyDigitmap_eq_zero (by omega) h) hfit
  rw [Int.toNat_of_nonneg hpos] at horig
  rw [plainBig2str0, hzero, if_neg Bool.false_ne_true, if_neg (by omega), Int.toNat_natCast, hfind,
    ok_bind, horig, hdigits]
  rfl

end Both

end MacRuby
