import MacRuby.Bignum.AddSub
import MacRuby.Bignum.DivRemSpec

/-!
# Sums, products and comparison of Integers

The methods `+`, `-`, `*`, `<=>` and `==` of bignums.  The receiver of each is a bignum: one that
is normalised, or one that a method of fixnums has made of a fixnum before it calls them.  Every
result goes through `bignorm`, so it has the one form its value can have.

## Main definitions

* `rbBigPlus`, `rbBigMinus`, `bigmul1`, `rbBigMul`, `rbBigCmp`, `rbBigEq` — the methods.
* `Bignum.Trimmed` — no leading zero digit is stored.
* `Inum.Canonical` — a fixnum, or a bignum without leading zeros that is no fixnum.

## Main results

* `bignorm_canonical`, `Inum.Canonical.ext` — normalisation, and that values have one form.
* `mag_bigmul1` — the loops of `bigmul1` compute the product.
* `rbBig_exact` — the methods are exact.
-/

namespace MacRuby

/-! ## The methods -/

/-- `rb_big_plus(x, y)`, for an Integer `y`. -/
def rbBigPlus (L : LongSize) (x : Bignum) (y : Inum L) : Inum L :=
  bignorm L (bigadd x y.toBignum true)

/-- `rb_big_minus(x, y)`, for an Integer `y`. -/
def rbBigMinus (L : LongSize) (x : Bignum) (y : Inum L) : Inum L :=
  bignorm L (bigadd x y.toBignum false)

/-- The body of the inner loop of `bigmul1`.  A digit is not stored when `ee` is zero. -/
def mulStep (dd : ℤ) (yds : List BDigit) (i j : ℕ) (s : Carry) : Carry :=
  let ee := toDbl (s.num + toDbl (dd * digitAt yds j))
  let n := toDbl (digitAt s.zds (i + j) + ee)
  ⟨bigdn n, if ee ≠ 0 then s.zds.set (i + j) (biglo n) else s.zds⟩

/-- One turn of the outer loop of `bigmul1`. -/
def mulRow (xds yds : List BDigit) (i : ℕ) (zds : List BDigit) : List BDigit :=
  if digitAt xds i = 0 then zds
  else
    let s := Loop.upto (mulStep (digitAt xds i) yds i) yds.length ⟨0, zds⟩
    if s.num ≠ 0 then s.zds.set (i + yds.length) (biglo s.num) else s.zds

/-- `bigmul1(ptr)`, not interrupted: the digits of `z`. -/
def bigmul1 (xds yds : List BDigit) : List BDigit :=
  Loop.upto (mulRow xds yds) xds.length (List.replicate (xds.length + yds.length + 1) 0)

/-- `rb_big_mul0(x, y)`, for an Integer `y`. -/
def rbBigMul0 (L : LongSize) (x : Bignum) (y : Inum L) : Bignum :=
  ⟨x.sign == y.toBignum.sign, bigmul1 x.digits y.toBignum.digits⟩

/-- `rb_big_mul(x, y)`, for an Integer `y`. -/
def rbBigMul (L : LongSize) (x : Bignum) (y : Inum L) : Inum L := bignorm L (rbBigMul0 L x y)

/-- The scan of `rb_big_cmp` from the top digit down; `none` where all digits are the same. -/
def bigCmpScan (xds yds : List BDigit) : ℕ → Option ℕ
  | 0 => none
  | i + 1 => if xds.getD i 0 = yds.getD i 0 then bigCmpScan xds yds i else some i

/-- `rb_big_cmp(x, y)`, for an Integer `y`. -/
def rbBigCmp (L : LongSize) (x : Bignum) (y : Inum L) : ℤ :=
  let y := y.toBignum
  if x.sign.toNat > y.sign.toNat then 1
  else if x.sign.toNat < y.sign.toNat then -1
  else if x.len < y.len then if x.sign then -1 else 1
  else if x.len > y.len then if x.sign then 1 else -1
  else
    match bigCmpScan x.digits y.digits x.len with
    | none => 0
    | some i =>
        if x.digits.getD i 0 > y.digits.getD i 0 then if x.sign then 1 else -1
        else if x.sign then -1 else 1

/-- `rb_big_eq(x, y)`, for an Integer `y`. -/
def rbBigEq (L : LongSize) (x : Bignum) (y : Inum L) : Bool :=
  let y := y.toBignum
  if x.sign ≠ y.sign then false
  else if x.len ≠ y.len then false
  else x.digits == y.digits

/-! ## Forms -/

/-- No leading zero digit is stored, but for the one digit of zero, which is not negative. -/
structure Bignum.Trimmed (x : Bignum) : Prop where
  pos : 0 < x.len
  top : digitAt x.digits (x.len - 1) ≠ 0 ∨ x.len = 1 ∧ x.sign = true

/-- The form of a normalised Integer: a bignum is no fixnum and has no leading zeros. -/
def Inum.Canonical {L : LongSize} : Inum L → Prop
  | .fixnum _ => True
  | .bignum x =>
      (x.toInt < L.fixnumMin ∨ L.fixnumMax < x.toInt) ∧ 0 < x.len ∧
        digitAt x.digits (x.len - 1) ≠ 0

/-- The magnitude of a number with more digits is larger. -/
theorem mag_lt_of_len_lt {x y : Bignum} (hlen : x.len < y.len)
    (htop : digitAt y.digits (y.len - 1) ≠ 0) : x.mag < y.mag := by
  have hpow : bigrad ^ (y.len - 1) ≤ y.mag :=
    pow_le_mag_of_top_ne_zero (n := y.len - 1) (by omega) htop
  have hle : bigrad ^ x.len ≤ bigrad ^ (y.len - 1) :=
    pow_le_pow_right₀ (by norm_num [bigrad]) (by omega)
  exact lt_of_lt_of_le (magnitude_lt x.digits) (hle.trans hpow)

/-- The same for any trimmed number, which with one digit has none shorter that is not empty. -/
theorem Bignum.Trimmed.mag_lt {x y : Bignum} (hx : x.Trimmed) (hy : y.Trimmed)
    (hlen : x.len < y.len) : x.mag < y.mag := by
  refine mag_lt_of_len_lt hlen (hy.top.resolve_right fun h => ?_)
  have := hx.pos
  omega

/-- What `rb_uint2big` makes has no leading zeros. -/
theorem trimmed_rbUint2big (L : LongSize) (n : ℤ) : (rbUint2big L n).Trimmed := by
  have hpos : 0 < L.digsPerLong := by cases L <;> decide
  have hspec := splitDigits_spec n (bignew L.digsPerLong true).digits
    (k := L.digsPerLong) (by simp [bignew])
  dsimp only [rbUint2big] at hspec ⊢
  generalize Loop.upto _ L.digsPerLong _ = s at hspec ⊢
  obtain ⟨h1, h2, -, h4⟩ := trimLen_spec s.2 hpos
  have hlen : (s.2.take (trimLen s.2 L.digsPerLong)).length = trimLen s.2 L.digsPerLong := by
    rw [List.length_take, hspec.1]
    simpa [bignew] using h2
  refine ⟨by simpa [Bignum.len, hlen] using h1, ?_⟩
  simp only [Bignum.len, hlen]
  rcases h4 with h4 | h4
  · exact Or.inr ⟨h4, trivial⟩
  · refine Or.inl ?_
    rw [digitAt_take (by omega)]
    exact h4

/-- What `rb_int2big` makes of a word is trimmed: only zero has a zero digit on top. -/
theorem trimmed_rbInt2big {L : LongSize} {n : ℤ} (hval : (rbInt2big L n).toInt = n) :
    (rbInt2big L n).Trimmed := by
  by_cases hneg : n < 0
  · have htrim := trimmed_rbUint2big L (L.toLong (-n) % 2 ^ L.bits)
    rw [rbInt2big, if_pos hneg] at hval ⊢
    refine ⟨htrim.pos, Or.inl ?_⟩
    rcases htrim.top with htop | ⟨hone, -⟩
    · exact htop
    · intro hzero
      -- with its one digit zero the number would be zero
      have hmag : (rbUint2big L (L.toLong (-n) % 2 ^ L.bits)).mag = 0 := by
        have hone' : (rbUint2big L (L.toLong (-n) % 2 ^ L.bits)).digits.length = 1 := hone
        rw [Bignum.mag, magnitude, hone', Radix.val_one]
        simpa [Bignum.len, hone'] using hzero
      simp only [Bignum.toInt, Bignum.mag, Bool.false_eq_true, if_false] at hval hmag
      omega
  · rw [rbInt2big, if_neg hneg]
    exact trimmed_rbUint2big L n

/-- A trimmed number that is not zero has a top digit. -/
theorem Bignum.Trimmed.top_ne_zero {x : Bignum} (hx : x.Trimmed) (hne : x.toInt ≠ 0) :
    digitAt x.digits (x.len - 1) ≠ 0 := by
  rcases hx.top with htop | ⟨hone, -⟩
  · exact htop
  · intro hzero
    have hone' : x.digits.length = 1 := hone
    refine hne (x.toInt_eq_zero_iff.mpr ?_)
    rw [Bignum.mag, magnitude, hone', Radix.val_one]
    simpa [Bignum.len, hone'] using hzero

/-- The operand of a method is trimmed. -/
theorem Inum.Canonical.trimmed {L : LongSize} {y : Inum L} (hy : y.Canonical) :
    y.toBignum.Trimmed := by
  cases y with
  | fixnum n => exact trimmed_rbInt2big n.toInt_rbInt2big
  | bignum y => exact ⟨hy.2.1, Or.inl hy.2.2⟩

theorem Inum.toInt_toBignum_eq {L : LongSize} (y : Inum L) : y.toBignum.toInt = y.toInt := by
  cases y with
  | fixnum n => exact n.toInt_rbInt2big
  | bignum y => rfl

/-- Digits are determined by the number they denote. -/
theorem digitAt_congr_of_val_eq {xds yds : List BDigit} {n : ℕ}
    (h : Radix.val bigrad (digitAt xds) n = Radix.val bigrad (digitAt yds) n) :
    ∀ i, i < n → digitAt xds i = digitAt yds i := by
  induction n with
  | zero => intro i hi; omega
  | succ n ih =>
      rw [Radix.val_succ, Radix.val_succ] at h
      have hx0 := Radix.val_nonneg (n := n) bigrad_pos.le fun i _ => digitAt_nonneg xds i
      have hx1 := Radix.val_lt (n := n) bigrad_pos fun i _ => digitAt_lt xds i
      have hy0 := Radix.val_nonneg (n := n) bigrad_pos.le fun i _ => digitAt_nonneg yds i
      have hy1 := Radix.val_lt (n := n) bigrad_pos fun i _ => digitAt_lt yds i
      have htop : digitAt xds n = digitAt yds n := by
        have h1 : digitAt xds n < digitAt yds n + 1 := by nlinarith
        have h2 : digitAt yds n < digitAt xds n + 1 := by nlinarith
        omega
      have hrest := ih (by rw [htop] at h; linarith)
      intro i hi
      rcases Nat.lt_succ_iff_lt_or_eq.mp hi with hlt | rfl
      · exact hrest i hlt
      · exact htop

theorem digits_ext {xds yds : List BDigit} (hlen : xds.length = yds.length)
    (h : magnitude xds = magnitude yds) : xds = yds := by
  refine List.ext_getElem hlen fun i hi hi' => ?_
  rw [magnitude, magnitude, ← hlen] at h
  have hd := digitAt_congr_of_val_eq h i hi
  rw [digitAt, digitAt, Int.natCast_inj, UInt32.toNat_inj] at hd
  simpa [List.getD_eq_getElem?_getD, hi, hi'] using hd

/-- **Trimmed numbers of one value are the same.** -/
theorem Bignum.Trimmed.ext {x y : Bignum} (hx : x.Trimmed) (hy : y.Trimmed)
    (h : x.toInt = y.toInt) : x = y := by
  have hmag : x.mag = y.mag := by rw [← x.abs_toInt, ← y.abs_toInt, h]
  have hlen : x.len = y.len := by
    rcases Nat.lt_trichotomy x.len y.len with hlt | heq | hgt
    · exact absurd hmag (hx.mag_lt hy hlt).ne
    · exact heq
    · exact absurd hmag (hy.mag_lt hx hgt).ne'
  have hdigits : x.digits = y.digits := digits_ext hlen hmag
  have hsign : x.sign = y.sign := by
    by_contra hne
    -- of different signs and one value, both are zero, which is not stored as negative
    have hzero : x.mag = 0 := by
      cases hs : x.sign <;> cases hs' : y.sign <;> simp [Bignum.toInt, hs, hs', hmag] at h hne <;>
        omega
    have hpos : ∀ z : Bignum, z.Trimmed → z.mag = 0 → z.sign = true := by
      intro z hz hz0
      rcases hz.top with htop | ⟨-, hs⟩
      · have hpow : bigrad ^ (z.len - 1) ≤ z.mag :=
          pow_le_mag_of_top_ne_zero (by have := hz.pos; omega) htop
        have := pow_pos bigrad_pos (z.len - 1)
        omega
      · exact hs
    exact hne ((hpos x hx hzero).trans (hpos y hy (hmag ▸ hzero)).symm)
  cases x
  cases y
  simp_all

/-- **Integers of one value have one form.** -/
theorem Inum.Canonical.ext {L : LongSize} {x y : Inum L} (hx : x.Canonical) (hy : y.Canonical)
    (h : x.toInt = y.toInt) : x = y := by
  cases x with
  | fixnum n =>
      cases y with
      | fixnum m =>
          cases n
          cases m
          simp_all [Inum.toInt]
      | bignum y =>
          have hval : n.val = y.toInt := h
          have := hy.1
          have := n.min_le
          have := n.le_max
          omega
  | bignum x =>
      cases y with
      | fixnum m =>
          have hval : x.toInt = m.val := h
          have := hx.1
          have := m.min_le
          have := m.le_max
          omega
      | bignum y => exact congrArg Inum.bignum (hx.trimmed.ext hy.trimmed h)

/-- **`bignorm` gives the canonical form.** -/
theorem bignorm_canonical (L : LongSize) (x : Bignum) : (bignorm L x).Canonical := by
  by_cases hfix : L.fixnumMin ≤ x.toInt ∧ x.toInt ≤ L.fixnumMax
  · rw [bignorm_of_fixable ⟨x.toInt, hfix.1, hfix.2⟩ rfl]
    trivial
  · cases hnorm : bignorm L x with
    | fixnum n => trivial
    | bignum y =>
        have hy : y = bigtrunc x := by
          rw [bignorm, bigfixize] at hnorm
          split at hnorm
          · rw [fixizeLong] at hnorm
            split_ifs at hnorm <;> simpa using hnorm.symm
          · simpa using hnorm.symm
        have hval : y.toInt = x.toInt := by rw [hy, toInt_bigtrunc]
        have hne : x.toInt ≠ 0 := by
          intro hzero
          exact hfix ⟨hzero ▸ L.fixnumMin_nonpos, hzero ▸ L.fixnumMax_nonneg⟩
        have hmag : y.mag ≠ 0 := fun hzero => hne (hval ▸ y.toInt_eq_zero_iff.mpr hzero)
        refine ⟨by omega, ?_⟩
        subst hy
        rcases bigtrunc_top x with hone | ⟨n, hn, htop⟩
        · have hlen : (bigtrunc x).len = 1 := by
            by_contra hno
            have hnil : (bigtrunc x).digits.length = 0 := by
              simp only [Bignum.len] at hone hno
              omega
            exact hmag (by rw [Bignum.mag, magnitude, hnil, Radix.val_zero])
          refine ⟨by omega, ?_⟩
          have hlen' : (bigtrunc x).digits.length = 1 := hlen
          rw [Bignum.mag, magnitude, hlen', Radix.val_one] at hmag
          simpa [hlen] using hmag
        · exact ⟨by omega, by simpa [hn] using htop⟩

/-! ## Sums -/

section Sums

variable {L : LongSize} {x : Bignum} {y : Inum L}

/-- Adding and subtracting trimmed numbers. -/
theorem toInt_bigadd_of_trimmed {x y : Bignum} (hx : x.Trimmed) (hy : y.Trimmed) (sign : Bool) :
    (bigadd x y sign).toInt = if sign then x.toInt + y.toInt else x.toInt - y.toInt :=
  toInt_bigadd (fun _ hlt => (hx.mag_lt hy hlt).le) (fun _ hlt => (hy.mag_lt hx hlt).le)

theorem toInt_rbBigPlus (hx : x.Trimmed) (hy : y.Canonical) :
    (rbBigPlus L x y).toInt = x.toInt + y.toInt := by
  rw [rbBigPlus, toInt_bignorm, toInt_bigadd_of_trimmed hx hy.trimmed, if_pos rfl,
    y.toInt_toBignum_eq]

theorem toInt_rbBigMinus (hx : x.Trimmed) (hy : y.Canonical) :
    (rbBigMinus L x y).toInt = x.toInt - y.toInt := by
  rw [rbBigMinus, toInt_bignorm, toInt_bigadd_of_trimmed hx hy.trimmed, if_neg (by simp),
    y.toInt_toBignum_eq]

end Sums

/-! ## Products -/

/-- Storing one digit. -/
theorem magnitude_set {ds : List BDigit} {k : ℕ} (hk : k < ds.length) (v : BDigit) :
    magnitude (ds.set k v) = magnitude ds + (v.toNat - digitAt ds k) * bigrad ^ k := by
  have hsplit : ∀ es : List BDigit, es.length = ds.length → magnitude es =
      Radix.val bigrad (digitAt es) k + digitAt es k * bigrad ^ k +
        bigrad ^ (k + 1) * Radix.val bigrad (fun i => digitAt es (k + 1 + i))
          (ds.length - (k + 1)) := by
    intro es hes
    obtain ⟨m, hm⟩ := Nat.exists_eq_add_of_le (Nat.succ_le_of_lt hk)
    rw [magnitude, hes, hm, Nat.succ_eq_add_one, Nat.add_sub_cancel_left, Radix.val_add,
      Radix.val_succ]
  have hlow : Radix.val bigrad (digitAt (ds.set k v)) k = Radix.val bigrad (digitAt ds) k :=
    Radix.val_congr fun i hi => digitAt_set_ne (by omega) v
  have hhigh : Radix.val bigrad (fun i => digitAt (ds.set k v) (k + 1 + i)) (ds.length - (k + 1)) =
      Radix.val bigrad (fun i => digitAt ds (k + 1 + i)) (ds.length - (k + 1)) :=
    Radix.val_congr fun i _ => digitAt_set_ne (by omega) v
  rw [hsplit _ (by simp), hsplit ds rfl, hlow, hhigh, digitAt_set_self hk]
  ring

/-- What a turn of the inner loop of `bigmul1` does, none of its sums being too large. -/
theorem mulStep_spec {dd : ℤ} (yds : List BDigit) {i j : ℕ} {s : Carry} (hd0 : 0 ≤ dd)
    (hd1 : dd < bigrad) (hk : i + j < s.zds.length) (h0 : 0 ≤ s.num) (h1 : s.num < bigrad) :
    0 ≤ (mulStep dd yds i j s).num ∧ (mulStep dd yds i j s).num < bigrad ∧
      (mulStep dd yds i j s).zds.length = s.zds.length ∧
      (∀ k, k ≠ i + j → digitAt (mulStep dd yds i j s).zds k = digitAt s.zds k) ∧
      magnitude (mulStep dd yds i j s).zds + (mulStep dd yds i j s).num * bigrad ^ (i + j + 1) =
        magnitude s.zds + (s.num + dd * digitAt yds j) * bigrad ^ (i + j) := by
  have hy0 := digitAt_nonneg yds j
  have hy1 := digitAt_lt yds j
  have hz0 := digitAt_nonneg s.zds (i + j)
  have hz1 := digitAt_lt s.zds (i + j)
  have hprod0 : 0 ≤ dd * digitAt yds j := mul_nonneg hd0 hy0
  have hprod1 : dd * digitAt yds j ≤ (bigrad - 1) * (bigrad - 1) :=
    mul_le_mul (by omega) (by omega) hy0 (by have := bigrad_pos; omega)
  have hrad : bigrad = 4294967296 := by norm_num [bigrad]
  rw [hrad] at hd1 h1 hy1 hz1 hprod1
  have hee : toDbl (s.num + toDbl (dd * digitAt yds j)) = s.num + dd * digitAt yds j := by
    unfold toDbl
    omega
  have hn : toDbl (digitAt s.zds (i + j) + (s.num + dd * digitAt yds j)) =
      digitAt s.zds (i + j) + (s.num + dd * digitAt yds j) := by
    unfold toDbl
    omega
  simp only [mulStep, hee, hn]
  set n := digitAt s.zds (i + j) + (s.num + dd * digitAt yds j) with hndef
  have hcarry0 : 0 ≤ bigdn n := by unfold bigdn bigrad; omega
  have hcarry1 : bigdn n < bigrad := by unfold bigdn bigrad; omega
  -- nothing is stored when the digit would stay as it is
  have hzds : (if s.num + dd * digitAt yds j ≠ 0 then s.zds.set (i + j) (biglo n) else s.zds) =
      s.zds.set (i + j) (biglo n) := by
    split_ifs with hee0
    · rfl
    · rw [hndef, not_not.mp hee0, add_zero, set_biglo_digitAt hk]
  rw [hzds]
  refine ⟨hcarry0, hcarry1, by simp, fun k hk' => digitAt_set_ne (Ne.symm hk') _, ?_⟩
  rw [magnitude_set hk, toNat_biglo, pow_succ]
  linear_combination bigrad ^ (i + j) * emod_add_bigdn n

/-- What holds before turn `i` of the outer loop: the product of the digits so far, and zeros from
where the next carry can go. -/
structure MulInv (xds yds : List BDigit) (i : ℕ) (zds : List BDigit) : Prop where
  length : zds.length = xds.length + yds.length + 1
  value : magnitude zds = Radix.val bigrad (digitAt xds) i * magnitude yds
  zero : ∀ k, i + yds.length ≤ k → digitAt zds k = 0

/-- One turn of the outer loop adds one multiple. -/
theorem MulInv.row {xds yds zds : List BDigit} {i : ℕ} (h : MulInv xds yds i zds)
    (hi : i < xds.length) : MulInv xds yds (i + 1) (mulRow xds yds i zds) := by
  have hlen := h.length
  by_cases hd : digitAt xds i = 0
  · rw [mulRow, if_pos hd]
    refine ⟨hlen, ?_, fun k hk => h.zero k (by omega)⟩
    rw [h.value, Radix.val_succ, hd]
    ring
  · rw [mulRow, if_neg hd]
    -- the inner loop: its carry stands for the digit after those it has passed
    have hrun := Loop.upto_induction (n := yds.length) (a := (⟨0, zds⟩ : Carry))
      (f := mulStep (digitAt xds i) yds i)
      (fun j s => 0 ≤ s.num ∧ s.num < bigrad ∧ s.zds.length = zds.length ∧
        (∀ k, i + yds.length ≤ k → digitAt s.zds k = 0) ∧
        magnitude s.zds + s.num * bigrad ^ (i + j) =
          magnitude zds + digitAt xds i * Radix.val bigrad (digitAt yds) j * bigrad ^ i)
      ⟨le_rfl, bigrad_pos, rfl, h.zero, by simp⟩ ?_
    · generalize Loop.upto (mulStep (digitAt xds i) yds i) yds.length ⟨0, zds⟩ = s at hrun ⊢
      obtain ⟨h0, h1, hslen, hzero, hval⟩ := hrun
      have hval' : magnitude s.zds + s.num * bigrad ^ (i + yds.length) =
          Radix.val bigrad (digitAt xds) (i + 1) * magnitude yds := by
        rw [hval, h.value, Radix.val_succ, magnitude]
        ring
      by_cases hnum : s.num = 0
      · simp only [hnum, ne_eq, not_true, if_false]
        refine ⟨hslen.trans hlen, ?_, fun k hk => hzero k (by omega)⟩
        simpa [hnum] using hval'
      · simp only [ne_eq, hnum, not_false_iff, if_true]
        have hk : i + yds.length < s.zds.length := by omega
        refine ⟨by simpa using hslen.trans hlen, ?_, ?_⟩
        · rw [magnitude_set hk, toNat_biglo, Int.emod_eq_of_lt h0 h1, hzero _ le_rfl, sub_zero]
          exact hval'
        · intro k hk'
          rw [digitAt_set_ne (by omega)]
          exact hzero k (by omega)
    · intro j s hj hs
      obtain ⟨h0, h1, hslen, hzero, hval⟩ := hs
      obtain ⟨h0', h1', hslen', hkeep, hval'⟩ := mulStep_spec yds
        (digitAt_nonneg xds i) (digitAt_lt xds i) (show i + j < s.zds.length by omega) h0 h1
      refine ⟨h0', h1', hslen'.trans hslen, ?_, ?_⟩
      · intro k hk
        rw [hkeep k (by omega)]
        exact hzero k hk
      · rw [← Nat.add_assoc, hval', Radix.val_succ]
        linear_combination hval

/-- What holds when all rows have been added. -/
theorem mulInv_bigmul1 (xds yds : List BDigit) :
    MulInv xds yds xds.length (bigmul1 xds yds) := by
  refine Loop.upto_induction (MulInv xds yds) ⟨by simp, ?_, ?_⟩ fun i zds hi h => h.row hi
  · rw [magnitude_eq_val _ (n := 0) fun i _ => digitAt_replicate _ i]
    simp
  · exact fun k _ => digitAt_replicate _ k

/-- **The loops of `bigmul1` compute the product.** -/
theorem magnitude_bigmul1 (xds yds : List BDigit) :
    magnitude (bigmul1 xds yds) = magnitude xds * magnitude yds :=
  (mulInv_bigmul1 xds yds).value

theorem toInt_rbBigMul {L : LongSize} (x : Bignum) (y : Inum L) :
    (rbBigMul L x y).toInt = x.toInt * y.toInt := by
  rw [rbBigMul, toInt_bignorm, ← y.toInt_toBignum_eq]
  have hmag : (rbBigMul0 L x y).mag = x.mag * y.toBignum.mag :=
    magnitude_bigmul1 x.digits y.toBignum.digits
  cases hx : x.sign <;> cases hy : y.toBignum.sign <;>
    simp [Bignum.toInt, rbBigMul0, hx, hy] <;> simpa [rbBigMul0, hx, hy] using hmag

/-! ## Comparison -/

/-- The scan stops at the top digit that differs. -/
theorem bigCmpScan_spec (xds yds : List BDigit) (n : ℕ) :
    (bigCmpScan xds yds n = none →
      Radix.val bigrad (digitAt xds) n = Radix.val bigrad (digitAt yds) n) ∧
    ∀ i, bigCmpScan xds yds n = some i →
      xds.getD i 0 ≠ yds.getD i 0 ∧
      (digitAt yds i < digitAt xds i →
        Radix.val bigrad (digitAt yds) n < Radix.val bigrad (digitAt xds) n) ∧
      (digitAt xds i < digitAt yds i →
        Radix.val bigrad (digitAt xds) n < Radix.val bigrad (digitAt yds) n) := by
  induction n with
  | zero => simp [bigCmpScan]
  | succ n ih =>
      rw [bigCmpScan, Radix.val_succ, Radix.val_succ]
      by_cases heq : xds.getD n 0 = yds.getD n 0
      · have hd : digitAt xds n = digitAt yds n := by rw [digitAt, heq, digitAt]
        rw [if_pos heq, hd]
        refine ⟨fun h => by rw [ih.1 h], fun i hi => ?_⟩
        obtain ⟨hne, hgt, hlt⟩ := ih.2 i hi
        exact ⟨hne, fun h => by linarith [hgt h], fun h => by linarith [hlt h]⟩
      · rw [if_neg heq]
        refine ⟨fun h => absurd h (by simp), fun i hi => ?_⟩
        obtain rfl : n = i := Option.some.inj hi
        have hx0 := Radix.val_nonneg (n := n) bigrad_pos.le fun i _ => digitAt_nonneg xds i
        have hx1 := Radix.val_lt (n := n) bigrad_pos fun i _ => digitAt_lt xds i
        have hy0 := Radix.val_nonneg (n := n) bigrad_pos.le fun i _ => digitAt_nonneg yds i
        have hy1 := Radix.val_lt (n := n) bigrad_pos fun i _ => digitAt_lt yds i
        refine ⟨heq, fun h => ?_, fun h => ?_⟩
        · have hmul : (digitAt yds n + 1) * bigrad ^ n ≤ digitAt xds n * bigrad ^ n :=
            mul_le_mul_of_nonneg_right h (pow_nonneg bigrad_pos.le n)
          linarith
        · have hmul : (digitAt xds n + 1) * bigrad ^ n ≤ digitAt yds n * bigrad ^ n :=
            mul_le_mul_of_nonneg_right h (pow_nonneg bigrad_pos.le n)
          linarith

/-- A trimmed number that is stored as negative is negative. -/
theorem Bignum.Trimmed.neg_of_sign {x : Bignum} (hx : x.Trimmed) (hs : x.sign = false) :
    x.toInt < 0 := by
  have htop := hx.top.resolve_right fun h => by simp [hs] at h
  have hpow : bigrad ^ (x.len - 1) ≤ x.mag :=
    pow_le_mag_of_top_ne_zero (by have := hx.pos; omega) htop
  have := pow_pos bigrad_pos (x.len - 1)
  simp only [Bignum.toInt, hs, Bool.false_eq_true, if_false]
  omega

theorem Bignum.nonneg_of_sign {x : Bignum} (hs : x.sign = true) : 0 ≤ x.toInt := by
  simp [Bignum.toInt, hs, x.mag_nonneg]

/-- The part of `rb_big_cmp` for one sign compares the magnitudes. -/
theorem bigCmp_mag {x y : Bignum} (hx : x.Trimmed) (hy : y.Trimmed) (up down : ℤ) :
    (if x.len < y.len then down
      else if x.len > y.len then up
      else
        match bigCmpScan x.digits y.digits x.len with
        | none => 0
        | some i => if x.digits.getD i 0 > y.digits.getD i 0 then up else down) =
      if x.mag < y.mag then down else if y.mag < x.mag then up else 0 := by
  rcases Nat.lt_trichotomy x.len y.len with hlt | heq | hgt
  · rw [if_pos hlt, if_pos (hx.mag_lt hy hlt)]
  · rw [if_neg (by omega), if_neg (by omega)]
    have hscan := bigCmpScan_spec x.digits y.digits x.len
    have hxm : Radix.val bigrad (digitAt x.digits) x.len = x.mag := rfl
    have hym : Radix.val bigrad (digitAt y.digits) x.len = y.mag := by rw [heq]; rfl
    rw [hxm, hym] at hscan
    cases hfound : bigCmpScan x.digits y.digits x.len with
    | none => simp [hscan.1 hfound]
    | some i =>
        obtain ⟨hne, hup, hdown⟩ := hscan.2 i hfound
        by_cases hd : x.digits.getD i 0 > y.digits.getD i 0
        · have hmag := hup (by unfold digitAt; exact_mod_cast UInt32.lt_iff_toNat_lt.mp hd)
          simp only [if_pos hd, if_neg (asymm hmag), if_pos hmag]
        · have hd' : digitAt x.digits i < digitAt y.digits i := by
            rw [gt_iff_lt, UInt32.lt_iff_toNat_lt] at hd
            rw [ne_eq, ← UInt32.toNat_inj] at hne
            unfold digitAt
            omega
          simp only [if_neg hd, if_pos (hdown hd')]
  · rw [if_neg (by omega), if_pos hgt, if_neg (asymm (hy.mag_lt hx hgt)), if_pos (hy.mag_lt hx hgt)]

/-- The sign of a difference, by cases. -/
theorem sign_sub_eq (a b : ℤ) :
    (if a < b then -1 else if b < a then 1 else 0 : ℤ) = (a - b).sign := by
  rcases lt_trichotomy a b with h | rfl | h
  · rw [if_pos h, Int.sign_eq_neg_one_of_neg (by omega)]
  · simp
  · rw [if_neg (asymm h), if_pos h, Int.sign_eq_one_of_pos (by omega)]

/-- **`rb_big_cmp` gives the order.** -/
theorem rbBigCmp_eq {L : LongSize} {x : Bignum} {y : Inum L} (hx : x.Trimmed)
    (hy : y.Canonical) : rbBigCmp L x y = (x.toInt - y.toInt).sign := by
  have hy' := hy.trimmed
  rw [← y.toInt_toBignum_eq, rbBigCmp]
  generalize y.toBignum = y at hy'
  cases hs : x.sign <;> cases hs' : y.sign
  · have hmags := bigCmp_mag hx hy' (-1) 1
    simp only [Bool.toNat_false, gt_iff_lt, lt_self_iff_false, if_false,
      Bool.false_eq_true] at hmags ⊢
    rw [hmags]
    simp only [Bignum.toInt, hs, hs', Bool.false_eq_true, if_false]
    have hneg : -x.mag - -y.mag = y.mag - x.mag := by ring
    rw [hneg, ← sign_sub_eq]
    split_ifs <;> first | rfl | omega
  · have h1 := hx.neg_of_sign hs
    have h2 := Bignum.nonneg_of_sign hs'
    rw [Int.sign_eq_neg_one_of_neg (by omega)]
    simp
  · have h1 := Bignum.nonneg_of_sign hs
    have h2 := hy'.neg_of_sign hs'
    rw [Int.sign_eq_one_of_pos (by omega)]
    simp
  · have hmags := bigCmp_mag hx hy' 1 (-1)
    simp only [Bool.toNat_true, gt_iff_lt, lt_self_iff_false, if_false, if_true] at hmags ⊢
    rw [hmags, sign_sub_eq]
    simp [Bignum.toInt, hs, hs']

/-- **`rb_big_eq` decides equality.** -/
theorem rbBigEq_eq {L : LongSize} {x : Bignum} {y : Inum L} (hx : x.Trimmed) (hy : y.Canonical) :
    rbBigEq L x y = decide (x.toInt = y.toInt) := by
  have hy' := hy.trimmed
  rw [← y.toInt_toBignum_eq, rbBigEq]
  generalize y.toBignum = y at hy'
  rw [Bool.eq_iff_iff, decide_eq_true_eq]
  constructor
  · intro h
    split_ifs at h with hs hl
    have hd : x.digits = y.digits := by simpa using h
    simp only [ne_eq, not_not] at hs
    simp [Bignum.toInt, Bignum.mag, hs, hd]
  · intro h
    rw [hx.ext hy' h]
    simp

/-! ## The methods are exact -/

/-- **The methods compute sums, differences, products, order and equality**, and what goes through
`bignorm` is a fixnum exactly when it can be and else has no leading zeros, so that Integers of
one value have one form. -/
theorem rbBig_exact (L : LongSize) :
    (∀ x y : Inum L, x.Canonical → y.Canonical →
      ((rbBigPlus L x.toBignum y).toInt = x.toInt + y.toInt ∧
      (rbBigPlus L x.toBignum y).Canonical) ∧
      ((rbBigMinus L x.toBignum y).toInt = x.toInt - y.toInt ∧
        (rbBigMinus L x.toBignum y).Canonical) ∧
      ((rbBigMul L x.toBignum y).toInt = x.toInt * y.toInt ∧ (rbBigMul L x.toBignum y).Canonical) ∧
      rbBigCmp L x.toBignum y = (x.toInt - y.toInt).sign ∧
      rbBigEq L x.toBignum y = decide (x.toInt = y.toInt)) ∧
    (∀ z : Bignum, (bignorm L z).toInt = z.toInt ∧
      (if L.fixnumMin ≤ z.toInt ∧ z.toInt ≤ L.fixnumMax then ∃ n, bignorm L z = .fixnum n
        else ∃ z', bignorm L z = .bignum z' ∧ 0 < z'.len ∧
          digitAt z'.digits (z'.len - 1) ≠ 0)) ∧
    ∀ x y : Inum L, x.Canonical → y.Canonical → x.toInt = y.toInt → x = y := by
  refine ⟨fun x y hx hy => ?_, fun z => ⟨toInt_bignorm L z, ?_⟩, fun x y hx hy => hx.ext hy⟩
  · have hval := x.toInt_toBignum_eq
    refine ⟨⟨?_, bignorm_canonical L _⟩, ⟨?_, bignorm_canonical L _⟩,
      ⟨?_, bignorm_canonical L _⟩, ?_, ?_⟩
    · rw [toInt_rbBigPlus hx.trimmed hy, hval]
    · rw [toInt_rbBigMinus hx.trimmed hy, hval]
    · rw [toInt_rbBigMul, hval]
    · rw [rbBigCmp_eq hx.trimmed hy, hval]
    · rw [rbBigEq_eq hx.trimmed hy, hval]
  · split_ifs with hfix
    · exact ⟨_, bignorm_of_fixable ⟨z.toInt, hfix.1, hfix.2⟩ rfl⟩
    · have hcanon := bignorm_canonical L z
      have hval := toInt_bignorm L z
      cases hnorm : bignorm L z with
      | fixnum n =>
          rw [hnorm] at hval
          exact absurd ⟨hval ▸ n.min_le, hval ▸ n.le_max⟩ hfix
      | bignum z' =>
          rw [hnorm] at hcanon
          exact ⟨z', rfl, hcanon.2⟩

/-- A carry through all-ones digits: 2^64 - 1 and 1. -/
theorem rbBig_exact_allOnes :
    Inum.Canonical (.bignum ⟨true, [0xffffffff, 0xffffffff]⟩ : Inum .lp64) ∧
      (rbBigPlus .lp64 ⟨true, [0xffffffff, 0xffffffff]⟩
        (.fixnum ⟨1, by decide, by decide⟩)).toInt = 18446744073709551616 := by
  have hx : Inum.Canonical (.bignum ⟨true, [0xffffffff, 0xffffffff]⟩ : Inum .lp64) :=
    ⟨by decide, by decide, by decide⟩
  refine ⟨hx, ?_⟩
  exact ((rbBig_exact .lp64).1 _ (.fixnum ⟨1, by decide, by decide⟩) hx trivial).1.1.trans
    (by decide)

end MacRuby
