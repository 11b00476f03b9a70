import MacRuby.Random.Limited
import Mathlib.Algebra.Order.Ring.Star

/-!
# Random numbers below a limit that is a bignum

`limited_big_rand` draws the digits of a value, the highest first.  Up to the first digit of the
limit that is not zero there is nothing to draw, that digit is masked, and the digits below it are
words as they come.  As long as the digits are those of the limit, a digit that is above the limit's
starts the draw again.  The number of digits is an `int`.

## Main definitions

* `limitedBigRandAttempt`, `limitedBigRand` — the function, on the words that `genrand_int32`
  returns.
* `upTo` — the Integers up to a limit.

## Main results

* `scan_limitedBigRand_iff` — the words that make an attempt end with some digits.
* `boundedRandom_fair_iff` — draws are fair exactly when the number of digits is an `int`.
-/

namespace MacRuby

section Code

variable (L : LongSize)

/-- The variables of the loop of `limited_big_rand`: `mask`, `boundary` and the digits of `val`. -/
structure BigDraw where
  mask : BitVec L.bits
  boundary : Bool
  val : List BDigit

/-- The mask of the digit `lim` of the limit, after that of the digit before. -/
def digitMask (mask lim : BitVec L.bits) : BitVec L.bits :=
  if mask ≠ 0 then 0xffffffff else makeMask L lim

/-- The body of the loop of `limited_big_rand`. -/
def limitedBigRandBody (limit : List BDigit) (i : ℕ) (s : BigDraw L) :
    Rejection.Step (BitVec 32) (BigDraw L) :=
  let lim := (limit.getD i 0).toBitVec.setWidth L.bits
  let mask := digitMask L s.mask lim
  if mask ≠ 0 then
    .read fun word =>
      let rnd := word.setWidth L.bits &&& mask
      if s.boundary ∧ lim < rnd then none
      else
        let boundary := s.boundary && !decide (rnd < lim)
        some ⟨mask, boundary, s.val.set i (UInt32.ofBitVec (rnd.setWidth 32))⟩
  else .skip ⟨mask, s.boundary, s.val.set i 0⟩

/-- One attempt of `limited_big_rand(limit)`, from `retry` on, with the digits of `limit` in `val`.
To start at the `int` below the smallest one is undefined. -/
def limitedBigRandAttempt (limit : Bignum) (words : List (BitVec 32)) :
    Except RandomError (Option (Inum L) × List (BitVec 32)) :=
  match L.signed (limit.len * 4 + 3) with
  | none => .error .undefined
  | some size =>
      let len := toCInt (size / 4)
      if len - 1 < -2 ^ 31 then .error .undefined
      else
        (Rejection.scan .short (limitedBigRandBody L limit.digits) len.toNat
          ⟨0, true, limit.digits⟩ words).map fun r =>
            (r.1.map fun s => bignorm L ⟨true, s.val⟩, r.2)

/-- `limited_big_rand(limit)`, of so many attempts at most. -/
def limitedBigRand (limit : Bignum) (attempts : ℕ) (words : List (BitVec 32)) :
    Option (Inum L × List (BitVec 32)) :=
  Rejection.draw (limitedBigRandAttempt L limit) attempts words

end Code

variable {L : LongSize}

/-! ## A digit -/

section Digit

/-- The value of the digits below place `i`. -/
def lowValue (ds : List BDigit) (i : ℕ) : ℤ := Radix.val bigrad (digitAt ds) i

/-- A digit as a word of the machine. -/
def digitWord (L : LongSize) (d : BDigit) : BitVec L.bits := d.toBitVec.setWidth L.bits

theorem thirtytwo_le_bits (L : LongSize) : 32 ≤ L.bits := by
  cases L <;> decide

theorem toNat_setWidth (w : BitVec 32) : (w.setWidth L.bits).toNat = w.toNat := by
  rw [BitVec.toNat_setWidth]
  have hpow := Nat.pow_le_pow_right (show 0 < 2 by norm_num) (thirtytwo_le_bits L)
  exact Nat.mod_eq_of_lt (w.isLt.trans_le hpow)

/-- What is drawn is a masked word. -/
theorem setWidth_and (w : BitVec 32) (mask : BitVec L.bits) :
    w.setWidth L.bits &&& mask = (w &&& mask.setWidth 32).setWidth L.bits := by
  apply BitVec.eq_of_getLsbD_eq
  intro j hj
  simp only [BitVec.getLsbD_and, BitVec.getLsbD_setWidth, hj, decide_true, Bool.true_and]
  by_cases h32 : j < 32
  · simp [h32]
  · rw [BitVec.getLsbD_of_ge w j (Nat.not_lt.mp h32)]
    simp

theorem setWidth_setWidth_word (w : BitVec 32) : (w.setWidth L.bits).setWidth 32 = w := by
  have h32 := thirtytwo_le_bits L
  apply BitVec.eq_of_getLsbD_eq
  intro j hj
  have hbits : j < L.bits := by omega
  simp [hj, hbits]

/-- The digits below the first one are words as they come. -/
theorem digitMask_of_ne {mask : BitVec L.bits} (lim : BitVec L.bits) (h : mask ≠ 0) :
    digitMask L mask lim ≠ 0 ∧ (digitMask L mask lim).setWidth 32 = BitVec.allOnes 32 := by
  rw [digitMask, if_pos h]
  cases L <;> decide

/-- The mask of the first digit lets through what is not above it. -/
theorem digitMask_zero {lim : BDigit} (h : lim ≠ 0) :
    digitMask L 0 (digitWord L lim) ≠ 0 ∧ ∀ d ≤ lim,
      d.toBitVec &&& (digitMask L 0 (digitWord L lim)).setWidth 32 = d.toBitVec := by
  have hmask : digitMask L 0 (digitWord L lim) = makeMask L (digitWord L lim) := by
    rw [digitMask, if_neg (not_not.mpr rfl)]
  have hle : ∀ d ≤ lim, digitWord L d &&& makeMask L (digitWord L lim) = digitWord L d := by
    intro d hd
    apply and_makeMask
    rw [BitVec.le_def, digitWord, digitWord, toNat_setWidth, toNat_setWidth]
    exact hd
  rw [hmask]
  constructor
  · intro hzero
    have hself := hle lim UInt32.le_rfl
    have hnat := congrArg BitVec.toNat hself
    rw [hzero, digitWord, toNat_setWidth] at hnat
    simp at hnat
    exact h (UInt32.toNat_inj.mp hnat.symm)
  · intro d hd
    have hself := congrArg (BitVec.setWidth 32) (hle d hd)
    rw [digitWord, setWidth_and, setWidth_setWidth_word, setWidth_setWidth_word] at hself
    exact hself

theorem digitWord_lt_iff {d e : BDigit} : digitWord L d < digitWord L e ↔ d < e := by
  rw [BitVec.lt_def, digitWord, digitWord, toNat_setWidth, toNat_setWidth]
  rfl

end Digit

/-! ## The loop -/

section Loop

variable {limit ds val : List BDigit} {mask : BitVec L.bits} {b : Bool} {i : ℕ}
  {ws rest : List (BitVec 32)}

/-- The places where a digit is drawn, the highest first, with their masks. -/
def slots (limit : List BDigit) : ℕ → BitVec L.bits → List (ℕ × BitVec 32)
  | 0, _ => []
  | i + 1, mask =>
      let mask := digitMask L mask (digitWord L (limit.getD i 0))
      (i, mask.setWidth 32) :: slots limit i mask

/-- A digit that is drawn, in terms of digits. -/
theorem limitedBigRandBody_read (b : Bool) (val : List BDigit)
    (h : digitMask L mask (digitWord L (limit.getD i 0)) ≠ 0) :
    limitedBigRandBody L limit i ⟨mask, b, val⟩ = .read fun word =>
      let d := UInt32.ofBitVec
        (word &&& (digitMask L mask (digitWord L (limit.getD i 0))).setWidth 32)
      if b ∧ limit.getD i 0 < d then none
      else some ⟨digitMask L mask (digitWord L (limit.getD i 0)),
        b && !decide (d < limit.getD i 0), val.set i d⟩ := by
  have hlim : (limit.getD i 0).toBitVec.setWidth L.bits = digitWord L (limit.getD i 0) := rfl
  rw [limitedBigRandBody, hlim]
  dsimp only
  rw [if_pos h]
  apply congrArg
  funext word
  have hrnd : ∀ r : BitVec 32, r.setWidth L.bits = digitWord L (UInt32.ofBitVec r) := fun _ => rfl
  simp only [setWidth_and, setWidth_setWidth_word]
  simp only [hrnd, digitWord_lt_iff]

/-- What has been drawn decides, unless it is what the limit has. -/
theorem lowValue_succ_le_iff :
    lowValue ds (i + 1) ≤ lowValue limit (i + 1) ↔
      ds.getD i 0 < limit.getD i 0 ∨
        ds.getD i 0 = limit.getD i 0 ∧ lowValue ds i ≤ lowValue limit i := by
  have hrange : ∀ (es : List BDigit) (j : ℕ), j < i → 0 ≤ digitAt es j ∧ digitAt es j < bigrad :=
    fun es j _ => ⟨digitAt_nonneg es j, digitAt_lt es j⟩
  rw [lowValue, lowValue, Radix.val_succ_le_iff (hrange ds) (hrange limit) bigrad_pos, digitAt,
    digitAt, Nat.cast_lt, Nat.cast_inj, UInt32.toNat_inj]
  rfl

/-- **The words that make an attempt end with some digits**, which go on from those that have been
drawn. -/
theorem scan_limitedBigRand_iff (hi : i ≤ val.length)
    (hgo : mask ≠ 0 ∨ limit.getD (i - 1) 0 ≠ 0) :
    (∃ s, Rejection.scan RandomError.short (limitedBigRandBody L limit) i ⟨mask, b, val⟩ ws =
        .ok (some s, rest) ∧ s.val = ds) ↔
      (ds.length = val.length ∧ (∀ j, i ≤ j → ds.getD j 0 = val.getD j 0) ∧
        (b = true → lowValue ds i ≤ lowValue limit i)) ∧
      ∃ used, ws = used ++ rest ∧
        List.Forall₂ (fun w s => w &&& s.2 = (ds.getD s.1 0).toBitVec) used
          (slots limit i mask) := by
  induction i generalizing mask b val ws with
  | zero =>
      rw [Rejection.scan, slots]
      constructor
      · intro h
        obtain ⟨s, hs, rfl⟩ := h
        cases hs
        exact ⟨⟨rfl, fun j _ => rfl, fun _ => le_refl _⟩, [], rfl, .nil⟩
      · intro h
        obtain ⟨⟨hlen, hval, -⟩, used, rfl, hall⟩ := h
        cases hall
        refine ⟨_, rfl, ?_⟩
        apply List.ext_getElem hlen.symm
        intro j hj hj'
        have hget := hval j (Nat.zero_le j)
        simpa [List.getD_eq_getElem?_getD, hj, hj'] using hget.symm
  | succ i ih =>
      have hne : digitMask L mask (digitWord L (limit.getD i 0)) ≠ 0 := by
        by_cases hmask : mask = 0
        · rw [hmask]
          exact (digitMask_zero (hgo.resolve_left (not_not.mpr hmask))).1
        · exact (digitMask_of_ne _ hmask).1
      have hbody := limitedBigRandBody_read b val hne
      have hlen' : i < val.length := hi
      rw [slots]
      cases ws with
      | nil =>
          rw [Rejection.scan_nil hbody]
          constructor
          · intro h
            obtain ⟨s, hs, -⟩ := h
            cases hs
          · intro h
            obtain ⟨-, used, hused, hall⟩ := h
            cases hall
            cases hused
      | cons w ws =>
          -- a word that has the digit's bits is drawn to be the digit
          have hdigit : ∀ {e : BDigit},
              w &&& (digitMask L mask (digitWord L (limit.getD i 0))).setWidth 32 = e.toBitVec →
              UInt32.ofBitVec
                (w &&& (digitMask L mask (digitWord L (limit.getD i 0))).setWidth 32) = e :=
            fun h => UInt32.toBitVec_inj.mp h
          generalize hd : UInt32.ofBitVec
            (w &&& (digitMask L mask (digitWord L (limit.getD i 0))).setWidth 32) = d at hdigit
          by_cases hlt : b = true ∧ limit.getD i 0 < d
          · rw [Rejection.scan_none hbody (by rw [hd]; exact if_pos hlt)]
            constructor
            · intro h
              obtain ⟨s, hs, -⟩ := h
              cases hs
            · intro h
              obtain ⟨⟨-, -, hle⟩, used, hused, hall⟩ := h
              cases hall with
              | cons hword hall =>
                  cases hused
                  have heq := hdigit hword
                  have hle := lowValue_succ_le_iff.mp (hle hlt.1)
                  rw [heq] at hlt
                  rcases hle with hle | ⟨hle, -⟩
                  · exact absurd hlt.2 (UInt32.lt_asymm hle)
                  · exact absurd hlt.2 (hle ▸ UInt32.lt_irrefl _)
          · rw [Rejection.scan_cons hbody (by rw [hd]; exact if_neg hlt),
              ih (by rw [List.length_set]; omega) (Or.inl hne), List.length_set]
            constructor
            · intro h
              obtain ⟨⟨hlen, hval, hle⟩, used, hused, hall⟩ := h
              have hi' : ds.getD i 0 = d := by
                rw [hval i (le_refl i)]
                simp [List.getD_eq_getElem?_getD, hlen']
              refine ⟨⟨hlen, ?_, ?_⟩, w :: used, by rw [hused, List.cons_append], .cons ?_ hall⟩
              · intro j hj
                rw [hval j (by omega)]
                simp [List.getD_eq_getElem?_getD, List.getElem?_set_ne (show i ≠ j by omega)]
              · intro hb
                rw [lowValue_succ_le_iff, hi']
                by_cases hbelow : d < limit.getD i 0
                · exact Or.inl hbelow
                · have habove : ¬limit.getD i 0 < d := fun h => hlt ⟨hb, h⟩
                  refine Or.inr ⟨?_, hle (by rw [hb, decide_eq_false hbelow]; rfl)⟩
                  exact UInt32.le_antisymm (UInt32.not_lt.mp habove) (UInt32.not_lt.mp hbelow)
              · rw [hi', ← hd]
            · intro h
              obtain ⟨⟨hlen, hval, hle⟩, used, hused, hall⟩ := h
              cases hall with
              | cons hword hall =>
                  cases hused
                  have heq := hdigit hword
                  refine ⟨⟨hlen, ?_, ?_⟩, _, rfl, hall⟩
                  · intro j hj
                    rcases Nat.eq_or_lt_of_le hj with rfl | hj
                    · simp [List.getD_eq_getElem?_getD, hlen', heq]
                    · rw [hval j hj]
                      simp [List.getD_eq_getElem?_getD, List.getElem?_set_ne hj.ne]
                  · intro hb
                    simp only [Bool.and_eq_true, Bool.not_eq_true', decide_eq_false_iff_not] at hb
                    rw [heq] at hb
                    exact ((lowValue_succ_le_iff.mp (hle hb.1)).resolve_left hb.2).2

/-- The digits above the place where the loop starts stay. -/
theorem scan_limitedBigRand_high {s s' : BigDraw L} {j : ℕ} (hj : i ≤ j)
    (h : Rejection.scan RandomError.short (limitedBigRandBody L limit) i s ws =
      .ok (some s', rest)) : s'.val.getD j 0 = s.val.getD j 0 := by
  induction i generalizing s ws with
  | zero =>
      cases h
      rfl
  | succ i ih =>
      have hset : ∀ d : BDigit, (s.val.set i d).getD j 0 = s.val.getD j 0 := by
        intro d
        simp [List.getD_eq_getElem?_getD, List.getElem?_set_ne (show i ≠ j by omega)]
      by_cases hmask : digitMask L s.mask (digitWord L (limit.getD i 0)) = 0
      · have hbody : limitedBigRandBody L limit i s = .skip ⟨0, s.boundary, s.val.set i 0⟩ := by
          change (if digitMask L s.mask (digitWord L (limit.getD i 0)) ≠ 0 then _ else _) = _
          rw [if_neg (not_not.mpr hmask), ← hmask]
          rfl
        rw [Rejection.scan_skip hbody] at h
        rw [ih (by omega) h, hset]
      · have hbody := limitedBigRandBody_read s.boundary s.val hmask
        cases ws with
        | nil =>
            rw [Rejection.scan_nil hbody] at h
            cases h
        | cons w ws =>
            by_cases hlt : s.boundary = true ∧ limit.getD i 0 < UInt32.ofBitVec
                (w &&& (digitMask L s.mask (digitWord L (limit.getD i 0))).setWidth 32)
            · rw [Rejection.scan_none hbody (if_pos hlt)] at h
              cases h
            · rw [Rejection.scan_cons hbody (if_neg hlt)] at h
              rw [ih (by omega) h, hset]

end Loop

/-! ## The draw -/

section Draw

variable {limit : BigObject L} {ws rest : List (BitVec 32)} {a : Inum L}

/-- The Integers from zero up to the limit, as Integers are stored. -/
def upTo (limit : BigObject L) : Set (Inum L) :=
  {a | a.Canonical ∧ 0 ≤ a.toInt ∧ a.toInt ≤ |limit.big.toInt|}

/-- The digits of a value are those of its Integer. -/
theorem getD_eq_of_magnitude {ds es : List BDigit} (h : magnitude ds = magnitude es) (j : ℕ) :
    ds.getD j 0 = es.getD j 0 := by
  have hall : ∀ k, digitAt ds k = digitAt es k := by
    intro k
    rcases Nat.lt_or_ge k (max ds.length es.length) with hk | hk
    · rw [magnitude_eq_val ds fun i hi => digitAt_of_le ((le_max_left _ _).trans hi),
        magnitude_eq_val es fun i hi => digitAt_of_le ((le_max_right _ _).trans hi)] at h
      exact digitAt_congr_of_val_eq h k hk
    · rw [digitAt_of_le ((le_max_left _ _).trans hk), digitAt_of_le ((le_max_right _ _).trans hk)]
  have hj := hall j
  rwa [digitAt, digitAt, Int.natCast_inj, UInt32.toNat_inj] at hj

theorem magnitude_toBignum (h : 0 ≤ a.toInt) : magnitude a.toBignum.digits = a.toInt := by
  have habs := a.toBignum.abs_toInt
  rw [a.toInt_toBignum_eq, abs_of_nonneg h] at habs
  exact habs.symm

/-- A value that is not above the limit has no more digits. -/
theorem lowValue_of_mem_upTo (ha : a ∈ upTo limit) :
    a.toBignum.len ≤ limit.big.len ∧ lowValue a.toBignum.digits limit.big.len = a.toInt := by
  obtain ⟨hcanonical, hnonneg, hle⟩ := ha
  have hshort : a.toBignum.len ≤ limit.big.len := by
    by_contra hlong
    have hlt := limit.canonical.trimmed.mag_lt hcanonical.trimmed (Nat.lt_of_not_le hlong)
    rw [limit.big.abs_toInt, ← magnitude_toBignum hnonneg] at hle
    exact absurd hle (not_le.mpr hlt)
  refine ⟨hshort, ?_⟩
  rw [← magnitude_toBignum hnonneg]
  exact (magnitude_eq_val _ fun j hj => digitAt_of_le (hshort.trans hj)).symm

/-- What is made of the state that the loop ends in. -/
theorem map_eq_ok_iff {σ α : Type} {r : Except RandomError (Option σ × List (BitVec 32))}
    {f : σ → α} {a : α} :
    (r.map fun p => (p.1.map f, p.2)) = .ok (some a, rest) ↔
      ∃ s, r = .ok (some s, rest) ∧ f s = a := by
  cases r with
  | error e => simp [Except.map]
  | ok p =>
      obtain ⟨o, ws⟩ := p
      cases o with
      | none => simp [Except.map]
      | some s => simp [Except.map, and_comm]

/-- The attempt runs the loop over as many digits as an `int` has of their number. -/
theorem limitedBigRandAttempt_eq (limit : BigObject L) (ws : List (BitVec 32)) :
    limitedBigRandAttempt L limit.big ws =
      if toCInt limit.big.len - 1 < -2 ^ 31 then .error .undefined
      else (Rejection.scan .short (limitedBigRandBody L limit.big.digits)
        (toCInt limit.big.len).toNat ⟨0, true, limit.big.digits⟩ ws).map fun r =>
          (r.1.map fun s => bignorm L ⟨true, s.val⟩, r.2) := by
  have hfits := limit.fits
  have hsigned : L.signed ((limit.big.len : ℤ) * 4 + 3) = some ((limit.big.len : ℤ) * 4 + 3) := by
    apply LongSize.signed_of_mem
    · have hmin := L.longMin_eq
      have hmax := L.longMax_pos
      omega
    · have hmod : L.longMax % 4 = 3 := by cases L <;> decide
      omega
  have hsize : ((limit.big.len : ℤ) * 4 + 3) / 4 = limit.big.len := by omega
  rw [limitedBigRandAttempt, hsigned]
  dsimp only
  rw [hsize]

/-- **The words that make an attempt end with a value** are those that have its digits where they
are masked, and there are such words for the values up to the limit. -/
theorem limitedBigRandAttempt_iff (h : limit.big.len < 2 ^ 31) :
    limitedBigRandAttempt L limit.big ws = .ok (some a, rest) ↔ a ∈ upTo limit ∧
      ∃ used, ws = used ++ rest ∧
        List.Forall₂ (fun w s => w &&& s.2 = (a.toBignum.digits.getD s.1 0).toBitVec) used
          (slots limit.big.digits limit.big.len (0 : BitVec L.bits)) := by
  have hcanonical := limit.canonical
  obtain ⟨-, hpos, htop⟩ := hcanonical
  have hlen : toCInt limit.big.len = limit.big.len := by
    rw [toCInt, Int.bmod_eq_of_le] <;> omega
  have hmag : |limit.big.toInt| = lowValue limit.big.digits limit.big.len := limit.big.abs_toInt
  have htop' : limit.big.digits.getD (limit.big.len - 1) 0 ≠ 0 :=
    mt (digitAt_eq_zero_iff _ _).mpr htop
  have hscan := fun ds => @scan_limitedBigRand_iff L limit.big.digits ds limit.big.digits 0 true
    limit.big.len ws rest (le_refl _) (Or.inr htop')
  rw [limitedBigRandAttempt_eq, hlen, if_neg (by omega), Int.toNat_natCast, map_eq_ok_iff]
  constructor
  · intro h
    obtain ⟨s, hs, hnorm⟩ := h
    obtain ⟨⟨hlength, -, hle⟩, used, hused, hall⟩ := (hscan s.val).mp ⟨s, hs, rfl⟩
    have hvalue : a.toInt = magnitude s.val := by
      rw [← hnorm, toInt_bignorm]
      rfl
    have hnonneg : 0 ≤ a.toInt := hvalue ▸ magnitude_nonneg s.val
    refine ⟨⟨hnorm ▸ bignorm_canonical L _, hnonneg, ?_⟩, used, hused, ?_⟩
    · rw [hvalue, hmag, magnitude, hlength]
      exact hle rfl
    · have hdigits := getD_eq_of_magnitude (hvalue.symm.trans (magnitude_toBignum hnonneg).symm)
      simpa only [hdigits] using hall
  · intro h
    obtain ⟨⟨hcanonical, hnonneg, hle⟩, used, hused, hall⟩ := h
    obtain ⟨hshort, hvalue⟩ := lowValue_of_mem_upTo ⟨hcanonical, hnonneg, hle⟩
    -- the digits of the value, with as many zeros as the limit has more digits
    have hpad : (a.toBignum.digits ++ List.replicate (limit.big.len - a.toBignum.len) 0).length =
        limit.big.len := by
      rw [List.length_append, List.length_replicate]
      exact Nat.add_sub_cancel' hshort
    have hdigits : ∀ j, (a.toBignum.digits ++
        List.replicate (limit.big.len - a.toBignum.len) 0).getD j 0 =
          a.toBignum.digits.getD j 0 := by
      intro j
      rcases Nat.lt_or_ge j a.toBignum.digits.length with hj | hj
      · rw [List.getD_append _ _ _ _ hj]
      · rw [List.getD_append_right _ _ _ _ hj, List.getD_eq_default _ _ hj]
        rw [List.getD_eq_getElem?_getD, List.getElem?_replicate]
        split <;> rfl
    generalize a.toBignum.digits ++ List.replicate (limit.big.len - a.toBignum.len) 0 = ds
      at hpad hdigits
    have hlow : lowValue ds limit.big.len = a.toInt := by
      rw [← hvalue]
      exact Radix.val_congr fun j _ => by rw [digitAt, hdigits, digitAt]
    have hhigh : ∀ j, limit.big.len ≤ j → ds.getD j 0 = limit.big.digits.getD j 0 := by
      intro j hj
      rw [List.getD_eq_default _ _ (hpad.le.trans hj), List.getD_eq_default _ _ hj]
    have hlow' : true = true → lowValue ds limit.big.len
      ≤ lowValue limit.big.digits limit.big.len := by
      intro _
      rw [hlow, ← hmag]
      exact hle
    obtain ⟨s, hs, hval⟩ := (hscan ds).mpr
      ⟨⟨hpad, hhigh, hlow'⟩, used, hused, by simpa only [hdigits] using hall⟩
    refine ⟨s, hs, ?_⟩
    apply (bignorm_canonical L _).ext hcanonical
    rw [toInt_bignorm, hval, ← hlow, lowValue, ← hpad]
    rfl

/-- The masks let through the digits of what is not above the limit. -/
theorem and_slots {limit ds : List BDigit} {n : ℕ} (htop : limit.getD n 0 ≠ 0)
    (hle : lowValue ds (n + 1) ≤ lowValue limit (n + 1)) :
    ∀ s ∈ slots limit (n + 1) (0 : BitVec L.bits),
      (ds.getD s.1 0).toBitVec &&& s.2 = (ds.getD s.1 0).toBitVec := by
  have hfirst := digitMask_zero (L := L) htop
  have hrest : ∀ i (mask : BitVec L.bits), mask ≠ 0 → ∀ s ∈ slots limit i mask,
      s.2 = BitVec.allOnes 32 := by
    intro i
    induction i with
    | zero =>
        intro mask _ s hs
        cases hs
    | succ i ih =>
        intro mask hmask s hs
        have hnext := digitMask_of_ne (digitWord L (limit.getD i 0)) hmask
        rcases List.mem_cons.mp hs with rfl | hs
        · exact hnext.2
        · exact ih _ hnext.1 s hs
  intro s hs
  rcases List.mem_cons.mp hs with rfl | hs
  · apply hfirst.2
    rcases lowValue_succ_le_iff.mp hle with hlt | ⟨heq, -⟩
    · exact UInt32.le_of_lt hlt
    · exact heq ▸ UInt32.le_rfl
  · rw [hrest n _ hfirst.1 s hs, BitVec.and_allOnes]

/-- **The draw of a bignum is fair** where the number of digits is an `int`. -/
theorem limitedBigRand_fair (limit : BigObject L) (h : limit.big.len < 2 ^ 31) :
    Rejection.Fair (limitedBigRandAttempt L limit.big) (upTo limit) := by
  obtain ⟨-, hpos, htop⟩ := limit.canonical
  refine Rejection.Fair.of_masked (slots limit.big.digits limit.big.len (0 : BitVec L.bits))
    Prod.snd
    (fun a s => (a.toBignum.digits.getD s.1 0).toBitVec) ?_ ?_ ?_
  · have hint : ¬toCInt limit.big.len - 1 < -2 ^ 31 := by
      rw [toCInt, Int.bmod_eq_of_le] <;> omega
    have heq : limitedBigRandAttempt L limit.big = _ :=
      funext fun ws => (limitedBigRandAttempt_eq limit ws).trans (if_neg hint)
    rw [heq]
    exact (Rejection.scan_reads _ _ _ _).map _
  · intro ws a rest
    exact limitedBigRandAttempt_iff h
  · intro a ha
    have hlen : limit.big.len - 1 + 1 = limit.big.len := Nat.sub_add_cancel hpos
    have hvalue := (lowValue_of_mem_upTo ha).2
    have hmag : |limit.big.toInt| = lowValue limit.big.digits limit.big.len := limit.big.abs_toInt
    rw [← hlen] at hvalue hmag ⊢
    apply and_slots (mt (digitAt_eq_zero_iff _ _).mpr htop)
    rw [hvalue, ← hmag]
    exact ha.2.2

/-- **What `limited_big_rand` returns** is no more than the limit, and as many tuples of words lead
to one number as to another, where the number of digits is an `int`. -/
theorem limitedBigRand_uniform (limit : BigObject L) (h : limit.big.len < 2 ^ 31) :
    (∀ n ws a rest, limitedBigRand L limit.big n ws = some (a, rest) → a ∈ upTo limit) ∧
      ∀ a ∈ upTo limit, ∀ b ∈ upTo limit, ∀ n k,
        {ws | ws.length = k ∧ limitedBigRand L limit.big n ws = some (a, [])}.ncard =
          {ws | ws.length = k ∧ limitedBigRand L limit.big n ws = some (b, [])}.ncard :=
  ⟨(limitedBigRand_fair limit h).mem, (limitedBigRand_fair limit h).uniform⟩

/-- **Zero is not drawn** where the number of digits is no `int`: the highest digit stays. -/
theorem not_produced_zero (h : 2 ^ 31 ≤ limit.big.len) {a : Inum L} (ha : a.toInt = 0) (k : ℕ) :
    Rejection.tuples (limitedBigRandAttempt L limit.big) k a = ∅ := by
  obtain ⟨-, hpos, htop⟩ := limit.canonical
  ext ws
  refine ⟨fun hws => ?_, fun hws => hws.elim⟩
  have hend := hws.2
  rw [limitedBigRandAttempt_eq] at hend
  split at hend
  · cases hend
  · obtain ⟨s, hs, hnorm⟩ := map_eq_ok_iff.mp hend
    have hstart : (toCInt limit.big.len).toNat ≤ limit.big.len - 1 := by
      have hdiv := Int.bdiv_add_bmod (limit.big.len : ℤ) (2 ^ 32)
      have hlt := Int.bmod_lt (x := (limit.big.len : ℤ)) (m := 2 ^ 32) (by positivity)
      rw [toCInt]
      omega
    have hhigh := scan_limitedBigRand_high hstart hs
    have hvalue : magnitude s.val = magnitude [] := by
      rw [← hnorm, toInt_bignorm] at ha
      exact ha
    rw [getD_eq_of_magnitude hvalue] at hhigh
    exact mt (digitAt_eq_zero_iff _ _).mpr htop hhigh.symm

theorem not_fair_of_long (h : 2 ^ 31 ≤ limit.big.len) :
    ¬Rejection.Fair (limitedBigRandAttempt L limit.big) (upTo limit) := by
  intro hfair
  have hzero : Inum.fixnum ⟨0, L.fixnumMin_nonpos, L.fixnumMax_nonneg⟩ ∈ upTo limit :=
    ⟨trivial, le_refl _, abs_nonneg _⟩
  obtain ⟨k, hk⟩ := hfair.produced _ hzero
  rw [not_produced_zero h rfl] at hk
  exact Set.not_nonempty_empty hk

/-- **Draws are fair for every word, and for a bignum exactly when the number of its digits is an
`int`.** -/
theorem boundedRandom_fair_iff (L : LongSize) :
    (∀ limit : BitVec L.bits, Rejection.Fair (limitedRandAttempt L limit) {a | a ≤ limit}) ∧
      ∀ limit : BigObject L,
        Rejection.Fair (limitedBigRandAttempt L limit.big) (upTo limit) ↔
          limit.big.len < 2 ^ 31 := by
  refine ⟨limitedRand_fair, fun limit => ⟨fun h => ?_, limitedBigRand_fair limit⟩⟩
  by_contra hlong
  exact not_fair_of_long (Nat.not_lt.mp hlong) h

theorem len_powerLimit (n : ℕ) : (⟨true, List.replicate n 0 ++ [1]⟩ : Bignum).len = n + 1 := by
  simp [Bignum.len]

theorem canonical_powerLimit (L : LongSize) {n : ℕ} (h2 : 2 ≤ n) :
    (Inum.bignum ⟨true, List.replicate n 0 ++ [1]⟩ : Inum L).Canonical := by
  have hlen := len_powerLimit n
  have htop : digitAt (List.replicate n 0 ++ [1]) n ≠ 0 := by simp [digitAt]
  have hlarge := pow_le_mag_of_top_ne_zero hlen htop
  have hpow := pow_le_pow_right₀ (show 1 ≤ bigrad by norm_num [bigrad]) h2
  have hmax : L.fixnumMax < bigrad ^ 2 := by cases L <;> decide
  refine ⟨Or.inr ((hmax.trans_le hpow).trans_le hlarge), by omega, ?_⟩
  rw [hlen]
  exact htop

theorem fits_powerLimit {L : LongSize} {n : ℕ} (hfits : ((n + 1 : ℕ) : ℤ) * 4 ≤ L.longMax) :
    ((⟨true, List.replicate n 0 ++ [1]⟩ : Bignum).len : ℤ) * 4 ≤ L.longMax := by
  rw [len_powerLimit]
  exact hfits

/-- The limit `1 << (32 * n)`. -/
def powerLimit (L : LongSize) (n : ℕ) (h2 : 2 ≤ n) (hfits : ((n + 1 : ℕ) : ℤ) * 4 ≤ L.longMax) :
    BigObject L where
  big := ⟨true, List.replicate n 0 ++ [1]⟩
  canonical := canonical_powerLimit L h2
  fits := fits_powerLimit hfits

/-- `1 << 68719476736` has 2^31 + 1 digits, and zero is never drawn below it. -/
theorem not_fair_powerLimit :
    ¬Rejection.Fair (limitedBigRandAttempt .lp64
      (powerLimit .lp64 (2 ^ 31) (by norm_num) (by decide)).big)
      (upTo (powerLimit .lp64 (2 ^ 31) (by norm_num) (by decide))) := by
  apply not_fair_of_long
  have hlen : (powerLimit .lp64 (2 ^ 31) (by norm_num) (by decide)).big.len = 2 ^ 31 + 1 := by
    rw [Bignum.len, powerLimit, List.length_append, List.length_replicate]
    rfl
  rw [hlen]
  exact Nat.le_succ _

end Draw

end MacRuby
