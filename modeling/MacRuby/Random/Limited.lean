import MacRuby.Lib.Rejection
import MacRuby.Numeric.Long

/-!
# Random numbers below a limit that is a machine word

`limited_rand` draws the words of a value, the highest first, masks them to the bits that the limit
has, and starts again as soon as what it has is above the limit.

## Main definitions

* `makeMask`, `limitedRandAttempt`, `limitedRand` — the functions, on the words that
  `genrand_int32` returns.

## Main results

* `getLsbD_makeMask` — the mask has every bit up to the highest one.
* `limitedRandAttempt_iff` — the words that make an attempt end with a value.
* `limitedRand_fair` — the draw is fair on the values up to the limit.
-/

namespace MacRuby

section Code

/-- Why a function that draws a number does not return. -/
inductive RandomError
  /-- There are no more words. -/
  | short
  /-- What the function does is undefined. -/
  | undefined
  deriving DecidableEq, Repr

variable (L : LongSize)

/-- `make_mask(x)`. -/
def makeMask (x : BitVec L.bits) : BitVec L.bits :=
  let x := x ||| x >>> 1
  let x := x ||| x >>> 2
  let x := x ||| x >>> 4
  let x := x ||| x >>> 8
  let x := x ||| x >>> 16
  if 4 < L.bytes then x ||| x >>> 32 else x

/-- The body of the loop of `limited_rand`. -/
def limitedRandBody (limit mask : BitVec L.bits) (i : ℕ) (val : BitVec L.bits) :
    Rejection.Step (BitVec 32) (BitVec L.bits) :=
  if mask >>> (i * 32) ≠ 0 then
    .read fun word =>
      let val := val ||| word.setWidth L.bits <<< (i * 32)
      let val := val &&& mask
      if limit < val then none else some val
  else .skip val

/-- One attempt of `limited_rand(limit)`, from `retry` on. -/
def limitedRandAttempt (limit : BitVec L.bits) :
    List (BitVec 32) → Except RandomError (Option (BitVec L.bits) × List (BitVec 32)) :=
  Rejection.scan .short (limitedRandBody L limit (makeMask L limit)) (L.bytes / 4) 0

/-- `limited_rand(limit)`, of so many attempts at most. -/
def limitedRand (limit : BitVec L.bits) (attempts : ℕ) (words : List (BitVec 32)) :
    Option (BitVec L.bits × List (BitVec 32)) :=
  Rejection.draw (limitedRandAttempt L limit) attempts words

end Code

variable {L : LongSize}

/-! ## The mask -/

section Mask

/-- The bits of a word are spread over so many places to the right. -/
def Smeared (x y : BitVec L.bits) (c : ℕ) : Prop :=
  ∀ i, y.getLsbD i = true ↔ ∃ j, i ≤ j ∧ j < i + c ∧ x.getLsbD j = true

theorem smeared_one (x : BitVec L.bits) : Smeared x x 1 := by
  intro i
  constructor
  · intro h
    exact ⟨i, le_refl i, Nat.lt_succ_self i, h⟩
  · rintro ⟨j, hle, hlt, h⟩
    rwa [show i = j by omega]

/-- A step of `make_mask` spreads them twice as far. -/
theorem Smeared.step {x y : BitVec L.bits} {c : ℕ} (h : Smeared x y c) :
    Smeared x (y ||| y >>> c) (c + c) := by
  intro i
  rw [BitVec.getLsbD_or, BitVec.getLsbD_ushiftRight, Bool.or_eq_true, h, h]
  constructor
  · intro h
    rcases h with ⟨j, hle, hlt, hj⟩ | ⟨j, hle, hlt, hj⟩
    · exact ⟨j, hle, by omega, hj⟩
    · exact ⟨j, by omega, by omega, hj⟩
  · intro h
    obtain ⟨j, hle, hlt, hj⟩ := h
    rcases Nat.lt_or_ge j (i + c) with hc | hc
    · exact Or.inl ⟨j, hle, hc, hj⟩
    · exact Or.inr ⟨j, by omega, by omega, hj⟩

theorem makeMask_smeared (x : BitVec L.bits) : Smeared x (makeMask L x) L.bits := by
  have h32 := (smeared_one x).step.step.step.step.step
  cases L with
  | ilp32 => exact h32
  | lp64 => exact h32.step

/-- **The mask has every bit up to the highest one.** -/
theorem getLsbD_makeMask (x : BitVec L.bits) (i : ℕ) :
    (makeMask L x).getLsbD i = decide (2 ^ i ≤ x.toNat) := by
  rw [Bool.eq_iff_iff, makeMask_smeared x i, decide_eq_true_iff]
  constructor
  · intro h
    obtain ⟨j, hle, -, hj⟩ := h
    exact (Nat.pow_le_pow_right (by norm_num) hle).trans (Nat.ge_two_pow_of_testBit hj)
  · intro h
    obtain ⟨j, hle, hj⟩ := Nat.exists_ge_and_testBit_of_ge_two_pow h
    have hbits : j < L.bits := BitVec.lt_of_getLsbD hj
    exact ⟨j, hle, by omega, hj⟩

/-- The mask does not touch what is not above the limit. -/
theorem and_makeMask {x v : BitVec L.bits} (h : v ≤ x) : v &&& makeMask L x = v := by
  apply BitVec.eq_of_getLsbD_eq
  intro i hi
  rw [BitVec.getLsbD_and, getLsbD_makeMask]
  cases hv : v.getLsbD i with
  | false => rfl
  | true =>
      have hle : 2 ^ i ≤ v.toNat := Nat.ge_two_pow_of_testBit hv
      have hx : v.toNat ≤ x.toNat := h
      simp [hle.trans hx]

end Mask

/-! ## The words of a value -/

section Words

/-- The word of a value at place `i`. -/
def wordAt (x : BitVec L.bits) (i : ℕ) : BitVec 32 := x.extractLsb' (32 * i) 32

/-- A value without its words below place `i`. -/
def clearLow (x : BitVec L.bits) (i : ℕ) : BitVec L.bits := x >>> (32 * i) <<< (32 * i)

/-- The places where a word is drawn, the highest first. -/
def active (mask : BitVec L.bits) : ℕ → List ℕ
  | 0 => []
  | i + 1 => if mask >>> (i * 32) ≠ 0 then i :: active mask i else active mask i

theorem getLsbD_clearLow (x : BitVec L.bits) (i j : ℕ) :
    (clearLow x i).getLsbD j = (decide (32 * i ≤ j) && x.getLsbD j) := by
  rw [clearLow, BitVec.getLsbD_shiftLeft, BitVec.getLsbD_ushiftRight]
  by_cases hle : 32 * i ≤ j
  · by_cases hj : j < L.bits
    · simp [hle, hj, Nat.not_lt.mpr hle]
    · simp [hj, BitVec.getLsbD_of_ge x j (Nat.not_lt.mp hj)]
  · simp [hle, Nat.lt_of_not_le hle]

theorem getLsbD_wordAt (x : BitVec L.bits) (i j : ℕ) :
    (wordAt x i).getLsbD j = (decide (j < 32) && x.getLsbD (32 * i + j)) :=
  BitVec.getLsbD_extractLsb' ..

theorem clearLow_zero (x : BitVec L.bits) : clearLow x 0 = x := by
  apply BitVec.eq_of_getLsbD_eq
  intro j _
  simp [getLsbD_clearLow]

theorem clearLow_of_le (x : BitVec L.bits) {i : ℕ} (h : L.bits ≤ 32 * i) : clearLow x i = 0 := by
  apply BitVec.eq_of_getLsbD_eq
  intro j hj
  have hle : ¬32 * i ≤ j := by omega
  simp [getLsbD_clearLow, hle]

/-- A part of a value is no more than the value. -/
theorem clearLow_le (x : BitVec L.bits) (i : ℕ) : clearLow x i ≤ x := by
  rw [BitVec.le_def, clearLow, BitVec.toNat_shiftLeft, BitVec.toNat_ushiftRight, Nat.shiftLeft_eq,
    Nat.shiftRight_eq_div_pow]
  exact (Nat.mod_le _ _).trans (Nat.div_mul_le_self _ _)

variable {mask v a : BitVec L.bits} {w : BitVec 32} {i : ℕ}

theorem clearLow_eq_self_iff : clearLow v i = v ↔ ∀ j < 32 * i, v.getLsbD j = false := by
  constructor
  · intro h j hj
    rw [← h, getLsbD_clearLow]
    simp [Nat.not_le.mpr hj]
  · intro h
    apply BitVec.eq_of_getLsbD_eq
    intro j _
    rw [getLsbD_clearLow]
    by_cases hle : 32 * i ≤ j
    · simp [hle]
    · simp [h j (by omega)]

/-- What has been drawn has nothing below the word that is drawn. -/
theorem clearLow_put (hlow : clearLow v (i + 1) = v) :
    clearLow ((v ||| w.setWidth L.bits <<< (i * 32)) &&& mask) i =
      (v ||| w.setWidth L.bits <<< (i * 32)) &&& mask := by
  rw [clearLow_eq_self_iff]
  intro j hj
  rw [BitVec.getLsbD_and, BitVec.getLsbD_or, BitVec.getLsbD_shiftLeft,
    clearLow_eq_self_iff.mp hlow j (by omega), mul_comm i 32]
  simp [hj]

/-- **A word is drawn into its place**, and is masked there. -/
theorem clearLow_eq_iff (hi : 32 * (i + 1) ≤ L.bits) (hlow : clearLow v (i + 1) = v)
    (hmask : v &&& mask = v) :
    clearLow a i = (v ||| w.setWidth L.bits <<< (i * 32)) &&& mask ↔
      clearLow a (i + 1) = v ∧ w &&& wordAt mask i = wordAt a i := by
  have hv := clearLow_eq_self_iff.mp hlow
  have hm : ∀ j, (v.getLsbD j && mask.getLsbD j) = v.getLsbD j := by
    intro j
    rw [← BitVec.getLsbD_and, hmask]
  have hput : ∀ j < L.bits, ((v ||| w.setWidth L.bits <<< (i * 32)) &&& mask).getLsbD j =
      if j < 32 * i then false
      else if j < 32 * (i + 1) then w.getLsbD (j - 32 * i) && mask.getLsbD j else v.getLsbD j := by
    intro j hj
    rw [BitVec.getLsbD_and, BitVec.getLsbD_or, BitVec.getLsbD_shiftLeft, BitVec.getLsbD_setWidth,
      mul_comm i 32]
    split
    · rename_i hlt
      simp [hlt, hv j (by omega)]
    · rename_i hge
      have hsub : j - 32 * i < L.bits := by omega
      split
      · rename_i hlt
        rw [hv j hlt]
        simp [hj, hge, hsub]
      · rename_i hge'
        have hw : w.getLsbD (j - 32 * i) = false := BitVec.getLsbD_of_ge _ _ (by omega)
        simp [hw, hm j]
  constructor
  · intro h
    have hbit : ∀ j < L.bits, (decide (32 * i ≤ j) && a.getLsbD j) = _ := fun j hj =>
      (getLsbD_clearLow a i j).symm.trans ((congrArg (·.getLsbD j) h).trans (hput j hj))
    constructor
    · apply BitVec.eq_of_getLsbD_eq
      intro j hj
      rw [getLsbD_clearLow]
      by_cases hle : 32 * (i + 1) ≤ j
      · have hj' := hbit j hj
        rw [if_neg (by omega), if_neg (by omega)] at hj'
        have hle' : 32 * i ≤ j := by omega
        simpa [hle, hle'] using hj'
      · rw [hv j (by omega)]
        simp [hle]
    · apply BitVec.eq_of_getLsbD_eq
      intro j hj
      have hj' := hbit (32 * i + j) (by omega)
      rw [if_neg (by omega), if_pos (by omega), Nat.add_sub_cancel_left] at hj'
      rw [BitVec.getLsbD_and, getLsbD_wordAt, getLsbD_wordAt]
      simpa [hj] using hj'.symm
  · intro h
    obtain ⟨hhigh, hword⟩ := h
    apply BitVec.eq_of_getLsbD_eq
    intro j hj
    rw [hput j hj, getLsbD_clearLow]
    split
    · rename_i hlt
      simp [Nat.not_le.mpr hlt]
    · rename_i hge
      split
      · rename_i hlt
        have hsub : j - 32 * i < 32 := by omega
        have hj' := congrArg (·.getLsbD (j - 32 * i)) hword
        simp only [BitVec.getLsbD_and, getLsbD_wordAt,
          Nat.add_sub_cancel' (Nat.not_lt.mp hge)] at hj'
        simpa [hsub, Nat.not_lt.mp hge] using hj'.symm
      · rename_i hge'
        rw [← hhigh, getLsbD_clearLow]
        simp [Nat.not_lt.mp hge, Nat.not_lt.mp hge']

/-- Above the mask there is nothing. -/
theorem clearLow_eq_of_mask (hzero : mask >>> (i * 32) = 0) (ha : a &&& mask = a) :
    clearLow a i = clearLow a (i + 1) := by
  have hnone : ∀ j, 32 * i ≤ j → a.getLsbD j = false := by
    intro j hj
    have hbit := congrArg (·.getLsbD (j - 32 * i)) hzero
    simp only [BitVec.getLsbD_ushiftRight, mul_comm i 32, Nat.add_sub_cancel' hj] at hbit
    rw [← ha, BitVec.getLsbD_and, hbit]
    simp
  apply BitVec.eq_of_getLsbD_eq
  intro j _
  rw [getLsbD_clearLow, getLsbD_clearLow]
  by_cases hle : 32 * i ≤ j
  · simp [hnone j hle]
  · have hle' : ¬32 * (i + 1) ≤ j := by omega
    simp [hle, hle']

end Words

/-! ## The draw -/

section Draw

variable {limit v a : BitVec L.bits} {i : ℕ} {ws rest : List (BitVec 32)}

/-- **The words that make an attempt end with a value** which goes on from what has been drawn. -/
theorem scan_limitedRand_iff (hi : 32 * i ≤ L.bits) (hlow : clearLow v i = v) (hle : v ≤ limit) :
    Rejection.scan RandomError.short (limitedRandBody L limit (makeMask L limit)) i v ws =
        .ok (some a, rest) ↔
      (a ≤ limit ∧ clearLow a i = v) ∧ ∃ used, ws = used ++ rest ∧
        List.Forall₂ (fun w j => w &&& wordAt (makeMask L limit) j = wordAt a j) used
          (active (makeMask L limit) i) := by
  induction i generalizing v ws with
  | zero =>
      rw [Rejection.scan, active]
      simp only [Except.ok.injEq, Prod.mk.injEq, Option.some.injEq, clearLow_zero,
        List.forall₂_nil_right_iff]
      constructor
      · intro h
        obtain ⟨rfl, rfl⟩ := h
        exact ⟨⟨hle, rfl⟩, [], rfl, rfl⟩
      · intro h
        obtain ⟨⟨-, rfl⟩, used, rfl, rfl⟩ := h
        exact ⟨rfl, rfl⟩
  | succ i ih =>
      by_cases hmask : makeMask L limit >>> (i * 32) = 0
      · have hbody : limitedRandBody L limit (makeMask L limit) i v = .skip v := by
          rw [limitedRandBody, if_neg (not_not.mpr hmask)]
        have hv := (clearLow_eq_of_mask hmask (and_makeMask hle)).trans hlow
        rw [Rejection.scan_skip hbody, ih (by omega) hv hle, active, if_neg (not_not.mpr hmask)]
        apply and_congr_left
        intro _
        apply and_congr_right
        intro ha
        rw [clearLow_eq_of_mask hmask (and_makeMask ha)]
      · have hbody : limitedRandBody L limit (makeMask L limit) i v = .read fun word =>
            if limit < (v ||| word.setWidth L.bits <<< (i * 32)) &&& makeMask L limit then none
            else some ((v ||| word.setWidth L.bits <<< (i * 32)) &&& makeMask L limit) := by
          rw [limitedRandBody, if_pos hmask]
        rw [active, if_pos hmask]
        cases ws with
        | nil =>
            rw [Rejection.scan_nil hbody]
            constructor
            · intro h
              cases h
            · intro h
              obtain ⟨-, used, hused, hall⟩ := h
              cases hall
              cases hused
        | cons w ws =>
            have hstep := clearLow_eq_iff (a := a) (w := w) hi hlow (and_makeMask hle)
            by_cases hlt : limit < (v ||| w.setWidth L.bits <<< (i * 32)) &&& makeMask L limit
            · rw [Rejection.scan_none hbody (if_pos hlt)]
              constructor
              · intro h
                cases h
              · intro h
                obtain ⟨⟨ha, hhigh⟩, used, hused, hall⟩ := h
                cases hall with
                | cons hword hall =>
                    cases hused
                    have heq := hstep.mpr ⟨hhigh, hword⟩
                    have hpart : (clearLow a i).toNat ≤ limit.toNat := le_trans (clearLow_le a i) ha
                    rw [heq] at hpart
                    exact absurd hlt (BitVec.not_lt.mpr hpart)
            · rw [Rejection.scan_cons hbody (if_neg hlt),
                ih (by omega) (clearLow_put hlow) (BitVec.not_lt.mp hlt)]
              constructor
              · intro h
                obtain ⟨⟨ha, hhigh⟩, used, hused, hall⟩ := h
                obtain ⟨hhigh, hword⟩ := hstep.mp hhigh
                exact ⟨⟨ha, hhigh⟩, w :: used, by rw [hused, List.cons_append], .cons hword hall⟩
              · intro h
                obtain ⟨⟨ha, hhigh⟩, used, hused, hall⟩ := h
                cases hall with
                | cons hword hall =>
                    cases hused
                    exact ⟨⟨ha, hstep.mpr ⟨hhigh, hword⟩⟩, _, rfl, hall⟩

/-- **The words that make an attempt end with a value** are those that have its bits where the mask
has any, and there are such words for the values up to the limit. -/
theorem limitedRandAttempt_iff :
    limitedRandAttempt L limit ws = .ok (some a, rest) ↔ a ≤ limit ∧ ∃ used, ws = used ++ rest ∧
      List.Forall₂ (fun w j => w &&& wordAt (makeMask L limit) j = wordAt a j) used
        (active (makeMask L limit) (L.bytes / 4)) := by
  have hbits : 32 * (L.bytes / 4) = L.bits := by cases L <;> rfl
  have hzero : (0 : BitVec L.bits) ≤ limit := by simp [BitVec.le_def]
  rw [limitedRandAttempt, scan_limitedRand_iff hbits.le (clearLow_of_le 0 hbits.ge) hzero,
    clearLow_of_le a hbits.ge]
  simp only [and_true]

/-- **The draw of a word is fair** on the values up to the limit. -/
theorem limitedRand_fair (limit : BitVec L.bits) :
    Rejection.Fair (limitedRandAttempt L limit) {a | a ≤ limit} := by
  refine Rejection.Fair.of_masked (active (makeMask L limit) (L.bytes / 4))
    (wordAt (makeMask L limit)) wordAt (Rejection.scan_reads _ _ _ _) ?_ ?_
  · intro ws a rest
    exact limitedRandAttempt_iff
  · intro a ha j _
    apply BitVec.eq_of_getLsbD_eq
    intro k hk
    have hbit := congrArg (·.getLsbD (32 * j + k)) (and_makeMask ha)
    simp only [BitVec.getLsbD_and] at hbit
    rw [BitVec.getLsbD_and, getLsbD_wordAt, getLsbD_wordAt]
    simpa [hk] using hbit

/-- **What `limited_rand` returns** is no more than the limit, and as many tuples of words lead to
one number as to another. -/
theorem limitedRand_uniform (limit : BitVec L.bits) :
    (∀ n ws a rest, limitedRand L limit n ws = some (a, rest) → a ≤ limit) ∧
      ∀ a ≤ limit, ∀ b ≤ limit, ∀ n k,
        {ws | ws.length = k ∧ limitedRand L limit n ws = some (a, [])}.ncard =
          {ws | ws.length = k ∧ limitedRand L limit n ws = some (b, [])}.ncard :=
  ⟨(limitedRand_fair limit).mem, (limitedRand_fair limit).uniform⟩

end Draw

end MacRuby
