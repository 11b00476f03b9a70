import MacRuby.Time.Calendar
import MacRuby.Time.Marshal
import Mathlib.Data.Rat.Floor
import Mathlib.Tactic.Ring

/-!
# Time arithmetic

`time_overflow_p` carries nanoseconds into the seconds, and `time_add` adds an offset that has been
converted to a double. Overflow is found by comparing what has wrapped with what it should be above
or below.

A double is a rational here. How a result is rounded is a parameter, but integers up to 2^53 and the
half are doubles.

## Main definitions

* `Doubles` — the rounding.
* `rbTimeNanoNew`, `timeAdd` — the functions.
* `ArithmeticExact` — what they should do.

## Main results

* `timeOverflowP_exact` — the total is kept, unless its seconds do not fit.
* `timeAdd_exact` — a time is shifted by an Integer, unless it does not fit.
-/

namespace MacRuby.Time

/-! ## Carrying nanoseconds -/

section Carry

variable {lib : Library} {sec nsec : ℤ}

/-- The nanoseconds that are returned are less than a second. -/
theorem nsec_of_timeOverflowP {r : ℤ × ℤ} (h : timeOverflowP lib sec nsec = .ok r) :
    0 ≤ r.2 ∧ r.2 < 1000000000 := by
  have htmod := Int.tmod_lt_of_pos nsec (by decide : (0 : ℤ) < 1000000000)
  have hneg := Int.tmod_lt_of_pos (-(nsec + 1)) (by decide : (0 : ℤ) < 1000000000)
  rw [timeOverflowP] at h
  dsimp only at h
  by_cases hcarry : nsec ≥ 1000000000
  · have hnonneg := Int.tmod_nonneg (1000000000 : ℤ) (by omega : 0 ≤ nsec)
    simp only [hcarry, true_and, if_true, if_neg (not_lt.mpr hnonneg)] at h
    split_ifs at h
    cases h
    exact ⟨hnonneg, htmod⟩
  · simp only [hcarry, false_and, if_false] at h
    split_ifs at h with hlt
    · have hnonneg := Int.tmod_nonneg (1000000000 : ℤ) (by omega : 0 ≤ -(nsec + 1))
      cases h
      dsimp only
      omega
    · cases h
      dsimp only
      omega

/-- Seconds with a carry that is less than their range. -/
theorem long_carry (hsec : lib.InRange sec) {c : ℤ} (hc : -2 ^ (lib.bits - 1) < c)
    (hc' : c < 2 ^ (lib.bits - 1)) :
    lib.InRange (sec + c) ∧ lib.long (sec + c) = sec + c ∨
      lib.greatest < sec + c ∧ 0 < sec ∧ lib.long (sec + c) < 0 ∨
      sec + c < lib.least ∧ sec < 0 ∧ 0 < lib.long (sec + c) := by
  have hpow := lib.pow_bits
  by_cases hfit : lib.InRange (sec + c)
  · exact .inl ⟨hfit, Clock.long_eq hfit⟩
  obtain ⟨hleast, hgreatest⟩ := hsec
  rw [Clock.InRange, Clock.least, Clock.greatest] at hfit
  rw [Clock.least] at hleast ⊢
  rw [Clock.greatest] at hgreatest ⊢
  have hwrap : ∀ k, lib.InRange (sec + c - 2 ^ lib.bits * k) →
      lib.long (sec + c) = sec + c - 2 ^ lib.bits * k := by
    intro k hk
    have hmul := Clock.long_add_mul hk k
    rwa [sub_add_cancel] at hmul
  by_cases hlt : sec + c < -2 ^ (lib.bits - 1)
  · have hlong := hwrap (-1) ⟨by rw [Clock.least]; omega, by rw [Clock.greatest]; omega⟩
    exact .inr (.inr ⟨hlt, by omega, by omega⟩)
  · have hlong := hwrap 1 ⟨by rw [Clock.least]; omega, by rw [Clock.greatest]; omega⟩
    exact .inr (.inl ⟨by omega, by omega, by omega⟩)

instance (ck : Clock) (t : ℤ) : Decidable (ck.InRange t) := inferInstanceAs (Decidable (_ ∧ _))

/-- **Seconds and nanoseconds are normalised, or their seconds do not fit.** -/
theorem timeOverflowP_exact (hsec : lib.InRange sec) (hnsec : lib.InRange nsec) :
    timeOverflowP lib sec nsec =
      if lib.InRange (sec + nsec / 1000000000)
      then .ok (sec + nsec / 1000000000, nsec % 1000000000)
      else .error (.rangeError "out of Time range") := by
  have hpow : (2 ^ 31 : ℤ) ≤ 2 ^ (lib.bits - 1) :=
    pow_le_pow_right₀ (by decide) (by have := lib.long_le; omega)
  have hleast := hnsec.1
  have hgreatest := hnsec.2
  rw [Clock.least] at hleast
  rw [Clock.greatest] at hgreatest
  have hcases := long_carry hsec (by omega : -2 ^ (lib.bits - 1) < nsec / 1000000000) (by omega)
  rw [timeOverflowP]
  dsimp only
  by_cases hcarry : nsec ≥ 1000000000
  · have htdiv : nsec.tdiv 1000000000 = nsec / 1000000000 := Int.tdiv_eq_ediv_of_nonneg (by omega)
    have htmod : nsec.tmod 1000000000 = nsec % 1000000000 := Int.tmod_eq_emod_of_nonneg (by omega)
    have hmod : ¬ nsec % 1000000000 < 0 := not_lt.mpr (Int.emod_nonneg _ (by decide))
    simp only [hcarry, true_and, if_true, htdiv, htmod, if_neg hmod]
    rcases hcases with ⟨hfit, hlong⟩ | ⟨hfit, hpos, hlong⟩ | ⟨hfit, hpos, hlong⟩
    · rw [if_pos hfit, hlong, if_neg]
      rintro ⟨hpos, hneg⟩
      omega
    · have hout : ¬ lib.InRange (sec + nsec / 1000000000) := fun h => absurd h.2 (not_le.mpr hfit)
      rw [if_neg hout, if_pos ⟨hpos, hlong⟩]
    · have := hsec.1
      omega
  · have hdiv := div_eq nsec (by decide : (0 : ℤ) < 1000000000)
    rw [div] at hdiv
    simp only [hcarry, false_and, if_false]
    by_cases hneg : nsec < 0
    · rw [if_pos hneg] at hdiv
      have hmod : 1000000000 - (-(nsec + 1)).tmod 1000000000 - 1 = nsec % 1000000000 := by
        rw [Int.tmod_eq_emod_of_nonneg (by omega)]
        omega
      rw [if_pos hneg, hdiv, hmod]
      rcases hcases with ⟨hfit, hlong⟩ | ⟨hfit, hpos, hlong⟩ | ⟨hfit, hpos, hlong⟩
      · rw [if_pos hfit, hlong, if_neg]
        rintro ⟨hpos, hneg⟩
        omega
      · have := hsec.2
        omega
      · have hout : ¬ lib.InRange (sec + nsec / 1000000000) := fun h => absurd h.1 (not_le.mpr hfit)
        rw [if_neg hout, if_pos ⟨hpos, hlong⟩]
    · have hzero : nsec / 1000000000 = 0 := by omega
      have hmod : nsec % 1000000000 = nsec := by omega
      rw [if_neg hneg, hzero, add_zero, if_pos hsec, hmod]

end Carry

/-! ## Adding an offset -/

/-- The results of operations on doubles, and the conversion of a double that does not fit. -/
structure Doubles where
  round : ℚ → ℚ
  /-- `(unsigned_time_t)f`, when `f` does not fit. -/
  toUnsigned : ℚ → ℕ
  /-- `%f` -/
  format : ℚ → String
  round_int : ∀ n : ℤ, |n| ≤ 2 ^ 53 → round n = n
  round_half : round (1 / 2) = 1 / 2

/-- `rb_time_nano_new(sec, nsec)`, with the flag `gmt`. -/
def rbTimeNanoNew (lib : Library) (sec nsec : ℤ) (gmt : Bool) : Except Failure TimeObject :=
  match h : timeOverflowP lib sec nsec with
  | .error e => .error e
  | .ok r => .ok ⟨r.1, r.2, gmt, none, (nsec_of_timeOverflowP h).1, (nsec_of_timeOverflowP h).2⟩

/-- `time_add(tobj, offset, sign)`, for an Integer. -/
def timeAdd (lib : Library) (D : Doubles) (tobj : TimeObject) (offset sign : ℤ) :
    Except Failure TimeObject :=
  let v := |D.round offset|
  let sign := if D.round offset < 0 then -sign else sign
  -- `d = modf(v, &f)`
  let f := ⌊v⌋
  let d := v - f
  let secOff := if f < 2 ^ lib.bits then f else (D.toUnsigned f : ℤ) % 2 ^ lib.bits
  if (f : ℚ) ≠ D.round secOff then
    .error (.rangeError ("time " ++ (if sign < 0 then "-" else "+") ++ " " ++ D.format v ++
      " out of Time range"))
  else
    let nsecOff := ⌊D.round (D.round (d * 1000000000) + 1 / 2)⌋
    if sign < 0 then
      let sec := lib.long (tobj.sec - secOff)
      if sec > tobj.sec then .error (.rangeError ("time - " ++ D.format v ++ " out of Time range"))
      else rbTimeNanoNew lib sec (lib.long (tobj.nsec - nsecOff)) tobj.gmt
    else
      let sec := lib.long (tobj.sec + secOff)
      if sec < tobj.sec then .error (.rangeError ("time + " ++ D.format v ++ " out of Time range"))
      else rbTimeNanoNew lib sec (lib.long (tobj.nsec + nsecOff)) tobj.gmt

section Add

variable {lib : Library} {D : Doubles}

/-- A time that has wrapped downwards is above where it started, and one that has wrapped upwards
below. -/
theorem long_off {sec off : ℤ} (hsec : lib.InRange sec) (h0 : 0 ≤ off) (h1 : off < 2 ^ lib.bits) :
    (if lib.InRange (sec - off) then lib.long (sec - off) = sec - off
      else sec < lib.long (sec - off)) ∧
    (if lib.InRange (sec + off) then lib.long (sec + off) = sec + off
      else lib.long (sec + off) < sec) := by
  have hpow := lib.pow_bits
  have hleast := hsec.1
  have hgreatest := hsec.2
  rw [Clock.least] at hleast
  rw [Clock.greatest] at hgreatest
  have hwrap : ∀ t k, lib.InRange (t - 2 ^ lib.bits * k) → lib.long t = t - 2 ^ lib.bits * k := by
    intro t k hk
    have hmul := Clock.long_add_mul hk k
    rwa [sub_add_cancel] at hmul
  refine ⟨?_, ?_⟩
  · split_ifs with hfit
    · exact Clock.long_eq hfit
    · rw [Clock.InRange, Clock.least, Clock.greatest] at hfit
      rw [hwrap (sec - off) (-1) ⟨by rw [Clock.least]; omega, by rw [Clock.greatest]; omega⟩]
      omega
  · split_ifs with hfit
    · exact Clock.long_eq hfit
    · rw [Clock.InRange, Clock.least, Clock.greatest] at hfit
      rw [hwrap (sec + off) 1 ⟨by rw [Clock.least]; omega, by rw [Clock.greatest]; omega⟩]
      omega

/-- A time whose nanoseconds need no carry. -/
theorem rbTimeNanoNew_eq (sec : ℤ) (t : TimeObject) (gmt : Bool) :
    rbTimeNanoNew lib sec t.nsec gmt = .ok ⟨sec, t.nsec, gmt, none, t.nsec_nonneg, t.nsec_lt⟩ := by
  have hok := timeOverflowP_eq lib sec t.nsec_nonneg t.nsec_lt
  rw [rbTimeNanoNew]
  split
  case h_1 e he =>
    rw [hok] at he
    cases he
  case h_2 r hr =>
    rw [hok] at hr
    cases hr
    rfl

/-- A `long` holds the nanoseconds of a time. -/
theorem long_nsec (t : TimeObject) : lib.long t.nsec = t.nsec :=
  long_eq t.nsec_nonneg (t.nsec_lt.trans (by decide))

/-- The magnitude of an offset, in seconds and nanoseconds. -/
theorem offset_split {n : ℤ} (hn : |n| ≤ 2 ^ 53) :
    |D.round n| = ((|n| : ℤ) : ℚ) ∧ ⌊|D.round n|⌋ = |n| ∧
      ⌊D.round (D.round ((|D.round n| - ⌊|D.round n|⌋) * 1000000000) + 1 / 2)⌋ = 0 := by
  have habs : |D.round n| = ((|n| : ℤ) : ℚ) := by rw [D.round_int n hn, Int.cast_abs]
  have hfloor : ⌊|D.round n|⌋ = |n| := by rw [habs, Int.floor_intCast]
  refine ⟨habs, hfloor, ?_⟩
  have hzero : D.round 0 = 0 := by
    have h := D.round_int 0 (by decide)
    rwa [Int.cast_zero] at h
  rw [hfloor, habs, sub_self, zero_mul, hzero, zero_add, D.round_half]
  norm_num

/-- **A time is shifted by an Integer, unless its seconds do not fit.** -/
theorem timeAdd_exact (t : TimeObject) {n s : ℤ} (hsec : lib.InRange t.sec) (hn : |n| ≤ 2 ^ 53)
    (hs : s = 1 ∨ s = -1) :
    if lib.InRange (t.sec + s * n) then
      timeAdd lib D t n s = .ok ⟨t.sec + s * n, t.nsec, t.gmt, none, t.nsec_nonneg, t.nsec_lt⟩
    else ∃ message, timeAdd lib D t n s = .error (.rangeError message) := by
  obtain ⟨habs, hfloor, hnsec⟩ := offset_split (D := D) hn
  have hpow := lib.pow_bits
  have hneg : D.round n < 0 ↔ n < 0 := by rw [D.round_int n hn, Int.cast_lt_zero]
  have hsign : (if n < 0 then -s else s) < 0 ∧ s * n = -|n| ∨
      ¬ (if n < 0 then -s else s) < 0 ∧ s * n = |n| := by
    rcases hs with rfl | rfl
    · split_ifs with h
      · exact .inl ⟨by decide, by rw [abs_of_neg h, one_mul, neg_neg]⟩
      · exact .inr ⟨by decide, by rw [abs_of_nonneg (not_lt.mp h), one_mul]⟩
    · split_ifs with h
      · exact .inr ⟨by decide, by rw [abs_of_neg h, neg_one_mul]⟩
      · exact .inl ⟨by decide, by rw [abs_of_nonneg (not_lt.mp h), neg_one_mul]⟩
  rw [timeAdd]
  dsimp only
  rw [hnsec, hfloor]
  simp only [hneg, sub_zero, add_zero, long_nsec]
  have hnonneg := abs_nonneg n
  by_cases hlt : |n| < 2 ^ lib.bits
  · have hexact : ¬ ((|n| : ℤ) : ℚ) ≠ D.round ((|n| : ℤ) : ℚ) := by
      rw [D.round_int |n| (by rwa [abs_abs])]
      exact not_not.mpr rfl
    obtain ⟨hminus, hplus⟩ := long_off hsec (abs_nonneg n) hlt
    rw [if_pos hlt, if_neg hexact]
    rcases hsign with ⟨hsign, hmul⟩ | ⟨hsign, hmul⟩
    · rw [hmul, ← sub_eq_add_neg]
      simp only [if_pos hsign]
      by_cases hfit : lib.InRange (t.sec - |n|)
      · rw [if_pos hfit] at hminus ⊢
        rw [if_neg (by omega), hminus]
        exact rbTimeNanoNew_eq _ t t.gmt
      · rw [if_neg hfit] at hminus ⊢
        exact ⟨_, if_pos hminus⟩
    · rw [hmul]
      simp only [if_neg hsign]
      by_cases hfit : lib.InRange (t.sec + |n|)
      · rw [if_pos hfit] at hplus ⊢
        rw [if_neg (by omega), hplus]
        exact rbTimeNanoNew_eq _ t t.gmt
      · rw [if_neg hfit] at hplus ⊢
        exact ⟨_, if_pos hplus⟩
  · -- the offset does not fit either, and is not what it has been converted to
    generalize hoff : (D.toUnsigned ((|n| : ℤ) : ℚ) : ℤ) % 2 ^ lib.bits = off
    have hpos : (0 : ℤ) < 2 ^ lib.bits := by positivity
    have hoff0 : 0 ≤ off := hoff ▸ Int.emod_nonneg _ hpos.ne'
    have hoff1 : off < 2 ^ lib.bits := hoff ▸ Int.emod_lt_of_pos _ hpos
    have hround : D.round off = off := D.round_int off (by rw [abs_of_nonneg hoff0]; omega)
    have hne : ((|n| : ℤ) : ℚ) ≠ D.round off := by
      rw [hround, Ne, Int.cast_inj]
      omega
    have hout : ¬ lib.InRange (t.sec + s * n) := by
      intro hfit
      have hleast := hsec.1
      have hgreatest := hsec.2
      have hleast' := hfit.1
      have hgreatest' := hfit.2
      rw [Clock.least] at hleast hleast'
      rw [Clock.greatest] at hgreatest hgreatest'
      rcases hsign with ⟨-, hmul⟩ | ⟨-, hmul⟩ <;> omega
    rw [if_neg hout, if_neg hlt, if_pos hne]
    exact ⟨_, rfl⟩

/-- What the arithmetic should do. -/
structure ArithmeticExact (lib : Library) (D : Doubles) : Prop where
  /-- The total stays, with less than a second of nanoseconds. -/
  normalises : ∀ sec nsec r, lib.InRange sec → lib.InRange nsec →
    timeOverflowP lib sec nsec = .ok r →
    r.1 * 1000000000 + r.2 = sec * 1000000000 + nsec ∧ 0 ≤ r.2 ∧ r.2 < 1000000000 ∧ lib.InRange r.1
  /-- It is refused exactly if its seconds do not fit. -/
  refuses : ∀ sec nsec, lib.InRange sec → lib.InRange nsec →
    ((∃ message, timeOverflowP lib sec nsec = .error (.rangeError message)) ↔
      ¬ lib.InRange ((sec * 1000000000 + nsec) / 1000000000)) ∧
    ((∃ r, timeOverflowP lib sec nsec = .ok r) ↔
      lib.InRange ((sec * 1000000000 + nsec) / 1000000000))
  /-- A time is shifted by an Integer, with either sign, exactly if the result fits. -/
  shifts : ∀ (t : TimeObject) (n s : ℤ), lib.InRange t.sec → |n| ≤ 2 ^ 53 → s = 1 ∨ s = -1 →
    (lib.InRange (t.sec + s * n) → ∃ u, timeAdd lib D t n s = .ok u ∧ u.sec = t.sec + s * n ∧
      u.nsec = t.nsec ∧ u.gmt = t.gmt) ∧
    (¬ lib.InRange (t.sec + s * n) → ∃ message, timeAdd lib D t n s = .error (.rangeError message))
  /-- Subtracting what has been added gives the time again. -/
  inverse : ∀ (t u w : TimeObject) (n : ℤ), lib.InRange t.sec → |n| ≤ 2 ^ 53 →
    timeAdd lib D t n 1 = .ok u → timeAdd lib D u n (-1) = .ok w →
    w.sec = t.sec ∧ w.nsec = t.nsec ∧ w.gmt = t.gmt

/-- **Time arithmetic is exact, or it is refused.** -/
theorem arithmeticExact (lib : Library) (D : Doubles) : ArithmeticExact lib D := by
  have hdiv : ∀ sec nsec : ℤ, (sec * 1000000000 + nsec) / 1000000000 = sec + nsec / 1000000000 := by
    intro sec nsec
    omega
  have hshift : ∀ (t u : TimeObject) (n s : ℤ), lib.InRange t.sec → |n| ≤ 2 ^ 53 → s = 1 ∨ s = -1 →
      timeAdd lib D t n s = .ok u → lib.InRange (t.sec + s * n) ∧
        u = ⟨t.sec + s * n, t.nsec, t.gmt, none, t.nsec_nonneg, t.nsec_lt⟩ := by
    intro t u n s hsec hn hs hu
    have hexact := timeAdd_exact (D := D) t hsec hn hs
    split_ifs at hexact with hfit
    · rw [hexact] at hu
      cases hu
      exact ⟨hfit, rfl⟩
    · obtain ⟨message, hraise⟩ := hexact
      rw [hraise] at hu
      cases hu
  refine ⟨?_, ?_, ?_, ?_⟩
  · intro sec nsec r hsec hnsec hr
    rw [timeOverflowP_exact hsec hnsec] at hr
    split_ifs at hr with hfit
    cases hr
    exact ⟨by dsimp only; omega, Int.emod_nonneg _ (by decide),
      Int.emod_lt_of_pos _ (by decide), hfit⟩
  · intro sec nsec hsec hnsec
    rw [hdiv, timeOverflowP_exact hsec hnsec]
    split_ifs with hfit
    · simp [hfit]
    · simp [hfit]
  · intro t n s hsec hn hs
    have hexact := timeAdd_exact (D := D) t hsec hn hs
    refine ⟨fun hfit => ?_, fun hout => ?_⟩
    · rw [if_pos hfit] at hexact
      exact ⟨_, hexact, rfl, rfl, rfl⟩
    · rwa [if_neg hout] at hexact
  · intro t u w n hsec hn hu hw
    obtain ⟨hfit, rfl⟩ := hshift t u n 1 hsec hn (.inl rfl) hu
    obtain ⟨-, rfl⟩ := hshift _ w n (-1) hfit hn (.inr rfl) hw
    exact ⟨by dsimp only; omega, rfl, rfl⟩

end Add

/-- Exact rationals in place of doubles: no result is rounded. -/
def wideDoubles : Doubles where
  round := id
  toUnsigned := fun _ => 0
  format := fun v => toString v.num ++ ".000000"
  round_int := fun _ _ => rfl
  round_half := rfl

/-- With words of 64 bits. -/
theorem arithmeticExact_wide : ArithmeticExact epochLibrary wideDoubles :=
  arithmeticExact epochLibrary wideDoubles

end MacRuby.Time
