import MacRuby.Time.Search
import Mathlib.Algebra.BigOperators.Group.Finset.Basic
import Mathlib.Tactic.IntervalCases
import Mathlib.Tactic.Ring

/-!
# The calendar formula

`timegm_noleapsecond` counts the days before a year with three divisions and the days before a month
with two tables. It is compared with a calendar that adds up the lengths of years and months. The
divisions take a year that is counted in a `long`, which may be no longer than `tm_year`; for the
first and the last years of its range that count overflows.

## Main definitions

* `IsLeap`, `daysToYear`, `daysToMonth`, `instant` — the calendar.
* `Checked`, `Valid` — what `time_arg` lets pass, and dates.
* `CountsYears` — when the years are counted without an overflow that matters.

## Main results

* `daysToYear_eq` — the days before a year in closed form.
* `instant_lt` — a later date has a later instant.
* `countsSeconds_iff` — when the formula is exact.
-/

namespace MacRuby.Time

/-! ## The calendar -/

/-- The leap years of the Gregorian calendar. -/
def IsLeap (y : ℤ) : Prop := y % 4 = 0 ∧ (y % 100 ≠ 0 ∨ y % 400 = 0)

instance : DecidablePred IsLeap := fun _ => inferInstanceAs (Decidable (_ ∧ _))

/-- The days of a year. -/
def yearLength (y : ℤ) : ℤ := if IsLeap y then 366 else 365

/-- The days of a month; January is month 0. -/
def monthLength (y : ℤ) : ℕ → ℤ
  | 1 => if IsLeap y then 29 else 28
  | 3 | 5 | 8 | 10 => 30
  | _ => 31

/-- The days from the first day of 1970 to the first day of a year. -/
def daysToYear (y : ℤ) : ℤ :=
  ∑ i ∈ Finset.range (y - 1970).toNat, yearLength (1970 + i) -
    ∑ i ∈ Finset.range (1970 - y).toNat, yearLength (1969 - i)

/-- The days of a year before a month. -/
def daysToMonth (y : ℤ) (m : ℕ) : ℤ := ∑ i ∈ Finset.range m, monthLength y i

/-- The days from the first day of 1970. -/
def dayNumber (tm : Tm) : ℤ :=
  daysToYear (tm.year + 1900) + daysToMonth (tm.year + 1900) tm.mon.toNat + (tm.mday - 1)

/-- The seconds from the beginning of 1970, without leap seconds. -/
def instant (tm : Tm) : ℤ := dayNumber tm * 86400 + (tm.hour * 3600 + tm.min * 60 + tm.sec)

/-- The fields that `time_arg` lets pass, and a year that fits `tm_year`. -/
structure Checked (tm : Tm) : Prop where
  year : -2 ^ 31 ≤ tm.year ∧ tm.year < 2 ^ 31
  mon : 0 ≤ tm.mon ∧ tm.mon ≤ 11
  mday : 1 ≤ tm.mday ∧ tm.mday ≤ 31
  hour : 0 ≤ tm.hour ∧ tm.hour ≤ 24
  min : 0 ≤ tm.min ∧ tm.min ≤ 59
  sec : 0 ≤ tm.sec ∧ tm.sec ≤ 60

/-- A date: the day is one of its month, and the second is one of the day. -/
structure Valid (tm : Tm) : Prop extends Checked tm where
  day : tm.mday ≤ monthLength (tm.year + 1900) tm.mon.toNat
  hour_lt : tm.hour < 24
  sec_lt : tm.sec < 60

/-! ## Days before a year -/

/-- The days before a year in closed form. -/
def dayFormula (y : ℤ) : ℤ :=
  365 * (y - 1970) + (y - 1969) / 4 - (y - 1901) / 100 + (y - 1601) / 400

theorem dayFormula_succ (y : ℤ) : dayFormula (y + 1) = dayFormula y + yearLength y := by
  rw [dayFormula, dayFormula, yearLength]
  split_ifs with h <;> rw [IsLeap] at h <;> omega

/-- **The days before a year**, before or after 1970. -/
theorem daysToYear_eq (y : ℤ) : daysToYear y = dayFormula y := by
  have hafter : ∀ n : ℕ, ∑ i ∈ Finset.range n, yearLength (1970 + i) = dayFormula (1970 + n) := by
    intro n
    induction n with
    | zero => rfl
    | succ n ih =>
        rw [Finset.sum_range_succ, ih, Nat.cast_succ, ← add_assoc, dayFormula_succ]
  have hbefore : ∀ n : ℕ, ∑ i ∈ Finset.range n, yearLength (1969 - i) = -dayFormula (1970 - n) := by
    intro n
    induction n with
    | zero => rfl
    | succ n ih =>
        have hstep := dayFormula_succ (1970 - (n + 1 : ℤ))
        have hyear : (1970 : ℤ) - (n + 1) + 1 = 1970 - n := by omega
        have hyear' : (1970 : ℤ) - (n + 1) = 1969 - n := by omega
        rw [hyear] at hstep
        rw [Finset.sum_range_succ, ih, Nat.cast_succ, hstep, hyear']
        omega
  rw [daysToYear, hafter, hbefore]
  rcases le_total 1970 y with h | h
  · have hy : (1970 : ℤ) + (y - 1970).toNat = y := by omega
    have hzero : (1970 - y).toNat = 0 := by omega
    rw [hy, hzero]
    have hepoch : dayFormula (1970 - (0 : ℕ)) = 0 := rfl
    rw [hepoch]
    omega
  · have hy : (1970 : ℤ) - (1970 - y).toNat = y := by omega
    have hzero : (y - 1970).toNat = 0 := by omega
    have hepoch : dayFormula (1970 + (0 : ℕ)) = 0 := rfl
    rw [hy, hzero, hepoch]
    omega

theorem daysToYear_succ (y : ℤ) : daysToYear (y + 1) = daysToYear y + yearLength y := by
  rw [daysToYear_eq, daysToYear_eq, dayFormula_succ]

theorem daysToYear_mono {y y' : ℤ} (h : y ≤ y') : daysToYear y ≤ daysToYear y' := by
  rw [daysToYear_eq, daysToYear_eq, dayFormula, dayFormula]
  omega

/-! ## Days before a month -/

theorem monthLength_pos (y : ℤ) (m : ℕ) : 0 ≤ monthLength y m := by
  fun_cases monthLength y m <;> decide

theorem daysToMonth_mono (y : ℤ) {m m' : ℕ} (h : m ≤ m') : daysToMonth y m ≤ daysToMonth y m' := by
  induction h with
  | refl => exact le_refl _
  | step h ih =>
      rw [daysToMonth, daysToMonth, Finset.sum_range_succ] at *
      exact ih.trans (le_add_of_nonneg_right (monthLength_pos y _))

/-- The months of a year make it up. -/
theorem daysToMonth_year (y : ℤ) : daysToMonth y 12 = yearLength y := by
  rw [daysToMonth, yearLength]
  simp only [Finset.sum_range_succ, Finset.sum_range_zero, monthLength]
  split_ifs <;> rfl

/-! ## The order of dates -/

section Order

variable {a b : Tm}

/-- The day of a year. -/
def yearDay (tm : Tm) : ℤ := daysToMonth (tm.year + 1900) tm.mon.toNat + (tm.mday - 1)

theorem dayNumber_eq (tm : Tm) : dayNumber tm = daysToYear (tm.year + 1900) + yearDay tm := by
  rw [dayNumber, yearDay]
  omega

/-- A day of a month is before the days of the next month. -/
theorem yearDay_lt (h : Valid a) {m : ℕ} (hm : a.mon.toNat < m) :
    yearDay a < daysToMonth (a.year + 1900) m := by
  have hmono := daysToMonth_mono (a.year + 1900) (Nat.succ_le_of_lt hm)
  rw [daysToMonth, daysToMonth, Finset.sum_range_succ] at hmono
  have hday := h.day
  rw [yearDay, daysToMonth, daysToMonth]
  omega

theorem yearDay_nonneg (h : Valid a) : 0 ≤ yearDay a := by
  have hmono := daysToMonth_mono (a.year + 1900) (Nat.zero_le a.mon.toNat)
  have hday := h.mday
  rw [yearDay]
  rw [daysToMonth, Finset.sum_range_zero] at hmono
  omega

/-- **A later day has a higher number**: a later year, or the same year and a later month, or the
same month and a later day. -/
theorem dayNumber_lt (ha : Valid a) (hb : Valid b)
    (h : a.year < b.year ∨ a.year = b.year ∧ (a.mon < b.mon ∨ a.mon = b.mon ∧ a.mday < b.mday)) :
    dayNumber a < dayNumber b := by
  rw [dayNumber_eq, dayNumber_eq]
  have hmon := ha.mon
  have hmon' := hb.mon
  rcases h with hyear | ⟨hyear, hmonth | ⟨hmonth, hday⟩⟩
  · have hlt := yearDay_lt ha (by omega : a.mon.toNat < 12)
    have hnext := daysToYear_succ (a.year + 1900)
    have hmono := daysToYear_mono (by omega : a.year + 1900 + 1 ≤ b.year + 1900)
    have hnonneg := yearDay_nonneg hb
    rw [daysToMonth_year] at hlt
    omega
  · have hlt := yearDay_lt ha (by omega : a.mon.toNat < b.mon.toNat)
    have hday := hb.mday
    rw [hyear] at hlt ⊢
    rw [yearDay] at hlt ⊢
    rw [yearDay]
    omega
  · rw [yearDay, yearDay, hyear, hmonth]
    omega

/-- **A later date has a later instant.** -/
theorem instant_lt (ha : Valid a) (hb : Valid b) (h : tmcmp a b = -1) : instant a < instant b := by
  have hah := ha.hour
  have ham := ha.min
  have has := ha.sec
  have hbh := hb.hour
  have hbm := hb.min
  have hbs := hb.sec
  have hahl := ha.hour_lt
  have hasl := ha.sec_lt
  have hbhl := hb.hour_lt
  have hbsl := hb.sec_lt
  rw [tmcmp] at h
  by_cases hday : a.year = b.year ∧ a.mon = b.mon ∧ a.mday = b.mday
  · obtain ⟨hyear, hmon, hmday⟩ := hday
    have hsame : dayNumber a = dayNumber b := by rw [dayNumber, dayNumber, hyear, hmon, hmday]
    rw [instant, instant, hsame]
    simp only [hyear, hmon, hmday, ne_eq, not_true_eq_false, if_false] at h
    split_ifs at h <;> omega
  · have hlt : dayNumber a < dayNumber b := by
      refine dayNumber_lt ha hb ?_
      split_ifs at h <;> omega
    rw [instant, instant]
    omega

end Order

/-! ## The formula -/

theorem leapYearP_eq (y : ℤ) : leapYearP y = decide (IsLeap y) := by
  have htmod : ∀ n : ℤ, (y.tmod n = 0 ↔ y % n = 0) := by
    intro n
    rw [← Int.dvd_iff_tmod_eq_zero, ← Int.dvd_iff_emod_eq_zero]
  rw [leapYearP, Bool.eq_iff_iff]
  rw [decide_eq_true_eq, IsLeap]
  simp only [Bool.or_eq_true, Bool.and_eq_true, beq_iff_eq, bne_iff_ne, ne_eq, htmod]
  have hfour : y % 400 = 0 → y % 4 = 0 := by omega
  tauto

/-- `DIV` rounds down. -/
theorem div_eq (n : ℤ) {d : ℤ} (hd : 0 < d) : div n d = n / d := by
  rw [div]
  split_ifs with h
  · rw [Int.tdiv_eq_ediv_of_nonneg (by omega)]
    have hneg : -(n + 1) / d = -(n / d) - 1 := by
      have hmod := Int.emod_add_mul_ediv n d
      have hmod0 := Int.emod_nonneg n hd.ne'
      have hmod1 := Int.emod_lt_of_pos n hd
      refine (Int.ediv_eq_iff_of_pos hd).mpr ⟨?_, ?_⟩
      · linarith
      · linarith
    omega
  · exact Int.tdiv_eq_ediv_of_nonneg (by omega)

/-- The tables hold the days before each month, less one. -/
theorem offset_eq (y : ℤ) {m : ℕ} (hm : m ≤ 11) (e : ℤ) :
    (if leapYearP y then leapYearYdayOffset else commonYearYdayOffset)[m]?.getD e =
      daysToMonth y m - 1 := by
  rw [leapYearP_eq, daysToMonth]
  interval_cases m <;>
    simp only [Finset.sum_range_succ, Finset.sum_range_zero, monthLength] <;>
    by_cases h : IsLeap y <;> simp [h, leapYearYdayOffset, commonYearYdayOffset]

/-- One if a year is a leap year. -/
def leapDay (y : ℤ) : ℤ := if IsLeap y then 1 else 0

/-- The leap day is the last day before March. -/
theorem daysToMonth_sub (y y' : ℤ) (m : ℕ) :
    daysToMonth y m - daysToMonth y' m = if m < 2 then 0 else leapDay y - leapDay y' := by
  induction m with
  | zero => rfl
  | succ m ih =>
      have hstep : ∀ y : ℤ, daysToMonth y (m + 1) = daysToMonth y m + monthLength y m :=
        fun y => Finset.sum_range_succ _ _
      have hlength : monthLength y m - monthLength y' m =
          if m = 1 then leapDay y - leapDay y' else 0 := by
        split_ifs with h
        · rw [h, monthLength, monthLength, leapDay, leapDay]
          split_ifs <;> rfl
        · rw [monthLength.eq_def, monthLength.eq_def]
          split <;> first | rfl | exact absurd rfl h
      rw [hstep, hstep]
      split_ifs at ih hlength ⊢ <;> omega

/-- What the formula counts, with years that may have overflowed. -/
def counted (ck : Clock) (tm : Tm) : ℤ :=
  (daysToMonth (ck.long (tm.year + 1900)) tm.mon.toNat + (tm.mday - 1) + (tm.year - 70) * 365 +
      ck.long (tm.year - 69) / 4 - ck.long (tm.year - 1) / 100 + ck.long (tm.year + 299) / 400) *
    86400 + (tm.hour * 3600 + tm.min * 60 + tm.sec)

theorem Clock.long_mul (ck : Clock) (a b c : ℤ) : ck.long (a + ck.long b * c)
    = ck.long (b * c + a) := by
  rw [Clock.long, Clock.long, Clock.long, wrap, wrap, wrap, ← Int.add_bmod_bmod, Int.bmod_mul_bmod,
    Int.add_bmod_bmod, add_comm]

theorem int_eq {x : ℤ} (h0 : -2 ^ 31 ≤ x) (h1 : x < 2 ^ 31) : int x = x :=
  Int.bmod_eq_of_le (by norm_num at *; omega) (by norm_num at *; omega)

theorem timegmNoleapsecond_eq (ck : Clock) {tm : Tm} (h : Checked tm) :
    timegmNoleapsecond ck tm = ck.long (counted ck tm) := by
  have hmon := h.mon
  have hmday := h.mday
  have hhour := h.hour
  have hmin := h.min
  have hsec := h.sec
  have hoffset := offset_eq (ck.long (tm.year + 1900)) (by omega : tm.mon.toNat ≤ 11)
    (ck.around tm.mon)
  have hdays0 := daysToMonth_mono (ck.long (tm.year + 1900)) (Nat.zero_le tm.mon.toNat)
  have hdays1 := daysToMonth_mono (ck.long (tm.year + 1900)) (by omega : tm.mon.toNat ≤ 12)
  have hlength : yearLength (ck.long (tm.year + 1900)) ≤ 366 := by
    rw [yearLength]
    split_ifs <;> decide
  rw [daysToMonth_year] at hdays1
  rw [daysToMonth, Finset.sum_range_zero] at hdays0
  rw [timegmNoleapsecond, if_neg (by omega : ¬ tm.mon < 0), hoffset, div_eq _ (by decide),
    div_eq _ (by decide),
    div_eq _ (by decide), int_eq (by omega) (by omega), int_eq (by omega) (by omega),
    Clock.long_mul]
  congr 1
  rw [counted]
  ring

/-- When years are counted without an overflow that matters. -/
def CountsYears (ck : Clock) (tm : Tm) : Prop :=
  ck.long (tm.year - 1) = tm.year - 1 ∧ ck.long (tm.year + 299) = tm.year + 299 ∧
    (tm.mon < 2 ∨ (IsLeap (ck.long (tm.year + 1900)) ↔ IsLeap (tm.year + 1900)))

/-- The instant in closed form. -/
theorem instant_eq (tm : Tm) :
    instant tm = (daysToMonth (tm.year + 1900) tm.mon.toNat + (tm.mday - 1) + (tm.year - 70) * 365 +
        (tm.year - 69) / 4 - (tm.year - 1) / 100 + (tm.year + 299) / 400) * 86400 +
      (tm.hour * 3600 + tm.min * 60 + tm.sec) := by
  rw [instant, dayNumber, daysToYear_eq, dayFormula]
  omega

/-- A year that fits 32 bits, counted in 32 bits. -/
theorem long_cases {ck : Clock} (hbits : ck.bits = 32) {x : ℤ} (h0 : -2 ^ 32 ≤ x)
    (h1 : x < 2 ^ 32) :
    ck.long x = x ∧ -2 ^ 31 ≤ x ∧ x < 2 ^ 31 ∨ ck.long x = x - 2 ^ 32 ∧ 2 ^ 31 ≤ x ∨
      ck.long x = x + 2 ^ 32 ∧ x < -2 ^ 31 := by
  rw [Clock.long, wrap, hbits]
  have hdef := Int.bmod_def x (2 ^ 32)
  norm_num at hdef h0 h1 ⊢
  split_ifs at hdef <;> omega

theorem Clock.long_eq_iff {ck : Clock} (x y : ℤ) : ck.long x = ck.long y ↔
    (2 ^ ck.bits : ℤ) ∣ x - y := by
  rw [Clock.long, Clock.long, wrap, wrap, Int.bmod_eq_bmod_iff_bmod_sub_eq_zero,
    ← Int.dvd_iff_bmod_eq_zero]
  push_cast
  rfl

/-- **The formula is exact if the years are counted**, and only then. -/
theorem exact_iff {ck : Clock} (hbits : ck.bits = 32 ∨ ck.bits = 64) {tm : Tm} (h : Checked tm) :
    timegmNoleapsecond ck tm = ck.long (instant tm) ↔ CountsYears ck tm := by
  have hyear := h.year
  have hmon := h.mon
  rw [timegmNoleapsecond_eq ck h, Clock.long_eq_iff, instant_eq, counted, CountsYears]
  rcases hbits with hbits | hbits
  · have hdiff := daysToMonth_sub (ck.long (tm.year + 1900)) (tm.year + 1900) tm.mon.toNat
    have hleap : ∀ y, leapDay y = 0 ∧ ¬ IsLeap y ∨ leapDay y = 1 ∧ IsLeap y := by
      intro y
      rw [leapDay]
      split_ifs with hy
      · exact .inr ⟨rfl, hy⟩
      · exact .inl ⟨rfl, hy⟩
    have h1900 := hleap (tm.year + 1900)
    have h1900' := hleap (ck.long (tm.year + 1900))
    have h69 := long_cases hbits (by omega : -2 ^ 32 ≤ tm.year - 69) (by omega)
    have h1 := long_cases hbits (by omega : -2 ^ 32 ≤ tm.year - 1) (by omega)
    have h299 := long_cases hbits (by omega : -2 ^ 32 ≤ tm.year + 299) (by omega)
    -- the days that are counted too many; 2^30 of them for the division by 4, which do not matter
    have hfour : ck.long (tm.year - 69) / 4 - (tm.year - 69) / 4 = 0 ∨
        ck.long (tm.year - 69) / 4 - (tm.year - 69) / 4 = 2 ^ 30 := by omega
    have hhundred : ck.long (tm.year - 1) = tm.year - 1 ∨ tm.year = -2 ^ 31 ∧
        ck.long (tm.year - 1) / 100 - (tm.year - 1) / 100 = 42949673 := by omega
    have hmany : ck.long (tm.year + 299) = tm.year + 299 ∨ 0 < tm.year ∧
        ck.long (tm.year + 299) ≠ tm.year + 299 ∧
        -10737420 ≤ ck.long (tm.year + 299) / 400 - (tm.year + 299) / 400 ∧
        ck.long (tm.year + 299) / 400 - (tm.year + 299) / 400 ≤ -10737418 := by omega
    have hexcess : ∀ d d' f f' c c' q q' b e s : ℤ,
        (d + b + e + f - c + q) * 86400 + s - ((d' + b + e + f' - c' + q') * 86400 + s) =
          ((d - d') + (f - f') - (c - c') + (q - q')) * 86400 := by
      intros
      ring
    have hdvd : ∀ k : ℤ, (2 ^ 32 : ℤ) ∣ k * 86400 ↔ (33554432 : ℤ) ∣ k := by
      intro k
      omega
    rw [hbits, hexcess, hdiff, hdvd]
    have hmarch : tm.mon < 2 ↔ tm.mon.toNat < 2 := by omega
    rw [hmarch]
    by_cases hearly : tm.mon.toNat < 2
    · rw [if_pos hearly]
      simp only [hearly, true_or, and_true]
      clear h1900 h1900' hdiff
      omega
    · rw [if_neg hearly]
      rcases h1900 with ⟨h, h'⟩ | ⟨h, h'⟩ <;> rcases h1900' with ⟨g, g'⟩ | ⟨g, g'⟩ <;>
        simp only [hearly, h, h', g, g', false_or, iff_true, iff_false, not_true_eq_false,
          and_true, and_false, iff_self] <;>
        omega
  · have hlong : ∀ c, -2 ^ 31 ≤ c → c < 2 ^ 31 → ck.long (tm.year + c) = tm.year + c := by
      intro c hc0 hc1
      rw [Clock.long, wrap, hbits]
      exact Int.bmod_eq_of_le (by norm_num at *; omega) (by norm_num at *; omega)
    have h69 := hlong (-69) (by decide) (by decide)
    have h1 := hlong (-1) (by decide) (by decide)
    rw [← sub_eq_add_neg] at h69 h1
    rw [hlong 1900 (by decide) (by decide), h69, h1, hlong 299 (by decide) (by decide), sub_self]
    exact iff_of_true (dvd_zero _) ⟨rfl, rfl, .inr Iff.rfl⟩

/-- What the formula should do: count the seconds, and count more of them for a later date. -/
structure CountsSeconds (ck : Clock) (tm : Tm) : Prop where
  exact : timegmNoleapsecond ck tm = ck.long (instant tm)
  increasing : Valid tm → ∀ tm', Valid tm' → CountsYears ck tm' → tmcmp tm tm' = -1 →
    ck.InRange (instant tm) → ck.InRange (instant tm') →
    timegmNoleapsecond ck tm < timegmNoleapsecond ck tm'

/-- **The seconds are counted if the years are counted, and only then.** -/
theorem countsSeconds_iff {ck : Clock} (hbits : ck.bits = 32 ∨ ck.bits = 64) {tm : Tm}
    (h : Checked tm) : CountsSeconds ck tm ↔ CountsYears ck tm := by
  refine ⟨fun hall => (exact_iff hbits h).mp hall.exact, fun hyears => ?_⟩
  have hexact := (exact_iff hbits h).mpr hyears
  refine ⟨hexact, fun hvalid tm' hvalid' hyears' hlt hfit hfit' => ?_⟩
  rw [hexact, (exact_iff hbits hvalid'.toChecked).mpr hyears', Clock.long_eq hfit,
    Clock.long_eq hfit']
  exact instant_lt hvalid hvalid' hlt

theorem clock32_bits_pos : 0 < 32 := by decide

/-- A clock of 32 bits. -/
def clock32 : Clock := ⟨32, clock32_bits_pos, fun _ => none, fun _ => none, id⟩

/-- The beginning of a year, counted from 1900. -/
def newYear (year : ℤ) : Tm := ⟨year, 0, 1, 0, 0, 0, 0⟩

theorem checked_newYear {year : ℤ} (h : -2 ^ 31 ≤ year ∧ year < 2 ^ 31) : Checked (newYear year) :=
  ⟨h, by simp [newYear], by simp [newYear], by simp [newYear], by simp [newYear], by simp [newYear]⟩

/-- The beginning of 2000. -/
theorem countsSeconds_iff_y2k : CountsSeconds clock32 (newYear 100) ↔
    CountsYears clock32 (newYear 100) :=
  countsSeconds_iff (.inl rfl) (checked_newYear (by decide))

/-- The beginning of the last year is not counted in 32 bits. -/
theorem not_countsSeconds_lastYear :
    Checked (newYear (2 ^ 31 - 1)) ∧ ¬ CountsSeconds clock32 (newYear (2 ^ 31 - 1)) := by
  have hchecked : Checked (newYear (2 ^ 31 - 1)) := checked_newYear (by decide)
  refine ⟨hchecked, fun h => ?_⟩
  have hyears := (exact_iff (.inl rfl) hchecked).mp h.exact
  exact absurd hyears.2.1 (by decide)

end MacRuby.Time
