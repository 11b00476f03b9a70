import Mathlib.Logic.Relation
import Mathlib.Tactic.Linarith

/-!
# Looking for a time

`search_time_t` inverts `gmtime` or `localtime`: a direct guess, then the ends of a bracket around
the time, then interpolation with bisection for when it fails. What `gmtime` and `localtime` return
is arbitrary here. Signed arithmetic that overflows wraps.

## Main definitions

* `Tm`, `tmcmp`, `timegmNoleapsecond` — broken-down times.
* `opening`, `turn`, `searchLoop`, `searchTimeT` — the search.
* `Inverts` — what the search should do.

## Main results

* `turn_lt` — the bracket shrinks in every turn.
* `returns_searchTimeT` — what is returned, for any conversion and for a monotone one.
* `inverts_iff` — the search does what it should unless its second look reads a null pointer.
-/

namespace MacRuby.Time

/-! ## Broken-down times -/

/-- The fields of a `struct tm` that are used. -/
structure Tm where
  year : ℤ
  mon : ℤ
  mday : ℤ
  hour : ℤ
  min : ℤ
  sec : ℤ
  isdst : ℤ
  deriving DecidableEq, Repr

/-- A signed integer of some bits. -/
def wrap (bits : ℕ) (x : ℤ) : ℤ := x.bmod (2 ^ bits)

/-- An `int`. -/
def int (x : ℤ) : ℤ := wrap 32 x

/-- The library: the bits of `time_t` and of `long`, the conversions, and what stands around the
tables of `timegm_noleapsecond`. -/
structure Clock where
  bits : ℕ
  bits_pos : 0 < bits
  gmtime : ℤ → Option Tm
  localtime : ℤ → Option Tm
  around : ℤ → ℤ

namespace Clock

/-- A `long`, or a `time_t`. -/
def long (ck : Clock) (x : ℤ) : ℤ := wrap ck.bits x

/-- The least `time_t`. -/
def least (ck : Clock) : ℤ := -2 ^ (ck.bits - 1)

/-- The greatest `time_t`. -/
def greatest (ck : Clock) : ℤ := 2 ^ (ck.bits - 1) - 1

/-- The values of `time_t`. -/
def InRange (ck : Clock) (t : ℤ) : Prop := ck.least ≤ t ∧ t ≤ ck.greatest

/-- `utc_p ? gmtime : localtime` -/
def convert (ck : Clock) (utcP : Bool) : ℤ → Option Tm := if utcP then ck.gmtime else ck.localtime

end Clock

/-- `tmcmp(a, b)`. -/
def tmcmp (a b : Tm) : ℤ :=
  if a.year ≠ b.year then if a.year < b.year then -1 else 1
  else if a.mon ≠ b.mon then if a.mon < b.mon then -1 else 1
  else if a.mday ≠ b.mday then if a.mday < b.mday then -1 else 1
  else if a.hour ≠ b.hour then if a.hour < b.hour then -1 else 1
  else if a.min ≠ b.min then if a.min < b.min then -1 else 1
  else if a.sec ≠ b.sec then if a.sec < b.sec then -1 else 1
  else 0

/-- `leap_year_p(y)`. -/
def leapYearP (y : ℤ) : Bool := (y.tmod 4 == 0 && y.tmod 100 != 0) || y.tmod 400 == 0

/-- `DIV(n, d)`. -/
def div (n d : ℤ) : ℤ := if n < 0 then -(-(n + 1)).tdiv d - 1 else n.tdiv d

/-- `common_year_yday_offset` -/
def commonYearYdayOffset : List ℤ := [-1, 30, 58, 89, 119, 150, 180, 211, 242, 272, 303, 333]

/-- `leap_year_yday_offset` -/
def leapYearYdayOffset : List ℤ := [-1, 30, 59, 90, 120, 151, 181, 212, 243, 273, 304, 334]

/-- `timegm_noleapsecond(tm)`. -/
def timegmNoleapsecond (ck : Clock) (tm : Tm) : ℤ :=
  let table := if leapYearP (ck.long (tm.year + 1900)) then leapYearYdayOffset
    else commonYearYdayOffset
  let offset := if tm.mon < 0 then ck.around tm.mon
    else table[tm.mon.toNat]?.getD (ck.around tm.mon)
  let yday := int (tm.mday + offset)
  let days := ck.long (yday + (tm.year - 70) * 365 + div (ck.long (tm.year - 69)) 4 -
    div (ck.long (tm.year - 1)) 100 + div (ck.long (tm.year + 299)) 400)
  ck.long (int (tm.sec + tm.min * 60 + tm.hour * 3600) + days * 86400)

/-! ## The search -/

/-- How the search ends. -/
inductive Result where
  /-- A time is returned after a comparison that found no difference. -/
  | compared (t : ℤ)
  /-- A time is returned that has not been compared. -/
  | outerpolated (t : ℤ)
  /-- An `ArgumentError`. -/
  | raised (message : String)
  /-- A null pointer is read. -/
  | nullTm
  deriving DecidableEq, Repr

/-- `goto error` -/
def conversionError : Result := .raised "gmtime/localtime error"

/-- `goto out_of_range` -/
def outOfRange : Result := .raised "time out of range"

/-- The variables of the loop; `guess` is there if `have_guess` is. -/
structure Search where
  lo : ℤ
  hi : ℤ
  tmLo : Tm
  tmHi : Tm
  guess : Option ℤ
  deriving DecidableEq, Repr

/-- One of the tests `a + b <= bound` of the interpolation, and what is done behind it. -/
structure Level where
  bound : ℤ
  range : ℤ
  factor : ℤ
  field : Tm → ℤ

/-- The tests of the interpolation. -/
def levels : List Level :=
  [⟨46000 / 12, 31 * 24 * 60 * 60, 12, Tm.mon⟩, ⟨46000 / 31, 24 * 60 * 60, 31, Tm.mday⟩,
    ⟨46000 / 24, 60 * 60, 24, Tm.hour⟩, ⟨46000 / 60, 60, 60, Tm.min⟩, ⟨46000 / 60, 1, 60, Tm.sec⟩]

/-- `a`, `b` and `range`. -/
def coefficients (tptr tmLo tmHi : Tm) : List Level → (a b range : ℤ) → ℤ × ℤ × ℤ
  | [], a, b, range => (a, b, range)
  | l :: ls, a, b, range =>
      if int (a + b) ≤ l.bound then
        coefficients tptr tmLo tmHi ls (int (a * l.factor + (l.field tmHi - l.field tptr)))
          (int (b * l.factor + (l.field tptr - l.field tmLo))) l.range
      else (a, b, range)

/-- The guess by interpolation, and `range`. -/
def interpolate (ck : Clock) (tptr : Tm) (st : Search) : ℤ × ℤ :=
  let c := coefficients tptr st.tmLo st.tmHi levels (int (st.tmHi.year - tptr.year))
    (int (tptr.year - st.tmLo.year)) (366 * 24 * 60 * 60)
  let a := if c.1 ≤ 0 then 1 else c.1
  let b := if c.2.1 ≤ 0 then 1 else c.2.1
  let d := int (a + b)
  (ck.long (st.lo.tdiv d * a + (ck.long (st.lo.tmod d * a)).tdiv d + st.hi.tdiv d * b +
    (ck.long (st.hi.tmod d * b)).tdiv d), c.2.2)

/-- The time that a turn tries, and `range`. -/
def tried (ck : Clock) (tptr : Tm) (st : Search) : ℤ × ℤ :=
  let g := match st.guess with
    | some guess => (guess, 0)
    | none => interpolate ck tptr st
  if g.1 ≤ st.lo ∨ st.hi ≤ g.1 then
    let half := st.lo.tdiv 2 + st.hi.tdiv 2
    (if half ≤ st.lo then st.lo + 1 else if half ≥ st.hi then st.hi - 1 else half, 0)
  else g

/-- A guess for the next turn, if it is in the bracket. -/
def remembered (lo hi guess range : ℤ) : Option ℤ :=
  if range ≠ 0 ∧ lo < guess ∧ guess < hi then some guess else none

/-- The local time two hours away is not two hours away. -/
def moved (tptr tm : Tm) : Bool :=
  (if 0 < tptr.isdst then tptr.hour != (int (tm.hour + 2)).tmod 24
    else (int (tptr.hour + 2)).tmod 24 != tm.hour) || tptr.min != tm.min || tptr.sec != tm.sec

/-- `guess2`, corrected by the distance of its local time. -/
def corrected (ck : Clock) (tptr tm : Tm) (guess2 : ℤ) : ℤ :=
  let guess2 := ck.long (guess2 - int ((tm.hour - tptr.hour) * 60 * 60 +
    (tm.min - tptr.min) * 60 + (tm.sec - tptr.sec)))
  if tptr.mday ≠ tm.mday then
    if 0 < tptr.isdst then ck.long (guess2 + 24 * 60 * 60) else ck.long (guess2 - 24 * 60 * 60)
  else guess2

/-- `guess2`, if there is another time to look at. -/
def secondTime (ck : Clock) (tptr : Tm) (guess : ℤ) : Option ℤ :=
  let guess2 := ck.long (if 0 < tptr.isdst then guess - 2 * 60 * 60 else guess + 2 * 60 * 60)
  match ck.localtime guess2 with
  | none => none
  | some tm =>
      if moved tptr tm ∧ guess ≠ corrected ck tptr tm guess2 then some (corrected ck tptr tm guess2)
      else none

/-- The search for another time that is the same local time. -/
def secondLook (ck : Clock) (tptr : Tm) (guess : ℤ) : Result :=
  match secondTime ck tptr guess with
  | none => .compared guess
  | some guess2 =>
      match ck.localtime guess2 with
      -- `tmcmp` is called without a test
      | none => .nullTm
      | some tm =>
          if tmcmp tptr tm = 0 then
            if 0 < tptr.isdst then .compared (if guess < guess2 then guess else guess2)
            else .compared (if guess < guess2 then guess2 else guess)
          else .compared guess

/-- A turn of the loop. -/
def turn (ck : Clock) (tptr : Tm) (utcP : Bool) (st : Search) : Search ⊕ Result :=
  let guess := (tried ck tptr st).1
  let range := (tried ck tptr st).2
  match ck.convert utcP guess with
  | none => .inr conversionError
  | some tm =>
      if tmcmp tptr tm < 0 then
        .inl ⟨st.lo, guess, st.tmLo, tm, remembered st.lo guess (ck.long (guess - range)) range⟩
      else if tmcmp tptr tm > 0 then
        .inl ⟨guess, st.hi, tm, st.tmHi, remembered guess st.hi (ck.long (guess + range)) range⟩
      else if utcP then .inr (.compared guess)
      else .inr (secondLook ck tptr guess)

/-- A time of the same month, from its distance to another one. -/
def outerpolate (ck : Clock) (tptr tm : Tm) (t : ℤ) : ℤ :=
  ck.long (t + int ((tptr.mday - tm.mday) * 24 * 60 * 60) + int ((tptr.hour - tm.hour) * 60 * 60) +
    int ((tptr.min - tm.min) * 60) + int (tptr.sec - tm.sec))

/-- What is returned when the bracket is closed. -/
def closed (ck : Clock) (tptr : Tm) (st : Search) : Result :=
  if st.tmLo.year = tptr.year ∧ st.tmLo.mon = tptr.mon then
    .outerpolated (outerpolate ck tptr st.tmLo st.lo)
  else if st.tmHi.year = tptr.year ∧ st.tmHi.mon = tptr.mon then
    .outerpolated (outerpolate ck tptr st.tmHi st.hi)
  else outOfRange

/-- The time of a turn is in the bracket. -/
theorem tried_bounds (ck : Clock) (tptr : Tm) {st : Search} (h : st.lo + 1 < st.hi) :
    st.lo < (tried ck tptr st).1 ∧ (tried ck tptr st).1 < st.hi := by
  rw [tried]
  generalize (match st.guess with
    | some guess => (guess, 0)
    | none => interpolate ck tptr st) = g
  dsimp only
  split_ifs <;> omega

/-- What a turn can do: the bracket goes down to the time that was tried, or up to it, or the search
ends. -/
theorem turn_cases (ck : Clock) (tptr : Tm) (utcP : Bool) (st : Search) :
    (ck.convert utcP (tried ck tptr st).1 = none ∧
      turn ck tptr utcP st = .inr conversionError) ∨
    ∃ tm, ck.convert utcP (tried ck tptr st).1 = some tm ∧
      ((tmcmp tptr tm < 0 ∧ ∃ guess, turn ck tptr utcP st =
          .inl ⟨st.lo, (tried ck tptr st).1, st.tmLo, tm, guess⟩) ∨
        (0 < tmcmp tptr tm ∧ ∃ guess, turn ck tptr utcP st =
          .inl ⟨(tried ck tptr st).1, st.hi, tm, st.tmHi, guess⟩) ∨
        (tmcmp tptr tm = 0 ∧ turn ck tptr utcP st =
          .inr (if utcP then .compared (tried ck tptr st).1
            else secondLook ck tptr (tried ck tptr st).1))) := by
  rw [turn]
  cases ck.convert utcP (tried ck tptr st).1 with
  | none => exact .inl ⟨rfl, rfl⟩
  | some tm =>
      refine .inr ⟨tm, rfl, ?_⟩
      dsimp only
      split_ifs with hlt hgt hutc
      · exact .inl ⟨hlt, _, rfl⟩
      · exact .inr (.inl ⟨hgt, _, rfl⟩)
      · exact .inr (.inr ⟨by omega, rfl⟩)
      · exact .inr (.inr ⟨by omega, rfl⟩)

/-- **The bracket shrinks in every turn.** -/
theorem turn_lt {ck : Clock} {tptr : Tm} {utcP : Bool} {st st' : Search} (h : st.lo + 1 < st.hi)
    (hturn : turn ck tptr utcP st = .inl st') :
    (st'.hi - st'.lo).toNat < (st.hi - st.lo).toNat := by
  have hb := tried_bounds ck tptr h
  rcases turn_cases ck tptr utcP st with ⟨-, heq⟩ | ⟨tm, -, ⟨-, _, heq⟩ | ⟨-, _, heq⟩ | ⟨-, heq⟩⟩
  all_goals
    rw [heq] at hturn
    cases hturn
  all_goals
    dsimp only
    omega

/-- The loop. -/
def searchLoop (ck : Clock) (tptr : Tm) (utcP : Bool) (st : Search) : Result :=
  if _h : st.lo + 1 < st.hi then
    match _hturn : turn ck tptr utcP st with
    | .inl st' => searchLoop ck tptr utcP st'
    | .inr r => r
  else closed ck tptr st
termination_by (st.hi - st.lo).toNat
decreasing_by exact turn_lt _h _hturn

/-- The guess a day away, if it is in the bracket: a time, or the bracket. -/
def dayAway (ck : Clock) (tptr : Tm) (utcP : Bool) (lo hi guess : ℤ) : ℤ ⊕ ℤ × ℤ :=
  if lo < guess ∧ guess < hi then
    match ck.convert utcP guess with
    | none => .inr (lo, hi)
    | some tm =>
        if tmcmp tptr tm = 0 then .inl guess
        else if tmcmp tptr tm < 0 then .inr (lo, guess)
        else .inr (guess, hi)
  else .inr (lo, hi)

/-- The direct guess: a time, or the bracket. -/
def direct (ck : Clock) (tptr : Tm) (utcP : Bool) : ℤ ⊕ ℤ × ℤ :=
  let guess := timegmNoleapsecond ck tptr
  match ck.convert utcP guess with
  | none => .inr (ck.least, ck.greatest)
  | some tm =>
      if tmcmp tptr tm = 0 then .inl guess
      else if tmcmp tptr tm < 0 then
        dayAway ck tptr utcP ck.least guess (ck.long (guess - 24 * 60 * 60))
      else dayAway ck tptr utcP guess ck.greatest (ck.long (guess + 24 * 60 * 60))

/-- What stands before the loop. -/
def opening (ck : Clock) (tptr : Tm) (utcP : Bool) : Search ⊕ Result :=
  match direct ck tptr utcP with
  | .inl guess => .inr (.compared guess)
  | .inr (lo, hi) =>
      match ck.convert utcP lo with
      | none => .inr conversionError
      | some tmLo =>
          if tmcmp tptr tmLo < 0 then .inr outOfRange
          else if tmcmp tptr tmLo = 0 then .inr (.compared lo)
          else
            match ck.convert utcP hi with
            | none => .inr conversionError
            | some tmHi =>
                if tmcmp tptr tmHi > 0 then .inr outOfRange
                else if tmcmp tptr tmHi = 0 then .inr (.compared hi)
                else .inl ⟨lo, hi, tmLo, tmHi, none⟩

/-- `search_time_t(tptr, utc_p)`. -/
def searchTimeT (ck : Clock) (tptr : Tm) (utcP : Bool) : Result :=
  match opening ck tptr utcP with
  | .inl st => searchLoop ck tptr utcP st
  | .inr r => r

/-! ## What the search should do -/

/-- The time is converted to the target. -/
def MapsTo (ck : Clock) (utcP : Bool) (t : ℤ) (tptr : Tm) : Prop :=
  ∃ tm, ck.convert utcP t = some tm ∧ tmcmp tptr tm = 0

/-- The conversion is defined and strictly monotone on all of `time_t`. -/
structure Monotone (ck : Clock) (utcP : Bool) : Prop where
  defined : ∀ t, ck.InRange t → (ck.convert utcP t).isSome
  lt : ∀ s t tm tm', ck.InRange s → ck.InRange t → s < t → ck.convert utcP s = some tm →
    ck.convert utcP t = some tm' → tmcmp tm tm' < 0

/-- What the search should do: end, return only times that are converted to the target, and find the
time if the conversion is monotone. -/
structure Inverts (ck : Clock) (tptr : Tm) (utcP : Bool) : Prop where
  ends : searchTimeT ck tptr utcP ≠ .nullTm
  sound : ∀ t, searchTimeT ck tptr utcP = .compared t → MapsTo ck utcP t tptr
  complete : Monotone ck utcP → ∀ t, ck.InRange t → MapsTo ck utcP t tptr →
    searchTimeT ck tptr utcP = .compared t

/-- A turn leads from a state of the loop to another one. -/
def Turns (ck : Clock) (tptr : Tm) (utcP : Bool) (st st' : Search) : Prop :=
  st.lo + 1 < st.hi ∧ turn ck tptr utcP st = .inl st'

/-- The states of the loop in a search. -/
def Reached (ck : Clock) (tptr : Tm) (utcP : Bool) (st : Search) : Prop :=
  ∃ st₀, opening ck tptr utcP = .inl st₀ ∧ Relation.ReflTransGen (Turns ck tptr utcP) st₀ st

/-- The turn tries a time that is converted to the target, and the time that the second look
computes from it has no local time. -/
def Stuck (ck : Clock) (tptr : Tm) (utcP : Bool) (st : Search) : Prop :=
  utcP = false ∧ st.lo + 1 < st.hi ∧ MapsTo ck utcP (tried ck tptr st).1 tptr ∧
    ∃ guess2, secondTime ck tptr (tried ck tptr st).1 = some guess2 ∧ ck.localtime guess2 = none

/-! ## Comparisons -/

/-- One field finds no difference, and the next ones do not either. -/
theorem cmp_eq_zero {x y r : ℤ} (h : (if x ≠ y then if x < y then -1 else 1 else r) = 0) :
    x = y ∧ r = 0 := by
  split_ifs at h <;> omega

theorem cmp_swap {x y r r' : ℤ} (h : r' = -r) :
    (if y ≠ x then if y < x then -1 else 1 else r') =
      -(if x ≠ y then if x < y then -1 else 1 else r) := by
  split_ifs <;> omega

theorem tmcmp_eq_zero {a b : Tm} (h : tmcmp a b = 0) (c : Tm) : tmcmp a c = tmcmp b c := by
  obtain ⟨hyear, h⟩ := cmp_eq_zero h
  obtain ⟨hmon, h⟩ := cmp_eq_zero h
  obtain ⟨hmday, h⟩ := cmp_eq_zero h
  obtain ⟨hhour, h⟩ := cmp_eq_zero h
  obtain ⟨hmin, h⟩ := cmp_eq_zero h
  obtain ⟨hsec, -⟩ := cmp_eq_zero h
  simp only [tmcmp, hyear, hmon, hmday, hhour, hmin, hsec]

theorem tmcmp_swap (a b : Tm) : tmcmp b a = -tmcmp a b :=
  cmp_swap (cmp_swap (cmp_swap (cmp_swap (cmp_swap (cmp_swap rfl)))))

theorem tmcmp_self (a : Tm) : tmcmp a a = 0 := by simp [tmcmp]

/-- If two times are converted to the target, a monotone conversion makes them equal. -/
theorem Monotone.unique {ck : Clock} {tptr : Tm} {utcP : Bool} (hmono : Monotone ck utcP) {s t : ℤ}
    (hs : ck.InRange s) (ht : ck.InRange t) (hs' : MapsTo ck utcP s tptr)
    (ht' : MapsTo ck utcP t tptr) : s = t := by
  obtain ⟨tm, hconv, hcmp⟩ := hs'
  obtain ⟨tm', hconv', hcmp'⟩ := ht'
  have hsame : tmcmp tm tm' = 0 := by rw [← tmcmp_eq_zero hcmp, hcmp']
  have hsame' : tmcmp tm' tm = 0 := by rw [← tmcmp_eq_zero hcmp', hcmp]
  rcases Int.lt_trichotomy s t with hlt | heq | hgt
  · have := hmono.lt s t tm tm' hs ht hlt hconv hconv'
    omega
  · exact heq
  · have := hmono.lt t s tm' tm ht hs hgt hconv' hconv
    omega

/-- A time that is converted to less than the target is before it. -/
theorem Monotone.lt_of_pos {ck : Clock} {tptr : Tm} {utcP : Bool} (hmono : Monotone ck utcP)
    {s t : ℤ} {tm : Tm} (hs : ck.InRange s) (ht : ck.InRange t)
    (hconv : ck.convert utcP s = some tm)
    (hcmp : 0 < tmcmp tptr tm) (ht' : MapsTo ck utcP t tptr) : s < t := by
  obtain ⟨tm', hconv', hcmp'⟩ := ht'
  rw [tmcmp_eq_zero hcmp'] at hcmp
  by_contra hge
  rcases Int.lt_or_eq_of_le (Int.not_lt.mp hge) with hlt | rfl
  · have := hmono.lt t s tm' tm ht hs hlt hconv' hconv
    omega
  · rw [hconv] at hconv'
    cases hconv'
    rw [tmcmp_self] at hcmp
    omega

/-- A time that is converted to more than the target is after it. -/
theorem Monotone.gt_of_neg {ck : Clock} {tptr : Tm} {utcP : Bool} (hmono : Monotone ck utcP)
    {s t : ℤ} {tm : Tm} (hs : ck.InRange s) (ht : ck.InRange t)
    (hconv : ck.convert utcP s = some tm)
    (hcmp : tmcmp tptr tm < 0) (ht' : MapsTo ck utcP t tptr) : t < s := by
  obtain ⟨tm', hconv', hcmp'⟩ := ht'
  have htm : tmcmp tm' tm < 0 := by rwa [← tmcmp_eq_zero hcmp']
  by_contra hge
  rcases Int.lt_or_eq_of_le (Int.not_lt.mp hge) with hlt | rfl
  · have := hmono.lt s t tm tm' hs ht hlt hconv hconv'
    have := tmcmp_swap tm tm'
    omega
  · rw [hconv] at hconv'
    cases hconv'
    rw [tmcmp_self] at htm
    omega

/-! ## The bracket -/

/-- The bracket is in the range, and the target is strictly inside. -/
structure Bracket (ck : Clock) (tptr : Tm) (utcP : Bool) (st : Search) : Prop where
  lo : ck.InRange st.lo
  hi : ck.InRange st.hi
  tmLo : ck.convert utcP st.lo = some st.tmLo
  tmHi : ck.convert utcP st.hi = some st.tmHi
  below : 0 < tmcmp tptr st.tmLo
  above : tmcmp tptr st.tmHi < 0

section Search

variable {ck : Clock} {tptr : Tm} {utcP : Bool} {st st' : Search}

theorem Clock.pow_bits (ck : Clock) : (2 : ℤ) ^ ck.bits = 2 * 2 ^ (ck.bits - 1) := by
  obtain ⟨n, hn⟩ : ∃ n, ck.bits = n + 1 := ⟨ck.bits - 1, by have := ck.bits_pos; omega⟩
  rw [hn, Nat.add_sub_cancel, pow_succ, mul_comm]

theorem Clock.inRange_long (ck : Clock) (x : ℤ) : ck.InRange (ck.long x) := by
  have hpow := ck.pow_bits
  have hcast : ((2 ^ ck.bits : ℕ) : ℤ) = 2 * 2 ^ (ck.bits - 1) := by
    rw [← hpow]
    norm_cast
  have hle := Int.le_bmod (x := x) (m := 2 ^ ck.bits) (by positivity)
  have hlt := Int.bmod_lt (x := x) (m := 2 ^ ck.bits) (by positivity)
  rw [hcast] at hle hlt
  rw [InRange, least, greatest, long, wrap]
  omega

/-- A number that is a multiple of 2^bits off a time that fits wraps to that time. -/
theorem Clock.long_add_mul {ck : Clock} {t : ℤ} (h : ck.InRange t) (k : ℤ) :
    ck.long (t + 2 ^ ck.bits * k) = t := by
  obtain ⟨hleast, hgreatest⟩ := h
  have hpow := ck.pow_bits
  have hcast : (2 ^ ck.bits : ℤ) = ((2 ^ ck.bits : ℕ) : ℤ) := by push_cast; rfl
  rw [Clock.least] at hleast
  rw [Clock.greatest] at hgreatest
  rw [Clock.long, wrap, hcast, Int.add_mul_bmod_self_left]
  exact Int.bmod_eq_of_le (by push_cast; omega) (by push_cast; omega)

/-- A time that fits is not changed. -/
theorem Clock.long_eq {ck : Clock} {t : ℤ} (h : ck.InRange t) : ck.long t = t := by
  have hmul := Clock.long_add_mul h 0
  rwa [mul_zero, add_zero] at hmul

theorem Clock.inRange_least (ck : Clock) : ck.InRange ck.least := by
  have : (0 : ℤ) < 2 ^ (ck.bits - 1) := by positivity
  rw [InRange, least, greatest]
  omega

theorem Clock.inRange_greatest (ck : Clock) : ck.InRange ck.greatest := by
  have : (0 : ℤ) < 2 ^ (ck.bits - 1) := by positivity
  rw [InRange, least, greatest]
  omega

/-- The time of a turn is in the range. -/
theorem Bracket.inRange_tried (hb : Bracket ck tptr utcP st) (h : st.lo + 1 < st.hi) :
    ck.InRange (tried ck tptr st).1 := by
  have hbounds := tried_bounds ck tptr h
  have hlo := hb.lo.1
  have hhi := hb.hi.2
  exact ⟨by omega, by omega⟩

/-- **A turn keeps the bracket.** -/
theorem Bracket.turns (hb : Bracket ck tptr utcP st) (h : Turns ck tptr utcP st st') :
    Bracket ck tptr utcP st' := by
  obtain ⟨hlt, hturn⟩ := h
  have hrange := hb.inRange_tried hlt
  rcases turn_cases ck tptr utcP st with
    ⟨-, heq⟩ | ⟨tm, hconv, ⟨hcmp, _, heq⟩ | ⟨hcmp, _, heq⟩ | ⟨-, heq⟩⟩
  all_goals
    rw [heq] at hturn
    cases hturn
  · exact ⟨hb.lo, hrange, hb.tmLo, hconv, hb.below, hcmp⟩
  · exact ⟨hrange, hb.hi, hconv, hb.tmHi, hcmp, hb.above⟩

/-- **Induction along the loop.** -/
theorem searchLoop_induction (P : Search → Prop) (Q : Result → Prop)
    (hstep : ∀ st st', P st → Turns ck tptr utcP st st' → P st')
    (hexit : ∀ st r, P st → st.lo + 1 < st.hi → turn ck tptr utcP st = .inr r → Q r)
    (hclosed : ∀ st, P st → ¬ st.lo + 1 < st.hi → Q (closed ck tptr st)) (st : Search) (h : P st) :
    Q (searchLoop ck tptr utcP st) := by
  fun_induction searchLoop ck tptr utcP st with
  | case1 st hlt st' hturn ih => exact ih (hstep st st' h ⟨hlt, hturn⟩)
  | case2 st hlt r hturn => exact hexit st r h hlt hturn
  | case3 st hlt => exact hclosed st h hlt

theorem searchLoop_turns (h : Turns ck tptr utcP st st') :
    searchLoop ck tptr utcP st = searchLoop ck tptr utcP st' := by
  obtain ⟨hlt, hturn⟩ := h
  rw [searchLoop, dif_pos hlt]
  split
  case h_1 st'' heq =>
    rw [hturn] at heq
    cases heq
    rfl
  case h_2 heq =>
    rw [hturn] at heq
    cases heq

theorem searchLoop_exit {r : Result} (hlt : st.lo + 1 < st.hi)
    (hturn : turn ck tptr utcP st = .inr r) : searchLoop ck tptr utcP st = r := by
  rw [searchLoop, dif_pos hlt]
  split
  case h_1 heq =>
    rw [hturn] at heq
    cases heq
  case h_2 heq =>
    rw [hturn] at heq
    cases heq
    rfl

/-! ## What is returned -/

theorem inRange_corrected (tm : Tm) (guess2 : ℤ) : ck.InRange (corrected ck tptr tm guess2) := by
  rw [corrected]
  split_ifs <;> exact ck.inRange_long _

/-- The second look is at another time of the range. -/
theorem secondTime_spec {guess guess2 : ℤ} (h : secondTime ck tptr guess = some guess2) :
    guess ≠ guess2 ∧ ck.InRange guess2 := by
  rw [secondTime] at h
  generalize ck.long _ = g at h
  cases hconv : ck.localtime g with
  | none =>
      rw [hconv] at h
      cases h
  | some tm =>
      rw [hconv] at h
      dsimp only at h
      split_ifs at h with hother
      cases h
      exact ⟨hother.2, inRange_corrected tm g⟩

/-- The second look returns a time that is converted to the target. -/
theorem secondLook_sound {guess t : ℤ} (hguess : MapsTo ck false guess tptr)
    (h : secondLook ck tptr guess = .compared t) : MapsTo ck false t tptr := by
  rw [secondLook] at h
  cases hsecond : secondTime ck tptr guess with
  | none =>
      rw [hsecond] at h
      cases h
      exact hguess
  | some guess2 =>
      rw [hsecond] at h
      dsimp only at h
      cases hconv : ck.localtime guess2 with
      | none =>
          rw [hconv] at h
          cases h
      | some tm =>
          rw [hconv] at h
          dsimp only at h
          split_ifs at h with hzero
          all_goals cases h
          all_goals first | exact hguess | exact ⟨tm, hconv, hzero⟩

/-- The second look finds nothing else if the conversion is monotone. -/
theorem secondLook_monotone (hmono : Monotone ck false) {guess : ℤ} (hrange : ck.InRange guess)
    (hguess : MapsTo ck false guess tptr) : secondLook ck tptr guess = .compared guess := by
  rw [secondLook]
  cases hsecond : secondTime ck tptr guess with
  | none => rfl
  | some guess2 =>
      have hother := secondTime_spec hsecond
      dsimp only
      cases hconv : ck.localtime guess2 with
      | none =>
          have := hmono.defined guess2 hother.2
          rw [Clock.convert, if_neg (by simp), hconv] at this
          cases this
      | some tm =>
          dsimp only
          rw [if_neg]
          intro hzero
          exact hother.1 (hmono.unique hrange hother.2 hguess ⟨tm, hconv, hzero⟩)

/-- A lower end of the bracket. -/
def LowerEnd (ck : Clock) (tptr : Tm) (utcP : Bool) (lo : ℤ) : Prop :=
  ck.InRange lo ∧ (lo = ck.least ∨ ∃ tm, ck.convert utcP lo = some tm ∧ 0 < tmcmp tptr tm)

/-- An upper end of the bracket. -/
def UpperEnd (ck : Clock) (tptr : Tm) (utcP : Bool) (hi : ℤ) : Prop :=
  ck.InRange hi ∧ (hi = ck.greatest ∨ ∃ tm, ck.convert utcP hi = some tm ∧ tmcmp tptr tm < 0)

/-- A time that is converted to the target, or the ends of the bracket. -/
def Directed (ck : Clock) (tptr : Tm) (utcP : Bool) : ℤ ⊕ ℤ × ℤ → Prop
  | .inl t => ck.InRange t ∧ MapsTo ck utcP t tptr
  | .inr (lo, hi) => LowerEnd ck tptr utcP lo ∧ UpperEnd ck tptr utcP hi

theorem directed_dayAway {lo hi guess : ℤ} (hlo : LowerEnd ck tptr utcP lo)
    (hhi : UpperEnd ck tptr utcP hi) (hguess : ck.InRange guess) :
    Directed ck tptr utcP (dayAway ck tptr utcP lo hi guess) := by
  rw [dayAway]
  split
  case isFalse => exact ⟨hlo, hhi⟩
  case isTrue =>
    cases hconv : ck.convert utcP guess with
    | none => exact ⟨hlo, hhi⟩
    | some tm =>
        dsimp only
        split_ifs with hzero hneg
        · exact ⟨hguess, tm, hconv, hzero⟩
        · exact ⟨hlo, hguess, .inr ⟨tm, hconv, hneg⟩⟩
        · exact ⟨⟨hguess, .inr ⟨tm, hconv, by omega⟩⟩, hhi⟩

/-- **The direct guess is right or narrows the bracket.** -/
theorem directed_direct (ck : Clock) (tptr : Tm) (utcP : Bool) :
    Directed ck tptr utcP (direct ck tptr utcP) := by
  have hlo : LowerEnd ck tptr utcP ck.least := ⟨ck.inRange_least, .inl rfl⟩
  have hhi : UpperEnd ck tptr utcP ck.greatest := ⟨ck.inRange_greatest, .inl rfl⟩
  have hguess : ck.InRange (timegmNoleapsecond ck tptr) := ck.inRange_long _
  rw [direct]
  cases hconv : ck.convert utcP (timegmNoleapsecond ck tptr) with
  | none => exact ⟨hlo, hhi⟩
  | some tm =>
      dsimp only
      split_ifs with hzero hneg
      · exact ⟨hguess, tm, hconv, hzero⟩
      · exact directed_dayAway hlo ⟨hguess, .inr ⟨tm, hconv, hneg⟩⟩ (ck.inRange_long _)
      · exact directed_dayAway ⟨hguess, .inr ⟨tm, hconv, by omega⟩⟩ hhi (ck.inRange_long _)

theorem LowerEnd.le (hmono : Monotone ck utcP) {lo t : ℤ} (hlo : LowerEnd ck tptr utcP lo)
    (ht : ck.InRange t) (hmaps : MapsTo ck utcP t tptr) : lo ≤ t := by
  obtain ⟨hrange, rfl | ⟨tm, hconv, hcmp⟩⟩ := hlo
  · exact ht.1
  · exact Int.le_of_lt (hmono.lt_of_pos hrange ht hconv hcmp hmaps)

theorem UpperEnd.ge (hmono : Monotone ck utcP) {hi t : ℤ} (hhi : UpperEnd ck tptr utcP hi)
    (ht : ck.InRange t) (hmaps : MapsTo ck utcP t tptr) : t ≤ hi := by
  obtain ⟨hrange, rfl | ⟨tm, hconv, hcmp⟩⟩ := hhi
  · exact ht.2
  · exact Int.le_of_lt (hmono.gt_of_neg hrange ht hconv hcmp hmaps)

/-- What a search should return. -/
structure Returns (ck : Clock) (tptr : Tm) (utcP : Bool) (r : Result) : Prop where
  sound : ∀ t, r = .compared t → MapsTo ck utcP t tptr
  complete : Monotone ck utcP → ∀ t, ck.InRange t → MapsTo ck utcP t tptr → r = .compared t

/-- A time that is converted to the target may be returned. -/
theorem Returns.compared {t : ℤ} (hrange : ck.InRange t) (hmaps : MapsTo ck utcP t tptr) :
    Returns ck tptr utcP (.compared t) := by
  refine ⟨fun s hs => ?_, fun hmono s hs hmaps' => ?_⟩
  · cases hs
    exact hmaps
  · rw [hmono.unique hrange hs hmaps hmaps']

/-- The search may end without a time if the conversion is not monotone or has no such time. -/
theorem Returns.of_not {r : Result} (hr : ∀ t, r ≠ .compared t)
    (h : Monotone ck utcP → ∀ t, ck.InRange t → ¬ MapsTo ck utcP t tptr) :
    Returns ck tptr utcP r :=
  ⟨fun t ht => absurd ht (hr t), fun hmono t ht hmaps => absurd hmaps (h hmono t ht)⟩

/-- An undefined conversion is not monotone. -/
theorem returns_conversionError {t : ℤ} (hrange : ck.InRange t) (hconv : ck.convert utcP t = none) :
    Returns ck tptr utcP conversionError := by
  refine .of_not (fun s hs => by cases hs) fun hmono => ?_
  have hdef := hmono.defined t hrange
  rw [hconv] at hdef
  cases hdef

/-- **Before the loop the search ends as it should or the bracket is opened.** -/
theorem opening_spec (ck : Clock) (tptr : Tm) (utcP : Bool) :
    match opening ck tptr utcP with
    | .inl st => Bracket ck tptr utcP st
    | .inr r => Returns ck tptr utcP r ∧ r ≠ .nullTm := by
  have hdirected := directed_direct ck tptr utcP
  rw [opening]
  generalize direct ck tptr utcP = r at hdirected
  rcases r with guess | ⟨lo, hi⟩
  · exact ⟨.compared hdirected.1 hdirected.2, by simp⟩
  obtain ⟨hlo, hhi⟩ := hdirected
  dsimp only
  cases hconv : ck.convert utcP lo with
  | none => exact ⟨returns_conversionError hlo.1 hconv, by simp [conversionError]⟩
  | some tmLo =>
      dsimp only
      split_ifs with hneg hzero
      · refine ⟨.of_not (fun s hs => by cases hs) fun hmono t ht hmaps => ?_, by simp [outOfRange]⟩
        have := hlo.le hmono ht hmaps
        have := hmono.gt_of_neg hlo.1 ht hconv hneg hmaps
        omega
      · exact ⟨.compared hlo.1 ⟨tmLo, hconv, hzero⟩, by simp⟩
      · cases hconv' : ck.convert utcP hi with
        | none => exact ⟨returns_conversionError hhi.1 hconv', by simp [conversionError]⟩
        | some tmHi =>
            dsimp only
            split_ifs with hpos hzero'
            · refine ⟨.of_not (fun s hs => by cases hs) fun hmono t ht hmaps => ?_,
                by simp [outOfRange]⟩
              have := hhi.ge hmono ht hmaps
              have := hmono.lt_of_pos hhi.1 ht hconv' hpos hmaps
              omega
            · exact ⟨.compared hhi.1 ⟨tmHi, hconv', hzero'⟩, by simp⟩
            · have hbelow : 0 < tmcmp tptr tmLo := by omega
              have habove : tmcmp tptr tmHi < 0 := by omega
              exact ⟨hlo.1, hhi.1, hconv, hconv', hbelow, habove⟩

/-- A closed bracket has no room for the target. -/
theorem Bracket.returns_closed (hb : Bracket ck tptr utcP st) (h : ¬ st.lo + 1 < st.hi) :
    Returns ck tptr utcP (closed ck tptr st) := by
  refine .of_not (fun t ht => ?_) fun hmono t ht hmaps => ?_
  · rw [closed] at ht
    split_ifs at ht
    all_goals cases ht
  · have := hmono.lt_of_pos hb.lo ht hb.tmLo hb.below hmaps
    have := hmono.gt_of_neg hb.hi ht hb.tmHi hb.above hmaps
    omega

/-- **A turn that ends the search ends it as it should.** -/
theorem Bracket.returns_exit (hb : Bracket ck tptr utcP st) (h : st.lo + 1 < st.hi) {r : Result}
    (hturn : turn ck tptr utcP st = .inr r) : Returns ck tptr utcP r := by
  have hrange := hb.inRange_tried h
  rcases turn_cases ck tptr utcP st with
    ⟨hconv, heq⟩ | ⟨tm, hconv, ⟨-, _, heq⟩ | ⟨-, _, heq⟩ | ⟨hzero, heq⟩⟩
  all_goals
    rw [heq] at hturn
    cases hturn
  · exact returns_conversionError hrange hconv
  · have hmaps : MapsTo ck utcP (tried ck tptr st).1 tptr := ⟨tm, hconv, hzero⟩
    cases utcP with
    | true => exact .compared hrange hmaps
    | false =>
        refine ⟨fun t ht => secondLook_sound hmaps ht, fun hmono t ht hmaps' => ?_⟩
        rw [hmono.unique ht hrange hmaps' hmaps]
        exact secondLook_monotone hmono hrange hmaps

/-- **The loop returns what it should.** -/
theorem Bracket.returns (hb : Bracket ck tptr utcP st) :
    Returns ck tptr utcP (searchLoop ck tptr utcP st) :=
  searchLoop_induction (Bracket ck tptr utcP) (Returns ck tptr utcP) (fun _ _ => Bracket.turns)
    (fun _ _ hb h => hb.returns_exit h) (fun _ => Bracket.returns_closed) st hb

/-- **Whatever the conversion is, the search returns only times that are converted to the target,
and it finds the time if the conversion is monotone.** -/
theorem returns_searchTimeT (ck : Clock) (tptr : Tm) (utcP : Bool) :
    Returns ck tptr utcP (searchTimeT ck tptr utcP) := by
  have hspec := opening_spec ck tptr utcP
  rw [searchTimeT]
  generalize opening ck tptr utcP = r at hspec
  cases r with
  | inl st => exact hspec.returns
  | inr r => exact hspec.1

/-! ## The null pointer -/

/-- The second look reads a null pointer if the other time has no local time. -/
theorem secondLook_eq_nullTm {guess : ℤ} :
    secondLook ck tptr guess = .nullTm ↔
      ∃ guess2, secondTime ck tptr guess = some guess2 ∧ ck.localtime guess2 = none := by
  rw [secondLook]
  cases secondTime ck tptr guess with
  | none => simp
  | some guess2 =>
      cases hconv : ck.localtime guess2 with
      | none => simp [hconv]
      | some tm =>
          by_cases hzero : tmcmp tptr tm = 0
          · by_cases hdst : 0 < tptr.isdst <;> simp [hconv, hzero, hdst]
          · simp [hconv, hzero]

/-- A turn reads a null pointer if it is stuck. -/
theorem turn_eq_nullTm (h : st.lo + 1 < st.hi) :
    turn ck tptr utcP st = .inr .nullTm ↔ Stuck ck tptr utcP st := by
  rw [Stuck, ← secondLook_eq_nullTm]
  rcases turn_cases ck tptr utcP st with
    ⟨hconv, heq⟩ | ⟨tm, hconv, ⟨hcmp, _, heq⟩ | ⟨hcmp, _, heq⟩ | ⟨hzero, heq⟩⟩
  · simp [heq, MapsTo, hconv, conversionError]
  · simp [heq, MapsTo, hconv, Int.ne_of_lt hcmp]
  · simp [heq, MapsTo, hconv, (Int.ne_of_lt hcmp).symm]
  · cases utcP <;> simp [heq, MapsTo, hconv, hzero, h]

/-- A search is stuck where the loop is. -/
theorem searchLoop_reached (h : Relation.ReflTransGen (Turns ck tptr utcP) st st') :
    searchLoop ck tptr utcP st = searchLoop ck tptr utcP st' := by
  induction h with
  | refl => rfl
  | tail _ hturns ih => rw [ih, searchLoop_turns hturns]

/-- **A null pointer is read if and only if a turn of the search is stuck.** -/
theorem searchTimeT_eq_nullTm (ck : Clock) (tptr : Tm) (utcP : Bool) :
    searchTimeT ck tptr utcP = .nullTm ↔
      ∃ st, Reached ck tptr utcP st ∧ Stuck ck tptr utcP st := by
  have hspec := opening_spec ck tptr utcP
  refine ⟨fun hnull => ?_, fun ⟨st, ⟨st₀, hopen, hreach⟩, hstuck⟩ => ?_⟩
  · rw [searchTimeT] at hnull
    cases hopen : opening ck tptr utcP with
    | inr r =>
        rw [hopen] at hnull hspec
        exact absurd hnull hspec.2
    | inl st₀ =>
        rw [hopen] at hnull
        by_contra hno
        refine searchLoop_induction (Relation.ReflTransGen (Turns ck tptr utcP) st₀) (· ≠ .nullTm)
          (fun _ _ hreach hturns => hreach.tail hturns) ?_ ?_ st₀ .refl hnull
        · rintro st r hreach hlt hturn rfl
          exact hno ⟨st, ⟨st₀, hopen, hreach⟩, (turn_eq_nullTm hlt).mp hturn⟩
        · intro st _ _ hclosed
          rw [closed] at hclosed
          split_ifs at hclosed
          all_goals cases hclosed
  · rw [searchTimeT, hopen]
    dsimp only
    rw [searchLoop_reached hreach]
    exact searchLoop_exit hstuck.2.1 ((turn_eq_nullTm hstuck.2.1).mpr hstuck)

end Search

/-- **The search does what it should if and only if no turn of its loop is stuck in the second
look.** -/
theorem inverts_iff (ck : Clock) (tptr : Tm) (utcP : Bool) :
    Inverts ck tptr utcP ↔ ∀ st, Reached ck tptr utcP st → ¬ Stuck ck tptr utcP st := by
  have hreturns := returns_searchTimeT ck tptr utcP
  refine ⟨fun h st hreach hstuck => ?_, fun h => ⟨fun hnull => ?_, hreturns.sound,
    hreturns.complete⟩⟩
  · exact h.ends ((searchTimeT_eq_nullTm ck tptr utcP).mpr ⟨st, hreach, hstuck⟩)
  · obtain ⟨st, hreach, hstuck⟩ := (searchTimeT_eq_nullTm ck tptr utcP).mp hnull
    exact h st hreach hstuck

/-- A clock whose local time has no value an hour after the start of 1970, and has lost an hour two
hours after it. -/
def gapClock : Clock where
  bits := 32
  bits_pos := by decide
  gmtime := fun _ => none
  localtime := fun t =>
    if t < 1073785023 then some ⟨69, 0, 1, 0, 0, 0, 0⟩
    else if t = 1073785023 then some ⟨70, 0, 1, 0, 0, 0, 0⟩
    else if t = 1073785023 + 3600 then none
    else if t = 1073785023 + 7200 then some ⟨70, 0, 1, 1, 0, 0, 0⟩
    else some ⟨71, 0, 1, 0, 0, 0, 0⟩
  around := fun _ => 0

/-- The search on that clock reads a null pointer. -/
theorem not_inverts_gapClock : ¬ Inverts gapClock ⟨70, 0, 1, 0, 0, 0, 0⟩ false := by
  have hopen : opening gapClock ⟨70, 0, 1, 0, 0, 0, 0⟩ false =
      .inl ⟨86400, 2147483647, ⟨69, 0, 1, 0, 0, 0, 0⟩, ⟨71, 0, 1, 0, 0, 0, 0⟩, none⟩ := by
    decide +kernel
  have hturn : turn gapClock ⟨70, 0, 1, 0, 0, 0, 0⟩ false
      ⟨86400, 2147483647, ⟨69, 0, 1, 0, 0, 0, 0⟩, ⟨71, 0, 1, 0, 0, 0, 0⟩, none⟩ = .inr .nullTm := by
    decide +kernel
  intro h
  refine h.ends ?_
  rw [searchTimeT, hopen]
  exact searchLoop_exit (by decide) hturn

end MacRuby.Time
