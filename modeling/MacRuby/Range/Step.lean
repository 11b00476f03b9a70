import MacRuby.Lib.Progression
import MacRuby.Numeric.Long

/-!
# Stepping through Integers

`Numeric#step`, `Range#step` and `Range#each` with Integers.  Each has a loop on `long`s for fixnums
and another one that calls the methods of the numbers, and the loops do not test in the same way:
`num_step` adds before it tests, `range_step` and `range_each` add one to an end that belongs to the
range, and `range_step` looks whether the sum wrapped.

## Main definitions

* `numStep`, `rangeStep`, `rangeEach` — the methods, as the values that they yield.
* `numStepGeneric`, `rangeStepGeneric`, `rangeEachFunc` — their loops on any Integers.

## Main results

* `stepping_exact` — every loop yields the progression, up to the end.
-/

namespace MacRuby

open Progression

/-! ## The code -/

/-- Why a method does not return. -/
inductive StepError
  /-- `ArgumentError`, "step can't be 0" -/
  | zero
  /-- `ArgumentError`, "step can't be negative" -/
  | negative
  /-- The result of an addition is no `long`. -/
  | overflow
  | outOfFuel
  deriving DecidableEq

/-- A range between Integers. -/
structure InumRange (L : LongSize) where
  beg : Inum L
  stop : Inum L
  excl : Bool

section Code

variable (L : LongSize)

/-- The result of an addition of `long`s, whose exact result is `n`. -/
def longSum (n : ℤ) : Except StepError ℤ :=
  match L.signed n with
  | none => .error .overflow
  | some n => .ok n

/-- `while (goesOn(i)) { rb_yield(value(i)); i += diff; }` -/
def longLoop (goesOn : ℤ → Bool) (value : ℤ → Inum L) (diff : ℤ) (i : ℤ) :
    ℕ → Except StepError (List (Inum L))
  | 0 => .error .outOfFuel
  | n + 1 =>
      if goesOn i then do
        let i' ← longSum L (i + diff)
        (value i :: ·) <$> longLoop goesOn value diff i' n
      else .ok []

variable {L}

/-- `for (;;) { if (leaves(i)) break; rb_yield(i); i = next(i); }` -/
def inumLoop (leaves : Inum L → Bool) (next : Inum L → Inum L) (i : Inum L) :
    ℕ → Except StepError (List (Inum L))
  | 0 => .error .outOfFuel
  | n + 1 => if leaves i then .ok [] else (i :: ·) <$> inumLoop leaves next (next i) n

/-- `x > y`: `fix_gt`, or `cmp_gt` of `Comparable`. -/
def intGt : Inum L → Inum L → Bool := intRel (· > ·)

/-- `x < y`: `fix_lt`, or `cmp_lt`. -/
def intLt : Inum L → Inum L → Bool := intRel (· < ·)

/-- `x <= y`: `fix_le`, or `cmp_le`. -/
def intLe : Inum L → Inum L → Bool := intRel (· ≤ ·)

/-- The loops of `num_step` for fixnums. -/
def numStepFix (start limit step : Fixnum L) : ℕ → Except StepError (List (Inum L)) :=
  let stop := limit.val
  let diff := step.val
  let value := fun i => .fixnum (long2fix L i)
  if diff > 0 then longLoop L (fun i => i ≤ stop) value diff start.val
  else longLoop L (fun i => i ≥ stop) value diff start.val

/-- The loop of `num_step` that calls `>` or `<`, and `+`. -/
def numStepGeneric (start limit step : Inum L) : ℕ → Except StepError (List (Inum L)) :=
  inumLoop (if intGt step (.zero L) then (intGt · limit) else (intLt · limit)) (intPlus · step)
    start

/-- The loops of `num_step`. -/
def numStepLoop (start limit step : Inum L) (fuel : ℕ) : Except StepError (List (Inum L)) :=
  match start, limit, step with
  | .fixnum a, .fixnum b, .fixnum d => numStepFix a b d fuel
  | a, b, d => numStepGeneric a b d fuel

/-- `num_step`, with one argument or two. -/
def numStep (start limit : Inum L) (step : Option (Inum L)) (fuel : ℕ) :
    Except StepError (List (Inum L)) :=
  match step with
  | none => numStepLoop start limit (.one L) fuel
  | some step =>
      if intEqual step (.zero L) then .error .zero else numStepLoop start limit step fuel

/-- The loop of `range_step` for fixnums, which is left as well when the sum has wrapped. -/
def rangeStepLoop (stop unit i : ℤ) : ℕ → Except StepError (List (Inum L))
  | 0 => .error .outOfFuel
  | n + 1 =>
      if i < stop then do
        let i' ← longSum L (i + unit)
        if i' < i then return [long2num L i]
        else (long2num L i :: ·) <$> rangeStepLoop stop unit i' n
      else .ok []

/-- `end`, or `end + 1` when it belongs to the range. -/
def rangeLimit (excl : Bool) (stop : Fixnum L) : Except StepError ℤ :=
  if !excl then longSum L (stop.val + 1) else .ok stop.val

/-- The part of `range_step` for fixnums. -/
def rangeStepFix (beg stop : Fixnum L) (excl : Bool) (step : Fixnum L) (fuel : ℕ) :
    Except StepError (List (Inum L)) := do
  let limit ← rangeLimit excl stop
  rangeStepLoop limit step.val beg.val fuel

/-- The loop of `range_step` that calls `<` or `<=`, and `+`. -/
def rangeStepGeneric (range : InumRange L) (step : Inum L) :
    ℕ → Except StepError (List (Inum L)) :=
  inumLoop (fun b => !(if range.excl then intLt b range.stop else intLe b range.stop))
    (intPlus · step) range.beg

/-- The loops of `range_step`. -/
def rangeStepLoops (range : InumRange L) (step : Inum L) (fuel : ℕ) :
    Except StepError (List (Inum L)) :=
  match range.beg, range.stop, step with
  | .fixnum b, .fixnum e, .fixnum d => rangeStepFix b e range.excl d fuel
  | _, _, d => rangeStepGeneric range d fuel

/-- `range_step`, with an argument or without. -/
def rangeStep (range : InumRange L) (step : Option (Inum L)) (fuel : ℕ) :
    Except StepError (List (Inum L)) :=
  match step with
  | none => rangeStepLoops range (.one L) fuel
  | some step =>
      if intLt step (.zero L) then .error .negative
      else if !intGt step (.zero L) then .error .zero
      else rangeStepLoops range step fuel

/-- `Qfalse`. -/
def qfalse : ℤ := 0

/-- `Qtrue`. -/
def qtrue : ℤ := 2

/-- `INT2FIX(0)`, as a word. -/
def int2fixZero : ℤ := 1

/-- `r_lt(a, b)`. -/
def rLt (a b : Inum L) : ℤ := if intCmp a b < 0 then qtrue else qfalse

/-- `r_le(a, b)`, which tells equality as well. -/
def rLe (a b : Inum L) : ℤ :=
  let c := intCmp a b
  if c = 0 then int2fixZero else if c < 0 then qtrue else qfalse

/-- The loop of `range_each_func` for an end that belongs to the range: it is left behind the end
without asking for a successor. -/
def rangeEachIncl (e v : Inum L) : ℕ → Except StepError (List (Inum L))
  | 0 => .error .outOfFuel
  | n + 1 =>
      let c := rLe v e
      if c = qfalse then .ok []
      else if c = int2fixZero then .ok [v]
      else (v :: ·) <$> rangeEachIncl e (intSucc v) n

/-- `range_each_func(range, each_i, NULL)`. -/
def rangeEachFunc (range : InumRange L) : ℕ → Except StepError (List (Inum L)) :=
  if range.excl then inumLoop (fun v => rLt v range.stop = qfalse) intSucc range.beg
  else rangeEachIncl range.stop range.beg

/-- The part of `range_each` for fixnums. -/
def rangeEachFix (beg stop : Fixnum L) (excl : Bool) (fuel : ℕ) :
    Except StepError (List (Inum L)) := do
  let lim ← rangeLimit excl stop
  longLoop L (fun i => i < lim) (fun i => .fixnum (long2fix L i)) 1 beg.val fuel

/-- `range_each`. -/
def rangeEach (range : InumRange L) (fuel : ℕ) : Except StepError (List (Inum L)) :=
  match range.beg, range.stop with
  | .fixnum b, .fixnum e => rangeEachFix b e range.excl fuel
  | _, _ => rangeEachFunc range fuel

end Code

/-! ## What is enumerated -/

/-- Before the end, or at it when it belongs to the range. -/
def Within (excl : Bool) (b i : ℤ) : Prop := if excl then i < b else i ≤ b

/-- Not past the limit, in the direction of the step. -/
def NotPast (d b i : ℤ) : Prop := if 0 < d then i ≤ b else b ≤ i

section Exact

variable {L : LongSize} {x y : Inum L} {a b d : ℤ} {inside : ℤ → Prop}

/-- A comparison is the comparison of the numbers. -/
theorem intRel_eq {rel : ℤ → ℤ → Bool} (hrel : rel (a - b).sign 0 = rel a b) (hx : x.Is a)
    (hy : y.Is b) : intRel rel x y = rel a b := by
  have hcmp : rel (intCmp x y) 0 = rel a b := by rw [intCmp_eq hx hy, hrel]
  cases x with
  | fixnum n =>
      cases y with
      | fixnum m =>
          have hn : n.val = a := hx.value
          have hm : m.val = b := hy.value
          rw [intRel, hn, hm]
      | bignum z => exact hcmp
  | bignum z => exact hcmp

theorem intGt_eq (hx : x.Is a) (hy : y.Is b) : intGt x y = decide (a > b) := by
  apply intRel_eq _ hx hy
  rw [decide_eq_decide, gt_iff_lt, Int.sign_pos_iff]
  omega

theorem intLt_eq (hx : x.Is a) (hy : y.Is b) : intLt x y = decide (a < b) := by
  apply intRel_eq _ hx hy
  rw [decide_eq_decide, Int.sign_neg_iff]
  omega

theorem intLe_eq (hx : x.Is a) (hy : y.Is b) : intLe x y = decide (a ≤ b) := by
  apply intRel_eq _ hx hy
  rw [decide_eq_decide, ← not_lt, ← not_lt, Int.sign_pos_iff]
  omega

theorem intSucc_is (hx : x.Is a) : (intSucc x).Is (a + 1) := by
  cases x with
  | fixnum n =>
      have hn : n.val = a := hx.value
      obtain ⟨hmin, hmax, hhalf⟩ := L.fixnum_range
      have hn0 := n.min_le
      have hn1 := n.le_max
      have hpos : (0 : ℤ) < 2 ^ (L.bits - 2) := by positivity
      rw [intSucc, hn, LongSize.toLong_eq (by omega) (by omega)]
      exact long2num_is (by omega) (by omega)
  | bignum z => exact intPlus_is hx (Inum.one_is L)

/-- A sum that is a `long`. -/
theorem longSum_eq {n : ℤ} (hmin : L.longMin ≤ n) (hmax : n ≤ L.longMax) :
    longSum L n = .ok n := by
  rw [longSum, LongSize.signed_of_mem hmin hmax]

/-- Twice a fixnum is a `long`. -/
theorem LongSize.fixnum_double (L : LongSize) :
    L.longMin = 2 * L.fixnumMin ∧ 2 * L.fixnumMax < L.longMax := by
  cases L <;> decide

/-- **A loop on `long`s enumerates**, if what it yields is a fixnum and the sum is a `long`. -/
theorem longLoop_settles {goesOn : ℤ → Bool} {value : ℤ → Inum L} (inv : ℤ → Prop) (f : ℤ → ℕ)
    (hgoes : ∀ i, goesOn i = true ↔ inside i) (hvalue : ∀ i, inv i → inside i → (value i).Is i)
    (hsum : ∀ i, inv i → inside i → L.longMin ≤ i + d ∧ i + d ≤ L.longMax ∧ inv (i + d))
    (hf : ∀ i, inside i → f (i + d) < f i) (ha : inv a) :
    ∃ values, Fuel.Settles (longLoop L goesOn value d a) (.ok values) ∧
      Enumerates Inum.Is values a d inside := by
  apply enumerates_settles (fun s i => s = i ∧ inv i) f _ ⟨rfl, ha⟩
  rintro s i ⟨rfl, hs⟩
  by_cases hin : inside s
  · obtain ⟨hmin, hmax, hinv⟩ := hsum s hs hin
    refine .inr ⟨hin, value s, s + d, hvalue s hs hin, ⟨rfl, hinv⟩, hf s hin, fun n => ?_⟩
    rw [longLoop, if_pos ((hgoes s).mpr hin), longSum_eq hmin hmax]
    rfl
  · refine .inl ⟨[], Enumerates.nil hin, fun n => ?_⟩
    rw [longLoop, if_neg ((hgoes s).not.mpr hin)]

/-- **A loop that calls the methods of the numbers enumerates.** -/
theorem inumLoop_settles {leaves : Inum L → Bool} {next : Inum L → Inum L} (f : ℤ → ℕ)
    (hleaves : ∀ x i, x.Is i → (leaves x = true ↔ ¬ inside i))
    (hnext : ∀ x i, x.Is i → (next x).Is (i + d)) (hf : ∀ i, inside i → f (i + d) < f i)
    (hx : x.Is a) :
    ∃ values, Fuel.Settles (inumLoop leaves next x) (.ok values) ∧
      Enumerates Inum.Is values a d inside := by
  apply enumerates_settles (fun s i => s.Is i) f _ hx
  intro s i hs
  by_cases hin : inside i
  · refine .inr ⟨hin, s, next s, hs, hnext s i hs, hf i hin, fun n => ?_⟩
    rw [inumLoop, if_neg (by rw [hleaves s i hs, not_not]; exact hin)]
  · refine .inl ⟨[], Enumerates.nil hin, fun n => ?_⟩
    rw [inumLoop, if_pos ((hleaves s i hs).mpr hin)]

/-- The measure of a loop that goes up. -/
theorem toNat_up_lt (hd : 0 < d) {i : ℤ} (hi : i ≤ b) :
    (b + 1 - (i + d)).toNat < (b + 1 - i).toNat := by
  omega

/-- The measure of a loop that goes down. -/
theorem toNat_down_lt (hd : d < 0) {i : ℤ} (hi : b ≤ i) :
    (i + d + 1 - b).toNat < (i + 1 - b).toNat := by
  omega

theorem Within.le {excl : Bool} {i : ℤ} (h : Within excl b i) : i ≤ b := by
  unfold Within at h
  split_ifs at h
  · exact h.le
  · exact h

/-- The end that the loops for fixnums go to. -/
theorem rangeLimit_eq (excl : Bool) (stop : Fixnum L) :
    ∃ limit, rangeLimit excl stop = .ok limit ∧ ∀ i, i < limit ↔ Within excl stop.val i := by
  obtain ⟨hmin, hmax⟩ := L.fixnum_double
  have h0 := stop.min_le
  have h1 := stop.le_max
  have hneg := L.fixnumMin_nonpos
  have hpos := L.fixnumMax_nonneg
  cases excl with
  | true => exact ⟨stop.val, rfl, fun i => Iff.rfl⟩
  | false =>
      refine ⟨stop.val + 1, ?_, fun i => Int.lt_add_one_iff⟩
      exact longSum_eq (by omega) (by omega)

/-! ## `Numeric#step` -/

/-- The loops for fixnums. -/
theorem numStepFix_settles (start limit step : Fixnum L) (hstep : step.val ≠ 0) :
    ∃ values, Fuel.Settles (numStepFix start limit step) (.ok values) ∧
      Enumerates Inum.Is values start.val step.val (NotPast step.val limit.val) := by
  obtain ⟨hmin, hmax⟩ := L.fixnum_double
  have hs0 := start.min_le
  have hs1 := start.le_max
  have hl0 := limit.min_le
  have hl1 := limit.le_max
  have hd0 := step.min_le
  have hd1 := step.le_max
  have hneg := L.fixnumMin_nonpos
  have hpos := L.fixnumMax_nonneg
  unfold numStepFix
  dsimp only
  split_ifs with hup
  · have hpast : ∀ i, NotPast step.val limit.val i ↔ i ≤ limit.val := by
      intro i
      rw [NotPast, if_pos hup]
    apply longLoop_settles (fun i => L.fixnumMin ≤ i) (fun i => (limit.val + 1 - i).toNat)
    · intro i
      rw [hpast, decide_eq_true_eq]
    · intro i hi hin
      rw [hpast] at hin
      exact long2fix_is_of_range hi (hin.trans hl1)
    · intro i hi hin
      rw [hpast] at hin
      exact ⟨by omega, by omega, by omega⟩
    · intro i hin
      exact toNat_up_lt hup ((hpast i).mp hin)
    · exact hs0
  · have hdown : step.val < 0 := by omega
    have hpast : ∀ i, NotPast step.val limit.val i ↔ limit.val ≤ i := by
      intro i
      rw [NotPast, if_neg hup]
    apply longLoop_settles (fun i => i ≤ L.fixnumMax) (fun i => (i + 1 - limit.val).toNat)
    · intro i
      rw [hpast, decide_eq_true_eq, ge_iff_le]
    · intro i hi hin
      rw [hpast] at hin
      exact long2fix_is_of_range (hl0.trans hin) hi
    · intro i hi hin
      rw [hpast] at hin
      exact ⟨by omega, by omega, by omega⟩
    · intro i hin
      exact toNat_down_lt hdown ((hpast i).mp hin)
    · exact hs1

/-- The other loop. -/
theorem numStepGeneric_settles {start limit step : Inum L} (hstart : start.Is a)
    (hlimit : limit.Is b) (hstep : step.Is d) (hd : d ≠ 0) :
    ∃ values, Fuel.Settles (numStepGeneric start limit step) (.ok values) ∧
      Enumerates Inum.Is values a d (NotPast d b) := by
  have hnext : ∀ x i, x.Is i → (intPlus x step).Is (i + d) := fun x i hx => intPlus_is hx hstep
  unfold numStepGeneric
  rw [intGt_eq hstep (Inum.zero_is L)]
  by_cases hup : 0 < d
  · rw [if_pos (decide_eq_true hup)]
    apply inumLoop_settles (fun i => (b + 1 - i).toNat) _ hnext _ hstart
    · intro x i hx
      rw [intGt_eq hx hlimit, decide_eq_true_eq, NotPast, if_pos hup, not_le]
    · intro i hin
      rw [NotPast, if_pos hup] at hin
      exact toNat_up_lt hup hin
  · rw [if_neg (by simpa using hup)]
    apply inumLoop_settles (fun i => (i + 1 - b).toNat) _ hnext _ hstart
    · intro x i hx
      rw [intLt_eq hx hlimit, decide_eq_true_eq, NotPast, if_neg hup, not_le]
    · intro i hin
      rw [NotPast, if_neg hup] at hin
      exact toNat_down_lt (by omega) hin

/-- **`Numeric#step` enumerates.** -/
theorem numStep_settles {start limit step : Inum L} (hstart : start.Is a) (hlimit : limit.Is b)
    (hstep : step.Is d) (hd : d ≠ 0) :
    ∃ values, Fuel.Settles (numStep start limit (some step)) (.ok values) ∧
      Enumerates Inum.Is values a d (NotPast d b) := by
  have hgeneric := numStepGeneric_settles hstart hlimit hstep hd
  have hchecks : numStep start limit (some step) = numStepLoop start limit step := by
    funext fuel
    unfold numStep
    dsimp only
    rw [intEqual_eq hstep (Inum.zero_is L), decide_eq_false hd, if_neg Bool.false_ne_true]
  rw [hchecks]
  cases start with
  | fixnum s =>
      cases limit with
      | fixnum l =>
          cases step with
          | fixnum u =>
              have hs : s.val = a := hstart.value
              have hl : l.val = b := hlimit.value
              have hu : u.val = d := hstep.value
              subst hs hl hu
              exact numStepFix_settles s l u hd
          | bignum z => exact hgeneric
      | bignum z => exact hgeneric
  | bignum z => exact hgeneric

/-- Without a step, it is one. -/
theorem numStep_none (start limit : Inum L) :
    numStep start limit none = numStep start limit (some (.one L)) := by
  funext fuel
  unfold numStep
  dsimp only
  rw [intEqual_eq (Inum.one_is L) (Inum.zero_is L), decide_eq_false one_ne_zero,
    if_neg Bool.false_ne_true]

/-- **`Numeric#step` without a step enumerates** in steps of one. -/
theorem numStep_none_settles {start limit : Inum L} (hstart : start.Is a) (hlimit : limit.Is b) :
    ∃ values, Fuel.Settles (numStep start limit none) (.ok values) ∧
      Enumerates Inum.Is values a 1 (NotPast 1 b) := by
  rw [numStep_none]
  exact numStep_settles hstart hlimit (Inum.one_is L) one_ne_zero

/-! ## `Range#step` and `Range#each` -/

/-- The loop of `range_step` for fixnums: no sum wraps. -/
theorem rangeStepFix_settles (beg stop : Fixnum L) (excl : Bool) (step : Fixnum L)
    (hstep : 0 < step.val) :
    ∃ values, Fuel.Settles (rangeStepFix beg stop excl step) (.ok values) ∧
      Enumerates Inum.Is values beg.val step.val (Within excl stop.val) := by
  obtain ⟨hmin, hmax⟩ := L.fixnum_double
  obtain ⟨hfmin, hfmax, hhalf⟩ := L.fixnum_range
  have hb0 := beg.min_le
  have he1 := stop.le_max
  have hd1 := step.le_max
  have hneg := L.fixnumMin_nonpos
  have hpos := L.fixnumMax_nonneg
  have hpow : (0 : ℤ) < 2 ^ (L.bits - 2) := by positivity
  obtain ⟨limit, hlimit, hin⟩ := rangeLimit_eq excl stop
  have hrun : rangeStepFix beg stop excl step = rangeStepLoop limit step.val beg.val := by
    funext fuel
    rw [rangeStepFix, hlimit]
    rfl
  rw [hrun]
  apply enumerates_settles (fun s i => s = i ∧ L.fixnumMin ≤ i)
    (fun i => (stop.val + 1 - i).toNat) _ ⟨rfl, hb0⟩
  rintro s i ⟨rfl, hs⟩
  by_cases hwithin : Within excl stop.val s
  · have hle := hwithin.le
    refine .inr ⟨hwithin, long2num L s, s + step.val, long2num_is (by omega) (by omega),
      ⟨rfl, by omega⟩, toNat_up_lt hstep hle, fun n => ?_⟩
    rw [rangeStepLoop, if_pos ((hin s).mpr hwithin), longSum_eq (by omega) (by omega)]
    exact if_neg (by omega)
  · refine .inl ⟨[], Enumerates.nil hwithin, fun n => ?_⟩
    rw [rangeStepLoop, if_neg ((hin s).not.mpr hwithin)]

/-- The other loop. -/
theorem rangeStepGeneric_settles {beg stop step : Inum L} (hbeg : beg.Is a) (hstop : stop.Is b)
    (excl : Bool) (hstep : step.Is d) (hd : 0 < d) :
    ∃ values, Fuel.Settles (rangeStepGeneric ⟨beg, stop, excl⟩ step) (.ok values) ∧
      Enumerates Inum.Is values a d (Within excl b) := by
  unfold rangeStepGeneric
  apply inumLoop_settles (fun i => (b + 1 - i).toNat) _ (fun x i hx => intPlus_is hx hstep) _ hbeg
  · intro x i hx
    dsimp only
    rw [intLt_eq hx hstop, intLe_eq hx hstop, Within]
    cases excl <;> simp
  · intro i hin
    exact toNat_up_lt hd hin.le

/-- **`Range#step` enumerates.** -/
theorem rangeStepLoops_settles {beg stop step : Inum L} (hbeg : beg.Is a) (hstop : stop.Is b)
    (excl : Bool) (hstep : step.Is d) (hd : 0 < d) :
    ∃ values, Fuel.Settles (rangeStepLoops ⟨beg, stop, excl⟩ step) (.ok values) ∧
      Enumerates Inum.Is values a d (Within excl b) := by
  have hgeneric := rangeStepGeneric_settles hbeg hstop excl hstep hd
  cases beg with
  | fixnum s =>
      cases stop with
      | fixnum l =>
          cases step with
          | fixnum u =>
              have hs : s.val = a := hbeg.value
              have hl : l.val = b := hstop.value
              have hu : u.val = d := hstep.value
              subst hs hl hu
              exact rangeStepFix_settles s l excl u hd
          | bignum z => exact hgeneric
      | bignum z => exact hgeneric
  | bignum z => exact hgeneric

/-- The checks of `range_step` pass for a positive step. -/
theorem rangeStep_some {step : Inum L} (range : InumRange L) (hstep : step.Is d) (hd : 0 < d) :
    rangeStep range (some step) = rangeStepLoops range step := by
  funext fuel
  unfold rangeStep
  dsimp only
  rw [intLt_eq hstep (Inum.zero_is L), decide_eq_false (by omega), if_neg Bool.false_ne_true,
    intGt_eq hstep (Inum.zero_is L), decide_eq_true hd]
  rfl

/-- The loop of `range_each` for fixnums. -/
theorem rangeEachFix_settles (beg stop : Fixnum L) (excl : Bool) :
    ∃ values, Fuel.Settles (rangeEachFix beg stop excl) (.ok values) ∧
      Enumerates Inum.Is values beg.val 1 (Within excl stop.val) := by
  obtain ⟨hmin, hmax⟩ := L.fixnum_double
  have hb0 := beg.min_le
  have he1 := stop.le_max
  have hneg := L.fixnumMin_nonpos
  have hpos := L.fixnumMax_nonneg
  obtain ⟨limit, hlimit, hin⟩ := rangeLimit_eq excl stop
  have hrun : rangeEachFix beg stop excl =
      longLoop L (fun i => i < limit) (fun i => .fixnum (long2fix L i)) 1 beg.val := by
    funext fuel
    rw [rangeEachFix, hlimit]
    rfl
  rw [hrun]
  apply longLoop_settles (fun i => L.fixnumMin ≤ i) (fun i => (stop.val + 1 - i).toNat)
  · intro i
    rw [decide_eq_true_eq, hin]
  · intro i hi hwithin
    exact long2fix_is_of_range hi (hwithin.le.trans he1)
  · intro i hi hwithin
    have hle := hwithin.le
    exact ⟨by omega, by omega, by omega⟩
  · intro i hwithin
    exact toNat_up_lt Int.one_pos hwithin.le
  · exact hb0

theorem rLt_eq_qfalse (hx : x.Is a) (hy : y.Is b) : rLt x y = qfalse ↔ ¬ a < b := by
  have hsign : intCmp x y < 0 ↔ a < b := by
    rw [intCmp_eq hx hy, Int.sign_neg_iff]
    omega
  unfold rLt
  split_ifs with hlt
  · exact iff_of_false (by decide) (not_not.mpr (hsign.mp hlt))
  · exact iff_of_true rfl (hsign.not.mp hlt)

/-- What `r_le` tells. -/
theorem rLe_eq (hx : x.Is a) (hy : y.Is b) :
    rLe x y = if a = b then int2fixZero else if a < b then qtrue else qfalse := by
  have hzero : (a - b).sign = 0 ↔ a = b := by
    rw [Int.sign_eq_zero_iff_zero, sub_eq_zero]
  have hneg : (a - b).sign < 0 ↔ a < b := by
    rw [Int.sign_neg_iff]
    omega
  unfold rLe
  simp only [intCmp_eq hx hy, hzero, hneg]

/-- The loop of `range_each_func` for an end that belongs to the range. -/
theorem rangeEachIncl_settles {e v : Inum L} (hv : v.Is a) (he : e.Is b) :
    ∃ values, Fuel.Settles (rangeEachIncl e v) (.ok values) ∧
      Enumerates Inum.Is values a 1 (Within false b) := by
  have hwithin : ∀ i, Within false b i ↔ i ≤ b := fun i => Iff.rfl
  apply enumerates_settles (fun s i => s.Is i) (fun i => (b + 1 - i).toNat) _ hv
  intro s i hs
  have hle := rLe_eq hs he
  rcases lt_trichotomy i b with hlt | heq | hgt
  · refine .inr ⟨(hwithin i).mpr hlt.le, s, intSucc s, hs, intSucc_is hs,
      toNat_up_lt Int.one_pos hlt.le, fun n => ?_⟩
    rw [if_neg hlt.ne, if_pos hlt] at hle
    simp only [rangeEachIncl, hle]
    rfl
  · refine .inl ⟨[s], Enumerates.cons hs ((hwithin i).mpr heq.le) (Enumerates.nil ?_), fun n => ?_⟩
    · rw [hwithin]
      omega
    · rw [if_pos heq] at hle
      simp only [rangeEachIncl, hle]
      rfl
  · refine .inl ⟨[], Enumerates.nil ((hwithin i).not.mpr (not_le.mpr hgt)), fun n => ?_⟩
    rw [if_neg hgt.ne', if_neg (not_lt.mpr hgt.le)] at hle
    simp only [rangeEachIncl, hle]
    rfl

/-- `range_each_func`. -/
theorem rangeEachFunc_settles {beg stop : Inum L} (hbeg : beg.Is a) (hstop : stop.Is b)
    (excl : Bool) :
    ∃ values, Fuel.Settles (rangeEachFunc ⟨beg, stop, excl⟩) (.ok values) ∧
      Enumerates Inum.Is values a 1 (Within excl b) := by
  cases excl with
  | false => exact rangeEachIncl_settles hbeg hstop
  | true =>
      apply inumLoop_settles (fun i => (b + 1 - i).toNat) _ (fun x i hx => intSucc_is hx) _ hbeg
      · intro x i hx
        dsimp only
        rw [decide_eq_true_eq, rLt_eq_qfalse hx hstop]
        rfl
      · intro i hin
        exact toNat_up_lt Int.one_pos hin.le

/-- **`Range#each` enumerates.** -/
theorem rangeEach_settles {beg stop : Inum L} (hbeg : beg.Is a) (hstop : stop.Is b)
    (excl : Bool) :
    ∃ values, Fuel.Settles (rangeEach ⟨beg, stop, excl⟩) (.ok values) ∧
      Enumerates Inum.Is values a 1 (Within excl b) := by
  have hgeneric := rangeEachFunc_settles hbeg hstop excl
  cases beg with
  | fixnum s =>
      cases stop with
      | fixnum l =>
          have hs : s.val = a := hbeg.value
          have hl : l.val = b := hstop.value
          subst hs hl
          exact rangeEachFix_settles s l excl
      | bignum z => exact hgeneric
  | bignum z => exact hgeneric

/-- A method yields the values that another one enumerates. -/
theorem settles_of_enumerates {run : ℕ → Except StepError (List (Inum L))}
    {values : List (Inum L)} (h : ∃ values', Fuel.Settles run (.ok values') ∧
      Enumerates Inum.Is values' a d inside) (hvalues : Enumerates Inum.Is values a d inside) :
    Fuel.Settles run (.ok values) := by
  obtain ⟨values', hsettles, henum⟩ := h
  have hone : ∀ (x y : Inum L) (i : ℤ), x.Is i → y.Is i → x = y := fun _ _ _ hx hy => hx.unique hy
  rw [hvalues.unique hone henum]
  exact hsettles

/-- **Every path of the three methods yields the same progression**: `start`, `start + step`, … up
to the limit, or the end that belongs to the range or does not. -/
theorem stepping_exact {start limit step : Inum L} (hstart : start.Is a) (hlimit : limit.Is b)
    (hstep : step.Is d) (hd : d ≠ 0) :
    (∃ values, Enumerates Inum.Is values a d (NotPast d b) ∧
      Fuel.Settles (numStep start limit (some step)) (.ok values) ∧
      Fuel.Settles (numStepGeneric start limit step) (.ok values)) ∧
    (∀ excl, 0 < d → ∃ values, Enumerates Inum.Is values a d (Within excl b) ∧
      Fuel.Settles (rangeStep ⟨start, limit, excl⟩ (some step)) (.ok values) ∧
      Fuel.Settles (rangeStepGeneric ⟨start, limit, excl⟩ step) (.ok values)) ∧
    (∀ excl, ∃ values, Enumerates Inum.Is values a 1 (Within excl b) ∧
      Fuel.Settles (rangeEach ⟨start, limit, excl⟩) (.ok values) ∧
      Fuel.Settles (rangeEachFunc ⟨start, limit, excl⟩) (.ok values) ∧
      Fuel.Settles (rangeStep ⟨start, limit, excl⟩ none) (.ok values)) := by
  refine ⟨?_, ?_, ?_⟩
  · obtain ⟨values, hsettles, henum⟩ := numStep_settles hstart hlimit hstep hd
    exact ⟨values, henum, hsettles,
      settles_of_enumerates (numStepGeneric_settles hstart hlimit hstep hd) henum⟩
  · intro excl hpos
    obtain ⟨values, hsettles, henum⟩ := rangeStepLoops_settles hstart hlimit excl hstep hpos
    refine ⟨values, henum, ?_,
      settles_of_enumerates (rangeStepGeneric_settles hstart hlimit excl hstep hpos) henum⟩
    rw [rangeStep_some _ hstep hpos]
    exact hsettles
  · intro excl
    obtain ⟨values, hsettles, henum⟩ := rangeEach_settles hstart hlimit excl
    exact ⟨values, henum, hsettles,
      settles_of_enumerates (rangeEachFunc_settles hstart hlimit excl) henum,
      settles_of_enumerates
        (rangeStepLoops_settles hstart hlimit excl (Inum.one_is L) Int.one_pos) henum⟩

/-- From the largest fixnum to the bignum two above it. -/
theorem stepping_exact_fixnumMax :
    (∃ values, Enumerates Inum.Is values (2 ^ 62 - 1) 1 (NotPast 1 (2 ^ 62 + 1)) ∧
      Fuel.Settles (numStep (long2num .lp64 (2 ^ 62 - 1)) (long2num .lp64 (2 ^ 62 + 1))
        (some (.one .lp64))) (.ok values) ∧
      Fuel.Settles (numStepGeneric (long2num .lp64 (2 ^ 62 - 1)) (long2num .lp64 (2 ^ 62 + 1))
        (.one .lp64)) (.ok values)) ∧
    (∀ excl, (0 : ℤ) < 1 → ∃ values,
      Enumerates Inum.Is values (2 ^ 62 - 1) 1 (Within excl (2 ^ 62 + 1)) ∧
      Fuel.Settles (rangeStep ⟨long2num .lp64 (2 ^ 62 - 1), long2num .lp64 (2 ^ 62 + 1), excl⟩
        (some (.one .lp64))) (.ok values) ∧
      Fuel.Settles (rangeStepGeneric
        ⟨long2num .lp64 (2 ^ 62 - 1), long2num .lp64 (2 ^ 62 + 1), excl⟩ (.one .lp64))
        (.ok values)) ∧
    (∀ excl, ∃ values, Enumerates Inum.Is values (2 ^ 62 - 1) 1 (Within excl (2 ^ 62 + 1)) ∧
      Fuel.Settles (rangeEach ⟨long2num .lp64 (2 ^ 62 - 1), long2num .lp64 (2 ^ 62 + 1), excl⟩)
        (.ok values) ∧
      Fuel.Settles (rangeEachFunc
        ⟨long2num .lp64 (2 ^ 62 - 1), long2num .lp64 (2 ^ 62 + 1), excl⟩) (.ok values) ∧
      Fuel.Settles (rangeStep ⟨long2num .lp64 (2 ^ 62 - 1), long2num .lp64 (2 ^ 62 + 1), excl⟩
        none) (.ok values)) :=
  stepping_exact (long2num_is (by decide) (by decide)) (long2num_is (by decide) (by decide))
    (Inum.one_is .lp64) Int.one_ne_zero

end Exact

end MacRuby
