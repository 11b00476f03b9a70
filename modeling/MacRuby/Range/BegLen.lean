import MacRuby.Numeric.Long
import Mathlib.Data.Int.ConditionallyCompleteOrder

/-!
# The positions a range selects

`rb_range_beg_len` of `range.c` turns a range into a first position and a number of positions of an
array or string of a given length.  Array and string access, assignment and `fill` all go through
it, with an error mode each: mode 0 answers nil for a start that is out of range, the others raise,
and modes 0 and 2 look at the length for the start and the end, which mode 1 does not.

The function computes with `long`s.  One that overflows has no defined value in C, so the model
answers none there.

## Main definitions

* `IntRange` — a range between Integers that fit a `long`.
* `rbRangeBegLen` — the function.
* `IntRange.Selects` — the positions that a range stands for.
* `RangeSelectsRight` — the function answers for these positions, and never overflows.

## Main results

* `rbRangeBegLen_eq` — what it answers when nothing overflows.
* `rangeSelectsRight_iff` — it does all it should exactly when its two sums fit.
-/

namespace MacRuby

/-- A range whose ends are Integers that fit a `long`. -/
structure IntRange (L : LongSize) where
  beg : Long L
  stop : Long L
  excl : Bool
  deriving DecidableEq

/-- What `rb_range_beg_len` answers for a range. -/
inductive BegLen
  /-- `Qtrue`, with what it stores in `*begp` and `*lenp`. -/
  | pair (beg len : ℤ)
  /-- `Qnil`. -/
  | nil
  /-- `RangeError`: "… out of range", where the text prints the words of the two end objects. -/
  | rangeError
  deriving DecidableEq, Repr

section Code

variable {L : LongSize}

/-- What the label `out_of_range` answers. -/
def begLenOutOfRange (err : ℤ) : BegLen := if err ≠ 0 then .rangeError else .nil

/-- `if (i < 0) i += len;` -/
def addLenIfNeg (L : LongSize) (len i : ℤ) : Option ℤ :=
  if i < 0 then L.signed (i + len) else some i

/-- `if (!excl) end++;` -/
def includeEndPoint (L : LongSize) (excl : Bool) (stop : ℤ) : Option ℤ :=
  if !excl then L.signed (stop + 1) else some stop

/-- The rest of `rb_range_beg_len`, once `beg` counts from the front and is in range. -/
def begLenEnd (r : IntRange L) (beg stop len : ℤ) : Option BegLen := do
  let stop ← addLenIfNeg L len stop
  let stop ← includeEndPoint L r.excl stop
  let len ← L.signed (stop - beg)
  return .pair beg (if len < 0 then 0 else len)

/-- `rb_range_beg_len(range, &beg, &len, len, err)`. -/
def rbRangeBegLen (r : IntRange L) (len err : ℤ) : Option BegLen := do
  let beg ← addLenIfNeg L len r.beg.val
  if beg < 0 then return begLenOutOfRange err
  if err = 0 ∨ err = 2 then
    if beg > len then return begLenOutOfRange err
    begLenEnd r beg (if r.stop.val > len then len else r.stop.val) len
  else
    begLenEnd r beg r.stop.val len

end Code

/-! ## What a range stands for -/

section Meaning

variable {L : LongSize} (r : IntRange L) (n err : ℤ)

/-- The modes that look at the length. -/
def ModeClips : Prop := err = 0 ∨ err = 2

instance : Decidable (ModeClips err) := inferInstanceAs (Decidable (err = 0 ∨ err = 2))

/-- A position, counted from the end when it is negative. -/
def fromEnd (i : ℤ) : ℤ := if i < 0 then i + n else i

/-- The start of the range, counted from the front. -/
def IntRange.start : ℤ := fromEnd n r.beg.val

/-- **The positions of an array of length `n` that a range stands for.** -/
def IntRange.Selects (i : ℤ) : Prop :=
  r.start n ≤ i ∧ if r.excl then i < fromEnd n r.stop.val else i ≤ fromEnd n r.stop.val

/-- The start lies before the array or, where the mode looks at that, beyond it. -/
def IntRange.OutOfRange : Prop := r.start n < 0 ∨ ModeClips err ∧ n < r.start n

instance : Decidable (r.OutOfRange n err) :=
  inferInstanceAs (Decidable (_ < _ ∨ _ ∧ _ < _))

/-- **`rb_range_beg_len` does what it should**: no computation overflows, it reports the ranges
that are out of range and no others, and the pair it returns selects the positions of the range. -/
structure RangeSelectsRight : Prop where
  defined : rbRangeBegLen r n err ≠ none
  outOfRange : rbRangeBegLen r n err = some (begLenOutOfRange err) ↔ r.OutOfRange n err
  selects : ∀ beg len, rbRangeBegLen r n err = some (.pair beg len) →
    ∀ i, 0 ≤ i → i < n → (beg ≤ i ∧ i < beg + len ↔ r.Selects n i)

/-- **The sums of `rb_range_beg_len` fit**: the end of an inclusive range is not `LONG_MAX` unless
it is clipped to a smaller length, and the start is not too far behind the end. -/
def IntRange.SumsFit : Prop :=
  (r.excl = false → r.stop.val = L.longMax → ModeClips err ∧ n < L.longMax) ∧
    r.beg.val - r.stop.val ≤ n + (if r.excl then 0 else 1) - L.longMin

instance : Decidable (r.SumsFit n err) :=
  inferInstanceAs (Decidable ((_ → _ → _ ∧ _ < _) ∧ _ ≤ _))

end Meaning

/-! ## What the function computes -/

section Correctness

variable {L : LongSize} {r : IntRange L} {n : ℕ} {err : ℤ}

theorem fromEnd_of_neg {n i : ℤ} (h : i < 0) : fromEnd n i = i + n := if_pos h

theorem fromEnd_of_nonneg {n i : ℤ} (h : 0 ≤ i) : fromEnd n i = i := if_neg (not_lt.mpr h)

/-- Counting a position from the front never overflows. -/
theorem addLenIfNeg_eq {i : ℤ} (hn : (n : ℤ) ≤ L.longMax) (hmin : L.longMin ≤ i) :
    addLenIfNeg L n i = some (fromEnd n i) := by
  unfold addLenIfNeg
  by_cases h : i < 0
  · rw [if_pos h, fromEnd_of_neg h]
    exact LongSize.signed_of_mem (by omega) (by omega)
  · rw [if_neg h, fromEnd_of_nonneg (not_lt.mp h)]

/-- The end of the range, clipped to the length by the modes that do so. -/
def IntRange.clipped (r : IntRange L) (n err : ℤ) : ℤ :=
  if ModeClips err ∧ n < r.stop.val then n else r.stop.val

/-- One past the last position, from the end that is clipped. -/
def IntRange.reach (r : IntRange L) (n err : ℤ) : ℤ :=
  fromEnd n (r.clipped n err) + if r.excl then 0 else 1

/-- The function from the start that it computes on. -/
theorem rbRangeBegLen_start (hn : (n : ℤ) ≤ L.longMax) : rbRangeBegLen r n err =
    if r.start n < 0 then some (begLenOutOfRange err)
    else if ModeClips err then
      if n < r.start n then some (begLenOutOfRange err)
      else begLenEnd r (r.start n) (if n < r.stop.val then n else r.stop.val) n
    else begLenEnd r (r.start n) r.stop.val n := by
  unfold rbRangeBegLen
  rw [addLenIfNeg_eq hn r.beg.min_le]
  rfl

theorem rbRangeBegLen_of_outOfRange (hn : (n : ℤ) ≤ L.longMax) (h : r.OutOfRange n err) :
    rbRangeBegLen r n err = some (begLenOutOfRange err) := by
  rw [rbRangeBegLen_start hn]
  by_cases hneg : r.start n < 0
  · exact if_pos hneg
  · obtain h | ⟨hclip, hbeyond⟩ := h
    · exact absurd h hneg
    · rw [if_neg hneg, if_pos hclip, if_pos hbeyond]

theorem rbRangeBegLen_of_inRange (hn : (n : ℤ) ≤ L.longMax) (h : ¬ r.OutOfRange n err) :
    rbRangeBegLen r n err = begLenEnd r (r.start n) (r.clipped n err) n := by
  have hneg : ¬ r.start n < 0 := fun hneg => h (Or.inl hneg)
  rw [rbRangeBegLen_start hn, if_neg hneg]
  unfold IntRange.clipped
  by_cases hclip : ModeClips err
  · have hbeyond : ¬ n < r.start n := fun hbeyond => h (Or.inr ⟨hclip, hbeyond⟩)
    rw [if_pos hclip, if_neg hbeyond]
    simp only [hclip, true_and]
  · rw [if_neg hclip]
    simp only [hclip, false_and, if_false]

/-- What is computed from the end, with its two sums. -/
theorem begLenEnd_eq {beg stop : ℤ} (hn : (n : ℤ) ≤ L.longMax) (hmin : L.longMin ≤ stop) :
    begLenEnd r beg stop n =
      (includeEndPoint L r.excl (fromEnd n stop)).bind fun past =>
        (L.signed (past - beg)).bind fun len => some (.pair beg (max 0 len)) := by
  unfold begLenEnd
  rw [addLenIfNeg_eq hn hmin, Option.bind_eq_bind, Option.bind_some]
  have hlen (len : ℤ) : (if len < 0 then 0 else len) = max 0 len := by
    split <;> omega
  simp only [hlen]
  rfl

/-- The end point is included without overflow unless it is the greatest `long`. -/
theorem includeEndPoint_eq {stop : ℤ} (hmin : L.longMin ≤ stop)
    (hmax : r.excl = false → stop < L.longMax) :
    includeEndPoint L r.excl stop = some (stop + if r.excl then 0 else 1) := by
  unfold includeEndPoint
  cases hexcl : r.excl with
  | true => simp
  | false =>
      have hlt := hmax hexcl
      exact LongSize.signed_of_mem (by omega) (by omega)

/-- Where the bounds of `fromEnd` come from. -/
theorem le_fromEnd {n i : ℤ} (h : 0 ≤ n) : i ≤ fromEnd n i := by
  unfold fromEnd
  split <;> omega

theorem longMin_le_clipped : L.longMin ≤ r.clipped n err := by
  have hmin := r.stop.min_le
  have hneg := L.longMin_eq
  have hpos := L.longMax_pos
  unfold IntRange.clipped
  split <;> omega

/-- The end that is clipped is one the sums can be formed with. -/
theorem clipped_lt (hn : (n : ℤ) ≤ L.longMax) (hfit : r.SumsFit n err) (hexcl : r.excl = false) :
    fromEnd n (r.clipped n err) < L.longMax := by
  have hmax := r.stop.le_max
  have hclipped : r.clipped n err < L.longMax := by
    unfold IntRange.clipped
    by_cases htop : r.stop.val = L.longMax
    · obtain ⟨hclip, hlt⟩ := hfit.1 hexcl htop
      have hcut : ModeClips err ∧ (n : ℤ) < r.stop.val := ⟨hclip, by omega⟩
      rwa [if_pos hcut]
    · split <;> omega
  unfold fromEnd
  split <;> omega

/-- A start that is in range is not negative, and within the length where that is looked at. -/
theorem start_mem (h : ¬ r.OutOfRange n err) :
    0 ≤ r.start n ∧ (ModeClips err → r.start n ≤ n) := by
  unfold IntRange.OutOfRange at h
  refine ⟨by omega, fun hclip => ?_⟩
  by_contra hlt
  exact h (Or.inr ⟨hclip, by omega⟩)

/-- A start that counts from the end of the array is before the end of the array. -/
theorem start_le_max : r.start n ≤ max r.beg.val (n - 1) := by
  unfold IntRange.start fromEnd
  split <;> omega

theorem start_le_longMax (hn : (n : ℤ) ≤ L.longMax) : r.start n ≤ L.longMax := by
  have hmax := r.beg.le_max
  unfold IntRange.start fromEnd
  split <;> omega

theorem fromEnd_clipped_le (hn : (n : ℤ) ≤ L.longMax) :
    fromEnd n (r.clipped n err) ≤ L.longMax := by
  have hmax := r.stop.le_max
  have hclipped : r.clipped n err ≤ r.stop.val := by
    unfold IntRange.clipped
    split <;> omega
  unfold fromEnd
  split <;> omega

/-- An end that counts from the end of the array is not clipped. -/
theorem clipped_eq_of_neg (h : r.stop.val < 0) : r.clipped n err = r.stop.val := by
  unfold IntRange.clipped
  rw [if_neg]
  omega

theorem clipped_nonneg (n : ℕ) (err : ℤ) (h : 0 ≤ r.stop.val) : 0 ≤ r.clipped n err := by
  unfold IntRange.clipped
  split <;> omega

/-- The number of positions fits. -/
theorem signed_length (hn : (n : ℤ) ≤ L.longMax) (h : ¬ r.OutOfRange n err)
    (hfit : r.SumsFit n err) :
    L.signed (r.reach n err - r.start n) = some (r.reach n err - r.start n) := by
  obtain ⟨hstart, -⟩ := start_mem h
  have hle := start_le_longMax (r := r) hn
  have hmin := L.longMin_eq
  have hpast : r.reach n err ≤ L.longMax := by
    unfold IntRange.reach
    cases hexcl : r.excl with
    | false => exact clipped_lt hn hfit hexcl
    | true => simpa using fromEnd_clipped_le hn
  refine LongSize.signed_of_mem ?_ (by omega)
  by_cases hneg : r.stop.val < 0
  · have hlen := hfit.2
    have hpast : r.reach n err = r.stop.val + n + if r.excl then 0 else 1 := by
      rw [IntRange.reach, clipped_eq_of_neg hneg, fromEnd_of_neg hneg]
    have hbeg := start_le_max (r := r) (n := n)
    have := r.stop.min_le
    omega
  · have hpos := clipped_nonneg n err (not_lt.mp hneg)
    unfold IntRange.reach
    rw [fromEnd_of_nonneg hpos]
    split <;> omega

/-- **The pair `rb_range_beg_len` returns when its sums fit.** -/
theorem rbRangeBegLen_eq (hn : (n : ℤ) ≤ L.longMax) (h : ¬ r.OutOfRange n err)
    (hfit : r.SumsFit n err) :
    rbRangeBegLen r n err = some (.pair (r.start n) (max 0 (r.reach n err - r.start n))) := by
  have hmin : L.longMin ≤ fromEnd n (r.clipped n err) :=
    longMin_le_clipped.trans (le_fromEnd (by omega))
  rw [rbRangeBegLen_of_inRange hn h, begLenEnd_eq hn longMin_le_clipped,
    includeEndPoint_eq hmin (clipped_lt hn hfit), Option.bind_some]
  change (L.signed (r.reach n err - r.start n)).bind _ = _
  rw [signed_length hn h hfit, Option.bind_some]

/-- Clipping the end leaves out no position of the array. -/
theorem fromEnd_clipped_cases (r : IntRange L) (n : ℕ) (err : ℤ) :
    fromEnd n (r.clipped n err) = fromEnd n r.stop.val ∨
      fromEnd n (r.clipped n err) = n ∧ n < fromEnd n r.stop.val := by
  unfold IntRange.clipped
  by_cases hcut : ModeClips err ∧ (n : ℤ) < r.stop.val
  · right
    rw [if_pos hcut, fromEnd_of_nonneg (by omega), fromEnd_of_nonneg (by omega)]
    exact ⟨rfl, hcut.2⟩
  · left
    rw [if_neg hcut]

/-- **The pair selects the positions that the range stands for.** -/
theorem selects_of_pair {i : ℤ} (hi : i < n) :
    (r.start n ≤ i ∧ i < r.start n + max 0 (r.reach n err - r.start n)) ↔ r.Selects n i := by
  have hcases := fromEnd_clipped_cases r n err
  have hreach : i < r.reach n err ↔
      if r.excl then i < fromEnd n r.stop.val else i ≤ fromEnd n r.stop.val := by
    unfold IntRange.reach
    cases r.excl with
    | true =>
        simp only [if_true, add_zero]
        omega
    | false =>
        simp only [Bool.false_eq_true, if_false]
        omega
  unfold IntRange.Selects
  rw [← hreach]
  omega

/-- **A range in range for which nothing overflows has sums that fit.** -/
theorem sumsFit_of_defined (hn : (n : ℤ) ≤ L.longMax) (h : ¬ r.OutOfRange n err)
    (hdef : rbRangeBegLen r n err ≠ none) : r.SumsFit n err := by
  rw [rbRangeBegLen_of_inRange hn h, begLenEnd_eq hn longMin_le_clipped] at hdef
  refine ⟨fun hexcl htop => ?_, ?_⟩
  · by_contra hcut
    have hclipped : r.clipped n err = L.longMax := by
      unfold IntRange.clipped
      rw [if_neg (htop ▸ hcut), htop]
    apply hdef
    rw [hclipped, fromEnd_of_nonneg L.longMax_pos.le, includeEndPoint, hexcl]
    exact congrArg (Option.bind · _)
      (LongSize.signed_eq_none_iff.mpr (Or.inr (Int.lt_succ _)))
  · by_contra hlt
    apply hdef
    have hmin := r.stop.min_le
    have hmax := r.beg.le_max
    have hrange := L.longMin_eq
    obtain ⟨hneg, hpos⟩ : r.stop.val < 0 ∧ 0 ≤ r.beg.val := by
      refine ⟨?_, ?_⟩ <;> split at hlt <;> omega
    have hstart : r.start n = r.beg.val := fromEnd_of_nonneg hpos
    have hpast : fromEnd n r.stop.val = r.stop.val + n := fromEnd_of_neg hneg
    rw [clipped_eq_of_neg hneg, hpast, hstart,
      includeEndPoint_eq (by omega) (fun _ => by omega), Option.bind_some]
    refine congrArg (Option.bind · _) (LongSize.signed_eq_none_iff.mpr (Or.inl ?_))
    omega

/-- An answer for a range that is in range is no report. -/
theorem begLenOutOfRange_ne_pair {beg len : ℤ} : begLenOutOfRange err ≠ .pair beg len := by
  unfold begLenOutOfRange
  split <;> simp

end Correctness

/-- **`rb_range_beg_len` does what it should exactly on the ranges that are out of range and those
whose two sums fit a `long`.** -/
theorem rangeSelectsRight_iff {L : LongSize} (r : IntRange L) (n : ℕ) (err : ℤ)
    (hn : (n : ℤ) ≤ L.longMax) :
    RangeSelectsRight r n err ↔ r.OutOfRange n err ∨ r.SumsFit n err := by
  by_cases hout : r.OutOfRange n err
  · have heq := rbRangeBegLen_of_outOfRange hn hout
    refine iff_of_true ⟨?_, iff_of_true heq hout, ?_⟩ (Or.inl hout)
    · simp [heq]
    · intro beg len hpair
      rw [heq] at hpair
      exact absurd (Option.some.inj hpair) begLenOutOfRange_ne_pair
  · constructor
    · intro h
      exact Or.inr (sumsFit_of_defined hn hout h.defined)
    · intro h
      have heq := rbRangeBegLen_eq hn hout (h.resolve_left hout)
      refine ⟨by simp [heq], iff_of_false ?_ hout, ?_⟩
      · rw [heq]
        exact fun hpair => begLenOutOfRange_ne_pair (Option.some.inj hpair).symm
      · intro beg len hpair i hi hlt
        rw [heq] at hpair
        cases Option.some.inj hpair
        exact selects_of_pair hlt

/-- The ranges of `a[1..-1]` are among these. -/
theorem rangeSelectsRight_tail :
    ((3 : ℕ) : ℤ) ≤ LongSize.lp64.longMax ∧
      RangeSelectsRight (L := .lp64) ⟨⟨1, by decide, by decide⟩, ⟨-1, by decide, by decide⟩, false⟩
        3 1 :=
  ⟨by decide, (rangeSelectsRight_iff _ 3 1 (by decide)).mpr (Or.inr (by decide))⟩

/-- Assigning to the positions from 0 to `LONG_MAX` increments `LONG_MAX`. -/
theorem not_rangeSelectsRight_max :
    ¬ RangeSelectsRight (L := .lp64)
      ⟨⟨0, by decide, by decide⟩, ⟨LongSize.lp64.longMax, by decide, le_rfl⟩, false⟩ 3 1 :=
  fun h => h.defined (by decide)

end MacRuby
