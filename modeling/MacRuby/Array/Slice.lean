import MacRuby.Array.Splice

/-!
# Slicing an array, and deleting the slice

`Array#slice` reads the elements that an index, a start with a length, or a range stands for, and
`Array#slice!` deletes them too.  Both answer nil for what is out of range.  `slice!` cuts the
length off at the end of the array and then hands it to `rb_ary_subseq`, which answers nil for a
start beyond the end or a negative length, and to `rb_ary_splice`, which raises there.

## Main definitions

* `rbArySubseq`, `rbAryEntry`, `rbAryAref` — `Array#slice`.
* `rbAryDeleteAt`, `rbArySliceBang` — `Array#slice!`.
* `SliceBangRight` — `slice!` answers what `slice` does, and deletes just that.

## Main results

* `sliceBangRight_iff` — when this is so.
-/

namespace MacRuby

/-- What `Array#slice` answers: an element, or nil, or an array of elements. -/
inductive Sliced (α : Type)
  | one (v : α)
  | many (vs : List α)

/-- The elements that are answered. -/
def Sliced.elems {α : Type} : Sliced α → List α
  | .one v => [v]
  | .many vs => vs

section Code

variable {α : Type} {L : LongSize} (nil : α) (ary : List α)

/-- `rb_ary_elt(ary, offset)`. -/
def rbAryElt (offset : ℤ) : α :=
  let n : ℤ := ary.length
  if n = 0 then nil
  else if offset < 0 ∨ n ≤ offset then nil
  else ary.getD offset.toNat nil

/-- `rb_ary_entry(ary, offset)`. -/
def rbAryEntry (offset : ℤ) : α :=
  rbAryElt nil ary (if offset < 0 then offset + ary.length else offset)

/-- `rb_ary_subseq(ary, beg, len)`. -/
def rbArySubseq (L : LongSize) (beg len : ℤ) : Sliced α :=
  let n : ℤ := ary.length
  if beg < 0 ∨ len < 0 then .one nil
  else if beg > n then .one nil
  else
    let len := cutLen L n beg len
    .many (if len > 0 then cfArrayReplaceValues [] 0 0 (cfArrayGetValues ary beg.toNat len.toNat)
      else [])

/-- `rb_ary_aref`.  It is undefined where a computation of `rb_range_beg_len` overflows. -/
def rbAryAref (arg : IndexArg L) : Option (Sliced α) :=
  match arg with
  | .pair beg len =>
      some (rbArySubseq nil ary L (if beg.val < 0 then beg.val + ary.length else beg.val) len.val)
  | .index offset => some (.one (rbAryEntry nil ary offset.val))
  | .range r =>
      match rbRangeBegLen r ary.length 0 with
      | some (.pair beg len) => some (rbArySubseq nil ary L beg len)
      | some _ => some (.one nil)
      | none => none

/-- `rb_ary_delete_at(ary, pos)`. -/
def rbAryDeleteAt (pos : ℤ) : ArrayResult α (Sliced α) :=
  let len : ℤ := ary.length
  if pos ≥ len then .ok (.one nil) ary
  else if pos < 0 ∧ pos + len < 0 then .ok (.one nil) ary
  else
    let pos := if pos < 0 then pos + len else pos
    .ok (.one (ary.getD pos.toNat nil)) (cfArrayRemoveValueAtIndex ary pos.toNat)

/-- `rb_ary_slice_bang` from the label `delete_pos_len` on. -/
def deletePosLen (L : LongSize) (pos len : ℤ) : ArrayResult α (Sliced α) :=
  let alen : ℤ := ary.length
  if pos < 0 ∧ alen + pos < 0 then .ok (.one nil) ary
  else
    let pos := if pos < 0 then alen + pos else pos
    let len := cutLen L alen pos len
    let arg2 := rbArySubseq nil ary L pos len
    match rbArySplice L nil ary pos len none with
    | .ok _ ary => .ok arg2 ary
    | .error e ary => .error e ary

/-- `rb_ary_slice_bang`. -/
def rbArySliceBang (arg : IndexArg L) : Option (ArrayResult α (Sliced α)) :=
  match arg with
  | .pair pos len => some (deletePosLen nil ary L pos.val len.val)
  | .index pos => some (rbAryDeleteAt nil ary pos.val)
  | .range r =>
      match rbRangeBegLen r ary.length 0 with
      | some (.pair pos len) => some (deletePosLen nil ary L pos len)
      | some _ => some (.ok (.one nil) ary)
      | none => none

end Code

/-! ## What a slice is -/

section Meaning

variable {α : Type} {L : LongSize}

/-- The first position that the argument stands for, counted from the front. -/
def IndexArg.start (n : ℤ) : IndexArg L → ℤ
  | .index i => fromEnd n i.val
  | .pair beg _ => fromEnd n beg.val
  | .range r => r.start n

/-- The position is out of range, or the length is negative. -/
def IndexArg.Missing (n : ℤ) : IndexArg L → Prop
  | .index i => fromEnd n i.val < 0 ∨ n ≤ fromEnd n i.val
  | .pair beg len => len.val < 0 ∨ fromEnd n beg.val < 0 ∨ n < fromEnd n beg.val
  | .range r => r.OutOfRange n 0

instance (n : ℤ) (arg : IndexArg L) : Decidable (arg.Missing n) := by
  unfold IndexArg.Missing
  cases arg <;> infer_instance

/-- **`slice!` is `slice` followed by deletion**: where there is no such slice both answer nil and
the array stays; elsewhere both answer the same, and the array loses just the elements answered. -/
def SliceBangRight (nil : α) (a : List α) (arg : IndexArg L) : Prop :=
  (arg.Missing a.length →
    rbAryAref nil a arg = some (.one nil) ∧ rbArySliceBang nil a arg = some (.ok (.one nil) a)) ∧
  (¬ arg.Missing a.length → ∃ before after v, a = before ++ Sliced.elems v ++ after ∧
    (before.length : ℤ) = arg.start a.length ∧ rbAryAref nil a arg = some v ∧
    rbArySliceBang nil a arg = some (.ok v (before ++ after)))

/-- **The argument is no start in or beyond the array that comes with a negative length, or is
beyond the end.** -/
def IndexArg.Deletable (n : ℤ) : IndexArg L → Prop
  | .index _ => True
  | .pair beg len => fromEnd n beg.val < 0 ∨ 0 ≤ len.val ∧ fromEnd n beg.val ≤ n
  | .range _ => True

end Meaning

/-! ## What the code does -/

section Correctness

variable {α : Type} {L : LongSize} {nil : α} (a : RArray L α)

/-- **The elements from a position in the array on.** -/
theorem rbArySubseq_eq {beg len : ℤ} (hbeg : 0 ≤ beg) (hle : beg ≤ a.elems.length)
    (hlen : 0 ≤ len) : rbArySubseq nil a.elems L beg len =
      .many ((a.elems.drop beg.toNat).take (min len (a.elems.length - beg)).toNat) := by
  have hneg : ¬ (beg < 0 ∨ len < 0) := by omega
  unfold rbArySubseq
  simp only [if_neg hneg, gt_iff_lt, if_neg (not_lt.mpr hle), cutLen_eq a hbeg hle hlen]
  congr 1
  by_cases hpos : 0 < min len (a.elems.length - beg)
  · rw [if_pos hpos]
    simp [cfArrayReplaceValues, cfArrayGetValues]
  · have hzero : (min len (a.elems.length - beg)).toNat = 0 := Int.toNat_of_nonpos (not_lt.mp hpos)
    rw [if_neg hpos, hzero, List.take_zero]

/-- Outside of the array, or for a negative length, there are none. -/
theorem rbArySubseq_nil {beg len : ℤ} (h : beg < 0 ∨ len < 0 ∨ (a.elems.length : ℤ) < beg) :
    rbArySubseq nil a.elems L beg len = .one nil := by
  unfold rbArySubseq
  by_cases hneg : beg < 0 ∨ len < 0
  · exact if_pos hneg
  · have hgt : beg > a.elems.length := by omega
    simp only [if_neg hneg, if_pos hgt]

/-- **Deleting from a position in the array on.** -/
theorem deletePosLen_eq {pos len : ℤ} (hpos : 0 ≤ pos) (hle : pos ≤ a.elems.length)
    (hlen : 0 ≤ len) : deletePosLen nil a.elems L pos len =
      .ok (rbArySubseq nil a.elems L pos len)
        (a.elems.take pos.toNat ++
          a.elems.drop (pos.toNat + (min len (a.elems.length - pos)).toNat)) := by
  have hneg : ¬ pos < 0 := not_lt.mpr hpos
  have hcut : 0 ≤ min len (a.elems.length - pos) := by omega
  have hsplice := (rbArySplice_eq_spliced_iff nil a pos
    (min len (a.elems.length - pos)) []).mpr (Or.inr (Or.inl (by rwa [fromEnd_of_nonneg hpos])))
  have hpad : pos.toNat - a.elems.length = 0 := by omega
  rw [fromEnd_of_nonneg hpos, spliced, if_neg (not_lt.mpr hcut), if_neg hneg, splicedList, hpad,
    List.replicate_zero, List.append_nil, List.append_nil] at hsplice
  unfold deletePosLen
  simp only [hneg, false_and, if_false, cutLen_eq a hpos hle hlen]
  change (match rbArySplice L nil a.elems pos (min len (a.elems.length - pos)) (some []) with
    | .ok _ ary => EStateM.Result.ok _ ary
    | .error e ary => .error e ary) = _
  rw [hsplice, rbArySubseq_eq a hpos hle hcut, rbArySubseq_eq a hpos hle hlen, min_assoc, min_self]

/-- The three parts of an array. -/
theorem take_take_drop (l : List α) (p k : ℕ) :
    l = l.take p ++ (l.drop p).take k ++ l.drop (p + k) := by
  rw [List.append_assoc, ← List.drop_drop, List.take_append_drop, List.take_append_drop]

/-- **`slice!` of a part of the array is right.** -/
theorem sliceBangRight_part {arg : IndexArg L} {pos len : ℤ} (hpos : 0 ≤ pos)
    (hle : pos ≤ a.elems.length) (hlen : 0 ≤ len) (hin : ¬ arg.Missing a.elems.length)
    (hstart : arg.start a.elems.length = pos)
    (href : rbAryAref nil a.elems arg = some (rbArySubseq nil a.elems L pos len))
    (hbang : rbArySliceBang nil a.elems arg = some (deletePosLen nil a.elems L pos len)) :
    SliceBangRight nil a.elems arg := by
  refine ⟨fun h => absurd h hin, fun _ => ?_⟩
  rw [rbArySubseq_eq a hpos hle hlen] at href
  rw [deletePosLen_eq a hpos hle hlen, rbArySubseq_eq a hpos hle hlen] at hbang
  refine ⟨_, _, _, take_take_drop _ _ _, ?_, href, hbang⟩
  rw [List.length_take, hstart]
  omega

/-- The element at a position of the array. -/
theorem rbAryElt_eq {p : ℤ} (hpos : 0 ≤ p) (hlt : p < a.elems.length) :
    rbAryElt nil a.elems p = a.elems.getD p.toNat nil := by
  have hne : ¬ (a.elems.length : ℤ) = 0 := by omega
  have hin : ¬ (p < 0 ∨ (a.elems.length : ℤ) ≤ p) := by omega
  unfold rbAryElt
  rw [if_neg hne, if_neg hin]

theorem rbAryElt_nil {p : ℤ} (h : p < 0 ∨ (a.elems.length : ℤ) ≤ p) :
    rbAryElt nil a.elems p = nil := by
  simp only [rbAryElt, if_pos h, ite_self]

/-- Deleting at a position that counts from the front. -/
theorem rbAryDeleteAt_eq (pos : ℤ) : rbAryDeleteAt nil a.elems pos =
    if fromEnd a.elems.length pos < 0 ∨ (a.elems.length : ℤ) ≤ fromEnd a.elems.length pos then
      .ok (.one nil) a.elems
    else
      .ok (.one (a.elems.getD (fromEnd a.elems.length pos).toNat nil))
        (a.elems.eraseIdx (fromEnd a.elems.length pos).toNat) := by
  unfold rbAryDeleteAt
  by_cases hneg : pos < 0
  · have hlt : ¬ pos ≥ a.elems.length := by omega
    have hcond : pos + a.elems.length < 0 ∨ (a.elems.length : ℤ) ≤ pos + a.elems.length ↔
        pos + a.elems.length < 0 := by omega
    simp only [if_neg hlt, hneg, true_and, fromEnd_of_neg hneg, hcond]
    rfl
  · simp only [hneg, false_and, if_false, false_or, fromEnd_of_nonneg (not_lt.mp hneg), ge_iff_le]
    rfl

/-- **`slice!` of an index is right.** -/
theorem sliceBangRight_index (i : Long L) : SliceBangRight nil a.elems (.index i) := by
  have href : rbAryAref nil a.elems (.index i) =
      some (.one (rbAryElt nil a.elems (fromEnd a.elems.length i.val))) := rfl
  have hbang : rbArySliceBang nil a.elems (.index i) =
      some (if (IndexArg.index i).Missing a.elems.length then .ok (.one nil) a.elems
        else .ok (.one (a.elems.getD (fromEnd a.elems.length i.val).toNat nil))
          (a.elems.eraseIdx (fromEnd a.elems.length i.val).toNat)) :=
    congrArg some (rbAryDeleteAt_eq a i.val)
  refine ⟨fun h => ?_, fun h => ?_⟩
  · rw [rbAryElt_nil a h] at href
    rw [if_pos h] at hbang
    exact ⟨href, hbang⟩
  · have hin := h
    simp only [IndexArg.Missing, not_or, not_lt, not_le] at hin
    obtain ⟨hpos, hlt⟩ := hin
    have hone : (a.elems.drop (fromEnd a.elems.length i.val).toNat).take 1 =
        [a.elems.getD (fromEnd a.elems.length i.val).toNat nil] := by
      rw [List.drop_eq_getElem_cons (by omega), List.getD_eq_getElem _ _ (by omega)]
      rfl
    rw [rbAryElt_eq a hpos hlt] at href
    rw [if_neg h, List.eraseIdx_eq_take_drop_succ] at hbang
    refine ⟨_, _, _, ?_, ?_, href, hbang⟩
    · change a.elems = _ ++ [_] ++ _
      rw [← hone]
      exact take_take_drop _ _ _
    · rw [List.length_take]
      change _ = fromEnd a.elems.length i.val
      omega

/-- In the mode that answers nil, the sums of a range in range fit. -/
theorem sumsFit_zero (r : IntRange L) (h : ¬ r.OutOfRange a.elems.length 0) :
    r.SumsFit a.elems.length 0 := by
  obtain ⟨-, hle⟩ := start_mem h
  have hstart := hle (Or.inl rfl)
  refine ⟨fun _ _ => ⟨Or.inl rfl, a.length_lt⟩, ?_⟩
  have hmin := r.stop.min_le
  have hbeg : r.beg.val ≤ a.elems.length := by
    unfold IntRange.start fromEnd at hstart
    split at hstart <;> omega
  split <;> omega

/-- **`slice!` of a range is right.** -/
theorem sliceBangRight_range (r : IntRange L) : SliceBangRight nil a.elems (.range r) := by
  by_cases hout : r.OutOfRange a.elems.length 0
  · have heq := rbRangeBegLen_of_outOfRange a.length_le hout
    refine ⟨fun _ => ?_, fun h => absurd hout h⟩
    simp only [rbAryAref, rbArySliceBang, heq]
    exact ⟨rfl, rfl⟩
  · obtain ⟨hpos, hle⟩ := start_mem hout
    have heq := rbRangeBegLen_eq a.length_le hout (sumsFit_zero a r hout)
    have hlen := le_max_left 0 (r.reach a.elems.length 0 - r.start a.elems.length)
    refine sliceBangRight_part a hpos (hle (Or.inl rfl)) hlen hout rfl ?_ ?_
    · simp only [rbAryAref, heq]
    · simp only [rbArySliceBang, heq]

/-- A position before the array has nothing to delete. -/
theorem deletePosLen_before {pos len : ℤ} (h : fromEnd a.elems.length pos < 0) :
    deletePosLen nil a.elems L pos len = .ok (.one nil) a.elems := by
  have hneg : pos < 0 ∧ (a.elems.length : ℤ) + pos < 0 := by
    unfold fromEnd at h
    split at h <;> omega
  exact if_pos hneg

/-- A position from the end on. -/
theorem deletePosLen_fromEnd {pos len : ℤ} (h : 0 ≤ fromEnd a.elems.length pos) :
    deletePosLen nil a.elems L pos len =
      deletePosLen nil a.elems L (fromEnd a.elems.length pos) len := by
  by_cases hneg : pos < 0
  · rw [fromEnd_of_neg hneg] at h ⊢
    have hcond : ¬ pos + (a.elems.length : ℤ) < 0 := by omega
    simp only [deletePosLen, hneg, hcond, and_false, false_and, if_true, if_false,
      add_comm (a.elems.length : ℤ) pos]
  · rw [fromEnd_of_nonneg (not_lt.mp hneg)]

/-- **Beyond the end, or for a negative length, `slice!` raises or changes the array.** -/
theorem deletePosLen_ne {pos len : ℤ} (hpos : 0 ≤ pos) (h : len < 0 ∨ (a.elems.length : ℤ) < pos)
    (hmin : L.longMin ≤ len) (hmax : pos ≤ L.longMax) :
    deletePosLen nil a.elems L pos len ≠ .ok (.one nil) a.elems := by
  have hneg : ¬ pos < 0 := not_lt.mpr hpos
  unfold deletePosLen
  simp only [hneg, false_and, if_false]
  change (match rbArySplice L nil a.elems pos (cutLen L a.elems.length pos len) (some []) with
    | .ok _ ary => EStateM.Result.ok _ ary
    | .error e ary => .error e ary) ≠ _
  rw [rbArySplice_eq, fromEnd_of_nonneg hpos]
  by_cases hcut : cutLen L a.elems.length pos len < 0
  · rw [if_pos hcut]
    simp
  · -- the sum of position and length has wrapped, and the array is padded
    have hfour := a.four_mul_length_le
    have hrange := L.longMin_eq
    have hfar : L.longMax < pos + len ∧ len ≤ a.elems.length := by
      have hfit (hle : pos + len ≤ L.longMax) : L.toLong (pos + len) = pos + len :=
        LongSize.toLong_of_mem (by omega) hle
      unfold cutLen at hcut
      by_cases hover : pos + len ≤ L.longMax
      · rw [hfit hover] at hcut
        split at hcut <;> omega
      · split at hcut <;> omega
    rw [if_neg hcut, if_neg hneg, spliceInto_beyond (by omega)]
    intro heq
    have hlen := congrArg List.length (EStateM.Result.ok.inj heq).2
    simp only [List.append_nil, List.length_append, List.length_replicate] at hlen
    omega

/-- **`slice!` of a start and a length is right exactly when there is nothing to answer before the
array, or the slice is one in the array.** -/
theorem sliceBangRight_pair_iff (beg len : Long L) :
    SliceBangRight nil a.elems (.pair beg len) ↔
      (IndexArg.pair beg len).Deletable a.elems.length := by
  have href : rbAryAref nil a.elems (.pair beg len) =
      some (rbArySubseq nil a.elems L (fromEnd a.elems.length beg.val) len.val) := rfl
  have hbang : rbArySliceBang nil a.elems (.pair beg len) =
      some (deletePosLen nil a.elems L beg.val len.val) := rfl
  by_cases hneg : fromEnd a.elems.length beg.val < 0
  · refine iff_of_true ⟨fun _ => ?_, fun h => absurd (Or.inr (Or.inl hneg)) h⟩ (Or.inl hneg)
    rw [href, hbang, rbArySubseq_nil a (Or.inl hneg), deletePosLen_before a hneg]
    exact ⟨rfl, rfl⟩
  · have hpos := not_lt.mp hneg
    rw [deletePosLen_fromEnd a hpos] at hbang
    by_cases hin : 0 ≤ len.val ∧ fromEnd a.elems.length beg.val ≤ a.elems.length
    · obtain ⟨hlen, hle⟩ := hin
      refine iff_of_true ?_ (Or.inr ⟨hlen, hle⟩)
      refine sliceBangRight_part a hpos hle hlen ?_ rfl href hbang
      simp only [IndexArg.Missing]
      omega
    · have hmiss : (IndexArg.pair beg len).Missing a.elems.length := by
        simp only [IndexArg.Missing]
        omega
      refine iff_of_false (fun h => ?_) (fun h => hin (h.resolve_left hneg))
      have hmax : fromEnd a.elems.length beg.val ≤ L.longMax :=
        start_le_longMax (r := ⟨beg, beg, false⟩) a.length_le
      refine deletePosLen_ne a hpos ?_ len.min_le hmax
        (Option.some.inj (hbang.symm.trans (h.1 hmiss).2))
      omega

end Correctness

/-- **`slice!` is `slice` followed by deletion, but for a negative length or a start beyond the
end.** -/
theorem sliceBangRight_iff {α : Type} {L : LongSize} (nil : α) (a : RArray L α)
    (arg : IndexArg L) :
    SliceBangRight nil a.elems arg ↔ arg.Deletable a.elems.length := by
  cases arg with
  | index i => exact iff_of_true (sliceBangRight_index a i) trivial
  | pair beg len => exact sliceBangRight_pair_iff a beg len
  | range r => exact iff_of_true (sliceBangRight_range a r) trivial

/-- `[1].slice!(2, 1)` raises, where `[1].slice(2, 1)` is nil. -/
theorem not_sliceBangRight_beyond :
    ¬ SliceBangRight (L := .lp64) none [some 1]
      (.pair ⟨2, by decide, by decide⟩ ⟨1, by decide, by decide⟩) := by
  intro h
  have hbang := (h.1 (by decide)).2
  cases hbang

end MacRuby
