import MacRuby.Array.Basic

/-!
# Replacing a part of an array

`rb_ary_splice` is behind `a[start, len] = r`, `Array#insert` and `Array#concat`, and `rb_ary_store`
behind `a[i] = v`.  A start beyond the end is to be reached by appending nil.  The two functions
have a loop of their own for this.  The one in `rb_ary_splice` runs from `n` to `beg - n`, so that
it appends `beg - 2 * n` nils where `beg - n` are needed.

## Main definitions

* `rbArySplice`, `rbAryStore`, `rbAryAset`, `rbAryInsertM`, `rbAryConcat` — the functions.
* `splicedList` — the documented effect.
* `SpliceCall`, `SpliceCall.Right` — a call, and that it does what is documented.

## Main results

* `rbArySplice_eq` — what the code does.
* `spliceCall_right_iff` — a call is right exactly when it has not to pad a nonempty array.
-/

namespace MacRuby

section Code

variable {α : Type} (L : LongSize) (nil : α) (ary : List α)

/-- The end of `rb_ary_splice(ary, beg, len, rpl)`, from where it modifies the array on. -/
def spliceInto (beg len : ℤ) (rpl : List α) : List α :=
  let n : ℤ := ary.length
  if beg ≥ n then
    let ary := Loop.upto (fun _ a => cfArrayAppendValue a nil) (beg - n - n).toNat ary
    if rpl.length > 0 then cfArrayAppendArray ary rpl 0 rpl.length else ary
  else
    cfArrayReplaceValues ary beg.toNat len.toNat
      (if rpl.length > 0 then cfArrayGetValues rpl 0 rpl.length else [])

/-- `if (n < len || n < beg + len) len = n - beg;` -/
def cutLen (n beg len : ℤ) : ℤ :=
  if n < len ∨ n < L.toLong (beg + len) then n - beg else len

/-- `rb_ary_splice(ary, beg, len, rpl)`, where `Qundef` is none. -/
def rbArySplice (beg len : ℤ) (rpl : Option (List α)) : ArrayResult α Unit :=
  let n : ℤ := ary.length
  if len < 0 then .error (.index s!"negative length ({len})") ary
  else if beg < 0 ∧ beg + n < 0 then .error (.index s!"index {beg} out of array") ary
  else
    let beg := if beg < 0 then beg + n else beg
    let len := cutLen L n beg len
    .ok () (spliceInto nil ary beg len (rpl.getD []))

/-- The test of `rb_ary_store` for a number of elements whose size is no `long`. -/
def indexTooBig (count : ℤ) : Prop := L.toLong (count * L.bytes) ≤ count

instance (count : ℤ) : Decidable (indexTooBig L count) := inferInstanceAs (Decidable (_ ≤ _))

/-- `rb_ary_store(ary, idx, val)`. -/
def rbAryStore (idx : ℤ) (val : α) : ArrayResult α Unit :=
  let len : ℤ := ary.length
  if idx < 0 ∧ idx + len < 0 then .error (.index s!"index {idx} out of array") ary
  else
    let idx := if idx < 0 then idx + len else idx
    if idx > len then
      if indexTooBig L (idx - len) then .error (.argument "index too big") ary
      else
        .ok () (cfArrayAppendValue
          (Loop.upto (fun _ a => cfArrayAppendValue a nil) (idx - len).toNat ary) val)
    else .ok () (cfArraySetValueAtIndex ary idx.toNat val)

variable {L}

/-- `rb_ary_aset`, where `toAry` is `rb_ary_to_ary`.  It is undefined where a computation of
`rb_range_beg_len` overflows. -/
def rbAryAset (toAry : α → List α) (arg : IndexArg L) (val : α) : Option (ArrayResult α Unit) :=
  match arg with
  | .pair beg len => some (rbArySplice L nil ary beg.val len.val (some (toAry val)))
  | .index offset => some (rbAryStore L nil ary offset.val val)
  | .range r =>
      match rbRangeBegLen r ary.length 1 with
      | some (.pair beg len) => some (rbArySplice L nil ary beg len (some (toAry val)))
      | some _ => some (.error .range ary)
      | none => none

variable (L)

/-- `rb_ary_insert_m`, of a position and the values that follow it. -/
def rbAryInsertM (pos : ℤ) (vals : List α) : ArrayResult α Unit :=
  if vals.length = 0 then .ok () ary
  else
    let pos := if pos = -1 then (ary.length : ℤ) else pos
    let pos := if pos < 0 then pos + 1 else pos
    rbArySplice L nil ary pos 0 (some vals)

/-- `rb_ary_concat(x, y)`. -/
def rbAryConcat (y : List α) : ArrayResult α Unit :=
  if y.length > 0 then rbArySplice L nil ary ary.length 0 (some y) else .ok () ary

end Code

/-! ## The documented effect -/

section Meaning

variable {α : Type} {L : LongSize} (nil : α) (toAry : α → List α) (a : List α)

/-- **The documented effect**: the elements before `start`, with nils up to there, then the
replacement, then what is left from `start + len` on. -/
def splicedList (start len : ℕ) (r : List α) : List α :=
  a.take start ++ List.replicate (start - a.length) nil ++ r ++ a.drop (start + len)

/-- The documented outcome of a splice at `beg`, which the exception names as `named`. -/
def spliced (beg named len : ℤ) (r : List α) : ArrayResult α Unit :=
  if len < 0 then .error (.index s!"negative length ({len})") a
  else if beg < 0 then .error (.index s!"index {named} out of array") a
  else .ok () (splicedList nil a beg.toNat len.toNat r)

/-- A call that splices, or that stores one element. -/
inductive SpliceCall (L : LongSize) (α : Type)
  /-- `rb_ary_splice(ary, beg, len, r)` -/
  | splice (beg len : Long L) (r : List α)
  /-- `ary[beg, len] = val` -/
  | assign (beg len : Long L) (val : α)
  /-- `ary.insert(pos, *vals)` -/
  | insert (pos : Long L) (vals : List α)
  /-- `ary.concat(y)` -/
  | concat (y : List α)
  /-- `ary[idx] = v` -/
  | store (idx : Long L) (v : α)

/-- The start of an insertion: after the element that a negative position names. -/
def insertStart (n pos : ℤ) : ℤ := if pos < 0 then pos + n + 1 else pos

/-- **The call does what is documented**; one that stores past the end does what the splice of the
one element does there. -/
def SpliceCall.Right : SpliceCall L α → Prop
  | .splice beg len r =>
      rbArySplice L nil a beg.val len.val (some r) =
        spliced nil a (fromEnd a.length beg.val) beg.val len.val r
  | .assign beg len val =>
      rbAryAset nil a toAry (.pair beg len) val =
        some (spliced nil a (fromEnd a.length beg.val) beg.val len.val (toAry val))
  | .insert pos vals =>
      rbAryInsertM L nil a pos.val vals =
        if vals = [] then .ok () a
        else spliced nil a (insertStart a.length pos.val) (pos.val + 1) 0 vals
  | .concat y => rbAryConcat L nil a y = .ok () (a ++ y)
  | .store idx v =>
      a.length < idx.val → rbAryStore L nil a idx.val v = rbArySplice L nil a idx.val 0 (some [v])

/-- **The call has no nils to add to a nonempty array**, or raises, and the index of a store is not
too big. -/
def SpliceCall.PadsNone : SpliceCall L α → Prop
  | .splice beg len _ => len.val < 0 ∨ fromEnd a.length beg.val ≤ a.length ∨ a = []
  | .assign beg len _ => len.val < 0 ∨ fromEnd a.length beg.val ≤ a.length ∨ a = []
  | .insert pos vals => vals = [] ∨ insertStart a.length pos.val ≤ a.length ∨ a = []
  | .concat _ => True
  | .store idx _ => idx.val ≤ a.length ∨ a = [] ∧ ¬ indexTooBig L idx.val

end Meaning

/-! ## What the code does -/

section Correctness

variable {α : Type} {L : LongSize} {nil : α} {toAry : α → List α}

/-- A part that is taken whole. -/
theorem getValues_all (rpl : List α) :
    (if rpl.length > 0 then cfArrayGetValues rpl 0 rpl.length else []) = rpl := by
  cases rpl with
  | nil => rfl
  | cons v vs => simp [cfArrayGetValues]

theorem appendArray_all (a rpl : List α) :
    (if rpl.length > 0 then cfArrayAppendArray a rpl 0 rpl.length else a) = a ++ rpl := by
  cases rpl with
  | nil => simp
  | cons v vs => simp [cfArrayAppendArray]

/-- Beyond the end, the nils that are added are too few by the length of the array. -/
theorem spliceInto_beyond {a rpl : List α} {beg len : ℤ} (h : (a.length : ℤ) ≤ beg) :
    spliceInto nil a beg len rpl =
      a ++ List.replicate (beg - a.length - a.length).toNat nil ++ rpl := by
  unfold spliceInto
  rw [if_pos (ge_iff_le.mpr h), appendArray_all, upto_append]

/-- **Inside the array a part is replaced.** -/
theorem spliceInto_inside {a rpl : List α} {beg len : ℤ} (h : beg < a.length) :
    spliceInto nil a beg len rpl = a.take beg.toNat ++ rpl ++ a.drop (beg.toNat + len.toNat) := by
  unfold spliceInto
  rw [if_neg (not_le.mpr h), getValues_all]
  rfl

/-- The length, cut off at the end of the array. -/
theorem cutLen_eq (a : RArray L α) {beg len : ℤ} (hbeg : 0 ≤ beg) (hle : beg ≤ a.elems.length)
    (hlen : 0 ≤ len) :
    cutLen L a.elems.length beg len = min len (a.elems.length - beg) := by
  unfold cutLen
  by_cases hlong : (a.elems.length : ℤ) < len
  · rw [if_pos (Or.inl hlong)]
    omega
  · have hfour := a.four_mul_length_le
    have hmin := L.longMin_eq
    have hfit : L.toLong (beg + len) = beg + len :=
      LongSize.toLong_of_mem (by omega) (by omega)
    rw [hfit]
    split <;> omega

/-- **What `rb_ary_splice` does**, from a start that counts from the front. -/
theorem rbArySplice_eq (a : RArray L α) (beg len : ℤ) (r : List α) :
    rbArySplice L nil a.elems beg len (some r) =
      if len < 0 then .error (.index s!"negative length ({len})") a.elems
      else if fromEnd a.elems.length beg < 0 then
        .error (.index s!"index {beg} out of array") a.elems
      else
        .ok () (spliceInto nil a.elems (fromEnd a.elems.length beg)
          (min len (a.elems.length - fromEnd a.elems.length beg)) r) := by
  unfold rbArySplice
  by_cases hlen : len < 0
  · simp only [if_pos hlen]
  · have hcond : beg < 0 ∧ beg + a.elems.length < 0 ↔ fromEnd a.elems.length beg < 0 := by
      unfold fromEnd
      split <;> omega
    simp only [if_neg hlen, hcond]
    by_cases hneg : fromEnd a.elems.length beg < 0
    · simp only [if_pos hneg]
    · simp only [if_neg hneg, Option.getD_some]
      change EStateM.Result.ok () (spliceInto nil a.elems (fromEnd a.elems.length beg) _ r) = _
      by_cases hin : fromEnd a.elems.length beg < a.elems.length
      · congr 2
        exact cutLen_eq a (not_lt.mp hneg) hin.le (not_lt.mp hlen)
      · rw [spliceInto_beyond (not_lt.mp hin), spliceInto_beyond (not_lt.mp hin)]

/-- A list that is padded and then extended has as many nils as it was padded with. -/
theorem pad_eq_iff {a r : List α} {j k : ℕ} :
    a ++ List.replicate j nil ++ r = a ++ List.replicate k nil ++ r ↔ j = k := by
  refine ⟨fun h => ?_, fun h => by rw [h]⟩
  have hlen := congrArg List.length h
  simpa using hlen

/-- **The splice is the documented one exactly where no nils are missing.** -/
theorem spliceInto_eq_iff (nil : α) (a : List α) {beg : ℤ} (len : ℤ) (r : List α) (hbeg : 0 ≤ beg) :
    spliceInto nil a beg (min len (a.length - beg)) r = splicedList nil a beg.toNat len.toNat r ↔
      beg ≤ a.length ∨ a = [] := by
  by_cases hin : beg < a.length
  · refine iff_of_true ?_ (Or.inl hin.le)
    have hpad : beg.toNat - a.length = 0 := by omega
    rw [spliceInto_inside hin, splicedList, hpad, List.replicate_zero, List.append_nil]
    congr 1
    by_cases hlen : len ≤ a.length - beg
    · rw [min_eq_left hlen]
    · rw [min_eq_right (not_le.mp hlen).le, List.drop_of_length_le (by omega),
        List.drop_of_length_le (by omega)]
  · have htake : a.take beg.toNat = a := List.take_of_length_le (by omega)
    have hdrop : a.drop (beg.toNat + len.toNat) = [] := List.drop_of_length_le (by omega)
    rw [spliceInto_beyond (not_lt.mp hin), splicedList, htake, hdrop, List.append_nil, pad_eq_iff]
    rw [← List.length_eq_zero_iff]
    omega

/-- **A splice is right exactly when it raises, or has no nils to add to a nonempty array.** -/
theorem rbArySplice_eq_spliced_iff (nil : α) (a : RArray L α) (beg len : ℤ) (r : List α) :
    rbArySplice L nil a.elems beg len (some r) =
        spliced nil a.elems (fromEnd a.elems.length beg) beg len r ↔
      len < 0 ∨ fromEnd a.elems.length beg ≤ a.elems.length ∨ a.elems = [] := by
  rw [rbArySplice_eq, spliced]
  by_cases hlen : len < 0
  · simp [hlen]
  · by_cases hneg : fromEnd a.elems.length beg < 0
    · simp only [if_neg hlen, if_pos hneg]
      exact iff_of_true trivial (Or.inr (Or.inl (by omega)))
    · have hiff := spliceInto_eq_iff nil a.elems len r (not_lt.mp hneg)
      simp only [if_neg hneg, hlen, if_false, false_or, ← hiff]
      exact ⟨fun h => (EStateM.Result.ok.inj h).2, fun h => by rw [h]⟩

/-- The name of the start matters to an exception only. -/
theorem spliced_named {a : List α} {beg p q len : ℤ} {r : List α} (h : 0 ≤ beg ∨ p = q) :
    spliced nil a beg p len r = spliced nil a beg q len r := by
  unfold spliced
  obtain h | rfl := h
  · rw [if_neg (not_lt.mpr h), if_neg (not_lt.mpr h)]
  · rfl

/-- The position that `rb_ary_insert_m` splices at. -/
theorem fromEnd_insert (n : ℕ) (pos : ℤ) :
    let p := if pos = -1 then (n : ℤ) else pos
    let p := if p < 0 then p + 1 else p
    fromEnd n p = insertStart n pos ∧ (0 ≤ insertStart n pos ∨ p = pos + 1) := by
  intro p q
  have hp : p = if pos = -1 then (n : ℤ) else pos := rfl
  have hq : q = if p < 0 then p + 1 else p := rfl
  clear_value p q
  unfold fromEnd insertStart
  split_ifs at * <;> omega

/-- **An insertion is right exactly when it inserts nothing, raises, or has no nils to add to a
nonempty array.** -/
theorem insert_right_iff (a : RArray L α) (pos : Long L) (vals : List α) :
    (SpliceCall.insert pos vals).Right nil toAry a.elems ↔
      (SpliceCall.insert pos vals).PadsNone a.elems := by
  simp only [SpliceCall.Right, SpliceCall.PadsNone, rbAryInsertM]
  by_cases hvals : vals = []
  · simp [hvals]
  · have hlen : vals.length ≠ 0 := List.length_eq_zero_iff.not.mpr hvals
    obtain ⟨hstart, hnamed⟩ := fromEnd_insert a.elems.length pos.val
    simp only [hvals, hlen, if_false, false_or]
    rw [← spliced_named hnamed, ← hstart, rbArySplice_eq_spliced_iff]
    simp

/-- **Concatenation is right.** -/
theorem concat_right (a : RArray L α) (y : List α) :
    rbAryConcat L nil a.elems y = .ok () (a.elems ++ y) := by
  unfold rbAryConcat
  cases y with
  | nil => simp
  | cons v vs =>
      have hend : fromEnd a.elems.length a.elems.length = a.elems.length :=
        fromEnd_of_nonneg (by omega)
      have hpos : ¬ (a.elems.length : ℤ) < 0 := by omega
      rw [if_pos (by simp), rbArySplice_eq, hend, if_neg (lt_irrefl 0), if_neg hpos,
        spliceInto_beyond le_rfl]
      simp

/-- **A store past the end is the splice there exactly when the array is empty and the index is not
too big.** -/
theorem store_right_iff (a : RArray L α) (idx : Long L) (v : α) :
    (SpliceCall.store idx v).Right nil toAry a.elems ↔
    (SpliceCall.store idx v).PadsNone a.elems := by
  simp only [SpliceCall.Right, SpliceCall.PadsNone]
  by_cases hin : idx.val ≤ a.elems.length
  · exact iff_of_true (fun h => absurd h (not_lt.mpr hin)) (Or.inl hin)
  · have hlt : (a.elems.length : ℤ) < idx.val := not_le.mp hin
    have hpos : ¬ idx.val < 0 := by omega
    have hstore : rbAryStore L nil a.elems idx.val v =
        if indexTooBig L (idx.val - a.elems.length) then
          .error (.argument "index too big") a.elems
        else .ok () (a.elems ++ List.replicate (idx.val - a.elems.length).toNat nil ++ [v]) := by
      unfold rbAryStore
      simp only [hpos, false_and, if_false, gt_iff_lt, if_pos hlt]
      rw [upto_append]
      rfl
    have hsplice : rbArySplice L nil a.elems idx.val 0 (some [v]) = .ok () (a.elems ++
        List.replicate (idx.val - a.elems.length - a.elems.length).toNat nil ++ [v]) := by
      rw [rbArySplice_eq, fromEnd_of_nonneg (not_lt.mp hpos), if_neg (lt_irrefl 0), if_neg hpos,
        spliceInto_beyond hlt.le]
    rw [hstore, hsplice]
    simp only [hlt, true_implies, hin, false_or]
    by_cases hbig : indexTooBig L (idx.val - a.elems.length)
    · rw [if_pos hbig]
      refine iff_of_false (fun h => by cases h) ?_
      rintro ⟨hnil, hfits⟩
      rw [hnil] at hbig
      exact hfits (by simpa using hbig)
    · rw [if_neg hbig]
      constructor
      · intro h
        have hpad := pad_eq_iff.mp (EStateM.Result.ok.inj h).2
        have hnil : a.elems = [] := List.length_eq_zero_iff.mp (by omega)
        rw [hnil] at hbig
        exact ⟨hnil, by simpa using hbig⟩
      · rintro ⟨hnil, -⟩
        rw [hnil]
        simp

end Correctness

/-- **A call is right exactly when it has not to pad a nonempty array.** -/
theorem spliceCall_right_iff {α : Type} {L : LongSize} (nil : α) (toAry : α → List α)
    (a : RArray L α) (call : SpliceCall L α) : call.Right nil toAry a.elems ↔
      call.PadsNone a.elems := by
  cases call with
  | splice beg len r => exact rbArySplice_eq_spliced_iff nil a beg.val len.val r
  | assign beg len val =>
      have hiff : (SpliceCall.assign beg len val).Right nil toAry a.elems ↔
          rbArySplice L nil a.elems beg.val len.val (some (toAry val)) =
            spliced nil a.elems (fromEnd a.elems.length beg.val) beg.val len.val (toAry val) :=
        ⟨fun h => Option.some.inj h, fun h => congrArg some h⟩
      exact hiff.trans (rbArySplice_eq_spliced_iff nil a beg.val len.val (toAry val))
  | insert pos vals => exact insert_right_iff a pos vals
  | concat y => exact iff_of_true (concat_right a y) trivial
  | store idx v => exact store_right_iff a idx v

/-- `[1][3, 0] = [2]` adds one nil, where two are needed. -/
theorem not_right_splice_three :
    ¬ (SpliceCall.splice (L := .lp64) ⟨3, by decide, by decide⟩ ⟨0, by decide, by decide⟩
      [some 2]).Right none (fun v => [v]) [some 1] := by
  intro h
  have hlen : [some 1, none, some 2] = [some 1, none, none, some 2] := (EStateM.Result.ok.inj h).2
  exact absurd hlen (by decide)

end MacRuby
