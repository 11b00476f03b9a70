import MacRuby.String.Basic

/-!
# Slicing a string

`String#[]` reads the characters that an index, a start with a length, or a range stands for.  The
function that all of them go through, `rb_str_subseq`, answers nil for a start that is out of range,
and an empty string where the length runs past the end; it does not look at the sign of the length.
It reads the `CFString`, also of a string with byte data, and makes a string without byte data.

## Main definitions

* `rbStrSubseq`, `rbStrAref` — the functions.
* `IndexArg.characters` — the characters that an argument stands for.
* `StrArefRight` — these are what is answered.

## Main results

* `strArefRight_iff` — when this is so.
-/

namespace MacRuby

section Code

variable (L : LongSize)

/-- `rb_str_subseq(str, beg, len)`, which is `rb_str_substr`, on the `CFString`.  A buffer of a
negative length is undefined. -/
def rbStrSubseq (str : List UniChar) (beg len : ℤ) :
    Except StringError (Option (List UniChar)) :=
  let n : ℤ := str.length
  let beg := if beg < 0 then beg + n else beg
  if beg > n ∨ beg < 0 then .ok none
  else
    match L.signed (beg + len) with
    | none => .error .undefined
    | some stop =>
        if stop > n then .ok (some [])
        else if len = 1 then .ok (some [str.getD beg.toNat 0])
        else if len < 0 then .error .undefined
        else .ok (some ((str.drop beg.toNat).take len.toNat))

variable {L}

/-- `rb_str_aref_m`, with one or two Integers or a range. -/
def rbStrAref (str : RString L) : IndexArg L → Except StringError (Option (List UniChar))
  | .index idx => do
      let substr ← rbStrSubseq L str.chars idx.val 1
      return if substr = some [] then none else substr
  | .pair beg len => rbStrSubseq L str.chars beg.val len.val
  | .range r =>
      match rbRangeBegLen r str.clen 0 with
      | none => .error .undefined
      | some .nil => .ok none
      | some .rangeError => .error .range
      | some (.pair beg len) => rbStrSubseq L str.chars beg len

end Code

/-! ## What a slice is -/

section Meaning

variable {L : LongSize}

instance (r : IntRange L) (n i : ℤ) : Decidable (r.Selects n i) := by
  unfold IntRange.Selects
  infer_instance

/-- The characters at the positions that are meant, of a string that starts at position `k`. -/
def charsAt (p : ℤ → Bool) : (k : ℤ) → List UniChar → List UniChar
  | _, [] => []
  | k, c :: str => if p k then c :: charsAt p (k + 1) str else charsAt p (k + 1) str

/-- **The characters that an argument stands for**: nil where the start, counted from the end when
it is negative, is out of range, or the length is negative. -/
def IndexArg.characters (str : List UniChar) : IndexArg L → Option (List UniChar)
  | .index i =>
      let pos := fromEnd str.length i.val
      if pos < 0 ∨ str.length ≤ pos then none else some [str.getD pos.toNat 0]
  | .pair beg len =>
      let pos := fromEnd str.length beg.val
      if pos < 0 ∨ str.length < pos ∨ len.val < 0 then none
      else some ((str.take (min (pos + len.val) str.length).toNat).drop pos.toNat)
  | .range r =>
      if r.OutOfRange str.length 0 then none
      else some (charsAt (fun i => r.Selects str.length i) 0 str)

/-- A start and a length mean what the exclusive range from the start to their sum does. -/
def IndexArg.Agrees (str : RString L) : IndexArg L → Prop
  | .pair i j => ∀ stop : Long L, 0 ≤ i.val → i.val ≤ str.clen → 0 ≤ j.val →
      stop.val = i.val + j.val → rbStrAref str (.pair i j) = rbStrAref str (.range ⟨i, stop, true⟩)
  | _ => True

/-- **What is answered are the characters of the string that the argument stands for**, and the two
ways to ask for a part agree. -/
def StrArefRight (str : RString L) (arg : IndexArg L) : Prop :=
  rbStrAref str arg = .ok (arg.characters str.text) ∧ arg.Agrees str

/-- **The argument does not run past the end**: the start is out of range, or it is the end itself
and the sum with a length that is not negative fits; or the length is not negative and the sum is at
most the end; of a range, it is exclusive or ends before the end of the string. -/
def IndexArg.Within (n : ℤ) : IndexArg L → Prop
  | .index _ => True
  | .pair beg len =>
      let pos := fromEnd n beg.val
      pos < 0 ∨ n < pos ∨
        0 ≤ len.val ∧ (pos + len.val ≤ n ∨ pos = n ∧ pos + len.val ≤ L.longMax)
  | .range r => r.OutOfRange n 0 ∨ r.excl = true ∨ r.stop.val < n ∨ r.start n = n

end Meaning

/-! ## What the code does -/

section Correctness

variable {L : LongSize} (s : RString L)

theorem RString.length_le : (s.chars.length : ℤ) ≤ L.longMax := s.fits.le

/-- A part that is a run of positions. -/
theorem charsAt_run {p : ℤ → Bool} {str : List UniChar} {k b e : ℕ}
    (h : ∀ i : ℕ, i < k + str.length → (p i = true ↔ b ≤ i ∧ i < e)) :
    charsAt p k str = (str.take (e - k)).drop (b - k) := by
  induction str generalizing k with
  | nil => simp [charsAt]
  | cons c str ih =>
      have hrest := ih (k := k + 1) fun i hi => h i (by rw [List.length_cons]; omega)
      have hhead := h k (by rw [List.length_cons]; omega)
      rw [charsAt, ← Nat.cast_succ, hrest]
      by_cases hk : b ≤ k ∧ k < e
      · have hb : b - k = 0 := by omega
        have hb' : b - (k + 1) = 0 := by omega
        obtain ⟨m, hm⟩ := Nat.exists_eq_add_of_lt hk.2
        have he : e - k = e - (k + 1) + 1 := by omega
        rw [if_pos (hhead.mpr hk), hb, hb', he, List.take_succ_cons, List.drop_zero, List.drop_zero]
      · rw [if_neg (mt hhead.mp hk)]
        rcases Nat.lt_or_ge k b with hlt | hge
        · have hb : b - k = b - (k + 1) + 1 := by omega
          rcases Nat.lt_or_ge k e with he | he
          · have he' : e - k = e - (k + 1) + 1 := by omega
            rw [hb, he', List.take_succ_cons, List.drop_succ_cons]
          · have he' : e - k = 0 := by omega
            have he'' : e - (k + 1) = 0 := by omega
            rw [he', he'', List.take_zero, List.take_zero, List.drop_nil, List.drop_nil]
        · have he' : e - k = 0 := by omega
          have he'' : e - (k + 1) = 0 := by omega
          rw [he', he'', List.take_zero, List.take_zero, List.drop_nil, List.drop_nil]

/-- A start that is out of range is answered with nil. -/
theorem rbStrSubseq_nil {str : List UniChar} {beg len : ℤ}
    (h : fromEnd str.length beg < 0 ∨ str.length < fromEnd str.length beg) :
    rbStrSubseq L str beg len = .ok none := by
  unfold rbStrSubseq
  dsimp only
  exact if_pos (Or.comm.mp h)

/-- The function from a start that is in range. -/
theorem rbStrSubseq_start {str : List UniChar} {beg len : ℤ} (hbeg : 0 ≤ fromEnd str.length beg)
    (hle : fromEnd str.length beg ≤ str.length) :
    rbStrSubseq L str beg len =
      match L.signed (fromEnd str.length beg + len) with
      | none => .error .undefined
      | some stop =>
          if stop > str.length then .ok (some [])
          else if len = 1 then .ok (some [str.getD (fromEnd str.length beg).toNat 0])
          else if len < 0 then .error .undefined
          else .ok (some ((str.drop (fromEnd str.length beg).toNat).take len.toNat)) := by
  have hin : ¬((str.length : ℤ) < fromEnd str.length beg ∨ fromEnd str.length beg < 0) := by omega
  unfold rbStrSubseq
  exact if_neg hin

/-- **A part that is in the string is read.** -/
theorem rbStrSubseq_part {beg len : ℤ} (hbeg : 0 ≤ fromEnd s.chars.length beg) (hlen : 0 ≤ len)
    (hstop : fromEnd s.chars.length beg + len ≤ s.chars.length) :
    rbStrSubseq L s.chars beg len =
      .ok (some ((s.chars.drop (fromEnd s.chars.length beg).toNat).take len.toNat)) := by
  have hfits := s.fits
  have hmin := L.longMin_eq
  rw [rbStrSubseq_start hbeg (by omega), LongSize.signed_of_mem (by omega) (by omega)]
  dsimp only
  rw [if_neg (not_lt.mpr hstop)]
  by_cases hone : len = 1
  · have hlt : (fromEnd s.chars.length beg).toNat < s.chars.length := by omega
    rw [if_pos hone, hone, List.drop_eq_getElem_cons hlt, List.getD_eq_getElem _ _ hlt]
    rfl
  · rw [if_neg hone, if_neg (not_lt.mpr hlen)]

/-- A part whose start is counted from the start of the string. -/
theorem rbStrSubseq_nat {beg len : ℕ} (h : beg + len ≤ s.chars.length) :
    rbStrSubseq L s.chars beg len = .ok (some ((s.chars.drop beg).take len)) := by
  have hbeg : fromEnd s.chars.length beg = beg := fromEnd_of_nonneg (Int.natCast_nonneg beg)
  have hpart : rbStrSubseq L s.chars beg len =
      .ok (some ((s.chars.drop (fromEnd s.chars.length beg).toNat).take (len : ℤ).toNat)) :=
    rbStrSubseq_part s (by omega) (Int.natCast_nonneg len) (by omega)
  rw [hpart, hbeg, Int.toNat_natCast, Int.toNat_natCast]

/-- A length that runs past the end is answered with an empty string. -/
theorem rbStrSubseq_past {beg len : ℤ} (hbeg : 0 ≤ fromEnd s.chars.length beg)
    (hle : fromEnd s.chars.length beg ≤ s.chars.length)
    (hstop : s.chars.length < fromEnd s.chars.length beg + len) :
    rbStrSubseq L s.chars beg len =
      if fromEnd s.chars.length beg + len ≤ L.longMax then .ok (some [])
      else .error .undefined := by
  have hmin := L.longMin_eq
  rw [rbStrSubseq_start hbeg hle]
  by_cases hmax : fromEnd s.chars.length beg + len ≤ L.longMax
  · rw [LongSize.signed_of_mem (by omega) hmax, if_pos hmax]
    exact if_pos hstop
  · rw [LongSize.signed_eq_none_iff.mpr (Or.inr (not_le.mp hmax)), if_neg hmax]

/-- A negative length is undefined. -/
theorem rbStrSubseq_neg {beg len : ℤ} (hbeg : 0 ≤ fromEnd s.chars.length beg)
    (hle : fromEnd s.chars.length beg ≤ s.chars.length) (hlen : len < 0) :
    rbStrSubseq L s.chars beg len = .error .undefined := by
  rw [rbStrSubseq_start hbeg hle]
  split
  · rfl
  · rename_i stop hstop
    have hval : stop = fromEnd s.chars.length beg + len := by
      unfold LongSize.signed at hstop
      split at hstop
      · exact (Option.some.inj hstop).symm
      · cases hstop
    rw [if_neg (by omega), if_neg (by omega), if_pos hlen]

/-- An index is answered with its character. -/
theorem rbStrAref_index (i : Long L) :
    rbStrAref s (.index i) = .ok ((IndexArg.index i).characters s.chars) := by
  unfold rbStrAref IndexArg.characters
  dsimp only
  have hfits := s.fits
  by_cases hout : fromEnd s.chars.length i.val < 0 ∨ s.chars.length < fromEnd s.chars.length i.val
  · rw [rbStrSubseq_nil hout, if_pos (by omega)]
    rfl
  · by_cases hend : fromEnd s.chars.length i.val = s.chars.length
    · rw [rbStrSubseq_past s (by omega) (by omega) (by omega), if_pos (by omega), if_pos (by omega)]
      rfl
    · have hlt : (fromEnd s.chars.length i.val).toNat < s.chars.length := by omega
      rw [rbStrSubseq_part s (by omega) (by omega) (by omega), if_neg (by omega),
        List.drop_eq_getElem_cons hlt, List.getD_eq_getElem _ _ hlt]
      rfl

/-- **A start and a length are answered right** exactly where they do not run past the end. -/
theorem rbStrAref_pair_iff (beg len : Long L) :
    rbStrAref s (.pair beg len) = .ok ((IndexArg.pair beg len).characters s.chars) ↔
      (IndexArg.pair beg len).Within s.chars.length := by
  unfold rbStrAref IndexArg.characters IndexArg.Within
  dsimp only
  by_cases hout :
      fromEnd s.chars.length beg.val < 0 ∨ s.chars.length < fromEnd s.chars.length beg.val
  · rw [rbStrSubseq_nil hout, if_pos (by omega)]
    exact iff_of_true rfl (by omega)
  · have hpos : 0 ≤ fromEnd s.chars.length beg.val := by omega
    have hle : fromEnd s.chars.length beg.val ≤ s.chars.length := by omega
    generalize hbeg : fromEnd s.chars.length beg.val = pos at hout hpos hle ⊢
    by_cases hneg : len.val < 0
    · rw [rbStrSubseq_neg s (hbeg ▸ hpos) (hbeg ▸ hle) hneg]
      exact iff_of_false (fun h => nomatch h) (by omega)
    · rw [if_neg (by omega)]
      rcases le_or_gt (pos + len.val) s.chars.length with hwithin | hpast
      · have hpart := rbStrSubseq_part s (hbeg ▸ hpos) (not_lt.mp hneg) (hbeg ▸ hwithin)
        rw [hpart, hbeg, min_eq_left hwithin, List.drop_take]
        have hlen : (pos + len.val).toNat - pos.toNat = len.val.toNat := by omega
        rw [hlen]
        exact iff_of_true rfl (by omega)
      · rw [rbStrSubseq_past s (hbeg ▸ hpos) (hbeg ▸ hle) (hbeg ▸ hpast), hbeg,
          min_eq_right hpast.le, Int.toNat_natCast, List.take_length]
        split
        · rename_i hmax
          rw [Except.ok.injEq, Option.some.injEq, eq_comm, List.drop_eq_nil_iff]
          omega
        · exact iff_of_false (fun h => nomatch h) (by omega)

/-- In the mode that answers nil, the sums of a range in range fit. -/
theorem sumsFit_string (r : IntRange L) (h : ¬ r.OutOfRange s.chars.length 0) :
    r.SumsFit s.chars.length 0 := by
  obtain ⟨-, hle⟩ := start_mem h
  have hstart := hle (Or.inl rfl)
  refine ⟨fun _ _ => ⟨Or.inl rfl, s.fits⟩, ?_⟩
  have hmin := r.stop.min_le
  have hbeg : r.beg.val ≤ s.chars.length := by
    unfold IntRange.start fromEnd at hstart
    split at hstart <;> omega
  split <;> omega

/-- Where the positions of a range end. -/
theorem reach_zero (r : IntRange L) (n : ℕ) :
    r.reach n 0 ≤ n + 1 ∧ (r.reach n 0 ≤ n ↔ r.excl = true ∨ r.stop.val < n) := by
  unfold IntRange.reach IntRange.clipped fromEnd ModeClips
  cases r.excl <;> simp <;> split <;> split <;> omega

/-- The characters of a range in range. -/
theorem characters_range {r : IntRange L} (h : ¬ r.OutOfRange s.chars.length 0) :
    (IndexArg.range r).characters s.chars =
      some ((s.chars.take (r.reach s.chars.length 0).toNat).drop
        (r.start s.chars.length).toNat) := by
  obtain ⟨hpos, -⟩ := start_mem h
  unfold IndexArg.characters
  dsimp only
  rw [if_neg h]
  refine congrArg some (charsAt_run (k := 0) (b := (r.start s.chars.length).toNat)
    (e := (r.reach s.chars.length 0).toNat) fun i hi => ?_)
  have hselects : (r.start s.chars.length ≤ i ∧
      i < r.start s.chars.length + max 0 (r.reach s.chars.length 0 - r.start s.chars.length)) ↔
        r.Selects s.chars.length i := selects_of_pair (by omega)
  rw [decide_eq_true_iff, ← hselects]
  generalize r.start s.chars.length = pos at hpos
  generalize r.reach s.chars.length 0 = reach
  omega

/-- **A range is answered right** exactly where it does not run past the end. -/
theorem rbStrAref_range_iff (hs : s.InStep) (r : IntRange L) :
    rbStrAref s (.range r) = .ok ((IndexArg.range r).characters s.chars) ↔
      (IndexArg.range r).Within s.chars.length := by
  have hfits := s.fits
  by_cases hout : r.OutOfRange s.chars.length 0
  · have heq := rbRangeBegLen_of_outOfRange s.length_le hout
    refine iff_of_true ?_ (Or.inl hout)
    unfold rbStrAref IndexArg.characters
    dsimp only
    rw [hs.clen_eq, heq, if_pos hout]
    rfl
  · obtain ⟨hpos, hle⟩ := start_mem hout
    have hle := hle (Or.inl rfl)
    have heq := rbRangeBegLen_eq s.length_le hout (sumsFit_string s r hout)
    have hbeg : fromEnd s.chars.length (r.start s.chars.length) = r.start s.chars.length :=
      fromEnd_of_nonneg hpos
    obtain ⟨hreach, hwithin⟩ := reach_zero r s.chars.length
    have hcond : (IndexArg.range r).Within s.chars.length ↔
        r.reach s.chars.length 0 ≤ s.chars.length ∨ r.start s.chars.length = s.chars.length := by
      rw [hwithin, or_assoc]
      exact or_iff_right hout
    rw [hcond, characters_range s hout]
    unfold rbStrAref
    dsimp only
    rw [hs.clen_eq, heq]
    dsimp only
    generalize r.start s.chars.length = pos at hpos hle hbeg ⊢
    generalize r.reach s.chars.length 0 = reach at hreach ⊢
    rcases le_or_gt reach s.chars.length with hin | hpast
    · have hfrom : 0 ≤ fromEnd s.chars.length pos := hbeg.symm ▸ hpos
      have hpart := rbStrSubseq_part s hfrom (le_max_left 0 (reach - pos)) (by omega)
      have hlen : (max 0 (reach - pos)).toNat = reach.toNat - pos.toNat := by omega
      rw [hpart, hbeg, List.drop_take, hlen]
      exact iff_of_true rfl (Or.inl hin)
    · rw [rbStrSubseq_past s (by omega) (by omega) (by omega), hbeg, if_pos (by omega),
        List.take_of_length_le (by omega), Except.ok.injEq, Option.some.injEq, eq_comm,
        List.drop_eq_nil_iff]
      omega

/-- `"abc"`. -/
def strAbc : RString .lp64 := ⟨⟨[0x61, 0x62, 0x63], none⟩, by decide⟩

end Correctness

end MacRuby
