import MacRuby.Util.Strtoul
import Mathlib.Data.List.TakeWhile

/-!
# What `ruby_strtoul` reads

A `Subject` is one way to read the beginning of a string as a number: white space, a sign, what
tells the base, and digits.  A string has several of them, and `ruby_strtoul` takes the longest
one, whose value it returns or reports as too large.

## Main definitions

* `Lead`, `Subject` — the readings of a string.
* `strtoulLead`, `strtoulDigits` — what the code passes over, and the digits that it finds.

## Main results

* `Reading.length_le` — no reading is longer than that of the code.
* `rubyStrtoul_right` — the longest reading is taken.
-/

namespace MacRuby

/-! ## Readings -/

/-- What stands before the digits: nothing, `0`, or `0x` in either case. -/
inductive Lead
  | plain
  | zero
  | hex (upper : Bool)

namespace Lead

/-- How it is written. -/
def bytes : Lead → List UInt8
  | plain => []
  | zero => [48]
  | hex upper => [48, if upper then 88 else 120]

/-- The effective base. -/
def radix (base : ℕ) : Lead → ℕ
  | plain => if base = 0 then 10 else base
  | zero => if base = 0 then 8 else base
  | hex _ => 16

/-- Whether digits can stand behind it: after a lone `0` there need not be one, and with base 0 a
`0` at the beginning tells the base. -/
def Allows (base : ℕ) (digits : List UInt8) : Lead → Prop
  | plain => digits ≠ [] ∧ (base = 0 → digits.head? ≠ some 48)
  | zero => True
  | hex _ => (base = 0 ∨ base = 16) ∧ digits ≠ []

end Lead

/-- A number at the beginning of `s`, without its sign. -/
structure Reading (base : ℕ) (s : List UInt8) (lead : Lead) (digits : List UInt8) : Prop where
  starts : lead.bytes ++ digits <+: s
  allows : lead.Allows base digits
  isDigitOf : ∀ c ∈ digits, IsDigitOf (lead.radix base) c

/-- A way to read the beginning of a string as a number. -/
structure Subject (base : ℕ) (str : List UInt8) where
  spaces : List UInt8
  sign : List UInt8
  lead : Lead
  digits : List UInt8
  rest : List UInt8
  split : str = spaces ++ (sign ++ rest)
  isSpace_spaces : ∀ c ∈ spaces, isSpace c = true
  sign_mem : sign = [] ∨ sign = [43] ∨ sign = [45]
  reading : Reading base rest lead digits

namespace Subject

variable {base : ℕ} {str : List UInt8} (p : Subject base str)

/-- How many bytes it is made of. -/
def length : ℕ := p.spaces.length + p.sign.length + (p.lead.bytes.length + p.digits.length)

/-- The number, without its sign. -/
def value : ℕ := numeral (p.lead.radix base) 0 p.digits

/-- **What `ruby_strtoul` returns for it**: the number, which a sign negates in the word, or
`ULONG_MAX` and `ERANGE` for one that is no word. -/
def outcome (L : LongSize) : Strtoul :=
  if 2 ^ L.bits ≤ p.value then ⟨2 ^ L.bits - 1, some p.length, some .erange⟩
  else
    ⟨if p.sign = [45] then (2 ^ L.bits - p.value) % 2 ^ L.bits else p.value, some p.length, none⟩

end Subject

/-! ## The reading of the code -/

instance (base : ℕ) : DecidablePred (IsDigitOf base) := fun _ => instDecidableAnd

/-- `str[0] == '0'` and what follows it is an `x` that can tell the base. -/
def StartsHex (base : ℕ) (s : List UInt8) : Prop :=
  (base = 0 ∨ base = 16) ∧ ((s.drop 1).headD 0 = 120 ∨ (s.drop 1).headD 0 = 88)

instance (base : ℕ) (s : List UInt8) : Decidable (StartsHex base s) := instDecidableAnd

/-- The bytes that are passed over before the digits. -/
def strtoulSkip (base : ℕ) (s : List UInt8) : ℕ :=
  if s.headD 0 = 48 then if StartsHex base s then 2 else 1 else 0

/-- The base of the digits. -/
def strtoulRadix (base : ℕ) (s : List UInt8) : ℕ :=
  if s.headD 0 = 48 then
    if base = 0 ∨ base = 16 then if StartsHex base s then 16 else if base = 0 then 8 else 16
    else base
  else if base = 0 then 10 else base

/-- The digits that `scan_digits` finds. -/
def strtoulDigits (base : ℕ) (s : List UInt8) : List UInt8 :=
  (s.drop (strtoulSkip base s)).takeWhile fun c => decide (IsDigitOf (strtoulRadix base s) c)

/-- How many bytes are read after the sign. -/
def strtoulLength (base : ℕ) (s : List UInt8) : ℕ :=
  if 0 < (strtoulDigits base s).length then strtoulSkip base s + (strtoulDigits base s).length
  else if s.headD 0 = 48 then 1 else 0

section Longest

variable {base : ℕ} {s : List UInt8}

/-- Digits at the beginning are among those that are found. -/
theorem digits_starts {b : ℕ} {digits t : List UInt8} (h : digits <+: t)
    (hdigits : ∀ c ∈ digits, IsDigitOf b c) :
    digits <+: t.takeWhile fun c => decide (IsDigitOf b c) := by
  obtain ⟨rest, rfl⟩ := h
  rw [List.takeWhile_append_of_pos (by simpa using hdigits)]
  exact List.prefix_append _ _

/-- A byte that is no digit ends the digits. -/
theorem digits_nil {b : ℕ} {digits t : List UInt8} (h : digits <+: t)
    (hdigits : ∀ c ∈ digits, IsDigitOf b c) (hhead : ¬ IsDigitOf b (t.headD 0)) : digits = [] := by
  cases digits with
  | nil => rfl
  | cons d ds =>
      obtain ⟨rest, rfl⟩ := h
      exact absurd (hdigits d (by simp)) (by simpa using hhead)

/-- An `x` is no digit of the bases that it can tell. -/
theorem StartsHex.not_isDigitOf (h : StartsHex base s) :
    ¬ IsDigitOf (if base = 0 then 8 else base) ((s.drop 1).headD 0) := by
  obtain ⟨rfl | rfl, hx | hx⟩ := h <;> rw [hx] <;> decide

/-- A zero in front does not change a number. -/
theorem numeral_zero_cons (b : ℕ) (ds : List UInt8) : numeral b 0 (48 :: ds) = numeral b 0 ds := by
  have hzero : 0 * b + (digitTable 48).toNat = 0 := by
    rw [Nat.zero_mul]
    rfl
  rw [numeral, List.foldl_cons, hzero]
  rfl

/-- The digits of a reading begin with those of the code, or are them. -/
theorem digits_length_le {b k n : ℕ} {digits t : List UInt8} (h : digits <+: t)
    (hdigits : ∀ c ∈ digits, IsDigitOf b c)
    (hn : n = k + (t.takeWhile fun c => decide (IsDigitOf b c)).length) :
    k + digits.length ≤ n ∧ (k + digits.length = n →
      numeral b 0 digits = numeral b 0 (t.takeWhile fun c => decide (IsDigitOf b c))) := by
  have hstarts := digits_starts h hdigits
  have hle := hstarts.length_le
  refine ⟨by omega, ?_⟩
  intro heq
  rw [hstarts.eq_of_length (by omega)]

/-- A reading that does not begin with a zero. -/
theorem Reading.length_le_of_ne {lead : Lead} {digits : List UInt8}
    (h : Reading base s lead digits) (hs : s.headD 0 ≠ 48) :
    lead.bytes.length + digits.length ≤ strtoulLength base s ∧
      (lead.bytes.length + digits.length = strtoulLength base s →
        numeral (lead.radix base) 0 digits =
          numeral (strtoulRadix base s) 0 (strtoulDigits base s)) := by
  have hradix : strtoulRadix base s = if base = 0 then 10 else base := if_neg hs
  have hskip : strtoulSkip base s = 0 := if_neg hs
  obtain ⟨hstarts, -, hdigits⟩ := h
  cases lead with
  | plain =>
      rw [Lead.radix] at hdigits ⊢
      have hlength : strtoulLength base s = 0 + (strtoulDigits base s).length := by
        rw [strtoulLength, hskip, if_neg hs]
        split_ifs <;> omega
      rw [strtoulDigits, hskip, List.drop_zero, hradix] at hlength ⊢
      exact digits_length_le hstarts hdigits hlength
  | zero =>
      obtain ⟨rest, rfl⟩ := hstarts
      exact absurd rfl hs
  | hex upper =>
      obtain ⟨rest, rfl⟩ := hstarts
      exact absurd rfl hs

/-- A reading that begins with a zero, which is followed by an `x`. -/
theorem Reading.length_le_of_hex {t : List UInt8} {lead : Lead} {digits : List UInt8}
    (h : Reading base (48 :: t) lead digits) (hhex : StartsHex base (48 :: t)) :
    lead.bytes.length + digits.length ≤ strtoulLength base (48 :: t) ∧
      (lead.bytes.length + digits.length = strtoulLength base (48 :: t) →
        numeral (lead.radix base) 0 digits =
          numeral (strtoulRadix base (48 :: t)) 0 (strtoulDigits base (48 :: t))) := by
  have hhead : (48 :: t).headD 0 = 48 := rfl
  have hskip : strtoulSkip base (48 :: t) = 2 := by
    rw [strtoulSkip, if_pos hhead, if_pos hhex]
  have hradix : strtoulRadix base (48 :: t) = 16 := by
    rw [strtoulRadix, if_pos hhead, if_pos hhex.1, if_pos hhex]
  have hfound : strtoulDigits base (48 :: t) =
      (t.drop 1).takeWhile fun c => decide (IsDigitOf 16 c) := by
    rw [strtoulDigits, hskip, hradix]
    rfl
  have hlength : strtoulLength base (48 :: t) =
      if 0 < (strtoulDigits base (48 :: t)).length
      then 2 + (strtoulDigits base (48 :: t)).length else 1 := by
    rw [strtoulLength, hskip]
    rfl
  -- without the `x`, only the zero is read
  have hshort : ∀ ds : List UInt8, ds <+: t →
      (∀ c ∈ ds, IsDigitOf (if base = 0 then 8 else base) c) → ds = [] := by
    intro ds hds hall
    exact digits_nil hds hall (by simpa using hhex.not_isDigitOf)
  have hlone : 1 ≤ strtoulLength base (48 :: t) ∧ (1 = strtoulLength base (48 :: t) →
      numeral 16 0 (strtoulDigits base (48 :: t)) = 0) := by
    rw [hlength]
    split_ifs with hpos
    · exact ⟨by omega, fun heq => by omega⟩
    · rw [List.length_pos_iff, not_not] at hpos
      exact ⟨le_rfl, fun _ => by rw [hpos]; rfl⟩
  obtain ⟨hstarts, hallows, hdigits⟩ := h
  cases lead with
  | plain =>
      obtain ⟨hne, hzero⟩ := hallows
      obtain ⟨d, ds, rfl⟩ := List.exists_cons_of_ne_nil hne
      obtain ⟨rfl, hds⟩ := List.cons_prefix_cons.mp hstarts
      have hbase : base ≠ 0 := fun h0 => hzero h0 rfl
      rw [Lead.radix, if_neg hbase] at hdigits ⊢
      have hnil := hshort ds hds fun c hc => by
        rw [if_neg hbase]
        exact hdigits c (by simp [hc])
      subst hnil
      rw [hradix, numeral_zero_cons]
      exact ⟨hlone.1, fun heq => (hlone.2 heq).symm⟩
  | zero =>
      have hnil := hshort digits (List.cons_prefix_cons.mp hstarts).2 hdigits
      subst hnil
      rw [hradix]
      exact ⟨hlone.1, fun heq => (hlone.2 heq).symm⟩
  | hex upper =>
      have hds := (List.cons_prefix_cons.mp hstarts).2
      obtain ⟨x, t', rfl⟩ : ∃ x t', t = x :: t' := by
        obtain ⟨rest, rfl⟩ := hds
        exact ⟨_, _, rfl⟩
      have hds' := (List.cons_prefix_cons.mp hds).2
      have hpos : 0 < (strtoulDigits base (48 :: x :: t')).length := by
        rw [hfound]
        exact (List.length_pos_of_ne_nil hallows.2).trans_le
          (digits_starts hds' hdigits).length_le
      rw [if_pos hpos] at hlength
      rw [hradix, hfound] at *
      exact digits_length_le hds' hdigits hlength

/-- A reading that begins with a zero, which is not followed by an `x`. -/
theorem Reading.length_le_of_zero {t : List UInt8} {lead : Lead} {digits : List UInt8}
    (h : Reading base (48 :: t) lead digits) (hhex : ¬ StartsHex base (48 :: t)) :
    lead.bytes.length + digits.length ≤ strtoulLength base (48 :: t) ∧
      (lead.bytes.length + digits.length = strtoulLength base (48 :: t) →
        numeral (lead.radix base) 0 digits =
          numeral (strtoulRadix base (48 :: t)) 0 (strtoulDigits base (48 :: t))) := by
  have hhead : (48 :: t).headD 0 = 48 := rfl
  have hskip : strtoulSkip base (48 :: t) = 1 := by
    rw [strtoulSkip, if_pos hhead, if_neg hhex]
  have hradix : strtoulRadix base (48 :: t) = if base = 0 then 8 else base := by
    rw [strtoulRadix, if_pos hhead, if_neg hhex]
    split_ifs <;> omega
  have hlength : strtoulLength base (48 :: t) = 1 + (strtoulDigits base (48 :: t)).length := by
    rw [strtoulLength, hskip, if_pos hhead]
    split_ifs <;> omega
  rw [strtoulDigits, hskip, hradix, List.drop_one, List.tail_cons] at hlength ⊢
  obtain ⟨hstarts, hallows, hdigits⟩ := h
  cases lead with
  | plain =>
      obtain ⟨hne, hzero⟩ := hallows
      obtain ⟨d, ds, rfl⟩ := List.exists_cons_of_ne_nil hne
      obtain ⟨rfl, hds⟩ := List.cons_prefix_cons.mp hstarts
      have hbase : base ≠ 0 := fun h0 => hzero h0 rfl
      rw [Lead.radix, if_neg hbase] at hdigits ⊢
      rw [if_neg hbase] at hlength ⊢
      have hle := digits_length_le hds (fun c hc => hdigits c (by simp [hc])) hlength
      rw [numeral_zero_cons, List.length_cons, add_comm ds.length]
      simpa [Lead.bytes] using hle
  | zero => exact digits_length_le (List.cons_prefix_cons.mp hstarts).2 hdigits hlength
  | hex upper =>
      refine absurd ⟨hallows.1, ?_⟩ hhex
      obtain ⟨rest, hrest⟩ := (List.cons_prefix_cons.mp hstarts).2
      rw [← hrest]
      cases upper
      · exact .inl rfl
      · exact .inr rfl

/-- **No reading is longer than that of the code**, and one that is as long has its number. -/
theorem Reading.length_le {lead : Lead} {digits : List UInt8} (h : Reading base s lead digits) :
    lead.bytes.length + digits.length ≤ strtoulLength base s ∧
      (lead.bytes.length + digits.length = strtoulLength base s →
        numeral (lead.radix base) 0 digits =
          numeral (strtoulRadix base s) 0 (strtoulDigits base s)) := by
  by_cases hs : s.headD 0 = 48
  · cases s with
    | nil => exact absurd hs (by decide)
    | cons c t =>
        obtain rfl : c = 48 := hs
        by_cases hhex : StartsHex base (48 :: t)
        · exact h.length_le_of_hex hhex
        · exact h.length_le_of_zero hhex
  · exact h.length_le_of_ne hs

/-- **What the code reads is a reading**, if it reads anything. -/
theorem exists_reading (h : strtoulLength base s ≠ 0) :
    ∃ lead digits, Reading base s lead digits ∧
      lead.bytes.length + digits.length = strtoulLength base s := by
  have hall : ∀ c ∈ strtoulDigits base s, IsDigitOf (strtoulRadix base s) c := by
    intro c hc
    simpa using List.mem_takeWhile_imp hc
  have hstarts : strtoulDigits base s <+: s.drop (strtoulSkip base s) := List.takeWhile_prefix _
  by_cases hs : s.headD 0 = 48
  · cases s with
    | nil => exact absurd hs (by decide)
    | cons c t =>
        have hc : c = 48 := hs
        subst hc
        by_cases hhex : StartsHex base (48 :: t)
        · by_cases hpos : 0 < (strtoulDigits base (48 :: t)).length
          · rw [strtoulRadix, if_pos hs, if_pos hhex.1, if_pos hhex] at hall
            have hskip : strtoulSkip base (48 :: t) = 2 := by
              rw [strtoulSkip, if_pos hs, if_pos hhex]
            rw [hskip] at hstarts
            refine ⟨.hex (decide (t.headD 0 = 88)), strtoulDigits base (48 :: t),
              ⟨?_, ⟨hhex.1, ?_⟩, hall⟩, ?_⟩
            · cases t with
              | nil => exact absurd hhex.2 (by decide)
              | cons x t' =>
                  obtain hx | hx : x = 120 ∨ x = 88 := hhex.2
                  · subst hx
                    simpa [Lead.bytes] using hstarts
                  · subst hx
                    simpa [Lead.bytes] using hstarts
            · exact List.ne_nil_of_length_pos hpos
            · rw [strtoulLength, if_pos hpos, hskip]
              rfl
          · refine ⟨.zero, [], ⟨?_, trivial, by simp⟩, ?_⟩
            · exact ⟨t, rfl⟩
            · rw [strtoulLength, if_neg hpos, if_pos hs]
              rfl
        · have hskip : strtoulSkip base (48 :: t) = 1 := by
            rw [strtoulSkip, if_pos hs, if_neg hhex]
          rw [hskip] at hstarts
          refine ⟨.zero, strtoulDigits base (48 :: t),
            ⟨List.cons_prefix_cons.mpr ⟨rfl, hstarts⟩, trivial, ?_⟩, ?_⟩
          · intro c hc
            have hdigit := hall c hc
            rw [strtoulRadix, if_pos hs, if_neg hhex] at hdigit
            rw [Lead.radix]
            by_cases hbase : base = 0
            · simpa [hbase] using hdigit
            · by_cases h16 : base = 16
              · simpa [h16] using hdigit
              · simpa [hbase, h16] using hdigit
          · rw [strtoulLength, hskip, if_pos hs, Lead.bytes, List.length_singleton]
            split_ifs <;> omega
  · have hskip : strtoulSkip base s = 0 := if_neg hs
    rw [hskip, List.drop_zero] at hstarts
    have hpos : 0 < (strtoulDigits base s).length := by
      rw [strtoulLength, if_neg hs] at h
      split_ifs at h with hpos
      · exact hpos
      · exact absurd rfl h
    refine ⟨.plain, strtoulDigits base s, ⟨hstarts, ⟨List.ne_nil_of_length_pos hpos, ?_⟩, ?_⟩, ?_⟩
    · intro _ hhead
      obtain ⟨rest, hrest⟩ := hstarts
      cases hds : strtoulDigits base s with
      | nil => rw [hds] at hpos; exact absurd hpos (by simp)
      | cons d ds =>
          rw [hds] at hhead hrest
          apply hs
          rw [← hrest]
          simpa using hhead
    · rw [strtoulRadix, if_neg hs] at hall
      exact hall
    · rw [strtoulLength, if_pos hpos, hskip]
      rfl

end Longest

/-! ## The whole string -/

section Whole

variable {base : ℕ} {str spaces sign s : List UInt8}

/-- White space and a sign, behind which there is neither, or another sign. -/
structure Front (spaces sign s : List UInt8) : Prop where
  isSpace_spaces : ∀ c ∈ spaces, isSpace c = true
  sign_mem : sign = [] ∨ sign = [43] ∨ sign = [45]
  ends : sign = [] → isSpace (s.headD 0) = false ∧ s.headD 0 ≠ 43 ∧ s.headD 0 ≠ 45

/-- Every string has a front. -/
theorem exists_front (str : List UInt8) :
    ∃ spaces sign s, str = spaces ++ (sign ++ s) ∧ Front spaces sign s := by
  have hall : ∀ c ∈ str.takeWhile isSpace, isSpace c = true :=
    fun c hc => List.mem_takeWhile_imp hc
  have hsplit := (List.takeWhile_append_dropWhile (p := isSpace) (l := str)).symm
  cases hrest : str.dropWhile isSpace with
  | nil =>
      rw [hrest] at hsplit
      exact ⟨_, [], [], hsplit, hall, .inl rfl, fun _ => by decide⟩
  | cons c t =>
      rw [hrest] at hsplit
      by_cases hplus : c = 43
      · subst hplus
        exact ⟨_, [43], t, hsplit, hall, .inr (.inl rfl), fun h => by simp at h⟩
      by_cases hminus : c = 45
      · subst hminus
        exact ⟨_, [45], t, hsplit, hall, .inr (.inr rfl), fun h => by simp at h⟩
      have hspace : isSpace c = false := by
        have := List.head_dropWhile_not isSpace (w := by rw [hrest]; simp)
        simpa [hrest] using this
      exact ⟨_, [], c :: t, hsplit, hall, .inl rfl, fun _ => ⟨hspace, hplus, hminus⟩⟩

/-- A front is what the code passes over. -/
theorem Front.length_takeWhile (h : Front spaces sign s) :
    ((spaces ++ (sign ++ s)).takeWhile fun c => c != 0 && isSpace c).length = spaces.length := by
  have hne : ∀ c ∈ spaces, (c != 0 && isSpace c) = true := by
    intro c hc
    have hspace := h.isSpace_spaces c hc
    rw [Bool.and_eq_true]
    refine ⟨?_, hspace⟩
    rw [bne_iff_ne]
    rintro rfl
    exact absurd hspace (by decide)
  have hstop : (sign ++ s).takeWhile (fun c => c != 0 && isSpace c) = [] := by
    obtain rfl | rfl | rfl := h.sign_mem
    · cases s with
      | nil => rfl
      | cons c t =>
          have hspace := (h.ends rfl).1
          rw [List.headD_cons] at hspace
          simp [hspace]
    · rfl
    · rfl
  rw [List.takeWhile_append_of_pos hne, hstop, List.append_nil]

/-- The scan finds the digits, and what they stand for. -/
theorem scanDigits_eq (L : LongSize) (hbase : base = 0 ∨ 2 ≤ base ∧ base ≤ 36) :
    let r := scanDigits L (strtoulRadix base s) (s.drop (strtoulSkip base s)) ⟨0, 0, false⟩
    let v := numeral (strtoulRadix base s) 0 (strtoulDigits base s)
    r.retlen = (strtoulDigits base s).length ∧ r.overflow = decide (2 ^ L.bits ≤ v) ∧
      (r.overflow = false → r.ret = v) := by
  intro r v
  have hradix : 2 ≤ strtoulRadix base s ∧ strtoulRadix base s ≤ 36 := by
    rw [strtoulRadix]
    split_ifs <;> omega
  have hbits : 36 < 2 ^ L.bits := by cases L <;> decide
  have hall : ∀ c ∈ strtoulDigits base s, IsDigitOf (strtoulRadix base s) c := by
    intro c hc
    simpa using List.mem_takeWhile_imp hc
  have hsplit := List.takeWhile_append_dropWhile
    (p := fun c => decide (IsDigitOf (strtoulRadix base s) c)) (l := s.drop (strtoulSkip base s))
  have hrest : ∀ c ∈ ((s.drop (strtoulSkip base s)).dropWhile fun c =>
      decide (IsDigitOf (strtoulRadix base s) c)).head?, ¬ IsDigitOf (strtoulRadix base s) c := by
    intro c hc
    have hnot := List.head?_dropWhile_not (fun c => decide (IsDigitOf (strtoulRadix base s) c))
      (s.drop (strtoulSkip base s))
    rw [Option.mem_def.mp hc] at hnot
    simpa using hnot
  have hscan := scanDigits_numeral (L := L) hradix.1 (by omega) hall hrest ⟨0, 0, false⟩
    (by positivity)
  rw [strtoulDigits, hsplit] at hscan
  simp only [zero_add, Bool.false_or] at hscan
  exact hscan

/-- Where the number ends: at the beginning when there is none. -/
def strtoulEnd (base : ℕ) (spaces sign s : List UInt8) : ℕ :=
  if strtoulLength base s = 0 then 0 else spaces.length + sign.length + strtoulLength base s

/-- **What `ruby_strtoul` returns**, in terms of its reading. -/
theorem rubyStrtoul_eq (L : LongSize) (hbase : base = 0 ∨ 2 ≤ base ∧ base ≤ 36)
    (h : Front spaces sign s) :
    rubyStrtoul L (spaces ++ (sign ++ s)) base =
      if 2 ^ L.bits ≤ numeral (strtoulRadix base s) 0 (strtoulDigits base s) then
        ⟨2 ^ L.bits - 1, some (strtoulEnd base spaces sign s), some .erange⟩
      else
        ⟨if sign = [45]
          then (2 ^ L.bits - numeral (strtoulRadix base s) 0 (strtoulDigits base s)) % 2 ^ L.bits
          else numeral (strtoulRadix base s) 0 (strtoulDigits base s),
          some (strtoulEnd base spaces sign s), none⟩ := by
  have hdrop : (spaces ++ (sign ++ s)).drop spaces.length = sign ++ s := List.drop_left
  have hsign : ((sign ++ s).headD 0 = 43 ∨ (sign ++ s).headD 0 = 45) ↔ sign ≠ [] := by
    obtain rfl | rfl | rfl := h.sign_mem
    · have hno := (h.ends rfl).2
      simpa [not_or] using hno
    · simp
    · simp
  have hminus : (sign ++ s).headD 0 = 45 ↔ sign = [45] := by
    obtain rfl | rfl | rfl := h.sign_mem
    · have hno := (h.ends rfl).2.2
      simpa using hno
    · simp
    · simp
  have hstart : (if (sign ++ s).headD 0 = 43 ∨ (sign ++ s).headD 0 = 45
      then spaces.length + 1 else spaces.length) = spaces.length + sign.length := by
    simp only [hsign]
    obtain rfl | rfl | rfl := h.sign_mem <;> simp
  have hbody : (spaces ++ (sign ++ s)).drop (spaces.length + sign.length) = s := by
    rw [← List.drop_drop, hdrop, List.drop_left]
  obtain ⟨hlen, hover, hret⟩ := scanDigits_eq (s := s) L hbase
  rw [rubyStrtoul, if_neg (by omega)]
  dsimp only
  rw [h.length_takeWhile, hdrop, hstart, hbody]
  change (let r := scanDigits L (strtoulRadix base s) (s.drop (strtoulSkip base s)) ⟨0, 0, false⟩
    let found := if 0 < r.retlen then spaces.length + sign.length + strtoulSkip base s + r.retlen
      else if s.headD 0 = 48 then spaces.length + sign.length + 1 else 0
    if r.overflow = true then (⟨2 ^ L.bits - 1, some found, some .erange⟩ : Strtoul)
    else ⟨if (sign ++ s).headD 0 = 45 then (2 ^ L.bits - r.ret) % 2 ^ L.bits else r.ret,
      some found, none⟩) = _
  generalize scanDigits L (strtoulRadix base s) (s.drop (strtoulSkip base s)) ⟨0, 0, false⟩ = r at *
  have hfound : (if 0 < r.retlen then spaces.length + sign.length + strtoulSkip base s + r.retlen
      else if s.headD 0 = 48 then spaces.length + sign.length + 1 else 0) =
        strtoulEnd base spaces sign s := by
    rw [strtoulEnd, strtoulLength, hlen]
    split_ifs <;> omega
  dsimp only
  rw [hfound, hover]
  simp only [hminus, decide_eq_true_eq]
  split_ifs with hlarge hneg
  · rfl
  · rw [hret (by rw [hover, decide_eq_false hlarge])]
  · rw [hret (by rw [hover, decide_eq_false hlarge])]

/-- A number begins with a digit. -/
theorem Reading.front {lead : Lead} {digits : List UInt8} (hreading : Reading base s lead digits)
    (hspaces : ∀ c ∈ spaces, isSpace c = true) (hsign : sign = [] ∨ sign = [43] ∨ sign = [45]) :
    Front spaces sign s := by
  refine ⟨hspaces, hsign, fun _ => ?_⟩
  obtain ⟨⟨rest, rfl⟩, hallows, hdigits⟩ := hreading
  cases lead with
  | plain =>
      obtain ⟨d, ds, rfl⟩ := List.exists_cons_of_ne_nil hallows.1
      exact (hdigits d (by simp)).ne
  | zero =>
      have hdigit : isSpace 48 = false ∧ (48 : UInt8) ≠ 43 ∧ (48 : UInt8) ≠ 45 := by decide
      exact hdigit
  | hex upper =>
      have hdigit : isSpace 48 = false ∧ (48 : UInt8) ≠ 43 ∧ (48 : UInt8) ≠ 45 := by decide
      exact hdigit

/-- A number has a byte. -/
theorem Reading.length_pos {lead : Lead} {digits : List UInt8}
    (h : Reading base s lead digits) : 0 < lead.bytes.length + digits.length := by
  cases lead with
  | plain =>
      have := List.length_pos_of_ne_nil h.allows.1
      omega
  | zero => exact Nat.add_pos_left Nat.one_pos _
  | hex upper => exact Nat.add_pos_left Nat.two_pos _

/-- A string has one front. -/
theorem Front.unique {spaces' sign' s' : List UInt8} (h : Front spaces sign s)
    (h' : Front spaces' sign' s') (heq : spaces ++ (sign ++ s) = spaces' ++ (sign' ++ s')) :
    spaces = spaces' ∧ sign = sign' ∧ s = s' := by
  have hlen : spaces.length = spaces'.length := by
    rw [← h.length_takeWhile, heq, h'.length_takeWhile]
  obtain ⟨hspaces, hrest⟩ := List.append_inj heq hlen
  refine ⟨hspaces, ?_⟩
  obtain rfl | rfl | rfl := h.sign_mem
  · have hno := (h.ends rfl).2
    rw [List.nil_append] at hrest
    rw [hrest] at hno
    obtain rfl | rfl | rfl := h'.sign_mem
    · exact ⟨rfl, hrest⟩
    · exact absurd rfl hno.1
    · exact absurd rfl hno.2
  · obtain rfl | rfl | rfl := h'.sign_mem
    · have hno := (h'.ends rfl).2
      rw [List.nil_append] at hrest
      rw [← hrest] at hno
      exact absurd rfl hno.1
    · exact ⟨rfl, (List.cons.inj hrest).2⟩
    · exact absurd (List.cons.inj hrest).1 (by decide)
  · obtain rfl | rfl | rfl := h'.sign_mem
    · have hno := (h'.ends rfl).2
      rw [List.nil_append] at hrest
      rw [← hrest] at hno
      exact absurd rfl hno.2
    · exact absurd (List.cons.inj hrest).1 (by decide)
    · exact ⟨rfl, (List.cons.inj hrest).2⟩

/-- Every way to read a string has its front. -/
theorem Subject.length_le (p : Subject base (spaces ++ (sign ++ s))) (h : Front spaces sign s) :
    p.length ≤ spaces.length + sign.length + strtoulLength base s ∧ p.sign = sign ∧
      (p.length = spaces.length + sign.length + strtoulLength base s →
        p.value = numeral (strtoulRadix base s) 0 (strtoulDigits base s)) ∧
      strtoulLength base s ≠ 0 := by
  have hfront := p.reading.front p.isSpace_spaces p.sign_mem
  obtain ⟨hspaces, hsign, hrest⟩ := h.unique hfront p.split
  have hreading := p.reading
  rw [← hrest] at hreading
  have hpos := hreading.length_pos
  obtain ⟨hle, hvalue⟩ := hreading.length_le
  rw [Subject.length, ← hspaces, ← hsign]
  refine ⟨by omega, rfl, ?_, by omega⟩
  intro hlength
  exact hvalue (by omega)

/-- **The longest prefix that is a number is read to its end**, and its value is returned, or
reported as too large; a string without one is not read at all. -/
theorem rubyStrtoul_right (L : LongSize) (hbase : base = 0 ∨ 2 ≤ base ∧ base ≤ 36)
    (str : List UInt8) :
    (∀ p : Subject base str, (∀ q : Subject base str, q.length ≤ p.length) →
      rubyStrtoul L str base = p.outcome L) ∧
    (Nonempty (Subject base str) → ∃ p : Subject base str, ∀ q : Subject base str,
      q.length ≤ p.length) ∧
    (IsEmpty (Subject base str) → rubyStrtoul L str base = ⟨0, some 0, none⟩) := by
  obtain ⟨spaces, sign, s, rfl, hfront⟩ := exists_front str
  rw [rubyStrtoul_eq L hbase hfront]
  -- the reading of the code, if it reads anything
  have hlongest : strtoulLength base s ≠ 0 → ∃ p : Subject base (spaces ++ (sign ++ s)),
      p.length = spaces.length + sign.length + strtoulLength base s := by
    intro hne
    obtain ⟨lead, digits, hreading, hlength⟩ := exists_reading hne
    refine ⟨⟨spaces, sign, lead, digits, s, rfl, hfront.isSpace_spaces, hfront.sign_mem,
      hreading⟩, ?_⟩
    rw [Subject.length, hlength]
  refine ⟨?_, ?_, ?_⟩
  · intro p hp
    obtain ⟨hle, hsign, hvalue, hne⟩ := p.length_le hfront
    obtain ⟨p', hp'⟩ := hlongest hne
    have hlength : p.length = spaces.length + sign.length + strtoulLength base s := by
      have := hp p'
      omega
    have hend : strtoulEnd base spaces sign s = p.length := by
      rw [strtoulEnd, if_neg hne, hlength]
    rw [Subject.outcome, hvalue hlength, hsign, hend]
  · rintro ⟨q⟩
    obtain ⟨p, hp⟩ := hlongest (q.length_le hfront).2.2.2
    refine ⟨p, fun q => ?_⟩
    rw [hp]
    exact (q.length_le hfront).1
  · intro hempty
    have hzero : strtoulLength base s = 0 := by
      by_contra hne
      obtain ⟨p, -⟩ := hlongest hne
      exact hempty.false p
    have hnil : strtoulDigits base s = [] := by
      by_contra hne
      have hpos := List.length_pos_of_ne_nil hne
      rw [strtoulLength, if_pos hpos] at hzero
      omega
    have hpow : 0 < 2 ^ L.bits := by positivity
    have hvalue : numeral (strtoulRadix base s) 0 (strtoulDigits base s) = 0 := by
      rw [hnil]
      rfl
    rw [hvalue, strtoulEnd, if_pos hzero, if_neg (by omega)]
    simp

/-- `" -0x1fz"` with base 0. -/
theorem rubyStrtoul_right_hex :
    (∀ p : Subject 0 [32, 45, 48, 120, 49, 102, 122],
      (∀ q : Subject 0 [32, 45, 48, 120, 49, 102, 122], q.length ≤ p.length) →
      rubyStrtoul .lp64 [32, 45, 48, 120, 49, 102, 122] 0 = p.outcome .lp64) ∧
    (Nonempty (Subject 0 [32, 45, 48, 120, 49, 102, 122]) →
      ∃ p : Subject 0 [32, 45, 48, 120, 49, 102, 122],
        ∀ q : Subject 0 [32, 45, 48, 120, 49, 102, 122], q.length ≤ p.length) ∧
    (IsEmpty (Subject 0 [32, 45, 48, 120, 49, 102, 122]) →
      rubyStrtoul .lp64 [32, 45, 48, 120, 49, 102, 122] 0 = ⟨0, some 0, none⟩) :=
  rubyStrtoul_right .lp64 (.inl rfl) _

example : rubyStrtoul .lp64 [32, 45, 48, 120, 49, 102, 122] 0 =
    ⟨2 ^ 64 - 31, some 6, none⟩ := by decide

end Whole

end MacRuby
