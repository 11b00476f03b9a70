import MacRuby.Bignum.Basic

/-!
# Reading machine words

`ruby_strtoul` of `util.c`, with its loop `scan_digits`. A C string is the list of its bytes
before the terminating NUL.

## Main definitions

* `scanDigits` — the digits at the beginning of a string, and whether they fit a word.
* `rubyStrtoul` — the whole function, with what it leaves in `endptr` and `errno`.
* `numeral` — the number that a list of digits stands for.

## Main results

* `scanDigits_numeral` — the digits are read to their end, and overflow is noticed.
* `rubyStrtoul_numeral` — the function on a numeral of any base.
-/

namespace MacRuby

/-- The table of `scan_digits`: the value of a digit or a letter, -1 for any other byte. -/
def digitTable (c : UInt8) : ℤ :=
  if 48 ≤ c ∧ c ≤ 57 then c.toNat - 48
  else if 65 ≤ c ∧ c ≤ 90 then c.toNat - 55
  else if 97 ≤ c ∧ c ≤ 122 then c.toNat - 87
  else -1

theorem neg_one_le_digitTable (c : UInt8) : -1 ≤ digitTable c := by
  unfold digitTable
  split_ifs with h1 h2 h3
  · have h : 48 ≤ c.toNat := UInt8.le_iff_toNat_le.mp h1.1
    omega
  · have h : 65 ≤ c.toNat := UInt8.le_iff_toNat_le.mp h2.1
    omega
  · have h : 97 ≤ c.toNat := UInt8.le_iff_toNat_le.mp h3.1
    omega
  · exact le_rfl

/-- `ISSPACE(c)`. -/
def isSpace (c : UInt8) : Bool := c == 32 || (9 ≤ c && c ≤ 13)

/-- `ISDIGIT(c)`. -/
def isDigit (c : UInt8) : Bool := 48 ≤ c && c ≤ 57

/-- What `scan_digits` returns. -/
structure ScanResult where
  ret : ℕ
  retlen : ℕ
  overflow : Bool
  deriving DecidableEq, Repr

/-- `scan_digits(str, base, &retlen, &overflow)`, from the middle of its loop. -/
def scanDigits (L : LongSize) (base : ℕ) : List UInt8 → ScanResult → ScanResult
  | [], r => r
  | c :: cs, r =>
      let d := digitTable c
      if c = 0 ∨ d = -1 ∨ base ≤ d then r
      else
        let x := r.ret * base % 2 ^ L.bits
        let ret := (x + d.toNat) % 2 ^ L.bits
        scanDigits L base cs
          ⟨ret, r.retlen + 1, r.overflow || (2 ^ L.bits - 1) / base < r.ret || ret < x⟩

/-- The values of `errno` that `ruby_strtoul` sets. -/
inductive Errno
  | einval
  | erange
  deriving DecidableEq, Repr

/-- The result of `ruby_strtoul`; `endptr` is the number of bytes before it, when it is set. -/
structure Strtoul where
  value : ℕ
  endptr : Option ℕ
  errno : Option Errno
  deriving DecidableEq, Repr

/-- `ruby_strtoul(str, endptr, base)`. -/
def rubyStrtoul (L : LongSize) (str : List UInt8) (base : ℕ) : Strtoul :=
  if base = 1 ∨ 36 < base then ⟨0, none, some .einval⟩
  else
    let spaces := (str.takeWhile fun c => c != 0 && isSpace c).length
    let c := (str.drop spaces).headD 0
    let start := if c = 43 ∨ c = 45 then spaces + 1 else spaces
    let s := str.drop start
    let zero := s.headD 0 = 48
    let hex := (base = 0 ∨ base = 16) ∧ ((s.drop 1).headD 0 = 120 ∨ (s.drop 1).headD 0 = 88)
    -- the prefix that is passed over, and the base that is left
    let skip := if zero then if hex then 2 else 1 else 0
    let b := if zero then
        if base = 0 ∨ base = 16 then if hex then 16 else if base = 0 then 8 else 16 else base
      else if base = 0 then 10 else base
    let r := scanDigits L b (s.drop skip) ⟨0, 0, false⟩
    let found := if zero then start + 1 else 0
    let found := if 0 < r.retlen then start + skip + r.retlen else found
    if r.overflow then ⟨2 ^ L.bits - 1, some found, some .erange⟩
    else ⟨if c = 45 then (2 ^ L.bits - r.ret) % 2 ^ L.bits else r.ret, some found, none⟩

/-! ## Numerals -/

/-- The number that a list of digits stands for, the most significant first, after a number `n`. -/
def numeral (base n : ℕ) (ds : List UInt8) : ℕ :=
  ds.foldl (fun n c => n * base + (digitTable c).toNat) n

theorem le_numeral {base : ℕ} (hbase : 0 < base) (n : ℕ) (ds : List UInt8) :
    n ≤ numeral base n ds := by
  induction ds generalizing n with
  | nil => exact le_rfl
  | cons c cs ih =>
      calc n ≤ n * base + (digitTable c).toNat := by nlinarith
        _ ≤ numeral base n (c :: cs) := ih _

/-- `c` is a digit of the base. -/
def IsDigitOf (base : ℕ) (c : UInt8) : Prop := 0 ≤ digitTable c ∧ digitTable c < base

theorem IsDigitOf.ne_zero {base : ℕ} {c : UInt8} (h : IsDigitOf base c) : c ≠ 0 := by
  rintro rfl
  exact absurd h.1 (by decide)

/-- **The digits are read to their end**, and the overflow flag tells whether they fit a word. -/
theorem scanDigits_numeral {L : LongSize} {base : ℕ} (hbase : 2 ≤ base) (hbits : base < 2 ^ L.bits)
    {ds rest : List UInt8} (hds : ∀ c ∈ ds, IsDigitOf base c)
    (hrest : ∀ c ∈ rest.head?, ¬ IsDigitOf base c) (r : ScanResult) (hr : r.ret < 2 ^ L.bits) :
    let r' := scanDigits L base (ds ++ rest) r
    r'.retlen = r.retlen + ds.length ∧
      (r'.overflow = (r.overflow || decide (2 ^ L.bits ≤ numeral base r.ret ds))) ∧
      (r'.overflow = false → r'.ret = numeral base r.ret ds) := by
  induction ds generalizing r with
  | nil =>
      have hstop : scanDigits L base rest r = r := by
        cases rest with
        | nil => rfl
        | cons c cs =>
            have hc := hrest c rfl
            have htable := neg_one_le_digitTable c
            have : digitTable c = -1 ∨ (base : ℤ) ≤ digitTable c := by
              by_contra h
              exact hc ⟨by omega, by omega⟩
            simp only [scanDigits]
            rw [if_pos (.inr this)]
      simp only [List.nil_append, hstop, numeral, List.foldl_nil, List.length_nil, add_zero]
      refine ⟨trivial, ?_, fun _ => trivial⟩
      simp [Nat.not_le.mpr hr]
  | cons c cs ih =>
      have hc : IsDigitOf base c := hds c (by simp)
      have hgo : ¬ (c = 0 ∨ digitTable c = -1 ∨ (base : ℤ) ≤ digitTable c) := by
        have hne := hc.ne_zero
        have h0 := hc.1
        have h1 := hc.2
        rintro (h | h | h)
        · exact hne h
        · omega
        · omega
      set d := (digitTable c).toNat with hd
      have hdlt : d < base := by
        have h0 := hc.1
        have h1 := hc.2
        omega
      simp only [List.cons_append, scanDigits, if_neg hgo, ← hd]
      set x := r.ret * base % 2 ^ L.bits with hx
      set v := (x + d) % 2 ^ L.bits with hv
      have hpos : 0 < 2 ^ L.bits := by positivity
      obtain ⟨hlen, hover, hval⟩ := ih (fun c hc => hds c (by simp [hc]))
        ⟨v, r.retlen + 1, r.overflow || (2 ^ L.bits - 1) / base < r.ret || v < x⟩
          (Nat.mod_lt _ hpos)
      dsimp only at hlen hover hval
      -- this turn overflows exactly when the number does not fit
      have hstep : ((2 ^ L.bits - 1) / base < r.ret ∨ v < x) ↔ 2 ^ L.bits ≤ r.ret * base + d := by
        by_cases hmul : (2 ^ L.bits - 1) / base < r.ret
        · have : 2 ^ L.bits - 1 < r.ret * base := (Nat.div_lt_iff_lt_mul (by omega)).mp hmul
          simp only [hmul, true_or, true_iff]
          omega
        · have hle : r.ret * base ≤ 2 ^ L.bits - 1 :=
            (Nat.le_div_iff_mul_le (by omega)).mp (Nat.not_lt.mp hmul)
          have hx' : x = r.ret * base := Nat.mod_eq_of_lt (by omega)
          simp only [hmul, false_or]
          by_cases hfit : x + d < 2 ^ L.bits
          · have : v = x + d := Nat.mod_eq_of_lt hfit
            omega
          · have : v = x + d - 2 ^ L.bits := by
              rw [hv, Nat.mod_eq_sub_mod (by omega)]
              exact Nat.mod_eq_of_lt (by omega)
            omega
      have hexact : ¬ 2 ^ L.bits ≤ r.ret * base + d → v = r.ret * base + d := by
        intro h
        have hx' : x = r.ret * base := Nat.mod_eq_of_lt (by omega)
        rw [hv, hx']
        exact Nat.mod_eq_of_lt (by omega)
      have hnum : numeral base r.ret (c :: cs) = numeral base (r.ret * base + d) cs := rfl
      have hmono := le_numeral (show 0 < base by omega) (r.ret * base + d) cs
      refine ⟨by simp only [hlen, List.length_cons]; omega, ?_, ?_⟩
      · rw [hover, hnum]
        by_cases h : 2 ^ L.bits ≤ r.ret * base + d
        · have h2 : 2 ^ L.bits ≤ numeral base (r.ret * base + d) cs := h.trans hmono
          rcases hstep.mpr h with h3 | h3 <;> simp [h3, h2]
        · have h3 : ¬ ((2 ^ L.bits - 1) / base < r.ret ∨ v < x) := fun h' => h (hstep.mp h')
          rw [not_or] at h3
          simp only [h3.1, h3.2, decide_false, Bool.or_false]
          rw [hexact h]
      · intro hno
        have hno' := hval hno
        rw [hover] at hno
        simp only [Bool.or_eq_false_iff, decide_eq_false_iff_not] at hno
        rw [hno', hnum, hexact]
        intro h
        rcases hstep.mpr h with h3 | h3
        · exact hno.1.1.2 h3
        · exact hno.1.2 h3

theorem isDigitOf_ten {c : UInt8} (h : isDigit c = true) : IsDigitOf 10 c := by
  simp only [isDigit, Bool.and_eq_true, decide_eq_true_eq] at h
  have h0 : 48 ≤ c.toNat := UInt8.le_iff_toNat_le.mp h.1
  have h1 : c.toNat ≤ 57 := UInt8.le_iff_toNat_le.mp h.2
  rw [IsDigitOf, digitTable, if_pos h]
  omega

/-- A decimal digit is no space and no sign. -/
theorem ne_of_isDigit {c : UInt8} (h : isDigit c = true) :
    isSpace c = false ∧ c ≠ 43 ∧ c ≠ 45 ∧ c ≠ 42 ∧ c ≠ 95 ∧ c ≠ 33 := by
  simp only [isDigit, Bool.and_eq_true, decide_eq_true_eq] at h
  have h0 : 48 ≤ c.toNat := UInt8.le_iff_toNat_le.mp h.1
  have h1 : c.toNat ≤ 57 := UInt8.le_iff_toNat_le.mp h.2
  have hne : ∀ k : UInt8, k.toNat < 48 ∨ 57 < k.toNat → c ≠ k := by
    rintro k hk rfl
    omega
  refine ⟨?_, hne _ (by decide), hne _ (by decide), hne _ (by decide), hne _ (by decide),
    hne _ (by decide)⟩
  rw [isSpace, Bool.or_eq_false_iff, Bool.and_eq_false_iff]
  refine ⟨by simpa using hne 32 (by decide), .inr ?_⟩
  rw [decide_eq_false_iff_not]
  intro h13
  have : c.toNat ≤ 13 := UInt8.le_iff_toNat_le.mp h13
  omega

theorem digitTable_of_lt {c : UInt8} (h : c.toNat < 48) : digitTable c = -1 := by
  have hne : ∀ k : UInt8, 48 ≤ k.toNat → ¬ k ≤ c := by
    intro k hk hle
    have := UInt8.le_iff_toNat_le.mp hle
    omega
  rw [digitTable, if_neg fun h => hne 48 (by decide) h.1, if_neg fun h => hne 65 (by decide) h.1,
    if_neg fun h => hne 97 (by decide) h.1]

theorem digitTable_of_isSpace {c : UInt8} (h : isSpace c = true) : digitTable c = -1 := by
  simp only [isSpace, Bool.or_eq_true, beq_iff_eq, Bool.and_eq_true, decide_eq_true_eq] at h
  refine digitTable_of_lt ?_
  rcases h with rfl | ⟨-, h⟩
  · decide
  · have := UInt8.le_iff_toNat_le.mp h
    exact this.trans_lt (by decide)

/-- A digit is no space and no sign. -/
theorem IsDigitOf.ne {base : ℕ} {c : UInt8} (h : IsDigitOf base c) :
    isSpace c = false ∧ c ≠ 43 ∧ c ≠ 45 := by
  have h0 := h.1
  refine ⟨?_, ?_, ?_⟩
  · rw [Bool.eq_false_iff]
    intro hspace
    rw [digitTable_of_isSpace hspace] at h0
    exact absurd h0 (by decide)
  · rintro rfl
    exact absurd h0 (by decide)
  · rintro rfl
    exact absurd h0 (by decide)

/-- On a string that begins with a digit and no prefix, only a leading zero is passed over. -/
theorem rubyStrtoul_of_isDigitOf (L : LongSize) {base : ℕ} (h2 : 2 ≤ base) (h36 : base ≤ 36)
    {c : UInt8} (hc : IsDigitOf base c) (cs : List UInt8)
    (hhex : base = 16 → c = 48 → cs.headD 0 ≠ 120 ∧ cs.headD 0 ≠ 88) :
    let skip := if c = 48 then 1 else 0
    let r := scanDigits L base ((c :: cs).drop skip) ⟨0, 0, false⟩
    rubyStrtoul L (c :: cs) base =
      if r.overflow then ⟨2 ^ L.bits - 1, some (skip + r.retlen), some .erange⟩
      else ⟨r.ret, some (skip + r.retlen), none⟩ := by
  obtain ⟨hspace, hplus, hminus⟩ := hc.ne
  have htake : ((c :: cs).takeWhile fun c => c != 0 && isSpace c).length = 0 := by
    simp [hspace]
  have hhead : (List.drop 0 (c :: cs)).headD 0 = c := rfl
  have hfound : ∀ k n : ℕ, (if 0 < n then k + n else k) = k + n := by
    intro k n
    split_ifs <;> omega
  have hfound' : ∀ n : ℕ, (if 0 < n then n else 0) = n := by
    intro n
    split_ifs <;> omega
  have h0 : base ≠ 0 := by omega
  intro skip r
  rw [rubyStrtoul, if_neg (by omega), htake]
  simp only [hhead, hplus, hminus, or_self, if_false]
  by_cases hzero : c = 48
  · have hno : ¬ (base = 16 ∧ (cs.head?.getD 0 = 120 ∨ cs.head?.getD 0 = 88)) := by
      rw [← List.headD_eq_head?_getD]
      rintro ⟨h16, h | h⟩
      · exact (hhex h16 hzero).1 h
      · exact (hhex h16 hzero).2 h
    have hb : (if base = 16 then 16 else base) = base := by
      split_ifs with h
      · exact h.symm
      · rfl
    simp [r, skip, hzero, hfound, h0, hno, hb]
  · simp [r, skip, hzero, hfound', h0]

/-- **A numeral is read to its end**, and one that does not fit a word is reported. -/
theorem rubyStrtoul_numeral {L : LongSize} {base : ℕ} (h2 : 2 ≤ base) (h36 : base ≤ 36)
    {ds rest : List UInt8} (hne : ds ≠ []) (hds : ∀ c ∈ ds, IsDigitOf base c)
    (hrest : ∀ c ∈ rest.head?, ¬ IsDigitOf base c)
    (hhex : base = 16 → ds.headD 0 = 48 → (ds ++ rest).tail.headD 0 ≠ 120 ∧
      (ds ++ rest).tail.headD 0 ≠ 88) :
    rubyStrtoul L (ds ++ rest) base = if 2 ^ L.bits ≤ numeral base 0 ds
      then ⟨2 ^ L.bits - 1, some ds.length, some .erange⟩
      else ⟨numeral base 0 ds, some ds.length, none⟩ := by
  obtain ⟨c, cs, rfl⟩ := List.exists_cons_of_ne_nil hne
  have hbits : base < 2 ^ L.bits := h36.trans_lt (by cases L <;> decide)
  -- a leading zero changes neither the number nor where it ends
  have hscan : ∀ skip, skip = (if c = 48 then 1 else 0) →
      let r := scanDigits L base ((c :: (cs ++ rest)).drop skip) ⟨0, 0, false⟩
      skip + r.retlen = (c :: cs).length ∧
        r.overflow = decide (2 ^ L.bits ≤ numeral base 0 (c :: cs)) ∧
        (r.overflow = false → r.ret = numeral base 0 (c :: cs)) := by
    rintro skip rfl
    by_cases hzero : c = 48
    · have hnum : numeral base 0 (c :: cs) = numeral base 0 cs := by
        rw [hzero, numeral, List.foldl_cons, Nat.zero_mul]
        rfl
      have hcs : ∀ d ∈ cs, IsDigitOf base d := fun d hd => hds d (by simp [hd])
      have h := scanDigits_numeral (L := L) h2 hbits hcs hrest ⟨0, 0, false⟩ (by positivity)
      rw [if_pos hzero, hnum]
      simpa [add_comm 1] using h
    · have h := scanDigits_numeral (L := L) h2 hbits hds hrest ⟨0, 0, false⟩ (by positivity)
      rw [if_neg hzero]
      simpa using h
  obtain ⟨hlen, hover, hret⟩ := hscan _ rfl
  rw [List.cons_append, rubyStrtoul_of_isDigitOf L h2 h36 (hds c (by simp)) (cs ++ rest) hhex]
  rw [hlen]
  by_cases hfit : 2 ^ L.bits ≤ numeral base 0 (c :: cs)
  · rw [if_pos (by rw [hover, decide_eq_true hfit]), if_pos hfit]
  · have hno := hover.trans (decide_eq_false hfit)
    rw [if_neg (by rw [hno]; exact Bool.false_ne_true), if_neg hfit, hret hno]

/-- Decimal numerals. -/
theorem rubyStrtoul_digits {L : LongSize} {ds rest : List UInt8} (hne : ds ≠ [])
    (hds : ∀ c ∈ ds, isDigit c = true) (hrest : ∀ c ∈ rest.head?, ¬ IsDigitOf 10 c) :
    rubyStrtoul L (ds ++ rest) 10 = if 2 ^ L.bits ≤ numeral 10 0 ds
      then ⟨2 ^ L.bits - 1, some ds.length, some .erange⟩
      else ⟨numeral 10 0 ds, some ds.length, none⟩ :=
  rubyStrtoul_numeral (by decide) (by decide) hne (fun c hc => isDigitOf_ten (hds c hc)) hrest
    fun h => absurd h (by decide)

end MacRuby
