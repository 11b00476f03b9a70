import MacRuby.Pack.Reads

/-!
# Lines of encoded strings

What `u` and `m` have in common: a string is cut into lines of a multiple of three bytes, each group
of three is written in four characters of six bits, and the last group of a line may be short.

## Main definitions

* `sextets` — the four groups of six bits in three bytes.
* `encodedLine` — a line.
* `Lines` — a text consists of the lines for a string.
* `linesLength` — the length of such a text.

## Main results

* `encodeHunk_eq`, `bytes_of_sextets` — the groups are written and put together again.
* `packLines_spec` — what `pack` writes, as long as four times its length is a `long`.
* `room_iff` — when the buffer of `unpack` is long enough.
* `Lines.length_eq` — the length of the text.
-/

namespace MacRuby.Pack

variable {L : LongSize}

/-! ## Groups -/

/-- The groups of six bits in three bytes. -/
def sextets (a b c : UInt8) : ℕ × ℕ × ℕ × ℕ :=
  (a.toNat / 4, a.toNat % 4 * 16 + b.toNat / 16, b.toNat % 16 * 4 + c.toNat / 64, c.toNat % 64)

theorem encodeHunk_eq (trans : ℕ → UInt8) (a b c : UInt8) : encodeHunk trans a b c
    = [trans (sextets a b c).1, trans (sextets a b c).2.1, trans (sextets a b c).2.2.1,
      trans (sextets a b c).2.2.2] := by
  have ha := a.toNat_lt
  have hb := b.toNat_lt
  have hc := c.toNat_lt
  have hmask : ∀ n : ℕ, 63 &&& n = n % 64 := by
    intro n
    rw [Nat.and_comm]
    exact Nat.and_two_pow_sub_one_eq_mod n 6
  have h48 : ∀ k : Fin 256, k.val <<< 4 &&& 48 = 2 ^ 4 * (k.val % 4) := by decide +kernel
  have h60 : ∀ k : Fin 256, k.val <<< 2 &&& 60 = 2 ^ 2 * (k.val % 16) := by decide +kernel
  have h15 : b.toNat >>> 4 &&& 15 = b.toNat / 16 := by
    rw [Nat.shiftRight_eq_div_pow]
    exact (Nat.and_two_pow_sub_one_eq_mod _ 4).trans (Nat.mod_eq_of_lt (by omega))
  have h3 : c.toNat >>> 6 &&& 3 = c.toNat / 64 := by
    rw [Nat.shiftRight_eq_div_pow]
    exact (Nat.and_two_pow_sub_one_eq_mod _ 2).trans (Nat.mod_eq_of_lt (by omega))
  rw [encodeHunk, hmask, hmask, hmask, hmask, h15, h3, h48 ⟨a.toNat, ha⟩, h60 ⟨b.toNat, hb⟩,
    ← Nat.two_pow_add_eq_or_of_lt (by omega), ← Nat.two_pow_add_eq_or_of_lt (by omega),
    Nat.shiftRight_eq_div_pow]
  have h1 : a.toNat / 2 ^ 2 % 64 = a.toNat / 4 := by omega
  have h2 : (2 ^ 4 * (a.toNat % 4) + b.toNat / 16) % 64
    = a.toNat % 4 * 16 + b.toNat / 16 := by omega
  have h4 : (2 ^ 2 * (b.toNat % 16) + c.toNat / 64) % 64
    = b.toNat % 16 * 4 + c.toNat / 64 := by omega
  rw [h1, h2, h4]
  rfl

theorem sextets_lt (a b c : UInt8) : (sextets a b c).1 < 64 ∧ (sextets a b c).2.1 < 64 ∧
    (sextets a b c).2.2.1 < 64 ∧ (sextets a b c).2.2.2 < 64 := by
  have ha := a.toNat_lt
  have hb := b.toNat_lt
  have hc := c.toNat_lt
  simp only [sextets]
  refine ⟨?_, ?_, ?_, ?_⟩ <;> omega

/-- The bytes that four groups of six bits are put together to. -/
def hunkBytes (x : ℕ × ℕ × ℕ × ℕ) : List UInt8 :=
  [UInt8.ofNat (x.1 <<< 2 ||| x.2.1 >>> 4), UInt8.ofNat (x.2.1 <<< 4 ||| x.2.2.1 >>> 2),
    UInt8.ofNat (x.2.2.1 <<< 6 ||| x.2.2.2)]

/-- **The groups are put together to the bytes.** -/
theorem bytes_of_sextets (a b c : UInt8) : hunkBytes (sextets a b c) = [a, b, c] := by
  have ha := a.toNat_lt
  have hb := b.toNat_lt
  have hc := c.toNat_lt
  have hor : ∀ {x y k : ℕ}, y < 2 ^ k → x <<< k ||| y = 2 ^ k * x + y := by
    intro x y k hy
    rw [Nat.shiftLeft_eq, mul_comm, Nat.two_pow_add_eq_or_of_lt hy]
  have hbyte : ∀ {n : ℕ} {z : UInt8}, n % 256 = z.toNat → UInt8.ofNat n = z := by
    intro n z h
    rw [← UInt8.toNat_inj, UInt8.toNat_ofNat']
    exact h
  simp only [hunkBytes, sextets, Nat.shiftRight_eq_div_pow]
  refine List.cons_eq_cons.mpr ⟨?_, List.cons_eq_cons.mpr ⟨?_, List.cons_eq_cons.mpr ⟨?_, rfl⟩⟩⟩
  · rw [hor (by omega)]
    exact hbyte (by omega)
  · rw [hor (by omega)]
    exact hbyte (by omega)
  · rw [hor (by omega)]
    exact hbyte (by omega)

/-- The characters for the bytes of a line, in groups of four. -/
theorem length_encodeGroups (trans : ℕ → UInt8) (padding : UInt8) (s : List UInt8) :
    (encodeGroups trans padding s).length = 4 * ((s.length + 2) / 3) := by
  induction s using encodeGroups.induct with
  | case1 a b c s ih =>
      rw [encodeGroups, List.length_append, ih, encodeHunk]
      simp only [List.length_cons, List.length_nil]
      omega
  | case2 a b => simp [encodeGroups, encodeHunk]
  | case3 a => simp [encodeGroups, encodeHunk]
  | case4 => simp [encodeGroups]

/-! ## Lines -/

/-- A line of `u`, which begins with its length, or of `m`. -/
def encodedLine (uu : Bool) (s : List UInt8) : List UInt8 :=
  (if uu then UInt8.ofNat (s.length + 32) :: encodeGroups uuTable 96 s
    else encodeGroups b64Table 61 s) ++ [10]

theorem length_encodedLine (uu : Bool) (s : List UInt8) :
    (encodedLine uu s).length = 4 * ((s.length + 2) / 3) + if uu then 2 else 1 := by
  cases uu <;> simp [encodedLine, length_encodeGroups]

/-- The array of `encodes` is large enough where its size does not overflow. -/
theorem encodes_eq {uu : Bool} {s : List UInt8} (h : (s.length * 4 : ℤ) < 2 ^ (L.bits - 1)) :
    encodes L uu s = .ok (encodedLine uu s) := by
  have hlong : L.toLong (s.length * 4) = s.length * 4 := by
    have hpos : (0 : ℤ) < 2 ^ (L.bits - 1) := by positivity
    exact L.toLong_eq (by omega) h
  have hlen := length_encodedLine uu s
  have hroom : ((encodedLine uu s).length : ℤ) ≤ ((s.length : ℤ) * 4).tdiv 3 + 6 := by
    rw [hlen, Int.tdiv_eq_ediv_of_nonneg (by omega)]
    split_ifs <;> omega
  rw [encodes, hlong]
  exact if_neg (not_lt.mpr hroom)

theorem encodes_ok {uu : Bool} {s line : List UInt8} (h : encodes L uu s = .ok line) :
    line = encodedLine uu s := by
  have hdef : encodes L uu s = if (L.toLong (s.length * 4)).tdiv 3 + 6 < (encodedLine uu s).length
      then .error .memory else .ok (encodedLine uu s) := rfl
  rw [hdef] at h
  split_ifs at h
  exact (Except.ok.inj h).symm

/-- The text consists of the lines for the string. -/
inductive Lines (uu : Bool) (len : ℕ) : List UInt8 → List UInt8 → Prop
  | nil : Lines uu len [] []
  | cons {s t : List UInt8} (hs : s ≠ []) (ht : Lines uu len (s.drop len) t) :
      Lines uu len s (encodedLine uu (s.take len) ++ t)

theorem encodeLines_cons (L : LongSize) (uu : Bool) (len n : ℕ) (c : UInt8) (s : List UInt8) :
    encodeLines L uu len (n + 1) (c :: s) = (do
      let line ← encodes L uu ((c :: s).take len)
      let rest ← encodeLines L uu len n ((c :: s).drop len)
      pure (line ++ rest)) := rfl

/-- What `pack` appends are the lines. -/
theorem lines_of_encodeLines {uu : Bool} {len n : ℕ} {s t : List UInt8} (hlen : 0 < len)
    (hn : s.length ≤ n) (h : encodeLines L uu len n s = .ok t) : Lines uu len s t := by
  induction n generalizing s t with
  | zero =>
      obtain rfl : s = [] := List.eq_nil_of_length_eq_zero (by omega)
      cases h
      exact .nil
  | succ n ih =>
      cases s with
      | nil =>
          cases h
          exact .nil
      | cons c s =>
          rw [encodeLines_cons] at h
          cases hline : encodes L uu ((c :: s).take len) with
          | error e =>
              rw [hline] at h
              cases h
          | ok line =>
              cases hrest : encodeLines L uu len n ((c :: s).drop len) with
              | error e =>
                  rw [hline, hrest] at h
                  cases h
              | ok rest =>
                  rw [hline, hrest] at h
                  cases h
                  rw [encodes_ok hline]
                  refine .cons (List.cons_ne_nil c s) (ih ?_ hrest)
                  rw [List.length_drop]
                  rw [List.length_cons] at hn ⊢
                  omega

/-- `pack` succeeds where no size overflows. -/
theorem encodeLines_ok (uu : Bool) (len n : ℕ) {s : List UInt8}
    (h : (s.length * 4 : ℤ) < 2 ^ (L.bits - 1)) : ∃ t, encodeLines L uu len n s = .ok t := by
  induction n generalizing s with
  | zero => cases s <;> exact ⟨[], rfl⟩
  | succ n ih =>
      cases s with
      | nil => exact ⟨[], rfl⟩
      | cons c s =>
          have htake : (((c :: s).take len).length * 4 : ℤ) < 2 ^ (L.bits - 1) := by
            have := List.length_take_le' len (c :: s)
            omega
          obtain ⟨t, ht⟩ := ih (s := (c :: s).drop len) (by
            have := List.length_drop (i := len) (l := c :: s)
            omega)
          refine ⟨encodedLine uu ((c :: s).take len) ++ t, ?_⟩
          rw [encodeLines_cons, encodes_eq htake, ht]
          rfl

/-- The length of the lines for `n` bytes: four characters for a group of three, a line break for
each line, and for `u` a length. -/
def linesLength (uu : Bool) (len n : ℕ) : ℕ :=
  4 * ((n + 2) / 3) + (if uu then 2 else 1) * ((n + len - 1) / len)

/-- **The length of the text.** -/
theorem Lines.length_eq {uu : Bool} {len : ℕ} {s t : List UInt8} (hlen : 0 < len) (h3 : 3 ∣ len)
    (h : Lines uu len s t) : t.length = linesLength uu len s.length := by
  induction h with
  | nil =>
      have hzero : (0 + len - 1) / len = 0 := Nat.div_eq_of_lt (by omega)
      rw [List.length_nil, linesLength, hzero, mul_zero, add_zero]
  | @cons s t hs ht ih =>
      have hpos : 0 < s.length := List.length_pos_iff.mpr hs
      rw [List.length_append, length_encodedLine, ih, List.length_take, List.length_drop]
      simp only [linesLength]
      rcases Nat.le_or_ge s.length len with hle | hge
      · have hone : (s.length + len - 1) / len = 1 := by
          rw [Nat.div_eq_iff hlen]
          omega
        have hzero : (s.length - len + len - 1) / len = 0 := Nat.div_eq_of_lt (by omega)
        have hnone : s.length - len = 0 := by omega
        rw [hone, hzero, hnone, min_eq_right hle]
        omega
      · obtain ⟨m, hm⟩ := Nat.exists_eq_add_of_le hge
        obtain ⟨k, rfl⟩ := h3
        have hlines : (s.length + 3 * k - 1) / (3 * k)
          = (s.length - 3 * k + 3 * k - 1) / (3 * k) + 1 := by
          rw [← Nat.add_div_right _ hlen]
          congr 1
          omega
        have hgroups : (s.length + 2) / 3 = (3 * k + 2) / 3 + (s.length - 3 * k + 2) / 3 := by omega
        rw [hlines, hgroups, min_eq_left hge]
        ring

/-- A group of four characters at least stands in every line. -/
theorem linesLength_bounds (uu : Bool) {len : ℕ} (n : ℕ) (hlen : 0 < len) (h3 : 3 ∣ len) :
    4 * ((n + 2) / 3) ≤ linesLength uu len n ∧ linesLength uu len n ≤ 6 * ((n + 2) / 3) := by
  have hlines : (n + len - 1) / len ≤ (n + 2) / 3 := by
    obtain ⟨k, rfl⟩ := h3
    have hsucc : ∀ j, 0 < j → (n + j - 1) / j = (n - 1) / j + if n = 0 then 0 else 1 := by
      intro j hj
      split_ifs with hn
      · rw [hn, Nat.div_eq_of_lt (by omega), Nat.div_eq_of_lt (by omega)]
      · rw [← Nat.add_div_right _ hj]
        congr 1
        omega
    have hthree := hsucc 3 (by omega)
    rw [hsucc _ hlen, show n + 2 = n + 3 - 1 by omega, hthree]
    have hmono : (n - 1) / (3 * k) ≤ (n - 1) / 3 := Nat.div_le_div_left (by omega) (by omega)
    omega
  refine ⟨Nat.le_add_right _ _, ?_⟩
  rw [linesLength]
  split_ifs <;> omega

/-- **When the buffer of `unpack` is long enough for the string**: three times the length of the
text must not overflow. -/
theorem room_iff {uu : Bool} {len n : ℕ} (hlen : 0 < len) (h3 : 3 ∣ len)
    (hE : (linesLength uu len n : ℤ) < 2 ^ (L.bits - 1)) :
    (n : ℤ) ≤ (L.toLong (linesLength uu len n * 3)).tdiv 4 ↔
      (3 * linesLength uu len n : ℤ) < 2 ^ (L.bits - 1) := by
  obtain ⟨hlow, hhigh⟩ := linesLength_bounds uu n hlen h3
  generalize linesLength uu len n = E at *
  have hword := two_pow_bits L
  have hpos : (0 : ℤ) < 2 ^ (L.bits - 1) := by positivity
  have hmin : (2 : ℤ) ^ 31 ≤ 2 ^ (L.bits - 1) := by cases L <;> decide
  constructor
  · intro hroom
    by_contra hover
    -- the product is taken modulo the words
    have hwrap : L.toLong (E * 3) = E * 3 - 2 ^ L.bits := by
      have hmod : L.toLong (E * 3) = L.toLong (E * 3 - 2 ^ L.bits) := by
        have h := Int.sub_bmod_right (E * 3) (2 ^ L.bits)
        push_cast at h
        exact h.symm
      rw [hmod]
      exact L.toLong_eq (by omega) (by omega)
    rw [hwrap] at hroom
    rcases lt_or_ge ((E : ℤ) * 3 - 2 ^ L.bits) 0 with hneg | hnn
    · have hnp : ((E : ℤ) * 3 - 2 ^ L.bits).tdiv 4 ≤ (0 : ℤ).tdiv 4 :=
        Int.tdiv_le_tdiv (by decide) hneg.le
      rw [Int.zero_tdiv] at hnp
      omega
    · rw [Int.tdiv_eq_ediv_of_nonneg hnn] at hroom
      omega
  · intro hfit
    rw [L.toLong_eq (by omega) (by omega), Int.tdiv_eq_ediv_of_nonneg (by omega)]
    omega

theorem lineLength_spec (len : ℤ) : 0 < lineLength len ∧ 3 ∣ lineLength len := by
  rw [lineLength]
  split_ifs with h
  · decide
  · omega

/-- **What `pack` writes**, where no size overflows. -/
theorem packLines_spec (uu : Bool) (len : ℤ) {s : List UInt8}
    (h : (s.length * 4 : ℤ) < 2 ^ (L.bits - 1)) :
    ∃ t, packLines L uu len s = .ok t ∧ Lines uu (lineLength len) s t := by
  obtain ⟨t, ht⟩ := encodeLines_ok uu (lineLength len) s.length h
  exact ⟨t, ht, lines_of_encodeLines (lineLength_spec len).1 le_rfl ht⟩

/-- `m` and `u` with a String. -/
theorem packItems_lines (chars : ByteChars) (toS : Inum L → List UInt8) (fuel : ℕ)
    (others : UInt8 → Modifiers → ItemState L → Except (PackError ItemError) (ItemState L))
    (uu : Bool) {p : List UInt8} {m : Modifiers} (s : List UInt8)
    (hm : Accepted L (if uu then 117 else 109) p 1 m) :
    packItems chars toS fuel others [.string s] ((if uu then 117 else 109) :: p)
      = (packLines L uu m.len s).mapError .other := by
  cases uu
  · rw [packItems_single chars toS fuel others rfl (by decide) hm]
    exact packOne_single (f := fun x => stringValue x >>= packLines L false m.len)
  · rw [packItems_single chars toS fuel others rfl (by decide) hm]
    exact packOne_single (f := fun x => stringValue x >>= packLines L true m.len)

/-- What `pack` makes of a String are the lines. -/
theorem lines_of_packItems {chars : ByteChars} {toS : Inum L → List UInt8} {fuel : ℕ}
    {others : UInt8 → Modifiers → ItemState L → Except (PackError ItemError) (ItemState L)}
    (uu : Bool) {p s res : List UInt8} {m : Modifiers}
    (hm : Accepted L (if uu then 117 else 109) p 1 m)
    (h : packItems chars toS fuel others [.string s] ((if uu then 117 else 109) :: p) = .ok res) :
    Lines uu (lineLength m.len) s res := by
  rw [packItems_lines chars toS fuel others uu s hm] at h
  cases hl : packLines L uu m.len s with
  | error e =>
      rw [hl] at h
      cases h
  | ok t =>
      rw [hl] at h
      obtain rfl : t = res := Except.ok.inj h
      exact lines_of_encodeLines (lineLength_spec m.len).1 le_rfl hl

end MacRuby.Pack
