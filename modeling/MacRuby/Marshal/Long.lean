import MacRuby.Numeric.Long

/-!
# Marshalling a `long`

`w_long` writes a `long` that has 32 bits as one byte, or as a number of bytes that follow, which is
negative for a negative value.  The bytes are written until what is left is all zeros or all ones,
and `r_long` starts from a word of zeros or of ones and puts the bytes in.  A `long` is a word of
its size, and a string that is written or read is the bytes it is made of.

## Main definitions

* `wLong`, `rLong` — the functions.
* `LongRoundTrip` — what is written of a `long` is read back, and nothing else is.

## Main results

* `rLongLoop_eq` — the loop that reads puts the bytes of a word together.
* `longRoundTrip` — every `long` that is accepted is read back.
-/

namespace MacRuby

section Code

/-- Why a function does not return. -/
inductive MarshalError
  /-- `TypeError` -/
  | type (msg : String)
  /-- `ArgumentError` -/
  | argument (msg : String)
  /-- What the function does is undefined. -/
  | undefined
  /-- The function goes on in a way that is not followed here. -/
  | notFollowed
  deriving DecidableEq, Repr

/-- The conversion of an `int` to `char`. -/
def charOf (n : ℤ) : UInt8 := UInt8.ofBitVec (BitVec.ofInt 8 n)

variable (L : LongSize)

/-- The loop of `w_long`, of so many turns that are left: the bytes of `buf`, unless the loop comes
to its end, where `buf[0]` is not set. -/
def wLongLoop : ℕ → (i : ℕ) → BitVec L.bits → List UInt8 → Except MarshalError (List UInt8)
  | 0, _, _, _ => .error .undefined
  | turns + 1, i, x, buf =>
      let buf := buf ++ [UInt8.ofBitVec (x.setWidth 8)]
      let x := x.sshiftRight 8
      if x = 0 then .ok (charOf i :: buf)
      else if x = BitVec.allOnes _ then .ok (charOf (-i) :: buf)
      else wLongLoop turns (i + 1) x buf

/-- `w_long(x)`: the bytes that it writes. -/
def wLong (x : BitVec L.bits) : Except MarshalError (List UInt8) :=
  if L.bytes > 4 ∧ ¬(x.sshiftRight 31 = 0 ∨ x.sshiftRight 31 = BitVec.allOnes _) then
    .error (.type "long too big to dump")
  else if x = 0 then .ok [0]
  else if 0 < x.toInt ∧ x.toInt < 123 then .ok [charOf (x.toInt + 5)]
  else if -124 < x.toInt ∧ x.toInt < 0 then .ok [charOf (x.toInt - 5)]
  else wLongLoop L L.bytes 1 x []

/-- `r_byte`, from the bytes of a string: the byte, and the bytes that follow. -/
def rByte : List UInt8 → Except MarshalError (UInt8 × List UInt8)
  | [] => .error (.argument "marshal data too short")
  | b :: src => .ok (b, src)

/-- `long_toobig(size)`. -/
def longToobig (size : ℤ) : MarshalError :=
  .type s!"long too big for this architecture (size {L.bytes}, given {size})"

/-- The loops of `r_long` from byte `i` on, of so many turns that are left; a negative value takes
the place of ones. -/
def rLongLoop (neg : Bool) :
    ℕ → (i : ℕ) → BitVec L.bits → List UInt8 → Except MarshalError (BitVec L.bits × List UInt8)
  | 0, _, x, src => .ok (x, src)
  | turns + 1, i, x, src => do
      let x := if neg then x &&& ~~~((0xff : BitVec L.bits) <<< (8 * i)) else x
      let (b, src) ← rByte src
      rLongLoop neg turns (i + 1) (x ||| b.toBitVec.setWidth L.bits <<< (8 * i)) src

/-- `r_long`: the value, and the bytes that follow. -/
def rLong (src : List UInt8) : Except MarshalError (BitVec L.bits × List UInt8) := do
  let (b, src) ← rByte src
  let c := b.toBitVec.toInt
  if c = 0 then .ok (0, src)
  else if c > 0 then
    if 4 < c ∧ c < 128 then .ok (BitVec.ofInt L.bits (c - 5), src)
    else if c > L.bytes then .error (longToobig L c)
    else rLongLoop L false c.toNat 0 0 src
  else
    if -129 < c ∧ c < -4 then .ok (BitVec.ofInt L.bits (c + 5), src)
    else if -c > L.bytes then .error (longToobig L (-c))
    else rLongLoop L true (-c).toNat 0 (BitVec.allOnes _) src

end Code

/-- **What is written of a `long` of 32 bits is read back**, whatever follows, which is left; any
other `long` is refused. -/
def LongRoundTrip (L : LongSize) (x : BitVec L.bits) : Prop :=
  if -2 ^ 31 ≤ x.toInt ∧ x.toInt < 2 ^ 31 then
    ∃ bytes, wLong L x = .ok bytes ∧ ∀ t, rLong L (bytes ++ t) = .ok (x, t)
  else wLong L x = .error (.type "long too big to dump")

/-! ## Reading -/

section Reading

variable {L : LongSize}

/-- Byte `k` of a word. -/
def byteAt (x : BitVec L.bits) (k : ℕ) : UInt8 := UInt8.ofBitVec
    ((x.sshiftRight (8 * k)).setWidth 8)

theorem getLsbD_byteAt {x : BitVec L.bits} {k m : ℕ} (h : 8 * k + 8 ≤ L.bits) (hm : m < 8) :
    (byteAt x k).toBitVec.getLsbD m = x.getLsbD (8 * k + m) := by
  have hbits : m < L.bits := by omega
  have hlt : 8 * k + m < L.bits := by omega
  rw [byteAt, UInt8.toBitVec_ofBitVec, BitVec.getLsbD_setWidth, BitVec.getLsbD_sshiftRight,
    if_pos hlt]
  simp [hm, hbits]

/-- The mask of a byte. -/
theorem getLsbD_mask {i j : ℕ} (hj : j < L.bits) :
    ((0xff : BitVec L.bits) <<< (8 * i)).getLsbD j = decide (8 * i ≤ j ∧ j < 8 * i + 8) := by
  have hmask : ∀ k < L.bits, (0xff : BitVec L.bits).getLsbD k = decide (k < 8) := by
    intro k hk
    have htest : Nat.testBit 255 k = decide (k < 8) := Nat.testBit_two_pow_sub_one 8 k
    change (BitVec.ofNat L.bits 255).getLsbD k = _
    rw [BitVec.getLsbD_ofNat, htest]
    simp [hk]
  rw [BitVec.getLsbD_shiftLeft, hmask _ (by omega)]
  by_cases hlow : j < 8 * i
  · simp [hlow]
  · have hsub : j - 8 * i < 8 ↔ j < 8 * i + 8 := by omega
    simp [hj, hlow, hsub, Nat.not_lt.mp hlow]

/-- A byte in its place, on a word that has zeros or is cleared there. -/
theorem getLsbD_put {x y : BitVec L.bits} {neg : Bool} {i : ℕ} (hi : 8 * i + 8 ≤ L.bits)
    (hlow : ∀ j < 8 * i, y.getLsbD j = x.getLsbD j)
    (hhigh : ∀ j < L.bits, 8 * i ≤ j → y.getLsbD j = neg) {j : ℕ} (hj : j < L.bits) :
    ((if neg then y &&& ~~~((0xff : BitVec L.bits) <<< (8 * i)) else y) |||
        (byteAt x i).toBitVec.setWidth L.bits <<< (8 * i)).getLsbD j =
      if j < 8 * (i + 1) then x.getLsbD j else neg := by
  have hbase : (if neg then y &&& ~~~((0xff : BitVec L.bits) <<< (8 * i)) else y).getLsbD j =
      (y.getLsbD j && !(neg && decide (8 * i ≤ j ∧ j < 8 * i + 8))) := by
    cases neg
    · simp
    · rw [if_pos rfl, BitVec.getLsbD_and, BitVec.getLsbD_not, getLsbD_mask hj]
      simp [hj]
  rw [BitVec.getLsbD_or, hbase, BitVec.getLsbD_shiftLeft, BitVec.getLsbD_setWidth]
  rcases Nat.lt_or_ge j (8 * i) with hl | hl
  · have h8 : j < 8 * (i + 1) := by omega
    have hno : ¬8 * i ≤ j := by omega
    simp [hlow j hl, hl, h8, hno]
  · rw [hhigh j hj hl]
    rcases Nat.lt_or_ge j (8 * i + 8) with hm | hm
    · have hbyte := getLsbD_byteAt (x := x) hi (show j - 8 * i < 8 by omega)
      rw [Nat.add_sub_cancel' hl] at hbyte
      have h8 : j < 8 * (i + 1) := by omega
      have hw : j - 8 * i < L.bits := by omega
      cases neg <;> simp [hbyte, hj, h8, hl, hm, hw, Nat.not_lt.mpr hl]
    · have h8 : ¬j < 8 * (i + 1) := by omega
      have hzero : (byteAt x i).toBitVec.getLsbD (j - 8 * i) = false :=
        BitVec.getLsbD_of_ge _ _ (by omega)
      cases neg <;> simp [hzero, h8, Nat.not_lt.mpr hm]

/-- **The loop that reads puts the bytes of a word together**, which are all that is in the word
besides the zeros or ones that it starts from. -/
theorem rLongLoop_eq {x y : BitVec L.bits} {neg : Bool} {i turns : ℕ}
    (hbits : 8 * (i + turns) ≤ L.bits) (hlow : ∀ j < 8 * i, y.getLsbD j = x.getLsbD j)
    (hhigh : ∀ j < L.bits, 8 * i ≤ j → y.getLsbD j = neg)
    (hx : ∀ j < L.bits, 8 * (i + turns) ≤ j → x.getLsbD j = neg) (t : List UInt8) :
    rLongLoop L neg turns i y ((List.range' i turns).map (byteAt x) ++ t) = .ok (x, t) := by
  induction turns generalizing i y with
  | zero =>
      have hxy : y = x := by
        apply BitVec.eq_of_getLsbD_eq
        intro j hj
        rcases Nat.lt_or_ge j (8 * i) with hl | hl
        · exact hlow j hl
        · rw [hhigh j hj hl, hx j hj hl]
      rw [hxy]
      rfl
  | succ turns ih =>
      rw [List.range'_succ, List.map_cons, List.cons_append, rLongLoop]
      have hput : ∀ j < L.bits, _ := fun j hj => getLsbD_put (by omega) hlow hhigh hj
      apply ih (by omega)
      · intro j hj
        rw [hput j (by omega), if_pos hj]
      · intro j hj hle
        rw [hput j hj, if_neg (by omega)]
      · intro j hj hle
        exact hx j hj (by omega)

end Reading

/-! ## Writing -/

section Writing

variable {L : LongSize}

/-- A word of zeros or of ones. -/
def fill (L : LongSize) (neg : Bool) : BitVec L.bits := if neg then BitVec.allOnes _ else 0

theorem getLsbD_fill {neg : Bool} {j : ℕ} (hj : j < L.bits) : (fill L neg).getLsbD j = neg := by
  cases neg <;> simp [fill, hj]

/-- What is shifted out to zeros or to ones. -/
theorem getLsbD_of_sshiftRight {x : BitVec L.bits} {neg : Bool} {s j : ℕ}
    (h : x.sshiftRight s = fill L neg) (hj : j < L.bits) (hs : s ≤ j) : x.getLsbD j = neg := by
  have hbit : (x.sshiftRight s).getLsbD (j - s) = neg := by rw [h, getLsbD_fill (by omega)]
  have hlt : s + (j - s) < L.bits := by omega
  rw [BitVec.getLsbD_sshiftRight, if_pos hlt, Nat.add_sub_cancel' hs] at hbit
  have hw : ¬L.bits ≤ j - s := by omega
  simpa [hw] using hbit

/-- A value of fewer bits is shifted out to zeros or to ones. -/
theorem sshiftRight_eq_fill_iff {x : BitVec L.bits} {s : ℕ} :
    (x.sshiftRight s = 0 ∨ x.sshiftRight s = BitVec.allOnes _) ↔
      -2 ^ s ≤ x.toInt ∧ x.toInt < 2 ^ s := by
  have hpow : (0 : ℤ) < 2 ^ s := by positivity
  have hpos : 0 < L.bits := by cases L <;> decide
  have hones : (BitVec.allOnes L.bits).toInt = -1 := by rw [BitVec.toInt_allOnes, if_pos hpos]
  have hzero : (0 : BitVec L.bits).toInt = 0 := BitVec.toInt_zero
  rw [← BitVec.toInt_inj, ← BitVec.toInt_inj, hones, hzero, BitVec.toInt_sshiftRight,
    Int.shiftRight_eq_div_pow, Nat.cast_pow, Nat.cast_ofNat]
  have hdiv := Int.emod_add_mul_ediv x.toInt (2 ^ s)
  have hnonneg := Int.emod_nonneg x.toInt hpow.ne'
  have hlt := Int.emod_lt_of_pos x.toInt hpow
  constructor
  · intro h
    rcases h with h | h
    · rw [h] at hdiv
      omega
    · rw [h] at hdiv
      omega
  · intro h
    rcases lt_or_ge x.toInt 0 with hneg | hge
    · exact Or.inr (Int.ediv_eq_neg_one_of_neg_of_le hneg (by omega))
    · exact Or.inl (Int.ediv_eq_zero_of_lt hge h.2)

/-- **The loop that writes** comes to its end where what is left is zeros or ones. -/
theorem wLongLoop_eq {x : BitVec L.bits} {i n turns : ℕ} (hi : i < n) (hn : n ≤ i + turns)
    (hdone : x.sshiftRight (8 * n) = 0 ∨ x.sshiftRight (8 * n) = BitVec.allOnes _) :
    ∃ m neg, i < m ∧ m ≤ n ∧ x.sshiftRight (8 * m) = fill L neg ∧
      wLongLoop L turns (i + 1) (x.sshiftRight (8 * i)) ((List.range i).map (byteAt x)) =
        .ok (charOf (if neg then -m else m) :: (List.range m).map (byteAt x)) := by
  induction turns generalizing i with
  | zero => omega
  | succ turns ih =>
      have hbuf : (List.range i).map (byteAt x) ++
          [UInt8.ofBitVec ((x.sshiftRight (8 * i)).setWidth 8)] =
          (List.range (i + 1)).map (byteAt x) := by
        rw [List.range_succ, List.map_append]
        rfl
      have hshift : (x.sshiftRight (8 * i)).sshiftRight 8 = x.sshiftRight (8 * (i + 1)) := by
        rw [← BitVec.sshiftRight_add, Nat.mul_succ]
      rw [wLongLoop, hbuf, hshift]
      by_cases h0 : x.sshiftRight (8 * (i + 1)) = 0
      · refine ⟨i + 1, false, by omega, by omega, h0, ?_⟩
        rw [if_pos h0]
        simp
      · by_cases h1 : x.sshiftRight (8 * (i + 1)) = BitVec.allOnes _
        · refine ⟨i + 1, true, by omega, by omega, h1, ?_⟩
          rw [if_neg h0, if_pos h1]
          simp
        · have hne : i + 1 ≠ n := by
            intro h
            rcases h ▸ hdone with hdone | hdone
            · exact h0 hdone
            · exact h1 hdone
          obtain ⟨m, neg, hm, hmn, hfill, hrun⟩ :=
            ih (show i + 1 < n by omega) (show n ≤ i + 1 + turns by omega)
          refine ⟨m, neg, by omega, hmn, hfill, ?_⟩
          rw [if_neg h0, if_neg h1, hrun]

theorem toInt_charOf {n : ℤ} (h0 : -128 ≤ n) (h1 : n < 128) : (charOf n).toBitVec.toInt = n := by
  rw [charOf, UInt8.toBitVec_ofBitVec]
  exact BitVec.toInt_ofInt_eq_self (by norm_num) (by norm_num; omega) (by norm_num; omega)

theorem four_le_bytes (L : LongSize) : 4 ≤ L.bytes := by
  cases L <;> decide

theorem rLong_cons (b : UInt8) (src : List UInt8) :
    rLong L (b :: src) =
      if b.toBitVec.toInt = 0 then .ok (0, src)
      else if b.toBitVec.toInt > 0 then
        if 4 < b.toBitVec.toInt ∧ b.toBitVec.toInt < 128 then
          .ok (BitVec.ofInt L.bits (b.toBitVec.toInt - 5), src)
        else if b.toBitVec.toInt > L.bytes then .error (longToobig L b.toBitVec.toInt)
        else rLongLoop L false b.toBitVec.toInt.toNat 0 0 src
      else
        if -129 < b.toBitVec.toInt ∧ b.toBitVec.toInt < -4 then
          .ok (BitVec.ofInt L.bits (b.toBitVec.toInt + 5), src)
        else if -b.toBitVec.toInt > L.bytes then .error (longToobig L (-b.toBitVec.toInt))
        else rLongLoop L true (-b.toBitVec.toInt).toNat 0 (BitVec.allOnes _) src := rfl

/-- A number of bytes, and the bytes of a word after it, are read back as the word. -/
theorem rLong_bytes {x : BitVec L.bits} {m : ℕ} {neg : Bool} (h0 : 0 < m) (h4 : m ≤ 4)
    (hfill : x.sshiftRight (8 * m) = fill L neg) (t : List UInt8) :
    rLong L (charOf (if neg then -m else m) :: (List.range m).map (byteAt x) ++ t) =
      .ok (x, t) := by
  have hbytes := four_le_bytes L
  have hbits : 8 * (0 + m) ≤ L.bits := by
    unfold LongSize.bits
    omega
  have hloop : rLongLoop L neg m 0 (fill L neg) ((List.range m).map (byteAt x) ++ t) =
      .ok (x, t) := by
    rw [List.range_eq_range']
    apply rLongLoop_eq hbits
    · intro j hj
      omega
    · intro j hj _
      exact getLsbD_fill hj
    · intro j hj hle
      exact getLsbD_of_sshiftRight hfill hj (by omega)
  rw [List.cons_append, rLong_cons]
  cases neg with
  | false =>
      have hc : (charOf (if false = true then -(m : ℤ) else m)).toBitVec.toInt = m :=
        toInt_charOf (by omega) (by omega)
      rw [hc, if_neg (by omega), if_pos (by omega), if_neg (by omega), if_neg (by omega),
        Int.toNat_natCast]
      exact hloop
  | true =>
      have hc : (charOf (if true = true then -(m : ℤ) else m)).toBitVec.toInt = -m :=
        toInt_charOf (by omega) (by omega)
      rw [hc, if_neg (by omega), if_neg (by omega), if_neg (by omega), if_neg (by omega), neg_neg,
        Int.toNat_natCast]
      exact hloop

/-- A single byte is read back. -/
theorem rLong_char {x : BitVec L.bits} (t : List UInt8) :
    (0 < x.toInt ∧ x.toInt < 123 → rLong L (charOf (x.toInt + 5) :: t) = .ok (x, t)) ∧
    (-124 < x.toInt ∧ x.toInt < 0 → rLong L (charOf (x.toInt - 5) :: t) = .ok (x, t)) := by
  constructor
  · intro h
    rw [rLong_cons, toInt_charOf (by omega) (by omega), if_neg (by omega),
      if_pos (by omega), if_pos (by omega), add_sub_cancel_right, BitVec.ofInt_toInt]
  · intro h
    rw [rLong_cons, toInt_charOf (by omega) (by omega), if_neg (by omega),
      if_neg (by omega), if_pos (by omega), sub_add_cancel, BitVec.ofInt_toInt]

/-- **Every `long` that is accepted is read back.** -/
theorem longRoundTrip (x : BitVec L.bits) : LongRoundTrip L x := by
  have hbytes := four_le_bytes L
  unfold LongRoundTrip
  split
  · rename_i h
    have h31 := sshiftRight_eq_fill_iff.mpr h
    have hok : ¬(L.bytes > 4 ∧ ¬(x.sshiftRight 31 = 0 ∨ x.sshiftRight 31 = BitVec.allOnes _)) :=
      fun hno => hno.2 h31
    by_cases h0 : x = 0
    · refine ⟨[0], by rw [wLong, if_neg hok, if_pos h0], fun t => ?_⟩
      rw [h0]
      rfl
    · by_cases hpos : 0 < x.toInt ∧ x.toInt < 123
      · refine ⟨_, by rw [wLong, if_neg hok, if_neg h0, if_pos hpos], fun t => ?_⟩
        exact (rLong_char t).1 hpos
      · by_cases hneg : -124 < x.toInt ∧ x.toInt < 0
        · refine ⟨_, by rw [wLong, if_neg hok, if_neg h0, if_neg hpos, if_pos hneg], fun t => ?_⟩
          exact (rLong_char t).2 hneg
        · have hdone : x.sshiftRight (8 * 4) = 0 ∨ x.sshiftRight (8 * 4) = BitVec.allOnes _ :=
            sshiftRight_eq_fill_iff.mpr (by norm_num; omega)
          obtain ⟨m, neg, hm, hm4, hfill, hrun⟩ :=
            wLongLoop_eq (i := 0) (by omega) (show 4 ≤ 0 + L.bytes by omega) hdone
          refine ⟨_, ?_, fun t => rLong_bytes hm hm4 hfill t⟩
          rw [wLong, if_neg hok, if_neg h0, if_neg hpos, if_neg hneg, ← hrun]
          simp
  · rename_i h
    have h31 := mt sshiftRight_eq_fill_iff.mp h
    have hbig : L.bytes > 4 := by
      cases L with
      | lp64 => decide
      | ilp32 =>
          have hle := BitVec.le_toInt x
          have hlt := BitVec.toInt_lt (x := x)
          exact absurd ⟨hle, hlt⟩ h
    rw [wLong, if_pos ⟨hbig, h31⟩]

end Writing

end MacRuby
