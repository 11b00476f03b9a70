import MacRuby.Pack.Block
import MacRuby.Pack.Reads

/-!
# Bit and hex strings

The directives `b`, `B`, `h` and `H`. Both directions go through the digits in groups, one group for
each byte.

The digits of a string make the string again unless the number of its digits overflows. For a count
`pack` pads a hex string with half of the digits that are missing, rounded up, behind the bytes for
the digits that are there, which may be rounded up, too: an odd number of digits is padded to an
even count with a byte too many.

## Main definitions

* `DigitType` — the four directives.
* `groupDigits`, `groupByte` — the digits of a byte, and the byte for digits.
* `DigitRoundTrip` — a string comes back from its digits.
* `PacksNibbles` — a hex string is packed with a count.

## Main results

* `digitLoop_bytes` — what `unpack` writes.
* `writeDigits_bytes`, `length_digitBytes` — what `pack` writes.
* `digits_iff` — when both properties hold.
-/

namespace MacRuby.Pack

variable {L : LongSize} {d : ByteString L} {s : ℤ} {u : List UInt8}

/-- The directives for digits. -/
inductive DigitType
  | b | B | h | H
  deriving DecidableEq, Repr

namespace DigitType

def letter : DigitType → UInt8
  | b => 'b'.toNat.toUInt8
  | B => 'B'.toNat.toUInt8
  | h => 'h'.toNat.toUInt8
  | H => 'H'.toNat.toUInt8

/-- How `unpack` goes through the digits. -/
def kind : DigitType → DigitKind
  | b => bitsUp
  | B => bitsDown
  | h => hexUp
  | H => hexDown

/-- How `pack` does. -/
def writer : DigitType → DigitWriter
  | b => writeBitsUp
  | B => writeBitsDown
  | h => writeHexUp
  | H => writeHexDown

theorem per_eq (t : DigitType) : t.writer.per = t.kind.per := by cases t <;> rfl

theorem letter_spec (t : DigitType) : isSpace t.letter = false ∧ t.letter ≠ 35 ∧
    directive t.letter = .digits t.kind := by
  cases t <;> exact ⟨by decide, by decide, rfl⟩

end DigitType

/-! ## Reading -/

/-- The `n` digits that `bits` shows. -/
def groupDigits (k : DigitKind) : ℕ → ℤ → List UInt8
  | 0, _ => []
  | n + 1, bits => k.digit bits :: groupDigits k n (k.shift bits)

/-- The loop within a group. -/
theorem digitLoop_within (k : DigitKind) {n a : ℕ} (b q : ℕ) (ha : 0 < a) (hab : a + b = k.per)
    (s bits : ℤ) : ∃ bits', (digitLoop d k (b + n) (k.per * q + a) s bits).1
      = groupDigits k b (k.shift bits) ++ (digitLoop d k n (k.per * (q + 1)) s bits').1 := by
  induction b generalizing a bits with
  | zero =>
      have hend : k.per * q + a = k.per * (q + 1) := by
        rw [← hab]
        ring
      exact ⟨bits, by rw [hend, Nat.zero_add]; rfl⟩
  | succ b ih =>
      have hmod : (k.per * q + a) % k.per ≠ 0 := by
        rw [Nat.mul_add_mod, Nat.mod_eq_of_lt (by omega)]
        omega
      obtain ⟨bits', h⟩ := ih (a := a + 1) (by omega) (by omega) (k.shift bits)
      refine ⟨bits', ?_⟩
      rw [Nat.add_right_comm, digitLoop]
      simp only [if_pos hmod]
      rw [Nat.add_assoc, h]
      rfl

/-- **The digits of a string** are those of its bytes. -/
theorem digitLoop_bytes (k : DigitKind) (h : Reads d s u) (q : ℕ) (bits : ℤ) :
    (digitLoop d k (k.per * u.length) (k.per * q) s bits).1
      = u.flatMap fun c => groupDigits k k.per (schar c) := by
  induction u generalizing s q bits with
  | nil => rfl
  | cons c u ih =>
      obtain ⟨b, hb⟩ : ∃ b, k.per = b + 1 := ⟨k.per - 1, by have := k.pos; omega⟩
      have hcount : k.per * (c :: u).length = (b + k.per * u.length) + 1 := by
        rw [List.length_cons, Nat.mul_succ, hb]
        ring
      have hmod : ¬ (k.per * q) % k.per ≠ 0 := by simp
      obtain ⟨bits', hgroup⟩ := digitLoop_within (d := d) k (n := k.per * u.length) b q Nat.one_pos
        (by omega) (s + 1) (schar c)
      rw [hcount, digitLoop]
      simp only [if_neg hmod, h.get]
      have hdigits : groupDigits k k.per (schar c)
          = k.digit (schar c) :: groupDigits k b (k.shift (schar c)) := by
        rw [hb]
        rfl
      rw [hgroup, ih h.next, List.flatMap_cons, hdigits, List.cons_append]

/-! ## Writing -/

/-- The byte that digits of a group make, from what `byte` holds. -/
def groupByte (w : DigitWriter) : ℕ → List UInt8 → ℕ
  | byte, [] => byte
  | byte, [c] => w.put byte c
  | byte, c :: cs => groupByte w (w.next (w.put byte c)) cs

/-- The loop at what is left of a group. -/
theorem writeDigits_within (w : DigitWriter) {a : ℕ} (q : ℕ) {cs : List UInt8} (hne : cs ≠ [])
    (ha : a + cs.length = w.per) (byte : ℕ) (rest : List UInt8) :
    writeDigits w (w.per * q + a) byte (cs ++ rest)
      = (UInt8.ofNat (groupByte w byte cs) :: (writeDigits w (w.per * (q + 1)) 0 rest).1,
        (writeDigits w (w.per * (q + 1)) 0 rest).2) := by
  induction cs generalizing a byte with
  | nil => exact absurd rfl hne
  | cons c cs ih =>
      rw [List.length_cons] at ha
      rw [List.cons_append, writeDigits]
      cases cs with
      | nil =>
          have hend : w.per * q + a + 1 = w.per * (q + 1) := by
            rw [← ha, List.length_nil]
            ring
          have hmod : ¬ (w.per * q + a + 1) % w.per ≠ 0 := by
            rw [hend]
            simp
          simp only [if_neg hmod]
          rw [hend]
          rfl
      | cons c' cs =>
          have hmod : (w.per * q + a + 1) % w.per ≠ 0 := by
            rw [Nat.add_assoc, Nat.mul_add_mod, Nat.mod_eq_of_lt
              (by rw [List.length_cons] at ha; omega)]
            omega
          simp only [if_pos hmod]
          rw [Nat.add_assoc, ih (List.cons_ne_nil c' cs) (by omega)]
          rfl

/-- **Digits in whole groups** make the bytes for the groups. -/
theorem writeDigits_bytes (w : DigitWriter) {f : UInt8 → List UInt8}
    (hlen : ∀ c, (f c).length = w.per) (hbyte : ∀ c, UInt8.ofNat (groupByte w 0 (f c)) = c) (q : ℕ)
    (u : List UInt8) : (writeDigits w (w.per * q) 0 (u.flatMap f)).1 = u := by
  induction u generalizing q with
  | nil => rfl
  | cons c u ih =>
      have hne : f c ≠ [] := by
        apply List.ne_nil_of_length_pos
        rw [hlen]
        exact w.pos
      rw [List.flatMap_cons, ← Nat.add_zero (w.per * q),
        writeDigits_within w q hne (by rw [hlen, Nat.zero_add]), hbyte, ih]

/-- As many bytes are written as there are whole groups. -/
theorem length_writeDigits (w : DigitWriter) (i byte : ℕ) (cs : List UInt8) :
    (writeDigits w i byte cs).1.length = (i + cs.length) / w.per - i / w.per := by
  induction cs generalizing i byte with
  | nil => simp [writeDigits]
  | cons c cs ih =>
      have hstep : (i + 1) / w.per = i / w.per + if (i + 1) % w.per ≠ 0 then 0 else 1 := by
        rw [Nat.succ_div]
        by_cases h : (i + 1) % w.per = 0
        · rw [if_pos (Nat.dvd_of_mod_eq_zero h), if_neg (not_not.mpr h)]
        · rw [if_neg (fun h' => h (Nat.mod_eq_zero_of_dvd h')), if_pos h]
      have hmono : (i + 1) / w.per ≤ (i + 1 + cs.length) / w.per :=
        Nat.div_le_div_right (by omega)
      have hsum : i + (c :: cs).length = i + 1 + cs.length := by
        rw [List.length_cons]
        omega
      rw [writeDigits, hsum]
      split_ifs at hstep ⊢ with h
      · rw [ih, hstep]
        rfl
      · dsimp only
        rw [List.length_cons, ih]
        omega

/-- The bytes for digits, of which the last may be of a group that is not complete. -/
def digitBytes (w : DigitWriter) (cs : List UInt8) : List UInt8 :=
  let r := writeDigits w 0 0 cs
  if cs.length % w.per ≠ 0 then r.1 ++ [UInt8.ofNat (w.last r.2 (cs.length % w.per))] else r.1

/-- **How many bytes are written.** -/
theorem length_digitBytes (w : DigitWriter) (cs : List UInt8) :
    (digitBytes w cs).length = (cs.length + (w.per - 1)) / w.per := by
  have hpos := w.pos
  have hlen := length_writeDigits w 0 0 cs
  rw [Nat.zero_add, Nat.zero_div, Nat.sub_zero] at hlen
  have hdiv := Nat.div_add_mod cs.length w.per
  have hmod := Nat.mod_lt cs.length hpos
  rw [digitBytes]
  split_ifs with h
  · have hmul : (cs.length / w.per + 1) * w.per = w.per * (cs.length / w.per) + w.per := by ring
    rw [List.length_append, hlen, List.length_singleton, eq_comm, Nat.div_eq_iff hpos, hmul]
    omega
  · rw [hlen, eq_comm, Nat.div_eq_iff hpos, mul_comm]
    omega

/-! ## The digits of a string -/

/-- **The digits of a byte make the byte again.** -/
theorem groupDigits_spec (t : DigitType) (c : UInt8) :
    (groupDigits t.kind t.kind.per (schar c)).length = t.writer.per ∧
      UInt8.ofNat (groupByte t.writer 0 (groupDigits t.kind t.kind.per (schar c))) = c := by
  have hall : ∀ k : Fin 256,
      (groupDigits t.kind t.kind.per (schar (UInt8.ofNat k.val))).length = t.writer.per ∧
      UInt8.ofNat (groupByte t.writer 0 (groupDigits t.kind t.kind.per (schar (UInt8.ofNat k.val))))
        = UInt8.ofNat k.val := by
    cases t <;> decide +kernel
  have hc := hall ⟨c.toNat, c.toNat_lt⟩
  rwa [UInt8.ofNat_toNat] at hc

/-- What `pack` writes for a count that is not negative. -/
theorem packDigits_count (w : DigitWriter) (n : ℕ) (cs : List UInt8) : packDigits L w false n cs
    = if cs.length < n then
        if (L.toLong (n - cs.length + 1)).tdiv 2 < 0 then .error .memory
        else .ok (digitBytes w cs ++
          List.replicate ((L.toLong (n - cs.length + 1)).tdiv 2).toNat 0)
      else .ok (digitBytes w (cs.take n)) := by
  have hrest : ∀ k : ℕ, ((k : ℤ) % w.per).toNat = k % w.per := by
    intro k
    rw [← Int.natCast_mod, Int.toNat_natCast]
  have hzero : ∀ k : ℕ, (k : ℤ) % w.per ≠ 0 ↔ k % w.per ≠ 0 := by
    intro k
    rw [← Int.natCast_mod]
    exact_mod_cast Iff.rfl
  rw [packDigits]
  simp only [Bool.false_eq_true, if_false]
  rcases Nat.lt_or_ge cs.length n with hlt | hge
  · have hgt : (n : ℤ) > cs.length := by exact_mod_cast hlt
    simp only [if_pos hgt, if_pos hlt, Int.toNat_natCast, List.take_length, hrest, hzero]
    rfl
  · have hle : ¬ (n : ℤ) > cs.length := by
      rw [gt_iff_lt, not_lt]
      exact_mod_cast hge
    have htake : (cs.take n).length = n := by rw [List.length_take, min_eq_left hge]
    simp only [if_neg hle, if_neg (not_lt.mpr hge), Int.toNat_natCast, hrest, hzero]
    rw [if_neg (by decide), digitBytes, htake]
    simp

/-- A negative count takes no digit. -/
theorem packDigits_negative (w : DigitWriter) {len : ℤ} (hlen : len < 0) {cs bytes : List UInt8}
    (h : packDigits L w false len cs = .ok bytes) : bytes.length ≤ 1 := by
  have hle : ¬ len > cs.length := by omega
  have hnone : len.toNat = 0 := Int.toNat_of_nonpos hlen.le
  rw [packDigits] at h
  simp only [Bool.false_eq_true, if_false, if_neg hle, hnone, List.take_zero, writeDigits,
    lt_irrefl] at h
  rw [← Except.ok.inj h]
  split_ifs <;> simp

/-- And for a star. -/
theorem packDigits_star (w : DigitWriter) (len : ℤ) (cs : List UInt8) :
    packDigits L w true len cs = .ok (digitBytes w cs) := by
  have hlen : packDigits L w true len cs = packDigits L w false cs.length cs := by
    simp [packDigits]
  rw [hlen, packDigits_count, if_neg (lt_irrefl _), List.take_length]

section Directives

variable (chars : ByteChars) (toS : Inum L → List UInt8) (fuel : ℕ)
  (others : UInt8 → Modifiers → ItemState L → Except (PackError ItemError) (ItemState L))

theorem packItems_digits (t : DigitType) {p : List UInt8} {m : Modifiers} (cs : List UInt8)
    (hm : Accepted L t.letter p 1 m) : packItems chars toS fuel others [.string cs] (t.letter :: p)
      = (packDigits L t.writer m.star m.len cs).mapError .other := by
  obtain ⟨hspace, hcomment, -⟩ := t.letter_spec
  rw [packItems_single chars toS fuel others hspace hcomment hm]
  cases t <;> exact packOne_single (f := fun x => stringOrNil x >>= packDigits L _ m.star m.len)

/-- Neither the digits of a string nor a string with digits is refused. -/
theorem packUnpack_digits (t : DigitType) (d : ByteString L) : packUnpack d [t.letter, 42]
    = if L.toLong (d.len * t.kind.per) < 0 then .error .negativeSize
      else .ok [.string (digitLoop d t.kind (L.toLong (d.len * t.kind.per)).toNat 0 0 0).1] := by
  obtain ⟨hspace, hcomment, hdir⟩ := t.letter_spec
  have hm : unpackModifiers L t.letter [42] d.len = .ok (⟨false, true, d.len⟩, []) := rfl
  rw [packUnpack_single d hspace hcomment hm, hdir, unpackDirective, unpackDigits,
    digitCount, strNew]
  simp only [sub_zero, true_or, if_true]
  split_ifs <;> rfl

/-- A string comes back from its digits. -/
def DigitRoundTrip (t : DigitType) (d : ByteString L) : Prop :=
  ∃ v, packUnpack d [t.letter, 42] = .ok [.string v] ∧
    packItems chars toS fuel others [.string v] [t.letter, 42] = .ok d.bytes

/-- **When a string comes back from its digits.** -/
theorem digitRoundTrip_iff (t : DigitType) (d : ByteString L) :
    DigitRoundTrip chars toS fuel others t d ↔ d.len * t.kind.per < 2 ^ (L.bits - 1) := by
  have hper := t.kind.pos
  have hnn := d.len_nonneg
  have hpos : (0 : ℤ) < 2 ^ (L.bits - 1) := by positivity
  have hprod : (0 : ℤ) ≤ d.len * t.kind.per := mul_nonneg hnn (by omega)
  have hstar : ∀ v : List UInt8, packItems chars toS fuel others [.string v] [t.letter, 42]
      = .ok (digitBytes t.writer v) := by
    intro v
    have hm : Accepted L t.letter [42] 1 ⟨false, true, if countsNothing t.letter then 0 else 1⟩ :=
      rfl
    rw [packItems_digits chars toS fuel others t v hm, packDigits_star]
    rfl
  constructor
  · rintro ⟨v, hunpack, hpack⟩
    by_contra hover
    have hwrap := toLong_le_sub (not_lt.mp hover)
    rw [packUnpack_digits] at hunpack
    split_ifs at hunpack with hneg
    obtain rfl : (digitLoop d t.kind (L.toLong (d.len * t.kind.per)).toNat 0 0 0).1 = v := by
      injection hunpack with hlist
      injection hlist with hvalue
      injection hvalue
    rw [hstar] at hpack
    have hlen := congrArg List.length (Except.ok.inj hpack)
    rw [length_digitBytes, (digitLoop_digits t.kind _ 0 0 0).1, t.per_eq, eq_comm,
      eq_comm, Nat.div_eq_iff hper] at hlen
    -- a whole group at least is missing
    have hbytes : (t.kind.per : ℤ) < 2 ^ L.bits := by cases t <;> cases L <;> decide
    have hcast : ((d.bytes.length * t.kind.per : ℕ) : ℤ) = d.len * t.kind.per := by
      rw [ByteString.len]
      push_cast
      rfl
    omega
  · intro hfit
    have hlong : L.toLong (d.len * t.kind.per) = d.len * t.kind.per := L.toLong_eq (by omega) hfit
    have hcount : (d.len * t.kind.per).toNat = t.kind.per * d.bytes.length := by
      rw [ByteString.len, mul_comm]
      exact_mod_cast Int.toNat_natCast (t.kind.per * d.bytes.length)
    have hread := digitLoop_bytes t.kind (reads_start d) 0 0
    have hwrite := writeDigits_bytes t.writer (fun c => (groupDigits_spec t c).1)
      (fun c => (groupDigits_spec t c).2) 0 d.bytes
    rw [mul_zero] at hread hwrite
    refine ⟨d.bytes.flatMap fun c => groupDigits t.kind t.kind.per (schar c), ?_, ?_⟩
    · rw [packUnpack_digits, hlong, if_neg (not_lt.mpr hprod), hcount, hread]
    · have hwhole : (d.bytes.flatMap fun c => groupDigits t.kind t.kind.per (schar c)).length
          % t.writer.per = 0 := by
        rw [← hread, (digitLoop_digits t.kind _ 0 0 0).1, t.per_eq, Nat.mul_mod_right]
      rw [hstar, digitBytes]
      simp only [hwhole, ne_eq, not_true_eq_false, if_false]
      rw [hwrite]

/-! ## Hex strings with a count -/

/-- `H` if the high nibble comes first, or `h`. -/
def hexType (high : Bool) : DigitType := if high then .H else .h

/-- The nibbles of a byte in the order of the directive. -/
def nibblesOf (high : Bool) (c : UInt8) : List ℕ :=
  if high then [c.toNat / 16, c.toNat % 16] else [c.toNat % 16, c.toNat / 16]

/-- A string of hex digits. -/
def IsHex (cs : List UInt8) : Prop := ∀ c ∈ cs, hex2num c ≠ -1

instance (cs : List UInt8) : Decidable (IsHex cs) := List.decidableBAll (fun c => hex2num c ≠ -1) cs

/-- The number of a hex digit is the one that `pack` takes it for. -/
theorem nibble_of_hex {c : UInt8} (h : hex2num c ≠ -1) :
    nibble c = (hex2num c).toNat ∧ nibble c < 16 := by
  have hall : ∀ k : Fin 256, hex2num (UInt8.ofNat k.val) ≠ -1 →
      nibble (UInt8.ofNat k.val) = (hex2num (UInt8.ofNat k.val)).toNat ∧
      nibble (UInt8.ofNat k.val) < 16 := by decide +kernel
  have hc := hall ⟨c.toNat, c.toNat_lt⟩
  rw [UInt8.ofNat_toNat] at hc
  exact hc h

/-- Two digits make a byte. -/
theorem nibblesOf_pair (high : Bool) {a b : UInt8} (ha : hex2num a ≠ -1) (hb : hex2num b ≠ -1) :
    nibblesOf high (UInt8.ofNat (groupByte (hexType high).writer 0 [a, b]))
      = [(hex2num a).toNat, (hex2num b).toNat] := by
  have hup : ∀ x y : Fin 16,
      nibblesOf false (UInt8.ofNat ((0 ||| x.val <<< 4) >>> 4 ||| y.val <<< 4))
        = [x.val, y.val] := by
    decide +kernel
  have hdown : ∀ x y : Fin 16,
      nibblesOf true (UInt8.ofNat ((0 ||| x.val) <<< 4 ||| y.val)) = [x.val, y.val] := by
    decide +kernel
  obtain ⟨hx, hx16⟩ := nibble_of_hex ha
  obtain ⟨hy, hy16⟩ := nibble_of_hex hb
  rw [← hx, ← hy]
  cases high
  · exact hup ⟨_, hx16⟩ ⟨_, hy16⟩
  · exact hdown ⟨_, hx16⟩ ⟨_, hy16⟩

/-- One digit makes a byte whose other nibble is zero. -/
theorem nibblesOf_single (high : Bool) {a : UInt8} (ha : hex2num a ≠ -1) (i : ℕ) :
    let w := (hexType high).writer
    (writeDigits w (2 * i) 0 [a]).1 = [] ∧
      nibblesOf high (UInt8.ofNat (w.last (writeDigits w (2 * i) 0 [a]).2 1))
        = [(hex2num a).toNat, 0] := by
  have hup : ∀ x : Fin 16, nibblesOf false (UInt8.ofNat ((0 ||| x.val <<< 4) >>> 4))
    = [x.val, 0] := by
    decide +kernel
  have hdown : ∀ x : Fin 16, nibblesOf true (UInt8.ofNat ((0 ||| x.val) <<< 4)) = [x.val, 0] := by
    decide +kernel
  obtain ⟨hx, hx16⟩ := nibble_of_hex ha
  have hodd : (2 * i + 1) % 2 ≠ 0 := by omega
  rw [← hx]
  cases high
  · have hmod : (2 * i + 1) % (hexType false).writer.per ≠ 0 := hodd
    simp only [writeDigits, if_pos hmod]
    exact ⟨trivial, hup ⟨_, hx16⟩⟩
  · have hmod : (2 * i + 1) % (hexType true).writer.per ≠ 0 := hodd
    simp only [writeDigits, if_pos hmod]
    exact ⟨trivial, hdown ⟨_, hx16⟩⟩

/-- **The nibbles of the bytes are the digits**, with a zero behind an odd number of them. -/
theorem nibbles_digitBytes (high : Bool) {cs : List UInt8} (hcs : IsHex cs) :
    (digitBytes (hexType high).writer cs).flatMap (nibblesOf high)
      = cs.map (fun c => (hex2num c).toNat) ++ List.replicate (cs.length % 2) 0 := by
  have hper : (hexType high).writer.per = 2 := by cases high <;> rfl
  -- the loop over the digits, from an even place on
  have hloop : ∀ (i : ℕ) (cs : List UInt8), IsHex cs →
      (if cs.length % 2 ≠ 0 then (writeDigits (hexType high).writer (2 * i) 0 cs).1 ++
          [UInt8.ofNat ((hexType high).writer.last
            (writeDigits (hexType high).writer (2 * i) 0 cs).2 (cs.length % 2))]
        else (writeDigits (hexType high).writer (2 * i) 0 cs).1).flatMap (nibblesOf high)
      = cs.map (fun c => (hex2num c).toNat) ++ List.replicate (cs.length % 2) 0 := by
    intro i cs
    induction cs using List.twoStepInduction generalizing i with
    | nil => simp [writeDigits]
    | singleton a =>
        intro hcs
        obtain ⟨hnone, hlast⟩ := nibblesOf_single high (hcs a (by simp)) i
        simp only [List.length_singleton, Nat.one_mod, ne_eq, one_ne_zero, not_false_eq_true,
          if_true,
          hnone, List.nil_append, List.flatMap_singleton, hlast]
        rfl
    | cons_cons a b cs ih =>
        intro hcs
        have hab : 0 + [a, b].length = (hexType high).writer.per := by
          rw [hper]
          rfl
        have hgroup := writeDigits_within (hexType high).writer i (List.cons_ne_nil a [b]) hab 0 cs
        rw [hper, Nat.add_zero] at hgroup
        have hmod : (a :: b :: cs).length % 2 = cs.length % 2 := by
          rw [List.length_cons, List.length_cons]
          omega
        have hcons : a :: b :: cs = [a, b] ++ cs := rfl
        rw [hmod, hcons, hgroup]
        have hpair := nibblesOf_pair high (hcs a (by simp)) (hcs b (by simp))
        have hrest := ih (i + 1) fun c hc => hcs c (by simp [hc])
        split_ifs at hrest ⊢ with hodd
        · rw [List.cons_append, List.flatMap_cons, hrest, hpair]
          rfl
        · rw [List.flatMap_cons, hrest, hpair]
          rfl
  rw [digitBytes, hper]
  exact hloop 0 cs hcs

/-- `pack` writes half as many bytes as the count says, and in them the digits that the count takes
and zeros. -/
def PacksNibbles (high : Bool) (p cs : List UInt8) : Prop :=
  let n := numeral 10 0 p
  ∃ res, packItems chars toS fuel others [.string cs] ((hexType high).letter :: p) = .ok res ∧
    res.length = (n + 1) / 2 ∧
    res.flatMap (nibblesOf high) = (cs.take n).map (fun c => (hex2num c).toNat)
      ++ List.replicate (2 * ((n + 1) / 2) - min n cs.length) 0

variable {chars toS fuel others} {high : Bool} {p cs : List UInt8}

theorem hexType_per (high : Bool) : (hexType high).writer.per = 2 := by cases high <;> rfl

/-- The nibbles of bytes that are zero. -/
theorem nibbles_zeros (high : Bool) (j : ℕ) :
    (List.replicate j (0 : UInt8)).flatMap (nibblesOf high) = List.replicate (2 * j) 0 := by
  induction j with
  | zero => rfl
  | succ j ih =>
      have hnone : nibblesOf high 0 = [0, 0] := by cases high <;> rfl
      rw [List.replicate_succ, List.flatMap_cons, ih, hnone]
      rfl

/-- There are enough digits for the count. -/
theorem packsNibbles_of_le (hcs : IsHex cs) (hm : Accepted L (hexType high).letter p 1
    ⟨false, false, numeral 10 0 p⟩) (hle : numeral 10 0 p ≤ cs.length) :
    PacksNibbles chars toS fuel others high p cs := by
  have hpack := packItems_digits chars toS fuel others (hexType high) cs hm
  rw [PacksNibbles]
  generalize numeral 10 0 p = n at *
  have hlen := length_digitBytes (hexType high).writer (cs.take n)
  have htake : IsHex (cs.take n) := fun c hc => hcs c (List.mem_of_mem_take hc)
  have hcount : 2 * ((n + 1) / 2) - n = n % 2 := by omega
  rw [hexType_per, List.length_take, min_eq_left hle] at hlen
  rw [hpack, packDigits_count, if_neg (not_lt.mpr hle)]
  refine ⟨_, rfl, hlen, ?_⟩
  rw [nibbles_digitBytes high htake, List.length_take, min_eq_left hle, hcount]

/-- Zeros are written for the digits that are missing. -/
theorem packsNibbles_iff_of_lt (hcs : IsHex cs) (hm : Accepted L (hexType high).letter p 1
    ⟨false, false, numeral 10 0 p⟩) (hmore : cs.length < numeral 10 0 p)
    (hmissing : (numeral 10 0 p : ℤ) - cs.length + 1 < 2 ^ (L.bits - 1)) :
    PacksNibbles chars toS fuel others high p cs ↔
      ¬ (cs.length % 2 = 1 ∧ numeral 10 0 p % 2 = 0) := by
  have hpack := packItems_digits chars toS fuel others (hexType high) cs hm
  have hpos : (0 : ℤ) < 2 ^ (L.bits - 1) := by positivity
  have hlen := length_digitBytes (hexType high).writer cs
  rw [hexType_per] at hlen
  rw [PacksNibbles]
  generalize numeral 10 0 p = n at *
  have hj : (L.toLong (n - cs.length + 1)).tdiv 2 = ((n - cs.length + 1) / 2 : ℕ) := by
    rw [L.toLong_eq (by omega) hmissing, Int.tdiv_eq_ediv_of_nonneg (by omega)]
    omega
  rw [hpack, packDigits_count, if_pos hmore, hj, if_neg (by omega), Int.toNat_natCast]
  constructor
  · rintro ⟨res, hres, hlength, -⟩
    rw [← Except.ok.inj hres, List.length_append, hlen, List.length_replicate] at hlength
    omega
  · intro hodd
    refine ⟨_, rfl, ?_, ?_⟩
    · rw [List.length_append, hlen, List.length_replicate]
      omega
    · have hcount : 2 * ((n + 1) / 2) - min n cs.length
          = cs.length % 2 + 2 * ((n - cs.length + 1) / 2) := by omega
      rw [List.flatMap_append, nibbles_digitBytes high hcs, nibbles_zeros,
        List.take_of_length_le hmore.le, hcount, List.append_assoc, List.replicate_append_replicate]

/-- The number of the digits that are missing overflows. -/
theorem not_packsNibbles_of_missing (hm : Accepted L (hexType high).letter p 1
    ⟨false, false, numeral 10 0 p⟩) (hmore : cs.length < numeral 10 0 p)
    (hlt : (numeral 10 0 p : ℤ) < 2 ^ (L.bits - 1))
    (hmissing : 2 ^ (L.bits - 1) ≤ (numeral 10 0 p : ℤ) - cs.length + 1) :
    ¬ PacksNibbles chars toS fuel others high p cs := by
  have hpack := packItems_digits chars toS fuel others (hexType high) cs hm
  have hword := two_pow_bits L
  have hmin : (2 : ℤ) ^ 31 ≤ 2 ^ (L.bits - 1) := by cases L <;> decide
  have hwrap := toLong_le_sub hmissing
  rintro ⟨res, hres, -⟩
  generalize numeral 10 0 p = n at *
  have hneg : (L.toLong (n - cs.length + 1)).tdiv 2 < 0 := by
    have hmono := Int.tdiv_le_tdiv (c := 2) (by decide)
      (show L.toLong (n - cs.length + 1) ≤ -2 by omega)
    have htwo : Int.tdiv (-2) 2 = -1 := by decide
    omega
  rw [hpack, packDigits_count, if_pos hmore, if_pos hneg] at hres
  cases hres

/-- The count is no `long`. -/
theorem not_packsNibbles_of_overflow (hne : p ≠ []) (hp : ∀ c ∈ p, isDigit c = true)
    (hge : (2 : ℤ) ^ (L.bits - 1) ≤ numeral 10 0 p) :
    ¬ PacksNibbles chars toS fuel others high p cs := by
  obtain ⟨hspace, hcomment, -⟩ := (hexType high).letter_spec
  have hmin : (2 : ℤ) ^ 31 ≤ 2 ^ (L.bits - 1) := by cases L <;> decide
  rintro ⟨res, hpack, hlen, -⟩
  have hend : ∀ c ∈ ([] : List UInt8).head?, ¬ IsDigitOf 10 c := nofun
  rcases packModifiers_overflow (hexType high).letter hne hp hend hge 1 with
    hrefused | ⟨len, hneg, hm⟩
  · rw [List.append_nil] at hrefused
    rw [packItems_refused chars toS fuel others hspace hcomment hrefused] at hpack
    cases hpack
  · rw [List.append_nil] at hm
    rw [packItems_digits chars toS fuel others (hexType high) cs hm] at hpack
    cases hbytes : packDigits L (hexType high).writer false len cs with
    | error e =>
        rw [hbytes] at hpack
        cases hpack
    | ok bytes =>
        rw [hbytes] at hpack
        obtain rfl : bytes = res := Except.ok.inj hpack
        have hshort := packDigits_negative (hexType high).writer hneg hbytes
        omega

/-- **When a hex string is packed so.** -/
theorem packsNibbles_iff (hne : p ≠ []) (hp : ∀ c ∈ p, isDigit c = true) (hcs : IsHex cs) :
    PacksNibbles chars toS fuel others high p cs ↔
      (numeral 10 0 p : ℤ) < 2 ^ (L.bits - 1) ∧
      ¬ (cs = [] ∧ (numeral 10 0 p + 1 : ℤ) = 2 ^ (L.bits - 1)) ∧
      ¬ (cs.length < numeral 10 0 p ∧ cs.length % 2 = 1 ∧ numeral 10 0 p % 2 = 0) := by
  have hmin : (2 : ℤ) ^ 31 ≤ 2 ^ (L.bits - 1) := by cases L <;> decide
  have hnil : cs = [] ↔ cs.length = 0 := List.length_eq_zero_iff.symm
  rw [hnil]
  rcases lt_or_ge (numeral 10 0 p : ℤ) (2 ^ (L.bits - 1)) with hlt | hge
  · have hm : Accepted L (hexType high).letter p 1 ⟨false, false, numeral 10 0 p⟩ :=
      accepted_digits hne hp hlt 1
    rcases Nat.lt_or_ge cs.length (numeral 10 0 p) with hmore | hless
    · rcases lt_or_ge ((numeral 10 0 p : ℤ) - cs.length + 1) (2 ^ (L.bits - 1)) with hmiss | hmiss
      · rw [packsNibbles_iff_of_lt hcs hm hmore hmiss]
        omega
      · exact iff_of_false (not_packsNibbles_of_missing hm hmore hlt hmiss) (by omega)
    · exact iff_of_true (packsNibbles_of_le hcs hm hless) (by omega)
  · exact iff_of_false (not_packsNibbles_of_overflow hne hp hge) (by omega)

variable (chars toS fuel others)

/-- **Bit and hex strings**: when a string comes back from its digits, and when a hex string is
packed with a count as it should be. -/
theorem digits_iff :
    (∀ (t : DigitType) (d : ByteString L),
      DigitRoundTrip chars toS fuel others t d ↔ d.len * t.kind.per < 2 ^ (L.bits - 1)) ∧
    ∀ (high : Bool) (p cs : List UInt8), p ≠ [] → (∀ c ∈ p, isDigit c = true) → IsHex cs →
      (PacksNibbles chars toS fuel others high p cs ↔
        (numeral 10 0 p : ℤ) < 2 ^ (L.bits - 1) ∧
        ¬ (cs = [] ∧ (numeral 10 0 p + 1 : ℤ) = 2 ^ (L.bits - 1)) ∧
        ¬ (cs.length < numeral 10 0 p ∧ cs.length % 2 = 1 ∧ numeral 10 0 p % 2 = 0)) :=
  ⟨fun t d => digitRoundTrip_iff chars toS fuel others t d,
    fun _ _ _ hne hp hcs => packsNibbles_iff hne hp hcs⟩

end Directives

/-- Three digits with a count of four are packed into three bytes. -/
theorem not_packsNibbles_four :
    ¬ PacksNibbles (L := .lp64) latin1Chars (fun _ => []) 0 (fun _ _ st => .ok st) false [52]
      [97, 98, 99] := by
  intro h
  have hcond := (packsNibbles_iff (by decide) (List.all_eq_true.mp (by decide)) (by decide)).mp h
  exact absurd hcond (by decide)

/-- Three digits with a count of five are packed into three bytes. -/
theorem packsNibbles_five :
    PacksNibbles (L := .lp64) latin1Chars (fun _ => []) 0 (fun _ _ st => .ok st) true [53]
      [97, 98, 99] :=
  ((digits_iff (L := .lp64) latin1Chars (fun _ => []) 0 (fun _ _ st => .ok st)).2 true [53]
    [97, 98, 99]
    (by decide) (List.all_eq_true.mp (by decide)) (by decide)).mpr (by decide)

end MacRuby.Pack
