import MacRuby.Pack.Reads
import MacRuby.Pack.Words
import Mathlib.Data.Nat.Digits.Lemmas

/-!
# BER-compressed integers

The directive `w`. `pack` divides a bignum by 128 until a word is left, takes seven bits of the word
at a time, and reverses the bytes, which are the UTF-8 of characters by then; `unpack` collects a
number in a word until its highest seven bits are in use, and in a bignum from there on.

## Main definitions

* `BerEncodes` — a list of bytes stands for a number.
* `berBytes` — the digits of a number to the base 128, marked and reversed.
* `berPacked` — what `pack` writes in place of them.

## Main results

* `berEncodes_berBytes`, `length_berBytes_le` — these bytes stand for the number, and no fewer do.
* `packBer_spec` — what `pack` does with an Integer.
* `berLoop_reads`, `packUnpack_berBytes` — what `unpack` reads, in the word and in the bignum.
* `berRoundTrip_iff` — both together.
-/

namespace MacRuby.Pack

variable {L : LongSize}

/-! ## The encoding -/

/-- The number that is read from bytes when `v` was read before. -/
def berValue (v : ℕ) (bytes : List UInt8) : ℕ := bytes.foldl (fun v b => v * 128 + b.toNat % 128) v

theorem berValue_cons (v : ℕ) (b : UInt8) (bytes : List UInt8) :
    berValue v (b :: bytes) = berValue (v * 128 + b.toNat % 128) bytes := rfl

/-- The bytes stand for the number: big-endian to the base 128, with the continuation bit in all of
them but the last. -/
structure BerEncodes (n : ℕ) (bytes : List UInt8) : Prop where
  value : berValue 0 bytes = n
  continuation : ∃ front last, bytes = front ++ [last] ∧ (∀ b ∈ front, 128 ≤ b.toNat) ∧
    last.toNat < 128

/-- A digit with the continuation bit. -/
def mark (d : ℕ) : UInt8 := UInt8.ofNat (d + 128)

/-- The shortest bytes that stand for a number. -/
def berBytes (n : ℕ) : List UInt8 := berFinish ((Nat.digits 128 n).map mark)

theorem toNat_mark {d : ℕ} (h : d < 128) : (mark d).toNat = d + 128 := by
  rw [mark, UInt8.toNat_ofNat', Nat.mod_eq_of_lt (by omega)]

theorem toNat_mark_mod {d : ℕ} (h : d < 128) : (mark d).toNat % 128 = d := by
  rw [toNat_mark h, Nat.add_mod_right, Nat.mod_eq_of_lt h]

/-- The continuation bit is cleared. -/
theorem toNat_mark_and {d : ℕ} (h : d < 128) : (mark d &&& 0x7f).toNat = d := by
  have hmask : (0x7f : UInt8).toNat = 2 ^ 7 - 1 := rfl
  rw [UInt8.toNat_and, hmask, Nat.and_two_pow_sub_one_eq_mod]
  exact toNat_mark_mod h

/-- The bytes of a positive number: the marked digits from the highest on, and the lowest one. -/
theorem exists_berBytes {n : ℕ} (hn : 0 < n) : ∃ front last, berBytes n = front ++ [last] ∧
    front = ((Nat.digits 128 (n / 128)).map mark).reverse ∧ last.toNat = n % 128 := by
  refine ⟨_, mark (n % 128) &&& 0x7f, ?_, rfl, toNat_mark_and (Nat.mod_lt n (by decide))⟩
  rw [berBytes, Nat.digits_def' (by decide) hn, List.map_cons, berFinish, List.reverse_cons]

/-- The marked digits of a number are read as the number. -/
theorem berValue_marked {n : ℕ} :
    berValue 0 ((Nat.digits 128 n).map mark).reverse = n := by
  induction n using Nat.strongRecOn with
  | ind n ih =>
      rcases Nat.eq_zero_or_pos n with rfl | hn
      · rfl
      · have hlow : n % 128 < 128 := Nat.mod_lt n (by decide)
        rw [Nat.digits_def' (by decide) hn, List.map_cons, List.reverse_cons, berValue,
          List.foldl_append]
        have hhigh := ih (n / 128) (Nat.div_lt_self hn (by decide))
        rw [berValue] at hhigh
        rw [hhigh, List.foldl_cons, List.foldl_nil, toNat_mark_mod hlow]
        omega

/-- **The bytes stand for the number.** -/
theorem berEncodes_berBytes (n : ℕ) : BerEncodes n (berBytes n) := by
  rcases Nat.eq_zero_or_pos n with rfl | hn
  · exact ⟨rfl, [], 0, rfl, by simp, by decide⟩
  · obtain ⟨front, last, heq, hfront, hlast⟩ := exists_berBytes hn
    have hlow : n % 128 < 128 := Nat.mod_lt n (by decide)
    refine ⟨?_, front, last, heq, ?_, by omega⟩
    · have hhigh := berValue_marked (n := n / 128)
      rw [← hfront, berValue] at hhigh
      rw [heq, berValue, List.foldl_append, hhigh, List.foldl_cons, List.foldl_nil, hlast]
      omega
    · intro b hb
      rw [hfront, List.mem_reverse, List.mem_map] at hb
      obtain ⟨d, hd, rfl⟩ := hb
      rw [toNat_mark (Nat.digits_lt_base (by decide) hd)]
      omega

theorem berValue_lt (v : ℕ) (bytes : List UInt8) :
    berValue v bytes < (v + 1) * 128 ^ bytes.length := by
  induction bytes generalizing v with
  | nil => simp [berValue]
  | cons b bytes ih =>
      have hdigit : b.toNat % 128 < 128 := Nat.mod_lt _ (by decide)
      rw [berValue_cons, List.length_cons, pow_succ']
      calc berValue (v * 128 + b.toNat % 128) bytes
          < (v * 128 + b.toNat % 128 + 1) * 128 ^ bytes.length := ih _
        _ ≤ (v + 1) * 128 * 128 ^ bytes.length := Nat.mul_le_mul_right _ (by omega)
        _ = (v + 1) * (128 * 128 ^ bytes.length) := mul_assoc _ _ _

/-- **No fewer bytes stand for the number.** -/
theorem length_berBytes_le {n : ℕ} {bytes : List UInt8} (h : BerEncodes n bytes) :
    (berBytes n).length ≤ bytes.length := by
  obtain ⟨front, last, hbytes, -, -⟩ := h.continuation
  have hpos : 0 < bytes.length := by simp [hbytes]
  have hlt : n < 128 ^ bytes.length := by
    have := berValue_lt 0 bytes
    rwa [h.value, zero_add, one_mul] at this
  have hdigits := (Nat.digits_length_le_iff (by decide) n).mpr hlt
  rw [berBytes]
  cases hds : Nat.digits 128 n with
  | nil => exact hpos
  | cons d ds =>
      rw [hds] at hdigits
      simpa [berFinish] using hdigits

theorem length_berFinish {buf : List UInt8} (h : buf ≠ []) :
    (berFinish buf).length = buf.length := by
  cases buf with
  | nil => exact absurd rfl h
  | cons c cs => rw [berFinish, List.length_reverse, List.length_cons, List.length_cons]

/-! ## `pack` -/

/-- What `pack` writes for a number. -/
def berPacked (chars : ByteChars) (n : ℕ) : List UInt8 :=
  berFinish (((Nat.digits 128 n).map mark).flatMap chars.utf8)

/-- **More bytes are written than stand for a positive number.** -/
theorem lt_length_berPacked (chars : ByteChars) {n : ℕ} (hn : 0 < n) :
    (berBytes n).length < (berPacked chars n).length := by
  have hdigits : Nat.digits 128 n = n % 128 :: Nat.digits 128 (n / 128) :=
    Nat.digits_def' (by decide) hn
  have hhigh : HasHigh ((Nat.digits 128 n).map mark) := by
    refine ⟨mark (n % 128), by rw [hdigits]; simp, UInt8.le_iff_toNat_le.mpr ?_⟩
    rw [toNat_mark (Nat.mod_lt n (by decide))]
    exact Nat.le_add_left 128 _
  have hlonger := lt_length_flatMap_utf8 chars hhigh
  have hne : (Nat.digits 128 n).map mark ≠ [] := by
    rw [hdigits]
    exact List.cons_ne_nil _ _
  rw [berBytes, berPacked, length_berFinish hne,
    length_berFinish (List.ne_nil_of_length_pos (by omega))]
  exact hlonger

theorem low_seven_bits (n : ℕ) : n &&& 0x7f = n % 128 := Nat.and_two_pow_sub_one_eq_mod n 7

/-- The byte that is appended for the lowest seven bits. -/
theorem marked_low (n : ℕ) : UInt8.ofNat ((n &&& 0x7f) ||| 0x80) = mark (n % 128) := by
  have hlt : n % 128 < 2 ^ 7 := Nat.mod_lt n (by decide)
  have hor := Nat.two_pow_add_eq_or_of_lt hlt 1
  rw [low_seven_bits, mark, Nat.or_comm, add_comm]
  exact congrArg _ hor.symm

/-- **The loop over a word** appends the marked digits. -/
theorem berWord_eq {n ul : ℕ} (h : ul < 128 ^ n) (buf : List UInt8) :
    berWord n ul buf = buf ++ (Nat.digits 128 ul).map mark := by
  induction n generalizing ul buf with
  | zero =>
      obtain rfl : ul = 0 := by simpa using h
      simp [berWord]
  | succ n ih =>
      rw [berWord]
      split_ifs with h0
      · simp [h0]
      · have hshift : ul >>> 7 = ul / 128 := Nat.shiftRight_eq_div_pow ul 7
        have hlt : ul / 128 < 128 ^ n := by
          rw [pow_succ] at h
          exact Nat.div_lt_of_lt_mul (by rwa [mul_comm])
        rw [hshift, ih hlt, marked_low, Nat.digits_def' (by decide) (Nat.pos_of_ne_zero h0),
          List.map_cons, List.append_assoc, List.singleton_append]

/-- Division of a bignum by 128. -/
theorem rbBigDivmod_128 {fuel : ℕ} (hfuel : 31 ≤ fuel) (z : Bignum) : ∃ div mod : Inum L,
    rbBigDivmod L fuel z (.bignum (rbUint2big L 128)) = .ok (div, mod) ∧
      div.Is (z.toInt / 128) ∧ mod.Is (z.toInt % 128) := by
  have h128 : (rbUint2big L 128).toInt = 128 := by cases L <;> decide
  have htop : digitAt (rbUint2big L 128).digits ((rbUint2big L 128).len - 1) ≠ 0 := by
    cases L <;> decide
  obtain ⟨d, m, hrun, hd, hm⟩ := bigdivmod_spec (L := L) hfuel (x := z)
    (y := rbUint2big L 128) (by rw [h128]; decide) (divOk_of_top_ne_zero htop)
  rw [h128, Int.fdiv_eq_ediv_of_nonneg _ (by decide)] at hd
  rw [h128, Int.fmod_eq_emod_of_nonneg _ (by decide)] at hm
  refine ⟨bignorm L d, bignorm L m, ?_, bignorm_is hd, bignorm_is hm⟩
  rw [rbBigDivmod]
  show bigdivmod L fuel z (rbUint2big L 128) >>= _ = _
  rw [hrun]
  rfl

/-- A bignum is no fixnum; all that matters here is that it is not small. -/
theorem bignum_large {z : Bignum} {v : ℤ} (hz : (Inum.bignum z : Inum L).Is v) :
    v < -128 ∨ 128 ≤ v := by
  have hval : z.toInt = v := hz.value
  have hrange : z.toInt < L.fixnumMin ∨ L.fixnumMax < z.toInt := hz.canonical.1
  have h0 : L.fixnumMin ≤ -128 := by cases L <;> decide
  have h1 : 128 ≤ L.fixnumMax := by cases L <;> decide
  omega

/-- **The loop over a bignum** leaves a fixnum with the sign of the bignum. What it appends are the
digits that a positive bignum has below those of the fixnum. -/
theorem berBignum_spec {fuel : ℕ} (n : ℕ) (hfuel : 31 ≤ fuel) {x : Inum L} {v : ℤ} (hx : x.Is v)
    (hlow : -128 ^ n ≤ v) (hhigh : v < 128 ^ n) (buf : List UInt8) :
    ∃ (bytes : List UInt8) (y : Fixnum L),
      berBignum fuel (n + 1) x buf = .ok (buf ++ bytes, .fixnum y) ∧ (v < 0 ↔ y.val < 0) ∧
      (0 ≤ v → (Nat.digits 128 v.toNat).map mark
        = bytes ++ (Nat.digits 128 y.val.toNat).map mark) := by
  induction n generalizing x v buf with
  | zero =>
      cases x with
      | fixnum y =>
          have hval : y.val = v := hx.value
          exact ⟨[], y, by rw [berBignum, List.append_nil], by rw [hval],
            fun _ => by rw [hval]; rfl⟩
      | bignum z =>
          rw [pow_zero] at hlow hhigh
          have := bignum_large hx
          omega
  | succ n ih =>
      cases x with
      | fixnum y =>
          have hval : y.val = v := hx.value
          exact ⟨[], y, by rw [berBignum, List.append_nil], by rw [hval],
            fun _ => by rw [hval]; rfl⟩
      | bignum z =>
          have hval : z.toInt = v := hx.value
          have hlarge := bignum_large hx
          obtain ⟨div, mod, hrun, hdiv, hmod⟩ := rbBigDivmod_128 (L := L) hfuel z
          rw [hval] at hdiv hmod
          rw [pow_succ] at hlow hhigh
          have hmark : UInt8.ofNat (mod.toInt.toNat ||| 0x80) = mark (v % 128).toNat := by
            have h0 := Int.emod_nonneg v (b := 128) (by decide)
            have h1 := Int.emod_lt_of_pos v (b := 128) (by decide)
            have hlow7 : (v % 128).toNat % 128 = (v % 128).toNat := Nat.mod_eq_of_lt (by omega)
            have hbyte := marked_low (v % 128).toNat
            rw [low_seven_bits, hlow7] at hbyte
            rw [hmod.value]
            exact hbyte
          obtain ⟨bytes, y, hloop, hsign, hdigits⟩ := ih hdiv (by omega) (by omega)
            (buf ++ [mark (v % 128).toNat])
          refine ⟨mark (v % 128).toNat :: bytes, y, ?_, by omega, ?_⟩
          · rw [berBignum, hrun]
            show berBignum fuel (n + 1) div _ = _
            rw [hmark, hloop, List.append_assoc, List.singleton_append]
          · intro hnn
            have hpos : 0 < v.toNat := by omega
            have hlow : v.toNat % 128 = (v % 128).toNat := by omega
            have hhigh : v.toNat / 128 = (v / 128).toNat := by omega
            rw [Nat.digits_def' (by decide) hpos, List.map_cons, hlow, hhigh, hdigits (by omega),
              List.cons_append]

/-- A fixnum is a word, and not one of the largest. -/
theorem num2long_fixnum (y : Fixnum L) :
    num2long (.fixnum y) = .ok y.val ∧ y.val.toNat < 128 ^ L.bits := by
  have h0 := y.min_le
  have h1 := y.le_max
  obtain ⟨hmin, hmax, hhalf⟩ := L.fixnum_range
  have hpos : (0 : ℤ) < 2 ^ (L.bits - 2) := by positivity
  have hlow : -2 ^ (L.bits - 1) ≤ y.val := by omega
  have hhigh : y.val < 2 ^ (L.bits - 1) := by omega
  refine ⟨if_pos ⟨hlow, hhigh⟩, ?_⟩
  have hword : (y.val.toNat : ℤ) < 128 ^ L.bits := by
    calc (y.val.toNat : ℤ) < 2 ^ (L.bits - 2) := by omega
      _ ≤ 128 ^ L.bits := by cases L <;> decide
  exact_mod_cast hword

/-- What `pack` does with an Integer, for enough fuel. -/
theorem packBer_spec (chars : ByteChars) {fuel : ℕ} {x : Inum L} {v : ℤ} (hx : x.Is v)
    (hfuel : 31 + v.natAbs ≤ fuel) : packBer chars fuel (.integer x)
      = if v < 0 then .error .negative else .ok (berPacked chars v.toNat) := by
  obtain ⟨n, rfl⟩ : ∃ n, fuel = n + 1 := ⟨fuel - 1, by omega⟩
  have hpow : (v.natAbs : ℤ) < 128 ^ n := by
    have h : v.natAbs < 128 ^ v.natAbs := Nat.lt_pow_self (by decide)
    have hle : 128 ^ v.natAbs ≤ 128 ^ n := Nat.pow_le_pow_right (by decide) (by omega)
    exact_mod_cast h.trans_le hle
  obtain ⟨bytes, y, hloop, hsign, hdigits⟩ := berBignum_spec n (show 31 ≤ n + 1 by omega) hx
    (by omega) (by omega) []
  obtain ⟨hlong, hword⟩ := num2long_fixnum y
  have hrun : packBer chars (n + 1) (.integer x) = if y.val < 0 then .error .negative
      else .ok (berFinish ((berWord L.bits y.val.toNat bytes).flatMap chars.utf8)) := by
    rw [packBer, toInteger]
    show (berBignum (n + 1) (n + 1) x []).mapError _ >>= _ = _
    rw [hloop]
    show num2long (.fixnum y) >>= _ = _
    rw [hlong]
    rfl
  rw [hrun]
  by_cases hneg : v < 0
  · rw [if_pos hneg, if_pos (hsign.mp hneg)]
  · rw [if_neg hneg, if_neg (fun h => hneg (hsign.mpr h)), berWord_eq hword,
      ← hdigits (not_lt.mp hneg)]
    rfl

/-! ## `unpack` -/

section Unpack

variable {d : ByteString L} {s : ℤ} {front rest : List UInt8} {last : UInt8}

theorem and_continuation (b : UInt8) : b.toNat &&& 0x80 = 0 ↔ b.toNat < 128 := by
  have hall : ∀ k : Fin 256, k.val &&& 0x80 = 0 ↔ k.val < 128 := by decide +kernel
  exact hall ⟨b.toNat, b.toNat_lt⟩

/-- A turn for a number that does not fit a word. -/
theorem berBig_step {big : Inum L} {v : ℕ} (hbig : big.toInt = v) (b : UInt8) :
    (rbBigPlus L (rbBigMul L big.toBignum (.bignum (rbUint2big L 128))).toBignum
      (.bignum (rbUint2big L (b.toNat &&& 0x7f : ℕ)))).Is (v * 128 + b.toNat % 128 : ℕ) := by
  have h128 : (rbUint2big L 128).toInt = 128 := by cases L <;> decide
  have hlow : ((b.toNat &&& 0x7f : ℕ) : ℤ) = (b.toNat % 128 : ℕ) := by rw [low_seven_bits]
  have hdigit : (rbUint2big L (b.toNat &&& 0x7f : ℕ)).toInt = (b.toNat % 128 : ℕ) := by
    rw [hlow]
    have hword : (128 : ℤ) ≤ 2 ^ L.bits := by cases L <;> decide
    exact toInt_rbUint2big (by omega) (by omega)
  have hmul : (rbBigMul L big.toBignum (.bignum (rbUint2big L 128))).Is (v * 128) := by
    refine ⟨bignorm_canonical L _, ?_⟩
    rw [toInt_rbBigMul, big.toInt_toBignum_eq, hbig]
    exact congrArg _ h128
  have hsum := toInt_bigadd_of_trimmed hmul.canonical.trimmed
    (trimmed_rbUint2big L (b.toNat &&& 0x7f : ℕ)) true
  rw [if_pos rfl, Inum.toInt_toBignum_eq, hmul.value, hdigit] at hsum
  refine ⟨bignorm_canonical L _, ?_⟩
  rw [rbBigPlus, toInt_bignorm]
  push_cast
  exact hsum

/-- **The loop over a number that does not fit a word.** -/
theorem berBig_reads {n v : ℕ} {big : Inum L} (h : Reads d s (front ++ last :: rest))
    (hfront : ∀ b ∈ front, 128 ≤ b.toNat) (hlast : last.toNat < 128) (hbig : big.toInt = v)
    (hn : front.length < n) :
    ∃ r : Inum L, r.Is (berValue v (front ++ [last])) ∧
      berBig d n big s = (some r, s + (front.length + 1)) := by
  induction front generalizing s v big n with
  | nil =>
      obtain ⟨n, rfl⟩ : ∃ k, n = k + 1 := ⟨n - 1, by omega⟩
      refine ⟨_, berBig_step hbig last, ?_⟩
      rw [berBig, if_pos h.lt]
      simp only [h.get, (and_continuation last).mpr hlast, if_true, List.length_nil]
      norm_num
  | cons b front ih =>
      obtain ⟨n, rfl⟩ : ∃ k, n = k + 1 := ⟨n - 1, by omega⟩
      have hb : ¬ b.toNat &&& 0x80 = 0 := by
        rw [and_continuation]
        have := hfront b (by simp)
        omega
      rw [List.length_cons] at hn
      obtain ⟨r, hr, hrun⟩ := ih h.next (fun c hc => hfront c (by simp [hc]))
        (berBig_step hbig b).value (n := n) (by omega)
      refine ⟨r, hr, ?_⟩
      rw [berBig, if_pos h.lt]
      simp only [h.get, hb, if_false]
      rw [hrun, List.length_cons]
      congr 1
      push_cast
      ring

/-- The mask of the highest seven bits. -/
theorem lt_of_and_mask {u : ℕ} (h : u &&& 0xfe <<< ((L.bytes - 1) * 8) = 0) (hu : u < 2 ^ L.bits) :
    u < 2 ^ (L.bits - 7) := by
  by_contra hge
  have hmask : 0xfe <<< ((L.bytes - 1) * 8) = 127 <<< (L.bits - 7) := by cases L <;> rfl
  have hbits : 2 ^ L.bits = 2 ^ (L.bits - 7) * 128 := by cases L <;> rfl
  have hpos : 0 < 2 ^ (L.bits - 7) := by positivity
  have htop : u / 2 ^ (L.bits - 7) < 2 ^ 7 := by
    rw [Nat.div_lt_iff_lt_mul hpos]
    omega
  -- the masked bits, shifted down, are all of what is above the lower ones
  have hshift : (u &&& 127 <<< (L.bits - 7)) >>> (L.bits - 7) = u / 2 ^ (L.bits - 7) := by
    rw [Nat.shiftRight_and_distrib, Nat.shiftLeft_shiftRight, Nat.shiftRight_eq_div_pow]
    exact (Nat.and_two_pow_sub_one_eq_mod _ 7).trans (Nat.mod_eq_of_lt htop)
  rw [hmask] at h
  rw [h, Nat.zero_shiftRight] at hshift
  have := Nat.div_pos (not_lt.mp hge) hpos
  omega

/-- A word that has room for seven bits takes them. -/
theorem shift_or_low {ul : ℕ} (hul : ul < 2 ^ (L.bits - 7)) (b : UInt8) :
    (ul <<< 7) % 2 ^ L.bits ||| b.toNat &&& 0x7f = ul * 128 + b.toNat % 128 ∧
      ul * 128 + b.toNat % 128 < 2 ^ L.bits := by
  have hbits : 2 ^ L.bits = 2 ^ (L.bits - 7) * 128 := by cases L <;> rfl
  have hlow : b.toNat % 128 < 2 ^ 7 := Nat.mod_lt _ (by decide)
  refine ⟨?_, by omega⟩
  rw [low_seven_bits, Nat.shiftLeft_eq, Nat.mod_eq_of_lt (by omega), mul_comm ul]
  exact (Nat.two_pow_add_eq_or_of_lt hlow ul).symm

/-- **The loop over a number**, in the word and, where it does not fit, in a bignum. -/
theorem berLoop_reads {fuel ul : ℕ} {len : ℤ} (h : Reads d s (front ++ last :: rest))
    (hfront : ∀ b ∈ front, 128 ≤ b.toNat) (hlast : last.toNat < 128) (hul : ul < 2 ^ (L.bits - 7))
    (hlen : 0 < len) (hfuel : front.length + 1 + rest.length < fuel) :
    ∃ (r : Inum L) (fuel' : ℕ), r.Is (berValue ul (front ++ [last])) ∧ rest.length < fuel' ∧
      berLoop d fuel len ul s = (berLoop d fuel' (len - 1) 0 (s + (front.length + 1))).cons
        (.push (.integer r)) := by
  induction front generalizing s ul fuel with
  | nil =>
      obtain ⟨fuel, rfl⟩ : ∃ k, fuel = k + 1 := ⟨fuel - 1, by omega⟩
      obtain ⟨hword, hlt⟩ := shift_or_low hul last
      refine ⟨_, fuel, rbUint2inum_is (n := (ul * 128 + last.toNat % 128 : ℕ)) (by omega)
        (by exact_mod_cast hlt), by rw [List.length_nil] at hfuel; omega, ?_⟩
      rw [berLoop, if_pos ⟨hlen, h.lt⟩]
      simp only [h.get, hword, (and_continuation last).mpr hlast, if_true, List.length_nil]
      norm_num
  | cons b front ih =>
      obtain ⟨fuel, rfl⟩ : ∃ k, fuel = k + 1 := ⟨fuel - 1, by omega⟩
      have hb : ¬ b.toNat &&& 0x80 = 0 := by
        rw [and_continuation]
        have := hfront b (by simp)
        omega
      have hfront' : ∀ c ∈ front, 128 ≤ c.toNat := fun c hc => hfront c (by simp [hc])
      obtain ⟨hword, hlt⟩ := shift_or_low hul b
      rw [List.length_cons] at hfuel
      have hcursor : s + 1 + ((front.length : ℤ) + 1) = s + (((b :: front).length : ℕ) + 1) := by
        rw [List.length_cons]
        push_cast
        ring
      rw [berLoop, if_pos ⟨hlen, h.lt⟩]
      simp only [h.get, hword, hb, if_false]
      split_ifs with hmask
      · have hbig : (Inum.bignum (rbUint2big L (ul * 128 + b.toNat % 128 : ℕ)) : Inum L).toInt
            = (ul * 128 + b.toNat % 128 : ℕ) :=
          toInt_rbUint2big (by omega) (by exact_mod_cast hlt)
        have hroom : front.length < (d.len - s).toNat := by
          rw [h.len_eq]
          simp only [List.cons_append, List.length_cons, List.length_append]
          omega
        obtain ⟨r, hr, hrun⟩ := berBig_reads h.next hfront' hlast hbig hroom
        refine ⟨r, fuel, hr, by omega, ?_⟩
        rw [hrun, hcursor]
      · rw [not_not] at hmask
        obtain ⟨r, fuel', hr, hfuel', hrun⟩ := ih h.next hfront'
          (lt_of_and_mask hmask hlt) (show front.length + 1 + rest.length < fuel by omega)
        refine ⟨r, fuel', hr, hfuel', ?_⟩
        rw [hrun, hcursor]

/-- **The loop over several numbers.** -/
theorem berLoop_all {fuel : ℕ} {len : ℤ} {xs : List (Inum L)}
    (hxs : ∀ x ∈ xs, x.Canonical ∧ 0 ≤ x.toInt)
    (h : Reads d s (xs.flatMap fun x => berBytes x.toInt.toNat)) (hlen : (xs.length : ℤ) ≤ len)
    (hfuel : (xs.flatMap fun x => berBytes x.toInt.toNat).length < fuel) :
    berLoop d fuel len 0 s = ⟨xs.map fun x => .push (.integer x), .ok d.len⟩ := by
  induction xs generalizing s fuel len with
  | nil =>
      obtain ⟨fuel, rfl⟩ : ∃ k, fuel = k + 1 := ⟨fuel - 1, by omega⟩
      have hs : s = d.len := h.eq_len
      rw [berLoop, if_neg (by omega), hs]
      rfl
  | cons x xs ih =>
      obtain ⟨hcanon, hnn⟩ := hxs x (by simp)
      obtain ⟨front, last, heq, hfront, hlast⟩ := (berEncodes_berBytes x.toInt.toNat).continuation
      rw [List.flatMap_cons, heq, List.append_assoc, List.singleton_append] at h hfuel
      rw [List.length_append, List.length_cons] at hfuel
      rw [List.length_cons] at hlen
      have hpos : 0 < 2 ^ (L.bits - 7) := by positivity
      obtain ⟨r, fuel', hr, hfuel', hrun⟩ := berLoop_reads h hfront hlast hpos
        (show 0 < len by omega) (show _ < fuel by omega)
      rw [← heq, (berEncodes_berBytes _).value, Int.toNat_of_nonneg hnn] at hr
      have hx : r = x := hr.unique ⟨hcanon, rfl⟩
      have hnext : Reads d (s + (front.length + 1))
          (xs.flatMap fun x => berBytes x.toInt.toNat) := by
        have := Reads.skip (u := front ++ [last]) (by simpa using h)
        simpa using this
      rw [hrun, ih (fun y hy => hxs y (by simp [hy])) hnext (by omega) hfuel', hx]
      rfl

end Unpack

/-! ## The round trip -/

section RoundTrip

variable (chars : ByteChars) (toS : Inum L → List UInt8)
  (others : UInt8 → Modifiers → ItemState L → Except (PackError ItemError) (ItemState L))

/-- `w*`. -/
def berFormat : List UInt8 := ['w'.toNat.toUInt8, '*'.toNat.toUInt8]

/-- The bytes stand for the number, and no fewer do. -/
structure BerMinimal (n : ℕ) (bytes : List UInt8) : Prop where
  encodes : BerEncodes n bytes
  minimal : ∀ bytes', BerEncodes n bytes' → bytes.length ≤ bytes'.length

theorem packItems_ber (fuel : ℕ) (xs : List (Inum L)) :
    packItems chars toS fuel others (xs.map .integer) berFormat
      = (packEach (packBer chars fuel) (xs.map Item.integer).length ⟨xs.map .integer, []⟩).map
        ItemState.res :=
  packItems_single chars toS fuel others (m := ⟨false, true, (xs.map Item.integer).length⟩) rfl
    (by decide) rfl

theorem packUnpack_ber (d : ByteString L) : packUnpack d berFormat
    = (unpackBer d 0 d.len).result.map fun _ => (unpackBer d 0 d.len).outputs.map Output.element :=
  packUnpack_single d (m := ⟨false, true, d.len⟩) rfl (by decide) rfl

/-- **`unpack` reads the shortest bytes** of Integers that are not negative. -/
theorem packUnpack_berBytes {xs : List (Inum L)} (hxs : ∀ x ∈ xs, x.Canonical ∧ 0 ≤ x.toInt)
    {d : ByteString L} (hd : d.bytes = xs.flatMap fun x => berBytes x.toInt.toNat) :
    packUnpack d berFormat = .ok (xs.map .integer) := by
  have hreads : Reads d 0 (xs.flatMap fun x => berBytes x.toInt.toNat) := hd ▸ reads_start d
  have hlen : d.len = (xs.flatMap fun x => berBytes x.toInt.toNat).length := by
    rw [← hd]
    rfl
  have hone : ∀ n, 1 ≤ (berBytes n).length := by
    intro n
    obtain ⟨front, last, heq, -, -⟩ := (berEncodes_berBytes n).continuation
    simp [heq]
  have hcount : xs.length ≤ (xs.flatMap fun x => berBytes x.toInt.toNat).length := by
    rw [List.length_flatMap]
    calc xs.length = (xs.map fun _ => 1).sum := by simp
      _ ≤ _ := List.sum_le_sum fun x _ => hone x.toInt.toNat
  rw [packUnpack_ber, unpackBer, berLoop_all hxs hreads (by omega) (by omega)]
  simp [Except.map, Output.element]

/-- Fuel that is enough for each of several Integers. -/
theorem enough_fuel {xs : List (Inum L)} {x : Inum L} (hx : x ∈ xs) {fuel : ℕ}
    (hfuel : 31 + (xs.map fun x => x.toInt.natAbs).sum ≤ fuel) : 31 + x.toInt.natAbs ≤ fuel := by
  have := List.single_le_sum (l := xs.map fun x => x.toInt.natAbs) (by simp) x.toInt.natAbs
    (List.mem_map_of_mem hx)
  omega

/-- What is written for an element, which is an integer. -/
def itemBer : Item L → List UInt8
  | .integer n => berPacked chars n.toInt.toNat
  | _ => []

variable {chars toS others} {xs : List (Inum L)}

/-- What `pack` writes for Integers that are not negative. -/
theorem packItems_settles (hxs : ∀ x ∈ xs, x.Canonical) (hnn : ∀ x ∈ xs, 0 ≤ x.toInt) :
    Fuel.Settles (fun fuel => packItems chars toS fuel others (xs.map .integer) berFormat)
      (.ok (xs.flatMap fun x => berPacked chars x.toInt.toNat)) := by
  refine .of_le (31 + (xs.map fun x => x.toInt.natAbs).sum) fun fuel hfuel => ?_
  have hone : ∀ x ∈ xs.map Item.integer, packBer chars fuel x = .ok (itemBer chars x) := by
    intro x hx
    obtain ⟨n, hn, rfl⟩ := List.mem_map.mp hx
    rw [packBer_spec chars (hxs n hn).is (enough_fuel hn hfuel), if_neg (not_lt.mpr (hnn n hn))]
    rfl
  rw [packItems_ber, packEach_append hone, List.flatMap_map]
  rfl

/-- A negative Integer is refused. -/
theorem packItems_negative (hxs : ∀ x ∈ xs, x.Canonical) (hneg : ∃ x ∈ xs, x.toInt < 0) :
    Fuel.Settles (fun fuel => packItems chars toS fuel others (xs.map .integer) berFormat)
      (.error (.other .negative)) := by
  obtain ⟨x, hx, hneg⟩ := hneg
  refine .of_le (31 + (xs.map fun x => x.toInt.natAbs).sum) fun fuel hfuel => ?_
  have hone : ∀ x ∈ xs.map Item.integer, packBer chars fuel x = .error .negative ∨
      ∃ b, packBer chars fuel x = .ok b := by
    intro x hx
    obtain ⟨n, hn, rfl⟩ := List.mem_map.mp hx
    rw [packBer_spec chars (hxs n hn).is (enough_fuel hn hfuel)]
    split_ifs
    · exact .inl rfl
    · exact .inr ⟨_, rfl⟩
  have hfail : packBer chars fuel (.integer x) = .error .negative := by
    rw [packBer_spec chars (hxs x hx).is (enough_fuel hx hfuel), if_pos hneg]
  rw [packItems_ber, packEach_error hone ⟨_, List.mem_map_of_mem hx, hfail⟩]
  rfl

variable (chars toS others)

/-- Integers are written one after the other, each with the fewest bytes that stand for it, and are
read again, unless one of them is negative: then they are refused. -/
structure BerRoundTrip (xs : List (Inum L)) : Prop where
  written : (∀ x ∈ xs, 0 ≤ x.toInt) → ∃ bss : List (List UInt8),
    List.Forall₂ (fun x bytes => BerMinimal x.toInt.toNat bytes) xs bss ∧
    Fuel.Settles (fun fuel => packItems chars toS fuel others (xs.map .integer) berFormat)
      (.ok bss.flatten) ∧
    ∀ d : ByteString L, d.bytes = bss.flatten → packUnpack d berFormat = .ok (xs.map .integer)
  refused : (∃ x ∈ xs, x.toInt < 0) →
    Fuel.Settles (fun fuel => packItems chars toS fuel others (xs.map .integer) berFormat)
      (.error (.other .negative))

variable {chars toS others}

/-- The shortest bytes of several Integers are shorter than what is written, if one is positive. -/
theorem length_lt_of_pos (chars : ByteChars) {bss : List (List UInt8)}
    (hpos : ∃ x ∈ xs, 0 < x.toInt)
    (hbss : List.Forall₂ (fun x bytes => BerMinimal x.toInt.toNat bytes) xs bss) :
    bss.flatten.length < (xs.flatMap fun x => berPacked chars x.toInt.toNat).length := by
  have hle : ∀ n, (berBytes n).length ≤ (berPacked chars n).length := by
    intro n
    rcases Nat.eq_zero_or_pos n with rfl | hn
    · exact le_of_eq rfl
    · exact (lt_length_berPacked chars hn).le
  have hshort : bss.flatten.length ≤ (xs.map fun x => (berBytes x.toInt.toNat).length).sum := by
    clear hpos
    induction hbss with
    | nil => exact le_of_eq rfl
    | cons h _ ih =>
        rw [List.flatten_cons, List.length_append, List.map_cons, List.sum_cons]
        have := h.minimal _ (berEncodes_berBytes _)
        omega
  obtain ⟨x, hx, hpos⟩ := hpos
  rw [List.length_flatMap]
  exact hshort.trans_lt (List.sum_lt_sum _ _ (fun y _ => hle y.toInt.toNat)
    ⟨x, hx, lt_length_berPacked chars (by omega)⟩)

/-- What is written for zeros is what stands for them. -/
theorem written_of_zero (hxs : ∀ x ∈ xs, x.Canonical) (hzero : ∀ x ∈ xs, x.toInt = 0) :
    BerRoundTrip chars toS others xs := by
  have hnn : ∀ x ∈ xs, 0 ≤ x.toInt := fun x hx => (hzero x hx).ge
  refine ⟨fun _ => ⟨xs.map fun x => berBytes x.toInt.toNat, ?_, ?_, fun d hd => ?_⟩,
    fun ⟨x, hx, hneg⟩ => absurd (hnn x hx) (not_le.mpr hneg)⟩
  · rw [List.forall₂_map_right_iff]
    exact List.forall₂_same.mpr fun x _ =>
      ⟨berEncodes_berBytes _, fun bytes h => length_berBytes_le h⟩
  · have hsame : (xs.flatMap fun x => berPacked chars x.toInt.toNat)
        = xs.flatMap fun x => berBytes x.toInt.toNat :=
      List.flatMap_congr fun x hx => by
        rw [hzero x hx]
        rfl
    rw [← List.flatMap_def, ← hsame]
    exact packItems_settles hxs hnn
  · rw [← List.flatMap_def] at hd
    exact packUnpack_berBytes (fun x hx => ⟨hxs x hx, hnn x hx⟩) hd

variable (chars toS others)

/-- **BER-compressed integers round-trip** exactly when one is negative, so that all are refused, or
all are zero. -/
theorem berRoundTrip_iff (hxs : ∀ x ∈ xs, x.Canonical) : BerRoundTrip chars toS others xs ↔
    (∃ x ∈ xs, x.toInt < 0) ∨ ∀ x ∈ xs, x.toInt = 0 := by
  constructor
  · intro h
    by_contra hnot
    rw [not_or] at hnot
    have hnn : ∀ x ∈ xs, 0 ≤ x.toInt := fun x hx => not_lt.mp fun hneg => hnot.1 ⟨x, hx, hneg⟩
    have hpos : ∃ x ∈ xs, 0 < x.toInt := by
      by_contra hno
      exact hnot.2 fun x hx => le_antisymm (not_lt.mp fun hlt => hno ⟨x, hx, hlt⟩) (hnn x hx)
    obtain ⟨bss, hbss, hsettles, -⟩ := h.written hnn
    have hwritten := Except.ok.inj (hsettles.unique (packItems_settles hxs hnn))
    have := length_lt_of_pos chars hpos hbss
    rw [hwritten] at this
    exact lt_irrefl _ this
  · rintro (⟨x, hx, hneg⟩ | hzero)
    · exact ⟨fun hnn => absurd (hnn x hx) (not_le.mpr hneg),
        fun hneg => packItems_negative hxs hneg⟩
    · exact written_of_zero hxs hzero

/-- A negative Integer beside a bignum. -/
theorem berRoundTrip_iff_negative : BerRoundTrip (L := .lp64) latin1Chars (fun _ => [])
    (fun _ _ st => .ok st)
    [.bignum ⟨true, [0xffffffff, 0xffffffff]⟩, .fixnum ⟨-1, by decide, by decide⟩] := by
  refine (berRoundTrip_iff latin1Chars (fun _ => []) (fun _ _ st => .ok st) fun x hx => ?_).mpr
    (.inl ⟨.fixnum ⟨-1, by decide, by decide⟩, by simp, by decide⟩)
  rcases List.mem_cons.mp hx with rfl | hx
  · exact ⟨by decide, by decide, by decide⟩
  · rw [List.mem_singleton.mp hx]
    exact trivial

/-- What is written for 128 has four bytes. -/
theorem not_berRoundTrip_128 : ¬ ∀ xs : List (Inum .lp64), (∀ x ∈ xs, x.Canonical) →
    BerRoundTrip latin1Chars (fun _ => []) (fun _ _ st => .ok st) xs := by
  intro h
  have hxs : ∀ x ∈ [(.fixnum ⟨128, by decide, by decide⟩ : Inum .lp64)], x.Canonical ∧
      0 < x.toInt := by
    intro x hx
    rw [List.mem_singleton.mp hx]
    exact ⟨trivial, by decide⟩
  obtain ⟨bss, hbss, hsettles, -⟩ := (h _ fun x hx => (hxs x hx).1).written fun x hx =>
    (hxs x hx).2.le
  have hwritten := Except.ok.inj (hsettles.unique
    (packItems_settles (fun x hx => (hxs x hx).1) fun x hx => (hxs x hx).2.le))
  have := length_lt_of_pos latin1Chars
    ⟨_, List.mem_singleton_self _, (hxs _ (List.mem_singleton_self _)).2⟩ hbss
  rw [hwritten] at this
  exact lt_irrefl _ this

end RoundTrip

end MacRuby.Pack
