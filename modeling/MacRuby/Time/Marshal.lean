import MacRuby.String.Object
import MacRuby.Time.Search
import Mathlib.Data.Nat.Bitwise

/-!
# Marshalling a time

`time_mdump` packs the UTC fields of a time into two words of 32 bits, and what is below a
microsecond into an instance variable of the string. `time_mload` takes it all apart again. Words
are of the type `unsigned long` on both sides, and the shifts are of the type `int`, so on a machine
with 64 bits the upper halves are filled with sign bits. The words become a string with
`rb_str_new`, which pads what is UTF-8.

## Main definitions

* `makeTimeT`, `timeOverflowP` — from fields to a time.
* `timeMdump`, `timeMload` — the functions.
* `Preserves` — what they should do.
* `Unpadded` — the words whose string is not padded.

## Main results

* `getBytes_putBytes` — the low 32 bits of a word survive.
* `preserves_iff` — the instant is preserved unless there are nanoseconds to store or the string is
  padded.
-/

namespace MacRuby.Time

/-! ## From fields to a time -/

/-- The library, with `timegm` and `mktime`: the time, and what they leave in the `struct tm`. The
memory behind the buffers of `time_mdump` is read when they have no NUL. -/
structure Library extends Clock where
  long_le : 32 ≤ bits
  timegm : Tm → ℤ × Tm
  mktime : Tm → ℤ × Tm
  enc : CFEncoding
  behindBuf : List UInt8
  behindSubmicro : List UInt8

/-- Why a function does not return. -/
inductive Failure where
  | argumentError (message : String)
  | typeError (message : String)
  | rangeError (message : String)
  /-- A null pointer is read. -/
  | nullPointer
  deriving DecidableEq, Repr

/-- The end of a search, as the functions that call it see it. -/
def Result.returned : Result → Except Failure ℤ
  | .compared t => .ok t
  | .outerpolated t => .ok t
  | .raised message => .error (.argumentError message)
  | .nullTm => .error .nullPointer

/-- The fields that `make_time_t` compares. -/
def sameFields (a b : Tm) : Bool :=
  a.year == b.year && a.mon == b.mon && a.mday == b.mday && a.hour == b.hour && a.min == b.min &&
    a.sec == b.sec

/-- `make_time_t(tptr, utc_p)`. A time of -1 may be an error. -/
def makeTimeT (lib : Library) (tptr : Tm) (utcP : Bool) : Except Failure ℤ :=
  let r := if utcP then lib.timegm tptr else lib.mktime tptr
  if r.1 ≠ -1 then .ok r.1
  else if (lib.convert utcP r.1).any (sameFields tptr) then .ok r.1
  else (searchTimeT lib.toClock r.2 utcP).returned

/-- `time_overflow_p(secp, nsecp)`. -/
def timeOverflowP (lib : Library) (sec nsec : ℤ) : Except Failure (ℤ × ℤ) :=
  let carry := nsec ≥ 1000000000
  let tmp := lib.long (sec + nsec.tdiv 1000000000)
  if carry ∧ sec > 0 ∧ tmp < 0 then .error (.rangeError "out of Time range")
  else
    let sec := if carry then tmp else sec
    let nsec := if carry then nsec.tmod 1000000000 else nsec
    if nsec < 0 then
      -- `NDIV` and `NMOD`
      let tmp := lib.long (sec + (-(-(nsec + 1)).tdiv 1000000000 - 1))
      if sec < 0 ∧ tmp > 0 then .error (.rangeError "out of Time range")
      else .ok (tmp, 1000000000 - (-(nsec + 1)).tmod 1000000000 - 1)
    else .ok (sec, nsec)

/-! ## The functions -/

/-- A `Time`. The nanoseconds are less than a second; `submicro` is the instance variable of that
name. -/
structure TimeObject where
  sec : ℤ
  nsec : ℤ
  gmt : Bool
  submicro : Option StringObject
  nsec_nonneg : 0 ≤ nsec
  nsec_lt : nsec < 1000000000
  deriving DecidableEq, Repr

/-- The string that a time is dumped to, with the instance variable `submicro`. -/
structure Marshaled extends StringObject where
  submicro : Option StringObject
  deriving DecidableEq, Repr

/-- The bytes of a word, the lowest first. -/
def putBytes {w : ℕ} : ℕ → BitVec w → List UInt8
  | 0, _ => []
  | n + 1, p => UInt8.ofBitVec (p.setWidth 8) :: putBytes n (p >>> 8)

/-- `p |= buf[i] << (8 * i)`, from byte `i` on; the shift is of the type `int`. -/
def getBytes {w : ℕ} : List UInt8 → (i : ℕ) → (p : BitVec w) → BitVec w
  | [], _, p => p
  | b :: buf, i, p =>
      getBytes buf (i + 1) (p ||| ((b.toBitVec.setWidth 32) <<< (8 * i)).signExtend w)

/-- The digits below a microsecond, as packed decimals. -/
def packSubmicro (lib : Library) (nsec : ℤ) : StringObject :=
  let buf1 := UInt8.ofNat ((nsec.tmod 10).toNat) <<< 4
  let buf0 := UInt8.ofNat (((nsec.tdiv 10).tmod 10).toNat) |||
    UInt8.ofNat ((((nsec.tdiv 10).tdiv 10).tmod 10).toNat) <<< 4
  strNew lib.enc ([buf0, buf1] ++ lib.behindSubmicro) (if buf1 = 0 then 1 else 2)

/-- The first word: the fields down to the hour, below a one. The shifts are of the type `int`. -/
def firstWord (w : ℕ) (gmt year mon mday hour : BitVec 32) : BitVec w :=
  (1 : BitVec w) <<< 31 ||| (gmt <<< 30).signExtend w ||| (year <<< 14).signExtend w |||
    (mon <<< 10).signExtend w ||| (mday <<< 5).signExtend w ||| hour.signExtend w

/-- The second word: the minute, the second and the microseconds, which are a `long`. -/
def secondWord (w : ℕ) (min sec : BitVec 32) (usec : ℤ) : BitVec w :=
  (min <<< 26 ||| sec <<< 20).signExtend w ||| BitVec.ofInt w usec

/-- `time_mdump(time)`. -/
def timeMdump (lib : Library) (time : TimeObject) : Except Failure Marshaled :=
  match lib.gmtime time.sec with
  | none => .error .nullPointer
  | some tm =>
      let year := BitVec.ofInt 32 tm.year
      if year &&& 0xffff ≠ year then
        .error (.argumentError ("year too big to marshal: " ++ toString tm.year))
      else
        let p := firstWord lib.bits (.ofNat 32 time.gmt.toNat) year (.ofInt 32 tm.mon)
          (.ofInt 32 tm.mday) (.ofInt 32 tm.hour)
        let s := secondWord lib.bits (.ofInt 32 tm.min) (.ofInt 32 tm.sec) (time.nsec.tdiv 1000)
        let nsec := time.nsec.tmod 1000
        let str := strNew lib.enc (putBytes 4 p ++ putBytes 4 s ++ lib.behindBuf) 8
        -- the instance variables are copied, and then `submicro` is set
        .ok ⟨str, if nsec ≠ 0 then some (packSubmicro lib nsec) else time.submicro⟩

/-- `rb_generic_ivar_table(obj)`: there is no such table. -/
def rbGenericIvarTable (_str : Marshaled) : Option (Option StringObject) := none

/-- `st_delete(table, &id_submicro, 0)`. -/
def stDelete : Option (Option StringObject) → Except Failure (Option StringObject)
  | none => .error .nullPointer
  | some _ => .ok none

/-- The nanoseconds in `submicro`, up to a digit that is no decimal. -/
def unpackSubmicro (lib : Library) (submicro : StringObject) : ℕ :=
  match (submicro.cstr lib.enc).take (submicro.byteptr lib.enc).length with
  | [] => 0
  | buf0 :: rest =>
      if 10 ≤ buf0.toNat >>> 4 then 0
      else if 10 ≤ buf0.toNat &&& 0xf then (buf0.toNat >>> 4) * 100
      else
        (buf0.toNat >>> 4) * 100 + (buf0.toNat &&& 0xf) * 10 +
          match rest with
          | [] => 0
          | buf1 :: _ => if 10 ≤ buf1.toNat >>> 4 then 0 else buf1.toNat >>> 4

/-- The time that two words stand for, with the `submicro` of the string. -/
def unpackWords (lib : Library) (p s : BitVec lib.bits) (submicro : Option StringObject) :
    Except Failure (Bool × ℤ × ℤ) := do
  let top := (1 : BitVec lib.bits) <<< 31
  if p &&& top = 0 then
    return (false, p.toInt, lib.long (s.toInt * 1000))
  else
    let p := p &&& ~~~top
    let gmt := p >>> 30 &&& 0x1
    let tm : Tm := {
      year := (p >>> 14 &&& 0xffff).toNat
      mon := (p >>> 10 &&& 0xf).toNat
      mday := (p >>> 5 &&& 0x1f).toNat
      hour := (p &&& 0x1f).toNat
      min := (s >>> 26 &&& 0x3f).toNat
      sec := (s >>> 20 &&& 0x3f).toNat
      isdst := 0 }
    let sec ← makeTimeT lib tm true
    let usec := (s &&& 0xfffff).toInt
    return (gmt ≠ 0, sec, lib.long (usec * 1000) + (submicro.map (unpackSubmicro lib)).getD 0)

/-- What a time is after it has been loaded. -/
structure Loaded where
  gmt : Bool
  sec : ℤ
  nsec : ℤ
  submicro : Option StringObject
  deriving DecidableEq, Repr

/-- `time_mload(time, str)`. -/
def timeMload (lib : Library) (str : Marshaled) : Except Failure Loaded := do
  let ivars ← if str.submicro ≠ none then stDelete (rbGenericIvarTable str) else pure none
  let buf := str.byteptr lib.enc
  if buf.length ≠ 8 then
    throw (.typeError "marshaled time format differ")
  let r ← unpackWords lib (getBytes (buf.take 4) 0 0) (getBytes (buf.drop 4) 0 0) str.submicro
  let t ← timeOverflowP lib r.2.1 r.2.2
  return ⟨r.1, t.1, t.2, ivars⟩

/-! ## What the functions should do -/

/-- What is documented of `gmtime` and `timegm`: the ranges of the fields, and that they are
inverse. -/
structure Library.Documented (lib : Library) : Prop where
  fields : ∀ t tm, lib.gmtime t = some tm → -2 ^ 31 ≤ tm.year ∧ tm.year < 2 ^ 31 ∧
    0 ≤ tm.mon ∧ tm.mon ≤ 11 ∧ 1 ≤ tm.mday ∧ tm.mday ≤ 31 ∧ 0 ≤ tm.hour ∧ tm.hour ≤ 23 ∧
    0 ≤ tm.min ∧ tm.min ≤ 59 ∧ 0 ≤ tm.sec ∧ tm.sec ≤ 60 ∧ tm.isdst = 0
  inverse : ∀ t tm, lib.gmtime t = some tm → (lib.timegm tm).1 = t

/-- A time whose UTC fields are `tm` comes back if its year can be marshalled, and else there is an
`ArgumentError`. -/
structure Preserves (lib : Library) (time : TimeObject) (tm : Tm) : Prop where
  roundTrip : 0 ≤ tm.year → tm.year ≤ 65535 → ∃ str time', timeMdump lib time = .ok str ∧
    timeMload lib str = .ok time' ∧ time'.sec = time.sec ∧ time'.nsec = time.nsec ∧
    time'.gmt = time.gmt
  raises : tm.year < 0 ∨ 65535 < tm.year →
    ∃ message, timeMdump lib time = .error (.argumentError message)

/-- The bytes of the two words. -/
def wordBytes (lib : Library) (time : TimeObject) (tm : Tm) : List UInt8 :=
  putBytes 4 (firstWord lib.bits (.ofNat 32 time.gmt.toNat) (.ofInt 32 tm.year) (.ofInt 32 tm.mon)
      (.ofInt 32 tm.mday) (.ofInt 32 tm.hour)) ++
    putBytes 4 (secondWord lib.bits (.ofInt 32 tm.min) (.ofInt 32 tm.sec) (time.nsec.tdiv 1000))

/-- **The string of the words is not padded**: they are not UTF-8, or the C string that starts there
is not empty and ends among them or with them. -/
def Unpadded (lib : Library) (time : TimeObject) (tm : Tm) : Prop :=
  lib.enc.string (wordBytes lib time tm) = none ∨
    0 < strlen (wordBytes lib time tm ++ lib.behindBuf) ∧
      strlen (wordBytes lib time tm ++ lib.behindBuf) ≤ 8

/-! ## Words -/

/-- The low 32 bits of a word. -/
def low {w : ℕ} (p : BitVec w) : ℕ := p.toNat % 2 ^ 32

section Words

variable {w : ℕ}

theorem low_or (p q : BitVec w) : low (p ||| q) = low p ||| low q := by
  rw [low, BitVec.toNat_or, Nat.or_mod_two_pow]
  rfl

theorem low_signExtend (h : 32 ≤ w) (x : BitVec 32) : low (x.signExtend w) = x.toNat := by
  have hself : (x.signExtend w).setWidth 32 = x := by
    ext i hi
    simp [BitVec.getLsbD_signExtend, hi]
    omega
  rw [low, ← BitVec.toNat_setWidth, hself]

/-- Bits that are not shared can be added. -/
theorem or_eq_add {k a b : ℕ} (ha : 2 ^ k ∣ a) (hb : b < 2 ^ k) : a ||| b = a + b := by
  obtain ⟨c, rfl⟩ := ha
  rw [Nat.two_pow_add_eq_or_of_lt hb]

/-- Bytes that are shifted to their places do not overlap. -/
theorem bytes_or {a b c d : ℕ} (ha : a < 256) (hb : b < 256) (hc : c < 256) :
    a * 2 ^ (8 * 0) ||| b * 2 ^ (8 * 1) ||| c * 2 ^ (8 * 2) ||| d * 2 ^ (8 * 3) =
      a + b * 2 ^ 8 + c * 2 ^ 16 + d * 2 ^ 24 := by
  have h₁ : a * 2 ^ (8 * 0) ||| b * 2 ^ (8 * 1) = b * 2 ^ (8 * 1) + a * 2 ^ (8 * 0) := by
    rw [Nat.or_comm, or_eq_add (k := 8) (by omega) (by omega)]
  have h₂ : b * 2 ^ (8 * 1) + a * 2 ^ (8 * 0) ||| c * 2 ^ (8 * 2) =
      c * 2 ^ (8 * 2) + (b * 2 ^ (8 * 1) + a * 2 ^ (8 * 0)) := by
    rw [Nat.or_comm, or_eq_add (k := 16) (by omega) (by omega)]
  rw [h₁, h₂, Nat.or_comm, or_eq_add (k := 24) (by omega) (by omega)]
  omega

/-- The fields of the first word do not overlap. -/
theorem fields_or {g y m d h : ℕ} (hg : g ≤ 1) (hy : y < 2 ^ 16) (hm : m < 2 ^ 4) (hd : d < 2 ^ 5)
    (hh : h < 2 ^ 5) :
    2 ^ 31 ||| g * 2 ^ 30 ||| y * 2 ^ 14 ||| m * 2 ^ 10 ||| d * 2 ^ 5 ||| h =
      2 ^ 31 + g * 2 ^ 30 + y * 2 ^ 14 + m * 2 ^ 10 + d * 2 ^ 5 + h := by
  have h₁ : 2 ^ 31 ||| g * 2 ^ 30 = 2 ^ 31 + g * 2 ^ 30 :=
    or_eq_add (k := 31) (by omega) (by omega)
  have h₂ : 2 ^ 31 + g * 2 ^ 30 ||| y * 2 ^ 14 = 2 ^ 31 + g * 2 ^ 30 + y * 2 ^ 14 :=
    or_eq_add (k := 30) (by omega) (by omega)
  have h₃ : 2 ^ 31 + g * 2 ^ 30 + y * 2 ^ 14 ||| m * 2 ^ 10 =
      2 ^ 31 + g * 2 ^ 30 + y * 2 ^ 14 + m * 2 ^ 10 := or_eq_add (k := 14) (by omega) (by omega)
  have h₄ : 2 ^ 31 + g * 2 ^ 30 + y * 2 ^ 14 + m * 2 ^ 10 ||| d * 2 ^ 5 =
      2 ^ 31 + g * 2 ^ 30 + y * 2 ^ 14 + m * 2 ^ 10 + d * 2 ^ 5 :=
    or_eq_add (k := 10) (by omega) (by omega)
  rw [h₁, h₂, h₃, h₄, or_eq_add (k := 5) (by omega) hh]

/-- A byte, shifted as an `int`. -/
theorem toNat_shifted (b : UInt8) {i : ℕ} (hi : i ≤ 3) :
    (b.toBitVec.setWidth 32 <<< (8 * i)).toNat = b.toNat * 2 ^ (8 * i) := by
  have hb := b.toNat_lt
  have hpow : 2 ^ (8 * i) ≤ 2 ^ 24 := Nat.pow_le_pow_right (by decide) (by omega)
  have hlt : b.toNat * 2 ^ (8 * i) < 2 ^ 32 := by
    calc b.toNat * 2 ^ (8 * i) ≤ 255 * 2 ^ 24 := Nat.mul_le_mul (by omega) hpow
      _ < 2 ^ 32 := by decide
  rw [BitVec.toNat_shiftLeft, BitVec.toNat_setWidth, Nat.shiftLeft_eq, UInt8.toNat_toBitVec,
    Nat.mod_eq_of_lt (by omega : b.toNat < 2 ^ 32), Nat.mod_eq_of_lt hlt]

theorem toNat_byte (p : BitVec w) : (UInt8.ofBitVec (p.setWidth 8)).toNat = p.toNat % 256 := by
  rw [UInt8.toNat_ofBitVec, BitVec.toNat_setWidth]

/-- **The low 32 bits of a word survive.** -/
theorem getBytes_putBytes (h : 32 ≤ w) (p : BitVec w) :
    low (getBytes (putBytes 4 p) 0 (0 : BitVec w)) = low p := by
  have hzero : low (0 : BitVec w) = 0 := by simp [low]
  simp only [putBytes, getBytes, low_or, low_signExtend h, hzero, Nat.zero_or]
  rw [toNat_shifted _ (by omega), toNat_shifted _ (by omega), toNat_shifted _ (by omega),
    toNat_shifted _ (by omega)]
  simp only [toNat_byte, BitVec.toNat_ushiftRight, Nat.shiftRight_eq_div_pow, low]
  rw [bytes_or (by omega) (by omega) (by omega)]
  omega

/-- A field of a word. -/
theorem toNat_field (p : BitVec w) {k m : ℕ} (hk : k + m ≤ 32) :
    (p >>> k &&& BitVec.ofNat w (2 ^ m - 1)).toNat = low p / 2 ^ k % 2 ^ m := by
  refine Nat.eq_of_testBit_eq fun i => ?_
  rw [low, Nat.testBit_mod_two_pow, Nat.testBit_div_two_pow, Nat.testBit_mod_two_pow]
  simp only [BitVec.testBit_toNat, BitVec.getLsbD_and, BitVec.getLsbD_ushiftRight,
    BitVec.getLsbD_ofNat, Nat.testBit_two_pow_sub_one, Nat.add_comm k i]
  by_cases hi : i < m
  · have hlt : i + k < 32 := by omega
    by_cases hw : i < w
    · simp [hi, hlt, hw]
    · have hout : p.getLsbD (i + k) = false := BitVec.getLsbD_of_ge _ _ (by omega)
      simp [hout]
  · simp [hi]

/-- A field below the top bit is not changed when the top bit is cleared. -/
theorem clear_top_field (p : BitVec w) {k m : ℕ} (hk : k + m ≤ 31) :
    (p &&& ~~~((1 : BitVec w) <<< 31)) >>> k &&& BitVec.ofNat w (2 ^ m - 1) =
      p >>> k &&& BitVec.ofNat w (2 ^ m - 1) := by
  refine BitVec.eq_of_getLsbD_eq fun i hi => ?_
  simp only [BitVec.getLsbD_and, BitVec.getLsbD_ushiftRight, BitVec.getLsbD_not,
    BitVec.getLsbD_shiftLeft, BitVec.getLsbD_ofNat, Nat.testBit_two_pow_sub_one]
  by_cases him : i < m
  · have htop : k + i < 31 := by omega
    by_cases hw : k + i < w
    · simp [htop, hw]
    · have hout : p.getLsbD (k + i) = false := BitVec.getLsbD_of_ge _ _ (by omega)
      simp [hout]
  · simp [him]

theorem toNat_clear_top_field (p : BitVec w) {k m : ℕ} (hk : k + m ≤ 31) :
    ((p &&& ~~~((1 : BitVec w) <<< 31)) >>> k &&& BitVec.ofNat w (2 ^ m - 1)).toNat =
      low p / 2 ^ k % 2 ^ m := by
  rw [clear_top_field p hk, toNat_field p (by omega)]

/-- A field that is shifted to its place. -/
theorem toNat_ofInt_shiftLeft {x : ℤ} {k : ℕ} (h : 0 ≤ x) (hlt : x.toNat * 2 ^ k < 2 ^ 32) :
    (BitVec.ofInt 32 x <<< k).toNat = x.toNat * 2 ^ k := by
  have hx : x.toNat < 2 ^ 32 :=
    Nat.lt_of_le_of_lt (Nat.le_mul_of_pos_right _ (Nat.two_pow_pos k)) hlt
  have hmod : (x % (2 ^ 32 : ℕ)).toNat = x.toNat := by omega
  rw [BitVec.toNat_shiftLeft, BitVec.toNat_ofInt, hmod, Nat.shiftLeft_eq, Nat.mod_eq_of_lt hlt]

theorem pow_le_pow (h : 32 ≤ w) : 2 ^ 32 ≤ 2 ^ w := Nat.pow_le_pow_right (by decide) h

theorem low_top (h : 32 ≤ w) : low ((1 : BitVec w) <<< 31) = 2 ^ 31 := by
  have hpow := pow_le_pow h
  have hone : (1 : BitVec w).toNat = 1 := BitVec.toNat_one (by omega)
  rw [low, BitVec.toNat_shiftLeft, hone, Nat.shiftLeft_eq,
    Nat.mod_eq_of_lt (by omega : 1 * 2 ^ 31 < 2 ^ w)]
  rfl

theorem low_ofInt (h : 32 ≤ w) {x : ℤ} (hx : 0 ≤ x) (hlt : x < 2 ^ 32) :
    low (BitVec.ofInt w x) = x.toNat := by
  have hpow := pow_le_pow h
  have hmod : x % ((2 ^ w : ℕ) : ℤ) = x := Int.emod_eq_of_lt hx (by omega)
  rw [low, BitVec.toNat_ofInt, hmod, Nat.mod_eq_of_lt (by omega)]

/-- The first word. -/
theorem low_firstWord (h : 32 ≤ w) (gmt : Bool) {year mon mday hour : ℤ}
    (hyear : 0 ≤ year ∧ year ≤ 65535) (hmon : 0 ≤ mon ∧ mon ≤ 11) (hmday : 1 ≤ mday ∧ mday ≤ 31)
    (hhour : 0 ≤ hour ∧ hour ≤ 23) :
    low (firstWord w (.ofNat 32 gmt.toNat) (.ofInt 32 year) (.ofInt 32 mon) (.ofInt 32 mday)
      (.ofInt 32 hour)) =
      2 ^ 31 + gmt.toNat * 2 ^ 30 + year.toNat * 2 ^ 14 + mon.toNat * 2 ^ 10 +
        mday.toNat * 2 ^ 5 + hour.toNat := by
  have hgmt : (BitVec.ofNat 32 gmt.toNat <<< 30).toNat = gmt.toNat * 2 ^ 30 := by
    cases gmt <;> rfl
  have hg : gmt.toNat ≤ 1 := Bool.toNat_le gmt
  have hhour' : (BitVec.ofInt 32 hour).toNat = hour.toNat := by
    have := toNat_ofInt_shiftLeft (x := hour) (k := 0) hhour.1 (by omega)
    simpa using this
  simp only [firstWord, low_or, low_signExtend h, low_top h]
  rw [hgmt, toNat_ofInt_shiftLeft hyear.1 (by omega), toNat_ofInt_shiftLeft hmon.1 (by omega),
    toNat_ofInt_shiftLeft (by omega) (by omega), hhour']
  exact fields_or hg (by omega) (by omega) (by omega) (by omega)

/-- The second word. -/
theorem low_secondWord (h : 32 ≤ w) {min sec : ℤ} (hmin : 0 ≤ min ∧ min ≤ 59)
    (hsec : 0 ≤ sec ∧ sec ≤ 60) {usec : ℤ} (husec : 0 ≤ usec ∧ usec < 1000000) :
    low (secondWord w (.ofInt 32 min) (.ofInt 32 sec) usec) =
      min.toNat * 2 ^ 26 + sec.toNat * 2 ^ 20 + usec.toNat := by
  have hint : (BitVec.ofInt 32 min <<< 26 ||| BitVec.ofInt 32 sec <<< 20).toNat =
      min.toNat * 2 ^ 26 + sec.toNat * 2 ^ 20 := by
    rw [BitVec.toNat_or, toNat_ofInt_shiftLeft hmin.1 (by omega),
      toNat_ofInt_shiftLeft hsec.1 (by omega), or_eq_add (k := 26) (by omega) (by omega)]
  rw [secondWord, low_or, low_signExtend h, low_ofInt h husec.1 (by omega), hint,
    or_eq_add (k := 20) (by omega) (by omega)]

/-- A field of a number that was put together from fields. -/
theorem field_eq (n above x below k m : ℕ) (hn : n = (above * 2 ^ m + x) * 2 ^ k + below)
    (hx : x < 2 ^ m) (hbelow : below < 2 ^ k) : n / 2 ^ k % 2 ^ m = x := by
  rw [hn, Nat.add_comm, Nat.add_mul_div_right _ _ (Nat.two_pow_pos k), Nat.div_eq_of_lt hbelow,
    Nat.zero_add, Nat.add_comm, Nat.add_mul_mod_self_right, Nat.mod_eq_of_lt hx]

/-- The top bit of a word is set. -/
theorem and_top_ne_zero {p : BitVec w} (h : 2 ^ 31 ≤ low p) : p &&& (1 : BitVec w) <<< 31 ≠ 0 := by
  intro hzero
  have hlt : low p < 2 ^ 32 := Nat.mod_lt _ (by decide)
  have hbit : (low p).testBit 31 = true := by
    rw [Nat.testBit_eq_decide_div_mod_eq, decide_eq_true_eq]
    omega
  rw [low, Nat.testBit_mod_two_pow, Bool.and_eq_true, BitVec.testBit_toNat] at hbit
  have hw : 31 < w := by
    by_contra hge
    rw [BitVec.getLsbD_of_ge p 31 (by omega)] at hbit
    simp at hbit
  have hand := congrArg (BitVec.getLsbD · 31) hzero
  simp [hw] at hand
  rw [BitVec.getLsbD_eq_getElem hw, hand] at hbit
  cases hbit.2

end Words

/-! ## The round trip -/

section RoundTrip

variable {lib : Library}

/-- A number that is not negative and small enough is the same as a `long`. -/
theorem long_eq {x : ℤ} (hx : 0 ≤ x) (hlt : x < 2 ^ 31) : lib.long x = x := by
  have hpow := pow_le_pow lib.long_le
  rw [Clock.long, wrap, Int.bmod_eq_of_le (by omega) (by omega)]

/-- Times that are whole seconds and nanoseconds are not changed. -/
theorem timeOverflowP_eq (lib : Library) (sec : ℤ) {nsec : ℤ} (h : 0 ≤ nsec)
    (hlt : nsec < 1000000000) :
    timeOverflowP lib sec nsec = .ok (sec, nsec) := by
  have hover : ¬ nsec ≥ 1000000000 := by omega
  have hneg : ¬ nsec < 0 := by omega
  simp [timeOverflowP, hover, hneg]

/-- `make_time_t` inverts `gmtime`. -/
theorem makeTimeT_eq (hdoc : lib.Documented) {t : ℤ} {tm : Tm} (h : lib.gmtime t = some tm) :
    makeTimeT lib tm true = .ok t := by
  have hinv := hdoc.inverse t tm h
  rw [makeTimeT]
  simp only [if_true, hinv]
  by_cases hone : t = -1
  · have hsame : (lib.convert true t).any (sameFields tm) = true := by
      rw [Clock.convert, if_pos rfl, h]
      simp [sameFields]
    rw [if_neg (by simp [hone]), if_pos hsame]
  · rw [if_pos hone]

/-- **The words of a time are taken apart as they were packed.** -/
theorem unpackWords_eq (hdoc : lib.Documented) {t : ℤ} {tm : Tm} (h : lib.gmtime t = some tm)
    {gmt : Bool} {nsec : ℤ} (hyear : 0 ≤ tm.year ∧ tm.year ≤ 65535)
    (hnsec : 0 ≤ nsec ∧ nsec < 1000000000) {p s : BitVec lib.bits}
    (hp : low p = 2 ^ 31 + gmt.toNat * 2 ^ 30 + tm.year.toNat * 2 ^ 14 + tm.mon.toNat * 2 ^ 10 +
      tm.mday.toNat * 2 ^ 5 + tm.hour.toNat)
    (hs : low s = tm.min.toNat * 2 ^ 26 + tm.sec.toNat * 2 ^ 20 + (nsec.tdiv 1000).toNat)
    (submicro : Option StringObject) :
    unpackWords lib p s submicro =
      .ok (gmt, t, nsec.tdiv 1000 * 1000 + (submicro.map (unpackSubmicro lib)).getD 0) := by
  obtain ⟨-, -, hmon, hmon', hmday, hmday', hhour, hhour', hmin, hmin', hsec, hsec', hdst⟩ :=
    hdoc.fields t tm h
  have hg : gmt.toNat ≤ 1 := Bool.toNat_le gmt
  have husec : nsec.tdiv 1000 = nsec / 1000 := Int.tdiv_eq_ediv_of_nonneg hnsec.1
  have htop := and_top_ne_zero (p := p) (by omega)
  -- the fields of the first word, whose top bit is cleared
  generalize hq : p &&& ~~~((1 : BitVec lib.bits) <<< 31) = q
  have hfield : ∀ k m, k + m ≤ 31 → (q >>> k &&& BitVec.ofNat lib.bits (2 ^ m - 1)).toNat =
      low p / 2 ^ k % 2 ^ m := by
    intro k m hk
    rw [← hq, toNat_clear_top_field p hk]
  have hyearLt : tm.year.toNat < 2 ^ 16 := by omega
  have hmonLt : tm.mon.toNat < 2 ^ 4 := by omega
  have hmdayLt : tm.mday.toNat < 2 ^ 5 := by omega
  have hhourLt : tm.hour.toNat < 2 ^ 5 := by omega
  have hgmt : (q >>> 30 &&& 0x1).toNat = gmt.toNat := by
    refine (hfield 30 1 (by decide)).trans (field_eq _ 1 _
      (tm.year.toNat * 2 ^ 14 + tm.mon.toNat * 2 ^ 10 + tm.mday.toNat * 2 ^ 5 + tm.hour.toNat)
      _ _ (hp.trans (by clear hp hs; omega)) (by omega) ?_)
    clear hp hs
    omega
  have hyear' : (q >>> 14 &&& 0xffff).toNat = tm.year.toNat := by
    refine (hfield 14 16 (by decide)).trans (field_eq _ (2 ^ 1 + gmt.toNat) _
      (tm.mon.toNat * 2 ^ 10 + tm.mday.toNat * 2 ^ 5 + tm.hour.toNat) _ _
      (hp.trans (by clear hp hs; omega)) hyearLt ?_)
    clear hp hs
    omega
  have hmon'' : (q >>> 10 &&& 0xf).toNat = tm.mon.toNat := by
    refine (hfield 10 4 (by decide)).trans (field_eq _
      (2 ^ 17 + gmt.toNat * 2 ^ 16 + tm.year.toNat) _
      (tm.mday.toNat * 2 ^ 5 + tm.hour.toNat) _ _ (hp.trans (by clear hp hs; omega)) hmonLt ?_)
    clear hp hs
    omega
  have hmday'' : (q >>> 5 &&& 0x1f).toNat = tm.mday.toNat :=
    (hfield 5 5 (by decide)).trans (field_eq _ (2 ^ 21 + gmt.toNat * 2 ^ 20 +
      tm.year.toNat * 2 ^ 4 + tm.mon.toNat) _ tm.hour.toNat _ _ (hp.trans (by clear hp hs; omega))
      hmdayLt hhourLt)
  have hhour'' : (q &&& 0x1f).toNat = tm.hour.toNat := by
    have h0 := hfield 0 5 (by decide)
    rw [BitVec.ushiftRight_zero] at h0
    exact h0.trans (field_eq _ (2 ^ 26 + gmt.toNat * 2 ^ 25 + tm.year.toNat * 2 ^ 9 +
      tm.mon.toNat * 2 ^ 5 + tm.mday.toNat) _ 0 _ _ (hp.trans (by clear hp hs; omega)) hhourLt
      (by decide))
  clear hp
  -- the fields of the second word
  have hminLt : tm.min.toNat < 2 ^ 6 := by omega
  have hsecLt : tm.sec.toNat < 2 ^ 6 := by omega
  have husecLt : (nsec.tdiv 1000).toNat < 2 ^ 20 := by
    clear hs
    omega
  have hmin'' : (s >>> 26 &&& 0x3f).toNat = tm.min.toNat := by
    refine (toNat_field s (k := 26) (m := 6) (by decide)).trans (field_eq _ 0 _
      (tm.sec.toNat * 2 ^ 20 + (nsec.tdiv 1000).toNat) _ _ (hs.trans (by clear hs; omega))
      hminLt ?_)
    clear hs
    omega
  have hsec'' : (s >>> 20 &&& 0x3f).toNat = tm.sec.toNat :=
    (toNat_field s (k := 20) (m := 6) (by decide)).trans (field_eq _ tm.min.toNat _
      (nsec.tdiv 1000).toNat _ _ (hs.trans (by clear hs; omega)) hsecLt husecLt)
  have husec' : (s &&& 0xfffff).toNat = (nsec.tdiv 1000).toNat := by
    have h0 := toNat_field s (k := 0) (m := 20) (by decide)
    rw [BitVec.ushiftRight_zero] at h0
    exact h0.trans (field_eq _ (tm.min.toNat * 2 ^ 6 + tm.sec.toNat) _ 0 _ _
      (hs.trans (by clear hs; omega)) husecLt (by decide))
  clear hs
  have husec'' : (s &&& 0xfffff).toInt = nsec.tdiv 1000 := by
    have hpow := pow_le_pow lib.long_le
    rw [BitVec.toInt_eq_toNat_of_lt (by omega), husec']
    omega
  have htm : (⟨tm.year.toNat, tm.mon.toNat, tm.mday.toNat, tm.hour.toNat, tm.min.toNat,
      tm.sec.toNat, 0⟩ : Tm) = tm := by
    rw [Tm.mk.injEq]
    exact ⟨Int.toNat_of_nonneg hyear.1, Int.toNat_of_nonneg hmon,
      Int.toNat_of_nonneg (Int.le_trans (by decide) hmday), Int.toNat_of_nonneg hhour,
      Int.toNat_of_nonneg hmin, Int.toNat_of_nonneg hsec, hdst.symm⟩
  have hzero : decide (q >>> 30 &&& 0x1 ≠ 0) = gmt := by
    cases gmt with
    | false => simpa using BitVec.eq_of_toNat_eq hgmt
    | true =>
        simp only [ne_eq, decide_eq_true_eq]
        intro heq
        rw [heq] at hgmt
        simp at hgmt
  rw [unpackWords]
  simp only [if_neg htop, hq, hyear', hmon'', hmday'', hhour'', hmin'', hsec'', htm, husec'',
    makeTimeT_eq hdoc h, hzero]
  rw [long_eq (by omega) (by omega)]
  rfl

/-- The years that can be marshalled. -/
theorem year_mask {y : ℤ} (h : -2 ^ 31 ≤ y) (h' : y < 2 ^ 31) :
    BitVec.ofInt 32 y &&& 0xffff = BitVec.ofInt 32 y ↔ 0 ≤ y ∧ y ≤ 65535 := by
  have hnat : (BitVec.ofInt 32 y &&& 0xffff).toNat = (BitVec.ofInt 32 y).toNat % 2 ^ 16 := by
    rw [BitVec.toNat_and]
    exact Nat.and_two_pow_sub_one_eq_mod _ 16
  rw [← BitVec.toNat_inj, hnat, BitVec.toNat_ofInt]
  omega

theorem length_putBytes {w : ℕ} (n : ℕ) (p : BitVec w) : (putBytes n p).length = n := by
  induction n generalizing p with
  | zero => rfl
  | succ n ih => rw [putBytes, List.length_cons, ih]

/-- A string with `submicro` cannot be loaded. -/
theorem timeMload_submicro {str : Marshaled} (h : str.submicro ≠ none) :
    timeMload lib str = .error .nullPointer := by
  rw [timeMload, if_pos h]
  rfl

theorem length_wordBytes (lib : Library) (time : TimeObject) (tm : Tm) :
    (wordBytes lib time tm).length = 8 := by
  rw [wordBytes, List.length_append, length_putBytes, length_putBytes]

/-- The words are where a string is made of them. -/
theorem take_wordBytes (lib : Library) (time : TimeObject) (tm : Tm) :
    (wordBytes lib time tm ++ lib.behindBuf).take 8 = wordBytes lib time tm :=
  List.take_left' (length_wordBytes lib time tm)

/-- The low half of the first word of a time. -/
theorem low_firstWord_tm (hdoc : lib.Documented) {t : ℤ} {tm : Tm} (h : lib.gmtime t = some tm)
    (hyear : 0 ≤ tm.year ∧ tm.year ≤ 65535) (gmt : Bool) :
    low (firstWord lib.bits (.ofNat 32 gmt.toNat) (.ofInt 32 tm.year) (.ofInt 32 tm.mon)
        (.ofInt 32 tm.mday) (.ofInt 32 tm.hour)) =
      2 ^ 31 + gmt.toNat * 2 ^ 30 + tm.year.toNat * 2 ^ 14 + tm.mon.toNat * 2 ^ 10 +
        tm.mday.toNat * 2 ^ 5 + tm.hour.toNat := by
  obtain ⟨-, -, hmon, hmon', hmday, hmday', hhour, hhour', -⟩ := hdoc.fields _ _ h
  exact low_firstWord lib.long_le gmt hyear ⟨hmon, hmon'⟩ ⟨hmday, hmday'⟩ ⟨hhour, hhour'⟩

/-- The top bit of the first word is set. -/
theorem exists_high_wordBytes (hdoc : lib.Documented) {time : TimeObject} {tm : Tm}
    (h : lib.gmtime time.sec = some tm) (hyear : 0 ≤ tm.year ∧ tm.year ≤ 65535) :
    ∃ c ∈ wordBytes lib time tm, 0x80 ≤ c := by
  have hlow := low_firstWord_tm hdoc h hyear time.gmt
  refine ⟨_, List.mem_append_left _ (List.mem_cons_of_mem _ (List.mem_cons_of_mem _
    (List.mem_cons_of_mem _ List.mem_cons_self))), ?_⟩
  rw [UInt8.le_iff_toNat_le, toNat_byte]
  simp only [BitVec.toNat_ushiftRight, Nat.shiftRight_eq_div_pow]
  rw [low] at hlow
  show 128 ≤ _
  omega

/-- **The string of the words has their bytes** if and only if it is not padded. -/
theorem padding_wordBytes (hdoc : lib.Documented) {time : TimeObject} {tm : Tm}
    (h : lib.gmtime time.sec = some tm) (hyear : 0 ≤ tm.year ∧ tm.year ≤ 65535) :
    padding lib.enc (wordBytes lib time tm ++ lib.behindBuf) 8 = 0 ↔ Unpadded lib time tm := by
  have hlen : 8 ≤ (wordBytes lib time tm ++ lib.behindBuf).length := by
    rw [List.length_append, length_wordBytes]
    exact Nat.le_add_right _ _
  rw [← Nat.le_zero, ← not_lt, padding_pos_iff hlen, take_wordBytes, Unpadded,
    ← Option.not_isSome_iff_eq_none]
  have hhigh := exists_high_wordBytes hdoc h hyear
  constructor
  · intro hno
    by_contra hpadded
    push Not at hpadded
    exact hno ⟨by omega, by omega, hpadded.1, hhigh⟩
  · rintro (hnone | hsome) ⟨hne, hcut, hstring, -⟩
    · exact hnone hstring
    · omega

/-- What `time_mdump` returns for a year that can be marshalled. -/
theorem timeMdump_eq (hdoc : lib.Documented) {time : TimeObject} {tm : Tm}
    (h : lib.gmtime time.sec = some tm) (hyear : 0 ≤ tm.year ∧ tm.year ≤ 65535) :
    timeMdump lib time = .ok ⟨strNew lib.enc (wordBytes lib time tm ++ lib.behindBuf) 8,
      if time.nsec % 1000 ≠ 0 then some (packSubmicro lib (time.nsec % 1000))
      else time.submicro⟩ := by
  obtain ⟨hlow, hhigh, -⟩ := hdoc.fields _ _ h
  have hmod : time.nsec.tmod 1000 = time.nsec % 1000 := Int.tmod_eq_emod_of_nonneg time.nsec_nonneg
  rw [timeMdump, h]
  simp only [(year_mask hlow hhigh).mpr hyear, ne_eq, not_true_eq_false, if_false, hmod]
  rfl

/-- **A time comes back from the words it was packed into**, unless there are blanks behind them. -/
theorem timeMload_words (hdoc : lib.Documented) {time : TimeObject} {tm : Tm}
    (h : lib.gmtime time.sec = some tm) (hyear : 0 ≤ tm.year ∧ tm.year ≤ 65535) :
    timeMload lib ⟨strNew lib.enc (wordBytes lib time tm ++ lib.behindBuf) 8, none⟩ =
      if padding lib.enc (wordBytes lib time tm ++ lib.behindBuf) 8 = 0 then
        .ok ⟨time.gmt, time.sec, time.nsec.tdiv 1000 * 1000, none⟩
      else .error (.typeError "marshaled time format differ") := by
  obtain ⟨-, -, -, -, -, -, -, -, hmin, hmin', hsec, hsec', -⟩ := hdoc.fields _ _ h
  have hnsec := time.nsec_nonneg
  have hnsec' := time.nsec_lt
  have husec : time.nsec.tdiv 1000 = time.nsec / 1000 := Int.tdiv_eq_ediv_of_nonneg hnsec
  have husec' : 0 ≤ time.nsec.tdiv 1000 ∧ time.nsec.tdiv 1000 < 1000000 := by omega
  have hlen : 8 ≤ (wordBytes lib time tm ++ lib.behindBuf).length := by
    rw [List.length_append, length_wordBytes]
    exact Nat.le_add_right _ _
  have hbytes : (strNew lib.enc _ 8).byteptr lib.enc = _ := byteptr_strNew hlen
  rw [take_wordBytes] at hbytes
  rw [timeMload]
  simp only [ne_eq, not_true_eq_false, if_false]
  by_cases hpad : padding lib.enc (wordBytes lib time tm ++ lib.behindBuf) 8 = 0
  · have hp := (getBytes_putBytes lib.long_le _).trans (low_firstWord_tm hdoc h hyear time.gmt)
    have hs := (getBytes_putBytes lib.long_le _).trans
      (low_secondWord lib.long_le ⟨hmin, hmin'⟩ ⟨hsec, hsec'⟩ husec')
    have hwords := unpackWords_eq hdoc h hyear ⟨hnsec, hnsec'⟩ hp hs none
    have htime := timeOverflowP_eq lib time.sec (by omega : 0 ≤ time.nsec.tdiv 1000 * 1000)
      (by omega)
    rw [hpad, List.replicate_zero, List.append_nil] at hbytes
    have htake : (wordBytes lib time tm).take 4 = _ := List.take_left' (length_putBytes 4 _)
    have hdrop : (wordBytes lib time tm).drop 4 = _ := List.drop_left' (length_putBytes 4 _)
    rw [if_pos hpad]
    simp only [hbytes, htake, hdrop, hwords]
    simp [length_wordBytes, htime, pure, bind, Except.pure, Except.bind]
  · have hlong : (wordBytes lib time tm ++ List.replicate
        (padding lib.enc (wordBytes lib time tm ++ lib.behindBuf) 8) 0x20).length ≠ 8 := by
      rw [List.length_append, length_wordBytes, List.length_replicate]
      omega
    rw [if_neg hpad]
    simp only [hbytes, if_pos hlong]
    rfl

end RoundTrip

/-- **The instant is preserved, or the year refused, if and only if the year cannot be marshalled or
there is nothing below a microsecond to store and the string is not padded.** -/
theorem preserves_iff {lib : Library} (hdoc : lib.Documented) {time : TimeObject} {tm : Tm}
    (h : lib.gmtime time.sec = some tm) :
    Preserves lib time tm ↔
      tm.year < 0 ∨ 65535 < tm.year ∨
        time.nsec % 1000 = 0 ∧ time.submicro = none ∧ Unpadded lib time tm := by
  obtain ⟨hlow, hhigh, -⟩ := hdoc.fields _ _ h
  have hmask := year_mask hlow hhigh
  have hdiv : time.nsec.tdiv 1000 = time.nsec / 1000 := Int.tdiv_eq_ediv_of_nonneg time.nsec_nonneg
  by_cases hyear : 0 ≤ tm.year ∧ tm.year ≤ 65535
  · have hdump := timeMdump_eq hdoc h hyear
    rw [← padding_wordBytes hdoc h hyear]
    constructor
    · intro hpres
      obtain ⟨str, time', hdump', hload, -⟩ := hpres.roundTrip hyear.1 hyear.2
      obtain rfl := Except.ok.inj (hdump.symm.trans hdump')
      refine .inr (.inr ?_)
      by_cases hsub : time.nsec % 1000 = 0 ∧ time.submicro = none
      · rw [if_neg (not_not.mpr hsub.1), hsub.2, timeMload_words hdoc h hyear] at hload
        by_contra hno
        rw [if_neg fun hpad => hno ⟨hsub.1, hsub.2, hpad⟩] at hload
        cases hload
      · rw [timeMload_submicro ?_] at hload
        · cases hload
        · by_cases hzero : time.nsec % 1000 = 0
          · simpa [hzero] using hsub
          · simp [hzero]
    · intro hcond
      obtain ⟨hzero, hsub, hpad⟩ := (hcond.resolve_left (by omega)).resolve_left (by omega)
      have hload := timeMload_words hdoc h hyear
      rw [if_pos hpad] at hload
      rw [if_neg (not_not.mpr hzero), hsub] at hdump
      refine ⟨fun _ _ => ⟨_, _, hdump, hload, rfl, ?_, rfl⟩, fun hout => by omega⟩
      simp only
      omega
  · have hout : tm.year < 0 ∨ 65535 < tm.year := by omega
    refine ⟨fun _ => by omega, fun _ => ⟨fun h₁ h₂ => by omega, fun _ => ?_⟩⟩
    rw [timeMdump, h]
    simp only [ne_eq, hmask, hyear, not_false_eq_true, if_true]
    exact ⟨_, rfl⟩

/-- A library with words of 64 bits, at the start of 1970. -/
def epochLibrary : Library where
  bits := 64
  bits_pos := by decide
  gmtime := fun t => if t = 0 then some ⟨70, 0, 1, 0, 0, 0, 0⟩ else none
  localtime := fun t => if t = 0 then some ⟨70, 0, 1, 0, 0, 0, 0⟩ else none
  around := fun _ => 0
  long_le := by decide
  timegm := fun tm => (0, tm)
  mktime := fun tm => (0, tm)
  enc := asciiEncoding
  behindBuf := [0]
  behindSubmicro := [0]

theorem epochLibrary_documented : epochLibrary.Documented := by
  refine ⟨fun t tm h => ?_, fun t tm h => ?_⟩
  · simp only [epochLibrary] at h
    split_ifs at h
    cases h
    decide
  · simp only [epochLibrary] at h ⊢
    split_ifs at h with ht
    exact ht.symm

/-- The start of 1970, and some nanoseconds. -/
def epoch (nsec : ℕ) (h : nsec < 1000000000) : TimeObject :=
  ⟨0, nsec, true, none, by omega, by omega⟩

/-- The start of 1970 is preserved. -/
theorem preserves_iff_epoch :
    epochLibrary.Documented ∧
      (Preserves epochLibrary (epoch 0 (by decide)) ⟨70, 0, 1, 0, 0, 0, 0⟩ ↔
        (70 : ℤ) < 0 ∨ (65535 : ℤ) < 70 ∨ (0 : ℤ) % 1000 = 0 ∧
          (none : Option StringObject) = none ∧
          Unpadded epochLibrary (epoch 0 (by decide)) ⟨70, 0, 1, 0, 0, 0, 0⟩) :=
  ⟨epochLibrary_documented, preserves_iff epochLibrary_documented rfl⟩

/-- A nanosecond later, the time cannot be loaded. -/
theorem not_preserves_nanosecond :
    ¬ Preserves epochLibrary (epoch 1 (by decide)) ⟨70, 0, 1, 0, 0, 0, 0⟩ := by
  intro hpres
  obtain ⟨str, time', hdump, hload, -⟩ := hpres.roundTrip (by decide) (by decide)
  have htm : epochLibrary.gmtime (epoch 1 (by decide)).sec = some ⟨70, 0, 1, 0, 0, 0, 0⟩ := rfl
  have hstr := timeMdump_eq epochLibrary_documented htm (by decide)
  obtain rfl := Except.ok.inj (hstr.symm.trans hdump)
  rw [timeMload_submicro (by simp [epoch])] at hload
  cases hload

end MacRuby.Time
