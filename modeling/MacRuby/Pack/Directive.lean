import MacRuby.Numeric.Integer
import MacRuby.Util.Strtoul
import Mathlib.Data.Nat.Digits.Defs
import Mathlib.Tactic.IntervalCases

/-!
# The directives of `String#unpack`

The cases of the `switch` in `pack_unpack` of `pack.c`, on a machine whose bytes are in
little-endian order and whose `char` is signed. A position in the string is its offset from the
beginning, and it may lie outside: what is read there is whatever stands in memory.

A directive hands its elements over by `UNPACK_PUSH`, which gives them to the block or appends
them to the array, or it appends them to the array directly. The bit and hex strings are handed over
before they are filled. The bytes of a string are those that `rb_str_new` makes it of, without the
blanks that it may put behind them; both forms hand over the same string.

## Main definitions

* `ByteString` — a string in memory.
* `Output` — an element as it is handed over.
* `Effect` — what a directive does: its outputs, and the cursor it leaves or the error it raises.
* `lengthAdjust`, `unpackFixed` — the numbers of a fixed size.
* `unpackUu`, `unpackBase64`, `unpackQp`, `unpackUtf8`, `unpackBer` — the encodings.
* `unpackDirective` — the `switch`.
-/

namespace MacRuby.Pack

/-! ## Strings and elements -/

/-- A byte string in memory: its bytes, and what stands around them. Its length is a `long`. -/
structure ByteString (L : LongSize) where
  bytes : List UInt8
  around : ℤ → UInt8
  length_lt : (bytes.length : ℤ) < 2 ^ (L.bits - 1)

namespace ByteString

variable {L : LongSize}

/-- `send`, as an offset. -/
def len (d : ByteString L) : ℤ := d.bytes.length

/-- `*p` for a pointer `p` given as an offset; a NUL stands after the last byte. -/
def get (d : ByteString L) (i : ℤ) : UInt8 :=
  if 0 ≤ i ∧ i < d.len then d.bytes.getD i.toNat 0
  else if i = d.len then 0
  else d.around i

/-- The `n` bytes from an offset on. -/
def slice (d : ByteString L) (i : ℤ) (n : ℕ) : List UInt8 :=
  (List.range n).map fun k : ℕ => d.get (i + k)

end ByteString

/-- A `char`, which is signed. -/
def schar (c : UInt8) : ℤ := (c.toNat : ℤ).bmod 256

/-- The number that bytes in little-endian order stand for. -/
def leNat (bs : List UInt8) : ℕ := Nat.ofDigits 256 (bs.map UInt8.toNat)

/-- What an element can be; a Float is given by the bytes it has in memory. -/
inductive Value (L : LongSize)
  | nil
  | integer (n : Inum L)
  | float (bytes : List UInt8)
  | string (bytes : List UInt8)

/-- The errors that `pack_unpack` raises; all are ArgumentErrors but `lengthTooBig`, which is a
RangeError. -/
inductive UnpackError
  /-- "'%c' allowed only after types sSiIlL" -/
  | notNative (c : UInt8)
  /-- "pack length too big" -/
  | lengthTooBig
  /-- "% is not supported" -/
  | percent
  /-- "negative string size (or size too big)" -/
  | negativeSize
  /-- "malformed UTF-8 character" -/
  | malformed
  /-- "malformed UTF-8 character (expected %ld bytes, given %ld bytes)" -/
  | truncated (expected given : ℤ)
  /-- "redundant UTF-8 sequence" -/
  | redundant
  /-- "@ outside of string" -/
  | atOutside
  /-- "X outside of string" -/
  | backOutside
  /-- "x outside of string" -/
  | forwardOutside
  /-- "no associated pointer" -/
  | noAssociated
  deriving DecidableEq, Repr

/-- An element as it is handed over. -/
inductive Output (L : LongSize)
  /-- `UNPACK_PUSH(v)`. -/
  | push (v : Value L)
  /-- `UNPACK_PUSH(rb_str_new(0, n))` for a string that is filled with `v` afterwards. -/
  | pushBlank (n : ℕ) (v : List UInt8)
  /-- `rb_ary_push(ary, Qnil)`. -/
  | pushNil

/-- What a directive does. -/
structure Effect (L : LongSize) where
  outputs : List (Output L)
  result : Except UnpackError ℤ

namespace Effect

variable {L : LongSize}

def raise (e : UnpackError) : Effect L := ⟨[], .error e⟩

def done (s : ℤ) : Effect L := ⟨[], .ok s⟩

def cons (o : Output L) (e : Effect L) : Effect L := ⟨o :: e.outputs, e.result⟩

end Effect

/-- `infected_str_new(ptr, len, str)`, and `rb_str_new`. -/
def strNew {L : LongSize} (len : ℤ) (k : ℕ → Effect L) : Effect L :=
  if len < 0 then .raise .negativeSize else k len.toNat

section Directives

variable {L : LongSize} (d : ByteString L)

/-! ## Strings -/

/-- The loop of `A`: the length without trailing spaces and NULs. -/
def stripTail (s : ℤ) : ℕ → ℕ
  | 0 => 0
  | n + 1 => if d.get (s + n) ≠ 32 ∧ d.get (s + n) ≠ 0 then n + 1 else stripTail s n

/-- `A`. -/
def unpackA (s len : ℤ) : Effect L :=
  let len := if len > d.len - s then d.len - s else len
  strNew len fun n => ⟨[.push (.string (d.slice s (stripTail d s n)))], .ok (s + n)⟩

/-- The loop of `Z`: how many bytes there are before a NUL. -/
def nulScan (s : ℤ) : ℕ → ℕ
  | 0 => 0
  | n + 1 => if d.get s ≠ 0 then nulScan (s + 1) n + 1 else 0

/-- `Z`. -/
def unpackZ (s : ℤ) (star : Bool) (len : ℤ) : Effect L :=
  let len := if len > d.len - s then d.len - s else len
  let n := nulScan d s len.toNat
  let t := s + n
  let t := if t < d.len then t + 1 else t
  ⟨[.push (.string (d.slice s n))], .ok (if star then t else s + len)⟩

/-- `a`. -/
def unpacka (s len : ℤ) : Effect L :=
  let len := if len > d.len - s then d.len - s else len
  strNew len fun n => ⟨[.push (.string (d.slice s n))], .ok (s + n)⟩

/-! ## Bit and hex strings -/

/-- `hexdigits[n]`. -/
def hexdigit (n : ℤ) : UInt8 := UInt8.ofNat (if n < 10 then 48 + n else 87 + n).toNat

theorem hexdigit_ne_blank {n : ℤ} (h0 : 0 ≤ n) (h1 : n < 16) : hexdigit n ≠ 32 := by
  interval_cases n <;> decide

/-- A kind of digits: how many there are in a byte, how `bits` moves on to the next of them, and
the character it shows. -/
structure DigitKind where
  per : ℕ
  pos : 0 < per
  shift : ℤ → ℤ
  digit : ℤ → UInt8
  digit_ne : ∀ bits, digit bits ≠ 32

/-- `b`. -/
def bitsUp : DigitKind where
  per := 8
  pos := by decide
  shift bits := bits / 2
  digit bits := if bits % 2 = 1 then 49 else 48
  digit_ne bits := by split_ifs <;> decide

/-- `B`. -/
def bitsDown : DigitKind where
  per := 8
  pos := by decide
  shift bits := bits * 2
  digit bits := if bits / 128 % 2 = 1 then 49 else 48
  digit_ne bits := by split_ifs <;> decide

/-- `h`. -/
def hexUp : DigitKind where
  per := 2
  pos := by decide
  shift bits := bits / 16
  digit bits := hexdigit (bits % 16)
  digit_ne bits := hexdigit_ne_blank (by omega) (by omega)

/-- `H`. -/
def hexDown : DigitKind where
  per := 2
  pos := by decide
  shift bits := bits * 16
  digit bits := hexdigit (bits / 16 % 16)
  digit_ne bits := hexdigit_ne_blank (by omega) (by omega)

/-- The loop over the digits, at the `i`-th of them. -/
def digitLoop (k : DigitKind) : ℕ → ℕ → ℤ → ℤ → List UInt8 × ℤ
  | 0, _, s, _ => ([], s)
  | n + 1, i, s, bits =>
      let bits' := if i % k.per ≠ 0 then k.shift bits else schar (d.get s)
      let s' := if i % k.per ≠ 0 then s else s + 1
      let r := digitLoop k n (i + 1) s' bits'
      (k.digit bits' :: r.1, r.2)

/-- How many digits there are to extract. The test `p[-1] == '*'` is the test for a star. -/
def digitCount (k : DigitKind) (s : ℤ) (star : Bool) (len : ℤ) : ℤ :=
  let max := L.toLong ((d.len - s) * k.per)
  if star ∨ len > max then max else len

/-- `b`, `B`, `h` and `H`. -/
def unpackDigits (k : DigitKind) (s : ℤ) (star : Bool) (len : ℤ) : Effect L :=
  strNew (digitCount d k s star len) fun n =>
    let r := digitLoop d k n 0 s 0
    ⟨[.pushBlank n r.1], .ok r.2⟩

/-! ## Numbers of a fixed size -/

/-- The directives for numbers of a fixed size. -/
inductive NumberType
  | c | C | s | S | i | I | l | L | q | Q | n | N | v | V | f | F | e | E | D | d | g | G
  deriving DecidableEq, Repr

/-- `rb_uint2inum(n)`. -/
def rbUint2inum (L : LongSize) (n : ℤ) : Inum L :=
  if h : n ≤ L.fixnumMax ∧ 0 ≤ n then .fixnum ⟨n, L.fixnumMin_nonpos.trans h.2, h.1⟩
  else .bignum (rbUint2big L n)

/-- `swap16(x)`. -/
def swap16 (x : ℕ) : ℕ := (x &&& 0xFF) <<< 8 ||| (x >>> 8) &&& 0xFF

/-- `swap32(x)`. -/
def swap32 (x : ℕ) : ℕ :=
  (x &&& 0xFF) <<< 24 ||| (x >>> 24) &&& 0xFF ||| (x &&& 0x0000FF00) <<< 8
    ||| (x &&& 0x00FF0000) >>> 8

/-- `swapl(x)`. -/
def swapl (L : LongSize) (x : ℕ) : ℕ :=
  match L with
  | .ilp32 => swap32 x
  | .lp64 =>
      (x &&& 0x00000000000000FF) <<< 56 ||| (x &&& 0xFF00000000000000) >>> 56
        ||| (x &&& 0x000000000000FF00) <<< 40 ||| (x &&& 0x00FF000000000000) >>> 40
        ||| (x &&& 0x0000000000FF0000) <<< 24 ||| (x &&& 0x0000FF0000000000) >>> 24
        ||| (x &&& 0x00000000FF000000) <<< 8 ||| (x &&& 0x000000FF00000000) >>> 8

/-- `EXTEND32(x)` on a 64-bit `long`; the word is unsigned here. -/
def extend32 (x : ℕ) : ℕ := ((2 ^ 31 - 1 + 2 ^ 64 - x) % 2 ^ 64) ^^^ (2 ^ 31 - 1)

/-- The end of `rb_quad_unpack`: the Integer for a quad. -/
def quad2inum (L : LongSize) (v : ℤ) : Inum L :=
  if h : L.fixnumMin ≤ v ∧ v ≤ L.fixnumMax then
    .fixnum (.ofMem h)
  else
    let mag := if v < 0 then toDbl (-v) else v
    let r := Loop.upto (fun i (r : ℤ × List BDigit) => (bigdn r.1, r.2.set i (biglo r.1)))
      2 (mag, (bignew 2 true).digits)
    bignorm L ⟨decide (0 ≤ v), r.2.take (dropZeros r.2 2)⟩

/-- `rb_quad_unpack(buf, sign)`. -/
def rbQuadUnpack (L : LongSize) (buf : List UInt8) (sign : Bool) : Inum L :=
  let q : ℤ := leNat buf
  quad2inum L (if sign then toDblSigned q else q)

/-- The bytes that a number takes, `NATINT_LEN(type, len)` for those that have a native size. -/
def NumberType.size (L : LongSize) (natint : Bool) : NumberType → ℕ
  | .c | .C => 1
  | .s | .S | .n | .v => 2
  | .i | .I | .N | .V | .f | .F | .e | .g => 4
  | .l | .L => if natint then L.bytes else 4
  | .q | .Q | .E | .D | .d | .G => 8

/-- The number that the bytes stand for. -/
def NumberType.decode (L : LongSize) (natint : Bool) (bs : List UInt8) : NumberType → Value L
  | .c => .integer (.fixnum (long2fix L ((leNat bs : ℤ).bmod (2 ^ 8))))
  | .C => .integer (.fixnum (long2fix L (leNat bs)))
  | .s => .integer (.fixnum (long2fix L ((leNat bs : ℤ).bmod (2 ^ 16))))
  | .S => .integer (.fixnum (long2fix L (leNat bs)))
  | .i => .integer (long2num L ((leNat bs : ℤ).bmod (2 ^ 32)))
  | .I => .integer (rbUint2inum L (leNat bs))
  | .l =>
      match L, natint with
      | .lp64, false => .integer (long2num .lp64 (LongSize.lp64.toLong (extend32 (leNat bs))))
      | L, _ => .integer (long2num L (L.toLong (leNat bs)))
  | .L => .integer (rbUint2inum L (leNat bs))
  | .q => .integer (rbQuadUnpack L bs true)
  | .Q => .integer (rbQuadUnpack L bs false)
  | .n => .integer (rbUint2inum L (swap16 (leNat bs)))
  | .N =>
      -- the bytes are copied to the end of the word
      .integer (rbUint2inum L (swapl L (leNat bs * 256 ^ (L.bytes - 4))))
  | .v => .integer (rbUint2inum L (leNat bs))
  | .V => .integer (rbUint2inum L (leNat bs))
  | .f | .F | .e | .E | .D | .d => .float bs
  | .g | .G => .float bs.reverse

/-- `PACK_LENGTH_ADJUST_SIZE(sz)`: the counts that `len` and `tmp` get. The comparison is one of
unsigned words where `sz` is a `sizeof`, and one of signed words where it is in an `int`. -/
def lengthAdjust (L : LongSize) (unsigned : Bool) (sz : ℕ) (star : Bool) (len avail : ℤ) : ℤ × ℤ :=
  let q := if unsigned then avail % 2 ^ L.bits / sz else avail.tdiv sz
  let l := if unsigned then len % 2 ^ L.bits else len
  if l > q then (L.toLong q, if star then 0 else (l - q).bmod (2 ^ 32)) else (len, 0)

/-- Whether `PACK_LENGTH_ADJUST` compares unsigned words: `NATINT_PACK` is defined on a 64-bit
`long` only, and the macro for quads is used without it. -/
def NumberType.unsigned (L : LongSize) : NumberType → Bool
  | .q | .Q => true
  | _ => L = .ilp32

/-- The loop over the numbers. -/
def numberLoop (natint : Bool) (t : NumberType) : ℕ → ℤ → Effect L
  | 0, s => .done s
  | n + 1, s =>
      (numberLoop natint t n (s + t.size L natint)).cons
        (.push (t.decode L natint (d.slice s (t.size L natint))))

/-- `PACK_ITEM_ADJUST()`: a negative `int` takes the way through its least value to zero. -/
def itemAdjust (tmp : ℤ) : List (Output L) := List.replicate (tmp % 2 ^ 32).toNat .pushNil

/-- The directives for numbers of a fixed size. There is no `PACK_ITEM_ADJUST` after `Q`. -/
def unpackNumber (natint : Bool) (t : NumberType) (s : ℤ) (star : Bool) (len : ℤ) : Effect L :=
  let r := lengthAdjust L (t.unsigned L) (t.size L natint) star len (d.len - s)
  let e := numberLoop d natint t r.1.toNat s
  if t = .Q then e else { e with outputs := e.outputs ++ itemAdjust r.2 }

/-! ## UTF-8 -/

/-- `utf8_limits[n]`. -/
def utf8Limit : ℕ → ℕ
  | 0 => 0x0
  | 1 => 0x80
  | 2 => 0x800
  | 3 => 0x10000
  | 4 => 0x200000
  | 5 => 0x4000000
  | _ => 0x80000000

/-- The length of a character that begins with the byte `c`, and the bits of its number that are
in `c`. -/
def utf8Lead (c : ℕ) : Option (ℕ × ℕ) :=
  if c &&& 0x20 = 0 then some (2, c &&& 0x1f)
  else if c &&& 0x10 = 0 then some (3, c &&& 0x0f)
  else if c &&& 0x08 = 0 then some (4, c &&& 0x07)
  else if c &&& 0x04 = 0 then some (5, c &&& 0x03)
  else if c &&& 0x02 = 0 then some (6, c &&& 0x01)
  else none

/-- The loop of `utf8_to_uv` over the other bytes. -/
def utf8Rest (uv : ℕ) : ℕ → ℤ → Option ℕ
  | 0, _ => some uv
  | n + 1, p =>
      let c := (d.get p).toNat
      if c &&& 0xc0 ≠ 0x80 then none
      else utf8Rest (uv <<< 6 ||| c &&& 0x3f) n (p + 1)

/-- `utf8_to_uv(p, &len)`: the number and the length of the character. -/
def utf8ToUv (p len : ℤ) : Except UnpackError (ℕ × ℤ) :=
  let c := (d.get p).toNat
  if c &&& 0x80 = 0 then .ok (c, 1)
  else if c &&& 0x40 = 0 then .error .malformed
  else
    match utf8Lead c with
    | none => .error .malformed
    | some (n, uv) =>
        if (n : ℤ) > len then .error (.truncated n len)
        else
          match utf8Rest d uv (n - 1) (p + 1) with
          | none => .error .malformed
          | some uv => if uv < utf8Limit (n - 1) then .error .redundant else .ok (uv, n)

/-- The loop of `U`. -/
def utf8Loop : ℕ → ℤ → Effect L
  | 0, s => .done s
  | n + 1, s =>
      if s < d.len then
        match utf8ToUv d s (d.len - s) with
        | .error e => .raise e
        | .ok (l, alen) => (utf8Loop n (s + alen)).cons (.push (.integer (rbUint2inum L l)))
      else .done s

/-- `U`. -/
def unpackUtf8 (s len : ℤ) : Effect L :=
  let len := if len > d.len - s then d.len - s else len
  utf8Loop d len.toNat s

/-! ## Uuencoded strings -/

/-- A character of a line: its six bits, and the position after it. -/
def uuGet (s : ℤ) : ℕ × ℤ :=
  if s < d.len ∧ schar (d.get s) ≥ 32 then (((d.get s).toNat - 32) &&& 63, s + 1) else (0, s)

/-- `hunk`: three bytes from four characters. -/
def uuHunk (s : ℤ) : List UInt8 × ℤ :=
  let a := uuGet d s
  let b := uuGet d a.2
  let c := uuGet d b.2
  let e := uuGet d c.2
  ([UInt8.ofNat (a.1 <<< 2 ||| b.1 >>> 4), UInt8.ofNat (b.1 <<< 4 ||| c.1 >>> 2),
    UInt8.ofNat (c.1 <<< 6 ||| e.1)], e.2)

/-- The loop over a line of `len` bytes. -/
def uuLine : ℕ → ℤ → List UInt8 × ℤ
  | 0, s => ([], s)
  | 1, s => ((uuHunk d s).1.take 1, (uuHunk d s).2)
  | 2, s => ((uuHunk d s).1.take 2, (uuHunk d s).2)
  | n + 3, s =>
      let r := uuLine n (uuHunk d s).2
      ((uuHunk d s).1 ++ r.1, r.2)

/-- The end of a line: a line break, or one more character before it, which may be a checksum. -/
def uuEnd (s : ℤ) : ℤ :=
  let s := if d.get s = 13 then s + 1 else s
  if d.get s = 10 then s + 1
  else if s < d.len ∧ (s + 1 = d.len ∨ d.get (s + 1) = 10) then s + 2
  else s

/-- A line begins at `s`. -/
def uuBegins (s : ℤ) : Bool := s < d.len && 32 < schar (d.get s) && schar (d.get s) < 97

/-- The bytes that a line at `s` still has room for, when `total` bytes are there already. -/
def uuCount (buflen total s : ℤ) : ℤ :=
  let len : ℤ := (((d.get s).toNat - 32) &&& 63 : ℕ)
  if total + len > buflen then len - (total + len - buflen) else len

/-- The loop over the lines. -/
def uuLoop (buflen : ℤ) : ℕ → ℤ → ℤ → List UInt8 × ℤ
  | 0, _, s => ([], s)
  | fuel + 1, total, s =>
      if uuBegins d s then
        let len := uuCount d buflen total s
        let line := uuLine d len.toNat (s + 1)
        let r := uuLoop buflen fuel (total + len) (uuEnd d line.2)
        (line.1 ++ r.1, r.2)
      else ([], s)

/-- `u`. -/
def unpackUu (s : ℤ) : Effect L :=
  let buflen := (L.toLong ((d.len - s) * 3)).tdiv 4
  strNew buflen fun _ =>
    let r := uuLoop d buflen ((d.len - s).toNat + 1) 0 s
    ⟨[.push (.string r.1)], .ok r.2⟩

/-! ## Base64 -/

/-- `b64_xtable[c]`: the position of `c` in `b64_table`, or -1. -/
def b64Xtable (c : UInt8) : ℤ :=
  if 65 ≤ c ∧ c ≤ 90 then c.toNat - 65
  else if 97 ≤ c ∧ c ≤ 122 then c.toNat - 71
  else if 48 ≤ c ∧ c ≤ 57 then c.toNat + 4
  else if c = 43 then 62
  else if c = 47 then 63
  else -1

/-- A loop that looks for the next character of `b64_table`; the third and the fourth character
may be an equals sign, where it stops. -/
def b64Skip (stop : Bool) : ℕ → ℤ → ℤ
  | 0, s => s
  | n + 1, s =>
      if b64Xtable (d.get s) = -1 ∧ s < d.len then
        if stop ∧ d.get s = 61 then s else b64Skip stop n (s + 1)
      else s

/-- The variables after the loop of `m`, and what it wrote. -/
structure Base64 where
  a : ℤ
  b : ℤ
  c : ℤ
  s : ℤ
  out : List UInt8

/-- The three bytes of four characters. -/
def b64Bytes (a b c e : ℤ) : List UInt8 :=
  [UInt8.ofNat (a.toNat <<< 2 ||| b.toNat >>> 4), UInt8.ofNat (b.toNat <<< 4 ||| c.toNat >>> 2),
    UInt8.ofNat (c.toNat <<< 6 ||| e.toNat)]

/-- The loop of `m`. -/
def b64Loop : ℕ → Base64 → Base64
  | 0, r => r
  | n + 1, r =>
      if r.s < d.len then
        let s1 := b64Skip d false (d.len - r.s).toNat r.s
        let a := b64Xtable (d.get s1)
        if s1 ≥ d.len then ⟨a, -1, -1, s1, r.out⟩
        else
          let s2 := b64Skip d false (d.len - (s1 + 1)).toNat (s1 + 1)
          let b := b64Xtable (d.get s2)
          if s2 ≥ d.len then ⟨a, b, -1, s2, r.out⟩
          else
            let s3 := b64Skip d true (d.len - (s2 + 1)).toNat (s2 + 1)
            let c := b64Xtable (d.get s3)
            if d.get s3 = 61 ∨ s3 ≥ d.len then ⟨a, b, c, s3, r.out⟩
            else
              let s4 := b64Skip d true (d.len - (s3 + 1)).toNat (s3 + 1)
              let e := b64Xtable (d.get s4)
              if d.get s4 = 61 ∨ s4 ≥ d.len then ⟨a, b, c, s4, r.out⟩
              else b64Loop n ⟨a, b, c, s4 + 1, r.out ++ b64Bytes a b c e⟩
      else r

/-- What is left for the characters before an equals sign. -/
def b64Rest (r : Base64) : List UInt8 :=
  if r.a ≠ -1 ∧ r.b ≠ -1 ∧ d.get r.s = 61 then
    if r.c = -1 then (b64Bytes r.a r.b 0 0).take 1 else (b64Bytes r.a r.b r.c 0).take 2
  else []

/-- `m`. -/
def unpackBase64 (s : ℤ) : Effect L :=
  let buflen := (L.toLong ((d.len - s) * 3)).tdiv 4
  strNew buflen fun _ =>
    let r := b64Loop d ((d.len - s).toNat + 1) ⟨-1, -1, 0, s, []⟩
    ⟨[.push (.string (r.out ++ b64Rest d r))], .ok r.s⟩

/-! ## Quoted-printable strings -/

/-- `hex2num(c)`. -/
def hex2num (c : UInt8) : ℤ :=
  if 48 ≤ c ∧ c ≤ 57 then c.toNat - 48
  else if 97 ≤ c ∧ c ≤ 102 then c.toNat - 87
  else if 65 ≤ c ∧ c ≤ 70 then c.toNat - 55
  else -1

/-- The loop of `M`. -/
def qpLoop : ℕ → ℤ → List UInt8 × ℤ
  | 0, s => ([], s)
  | n + 1, s =>
      if s < d.len then
        if d.get s = 61 then
          if s + 1 = d.len then ([], s + 1)
          else
            let t := if s + 2 < d.len ∧ d.get (s + 1) = 13 ∧
              d.get (s + 2) = 10 then s + 2 else s + 1
            if d.get t = 10 then qpLoop n (t + 1)
            else if hex2num (d.get t) = -1 then ([], t)
            else if t + 1 = d.len then ([], t + 1)
            else if hex2num (d.get (t + 1)) = -1 then ([], t + 1)
            else
              let r := qpLoop n (t + 2)
              let c := (hex2num (d.get t)).toNat <<< 4 ||| (hex2num (d.get (t + 1))).toNat
              (UInt8.ofNat c :: r.1, r.2)
        else
          let r := qpLoop n (s + 1)
          (d.get s :: r.1, r.2)
      else ([], s)

/-- `M`. -/
def unpackQp (s : ℤ) : Effect L :=
  strNew (d.len - s) fun n =>
    let r := qpLoop d (n + 1) s
    ⟨[.push (.string r.1)], .ok r.2⟩

/-! ## Moving the cursor -/

/-- `@`. -/
def unpackAt (len : ℤ) : Effect L := if len > d.len then .raise .atOutside else .done len

/-- `X`. -/
def unpackBack (s len : ℤ) : Effect L := if len > s then .raise .backOutside else .done (s - len)

/-- `x`. -/
def unpackForward (s len : ℤ) : Effect L :=
  if len > d.len - s then .raise .forwardOutside else .done (s + len)

/-! ## Pointers

No string has associated pointers: `rb_str_associated` returns false. -/

/-- A pointer at `s`. -/
def unpackPointer (s : ℤ) (k : Effect L) : Effect L :=
  if leNat (d.slice s L.bytes) ≠ 0 then .raise .noAssociated else k.cons (.push .nil)

/-- `P`; the comparison is one of unsigned words. -/
def unpackP (s : ℤ) : Effect L :=
  if (L.bytes : ℤ) ≤ (d.len - s) % 2 ^ L.bits then unpackPointer d s (.done (s + L.bytes))
  else .done s

/-- The loop of `p`. -/
def pointerLoop : ℕ → ℤ → Effect L
  | 0, s => .done s
  | n + 1, s =>
      if (d.len - s) % 2 ^ L.bits < L.bytes then .done s
      else unpackPointer d s (pointerLoop n (s + L.bytes))

/-- `p`. -/
def unpackp (s len : ℤ) : Effect L :=
  pointerLoop d (lengthAdjust L true L.bytes true len (d.len - s)).1.toNat s

/-! ## BER-compressed integers -/

/-- The inner loop of `w`, for a number that does not fit a word: the number if it ends before the
string does, and the position after it. -/
def berBig : ℕ → Inum L → ℤ → Option (Inum L) × ℤ
  | 0, _, s => (none, s)
  | n + 1, big, s =>
      if s < d.len then
        let c := (d.get s).toNat
        let big := rbBigMul L big.toBignum (.bignum (rbUint2big L 128))
        let big := rbBigPlus L big.toBignum (.bignum (rbUint2big L (c &&& 0x7f : ℕ)))
        if c &&& 0x80 = 0 then (some big, s + 1) else berBig n big (s + 1)
      else (none, s)

/-- The loop of `w`; `len` is what is left of the count. -/
def berLoop : ℕ → ℤ → ℕ → ℤ → Effect L
  | 0, _, _, s => .done s
  | fuel + 1, len, ul, s =>
      if 0 < len ∧ s < d.len then
        let c := (d.get s).toNat
        let ul := (ul <<< 7) % 2 ^ L.bits ||| c &&& 0x7f
        if c &&& 0x80 = 0 then
          (berLoop fuel (len - 1) 0 (s + 1)).cons (.push (.integer (rbUint2inum L ul)))
        else if ul &&& 0xfe <<< ((L.bytes - 1) * 8) ≠ 0 then
          match berBig d (d.len - s).toNat (.bignum (rbUint2big L ul)) (s + 1) with
          | (some big, s) => (berLoop fuel (len - 1) 0 s).cons (.push (.integer big))
          | (none, s) => berLoop fuel len ul s
        else berLoop fuel len ul (s + 1)
      else .done s

/-- `w`. -/
def unpackBer (s len : ℤ) : Effect L := berLoop d ((d.len - s).toNat + 1) len 0 s

/-! ## The switch -/

/-- The directives, by what they do. -/
inductive Directive
  | percent | A | Z | a | digits (k : DigitKind) | number (t : NumberType) | U | u | m | M | seek |
    X
  | x | P | p | w | other

/-- The case of the `switch` for a type. -/
def directive (type : UInt8) : Directive :=
  match Char.ofNat type.toNat with
  | '%' => .percent
  | 'A' => .A
  | 'Z' => .Z
  | 'a' => .a
  | 'b' => .digits bitsUp
  | 'B' => .digits bitsDown
  | 'h' => .digits hexUp
  | 'H' => .digits hexDown
  | 'c' => .number .c
  | 'C' => .number .C
  | 's' => .number .s
  | 'S' => .number .S
  | 'i' => .number .i
  | 'I' => .number .I
  | 'l' => .number .l
  | 'L' => .number .L
  | 'q' => .number .q
  | 'Q' => .number .Q
  | 'n' => .number .n
  | 'N' => .number .N
  | 'v' => .number .v
  | 'V' => .number .V
  | 'f' => .number .f
  | 'F' => .number .F
  | 'e' => .number .e
  | 'E' => .number .E
  | 'D' => .number .D
  | 'd' => .number .d
  | 'g' => .number .g
  | 'G' => .number .G
  | 'U' => .U
  | 'u' => .u
  | 'm' => .m
  | 'M' => .M
  | '@' => .seek
  | 'X' => .X
  | 'x' => .x
  | 'P' => .P
  | 'p' => .p
  | 'w' => .w
  | _ => .other

/-- What stands after the type of a directive. -/
structure Modifiers where
  natint : Bool
  star : Bool
  len : ℤ
  deriving DecidableEq, Repr

/-- The `switch` of `pack_unpack`. -/
def unpackDirective (t : Directive) (m : Modifiers) (s : ℤ) : Effect L :=
  match t with
  | .percent => .raise .percent
  | .A => unpackA d s m.len
  | .Z => unpackZ d s m.star m.len
  | .a => unpacka d s m.len
  | .digits k => unpackDigits d k s m.star m.len
  | .number t => unpackNumber d m.natint t s m.star m.len
  | .U => unpackUtf8 d s m.len
  | .u => unpackUu d s
  | .m => unpackBase64 d s
  | .M => unpackQp d s
  | .seek => unpackAt d m.len
  | .X => unpackBack s m.len
  | .x => unpackForward d s m.len
  | .P => unpackP d s
  | .p => unpackp d s m.len
  | .w => unpackBer d s m.len
  | .other => .done s

end Directives

end MacRuby.Pack
