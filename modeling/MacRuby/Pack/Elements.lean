import MacRuby.Pack.Pack

/-!
# `Array#pack` of Strings

The loop of `pack_pack` for any kind of elements, and the directives that take Strings or write
Integers in an encoding of their own. The other directives are a parameter, as are `to_s` of an
Integer and the fuel of its division.

The string so far is the bytes that `RSTRING_PTR` points to. None of the directives here appends a
NUL together with a byte that is not ASCII, and other bytes come back as they were appended, whether
to byte data or as characters (`cstr_appendAll_data`, `rbStrBufCat_store`). The buffer of `w` is a
string whose bytes are read through `RSTRING_BYTEPTR`, which gives them in UTF-8.

A directive that would write past the end of an array, or append a negative number of bytes, fails
with `memory`.

## Main definitions

* `packFormat` — the loop over the format.
* `Item`, `ItemError` — the elements, and what can go wrong with one.
* `DigitWriter`, `packDigits` — bit and hex strings.
* `uvToUtf8`, `packBer` — the encodings of Integers.
* `encodes`, `encodeLines`, `qpencode` — the encodings of Strings.
* `packItem`, `packItems` — the `switch` and the method.

## Main results

* `packFormat_single` — a format of one directive.
-/

namespace MacRuby.Pack

/-! ## The loop -/

section Format

variable {σ ε : Type} (L : LongSize) (left : σ → ℕ)
  (switch : UInt8 → Modifiers → σ → Except (PackError ε) σ)

/-- The loop of `pack_pack`; `left` tells how many elements are left. -/
def packFormat : ℕ → List UInt8 → σ → Except (PackError ε) σ
  | _, [], st => .ok st
  | 0, _, st => .ok st
  | fuel + 1, type :: p, st =>
      if isSpace type then packFormat fuel p st
      else if type = 35 then packFormat fuel (p.dropWhile (· ≠ 10)) st
      else
        match packModifiers L type p (left st) with
        | .error e => .error e
        | .ok (m, p) =>
            match switch type m st with
            | .error e => .error e
            | .ok st => packFormat fuel p st

/-- The loop for Integers is a case of it. -/
theorem packLoop_eq_packFormat {L : LongSize} (chars : ByteChars)
    (others : UInt8 → Modifiers → PackState L → Except ε (PackState L)) (fuel : ℕ)
    (p : List UInt8) (st : PackState L) : packLoop chars others fuel p st
      = packFormat L (fun st : PackState L => st.items.length) (packDirective chars others) fuel p
        st := by
  induction fuel generalizing p st with
  | zero => cases p <;> rfl
  | succ n ih =>
      cases p with
      | nil => rfl
      | cons type p =>
          rw [packLoop, packFormat]
          congr 2
          · exact ih p st
          · exact ih _ st
          · cases packModifiers L type p st.items.length with
            | error e => rfl
            | ok r =>
                dsimp only
                cases packDirective chars others type r.1 st with
                | error e => rfl
                | ok st => exact ih r.2 st

/-- **A format of one directive.** -/
theorem packFormat_single {type : UInt8} {p : List UInt8} (st : σ) {m : Modifiers}
    (hspace : isSpace type = false) (hcomment : type ≠ 35)
    (hm : (packModifiers L type p (left st) : Except (PackError ε) _) = .ok (m, [])) :
    packFormat L left switch (type :: p).length (type :: p) st = switch type m st := by
  rw [List.length_cons, packFormat]
  simp only [hspace, hcomment, hm, if_false, Bool.false_eq_true]
  cases switch type m st with
  | error e => rfl
  | ok st => cases p <;> rfl

end Format

/-! ## Elements -/

/-- An element of the array: nil, an Integer or a String. -/
inductive Item (L : LongSize)
  | nil
  | integer (n : Inum L)
  | string (bytes : List UInt8)

/-- What can go wrong with an element. -/
inductive ItemError
  /-- `TypeError`: there is no conversion to the class that is needed. -/
  | type
  /-- `RangeError`: "bignum too big to convert into 'long'" -/
  | tooBig
  /-- `RangeError`: "pack(U): value out of range" -/
  | outOfRange
  /-- "can't compress negative numbers" -/
  | negative
  /-- The division of a bignum failed. -/
  | division (e : DivError)
  /-- Memory outside of an array is accessed. -/
  | memory
  deriving DecidableEq, Repr

/-- The elements that are left, and the string so far. -/
structure ItemState (L : LongSize) where
  items : List (Item L)
  res : List UInt8

section Conversions

variable {L : LongSize}

/-- `StringValue(from)`. -/
def stringValue : Item L → Except ItemError (List UInt8)
  | .string s => .ok s
  | _ => .error .type

/-- `StringValue(from)` where nil stands for the empty string. -/
def stringOrNil : Item L → Except ItemError (List UInt8)
  | .nil => .ok []
  | x => stringValue x

/-- `rb_to_int(from)`. -/
def toInteger : Item L → Except ItemError (Inum L)
  | .integer n => .ok n
  | _ => .error .type

/-- `NUM2LONG(n)`. -/
def num2long (n : Inum L) : Except ItemError ℤ :=
  if -2 ^ (L.bits - 1) ≤ n.toInt ∧ n.toInt < 2 ^ (L.bits - 1) then .ok n.toInt else .error .tooBig

end Conversions

/-! ## Bit and hex strings -/

/-- A kind of digits that are written: how many go into a byte, how one of them is put into `byte`,
how `byte` moves on to the next, and what is left of it when `r` digits were put. -/
structure DigitWriter where
  per : ℕ
  pos : 0 < per
  put : ℕ → UInt8 → ℕ
  next : ℕ → ℕ
  last : ℕ → ℕ → ℕ

/-- The number of a hex digit; every other character has one too. -/
def nibble (c : UInt8) : ℕ :=
  let x := c.toNat
  if (65 ≤ c ∧ c ≤ 90) ∨ (97 ≤ c ∧ c ≤ 122) then ((x &&& 15) + 9) &&& 15 else x &&& 15

theorem bitsPer_pos : 0 < 8 := by decide

theorem nibblesPer_pos : 0 < 2 := by decide

/-- `b`. -/
def writeBitsUp : DigitWriter where
  per := 8
  pos := bitsPer_pos
  put byte c := if c.toNat &&& 1 ≠ 0 then byte ||| 128 else byte
  next byte := byte >>> 1
  last byte r := byte >>> (7 - r)

/-- `B`. -/
def writeBitsDown : DigitWriter where
  per := 8
  pos := bitsPer_pos
  put byte c := byte ||| c.toNat &&& 1
  next byte := byte <<< 1
  last byte r := byte <<< (7 - r)

/-- `h`. -/
def writeHexUp : DigitWriter where
  per := 2
  pos := nibblesPer_pos
  put byte c := byte ||| nibble c <<< 4
  next byte := byte >>> 4
  last byte _ := byte

/-- `H`. -/
def writeHexDown : DigitWriter where
  per := 2
  pos := nibblesPer_pos
  put byte c := byte ||| nibble c
  next byte := byte <<< 4
  last byte _ := byte

/-- The loop over the digits, at the `i`-th of them: the bytes, and `byte` at the end. -/
def writeDigits (k : DigitWriter) : ℕ → ℕ → List UInt8 → List UInt8 × ℕ
  | _, byte, [] => ([], byte)
  | i, byte, c :: cs =>
      let byte := k.put byte c
      if (i + 1) % k.per ≠ 0 then writeDigits k (i + 1) (k.next byte) cs
      else
        let r := writeDigits k (i + 1) 0 cs
        (UInt8.ofNat byte :: r.1, r.2)

/-- `b`, `B`, `h` and `H`; the test of `p[-1]` is the test for a star. The padding is half of the
missing digits, for bits too. -/
def packDigits (L : LongSize) (k : DigitWriter) (star : Bool) (len : ℤ) (s : List UInt8) :
    Except ItemError (List UInt8) :=
  let plen : ℤ := s.length
  let len := if star then plen else len
  let j := if len > plen then (L.toLong (len - plen + 1)).tdiv 2 else 0
  let len := if len > plen then plen else len
  let r := writeDigits k 0 0 (s.take len.toNat)
  let rest := len % k.per
  let bytes := if rest ≠ 0 then r.1 ++ [UInt8.ofNat (k.last r.2 rest.toNat)] else r.1
  if j < 0 then .error .memory else .ok (bytes ++ List.replicate j.toNat 0)

/-! ## Encodings of Integers -/

/-- `rb_uv_to_utf8(buf, uv)`. -/
def uvToUtf8 (uv : ℕ) : Except ItemError (List UInt8) :=
  if uv ≤ 0x7f then .ok [UInt8.ofNat uv]
  else if uv ≤ 0x7ff then
    .ok [UInt8.ofNat ((uv >>> 6 &&& 0xff) ||| 0xc0), UInt8.ofNat ((uv &&& 0x3f) ||| 0x80)]
  else if uv ≤ 0xffff then
    .ok [UInt8.ofNat ((uv >>> 12 &&& 0xff) ||| 0xe0), UInt8.ofNat ((uv >>> 6 &&& 0x3f) ||| 0x80),
      UInt8.ofNat ((uv &&& 0x3f) ||| 0x80)]
  else if uv ≤ 0x1fffff then
    .ok [UInt8.ofNat ((uv >>> 18 &&& 0xff) ||| 0xf0), UInt8.ofNat ((uv >>> 12 &&& 0x3f) ||| 0x80),
      UInt8.ofNat ((uv >>> 6 &&& 0x3f) ||| 0x80), UInt8.ofNat ((uv &&& 0x3f) ||| 0x80)]
  else if uv ≤ 0x3ffffff then
    .ok [UInt8.ofNat ((uv >>> 24 &&& 0xff) ||| 0xf8), UInt8.ofNat ((uv >>> 18 &&& 0x3f) ||| 0x80),
      UInt8.ofNat ((uv >>> 12 &&& 0x3f) ||| 0x80), UInt8.ofNat ((uv >>> 6 &&& 0x3f) ||| 0x80),
      UInt8.ofNat ((uv &&& 0x3f) ||| 0x80)]
  else if uv ≤ 0x7fffffff then
    .ok [UInt8.ofNat ((uv >>> 30 &&& 0xff) ||| 0xfc), UInt8.ofNat ((uv >>> 24 &&& 0x3f) ||| 0x80),
      UInt8.ofNat ((uv >>> 18 &&& 0x3f) ||| 0x80), UInt8.ofNat ((uv >>> 12 &&& 0x3f) ||| 0x80),
      UInt8.ofNat ((uv >>> 6 &&& 0x3f) ||| 0x80), UInt8.ofNat ((uv &&& 0x3f) ||| 0x80)]
  else .error .outOfRange

section Integers

variable {L : LongSize}

/-- An element of `U`. -/
def packUtf8 (x : Item L) : Except ItemError (List UInt8) := do
  let x ← toInteger x
  let l ← num2long x
  if l < 0 then .error .outOfRange else uvToUtf8 l.toNat

/-- The loop of `w` over a bignum: the bytes, and the fixnum that is left. -/
def berBignum (fuel : ℕ) : ℕ → Inum L → List UInt8 → Except DivError (List UInt8 × Inum L)
  | 0, _, _ => .error .outOfFuel
  | _ + 1, .fixnum x, buf => .ok (buf, .fixnum x)
  | n + 1, .bignum x, buf => do
      let (div, mod) ← rbBigDivmod L fuel x (.bignum (rbUint2big L 128))
      berBignum fuel n div (buf ++ [UInt8.ofNat (mod.toInt.toNat ||| 0x80)])

/-- The loop of `w` over a word; a turn takes seven of its bits. -/
def berWord : ℕ → ℕ → List UInt8 → List UInt8
  | 0, _, buf => buf
  | n + 1, ul, buf =>
      if ul = 0 then buf else berWord n (ul >>> 7) (buf ++ [UInt8.ofNat ((ul &&& 0x7f) ||| 0x80)])

/-- The end of `w`: the continuation bit of the last byte is cleared, and the bytes are reversed. -/
def berFinish : List UInt8 → List UInt8
  | [] => [0]
  | c :: cs => ((c &&& 0x7f) :: cs).reverse

/-- An element of `w`. What is appended to the buffer, which has no byte data, are characters, and
`RSTRING_BYTEPTR` is their UTF-8. -/
def packBer (chars : ByteChars) (fuel : ℕ) (x : Item L) : Except ItemError (List UInt8) := do
  let x ← toInteger x
  let (buf, x) ← (berBignum fuel fuel x []).mapError .division
  let l ← num2long x
  if l < 0 then .error .negative
  else
    let buf : StringBuffer := ⟨berWord L.bits l.toNat buf, none⟩
    .ok (berFinish (buf.byteptr chars))

end Integers

/-! ## Encodings of Strings -/

/-- `uu_table[i]`. -/
def uuTable (i : ℕ) : UInt8 := if i = 0 then 96 else UInt8.ofNat (32 + i)

/-- `b64_table[i]`. -/
def b64Table (i : ℕ) : UInt8 :=
  UInt8.ofNat (if i < 26 then 65 + i else if i < 52 then 71 + i else if i < 62 then i - 4
    else if i = 62 then 43 else 47)

/-- The four characters for three bytes. The masks leave nothing of the sign of a `char`. -/
def encodeHunk (trans : ℕ → UInt8) (a b c : UInt8) : List UInt8 :=
  [trans (63 &&& a.toNat >>> 2),
    trans (63 &&& (a.toNat <<< 4 &&& 48 ||| b.toNat >>> 4 &&& 15)),
    trans (63 &&& (b.toNat <<< 2 &&& 60 ||| c.toNat >>> 6 &&& 3)),
    trans (63 &&& c.toNat)]

/-- The characters for the bytes of a line. -/
def encodeGroups (trans : ℕ → UInt8) (padding : UInt8) : List UInt8 → List UInt8
  | a :: b :: c :: s => encodeHunk trans a b c ++ encodeGroups trans padding s
  | [a, b] => (encodeHunk trans a b 0).take 3 ++ [padding]
  | [a] => (encodeHunk trans a 0 0).take 2 ++ [padding, padding]
  | [] => []

/-- `encodes(str, s, len, type)`: the bytes that are appended. They are collected in an array whose
size is calculated in a `long`. -/
def encodes (L : LongSize) (uu : Bool) (s : List UInt8) : Except ItemError (List UInt8) :=
  let groups := if uu then UInt8.ofNat (s.length + 32) :: encodeGroups uuTable 96 s
    else encodeGroups b64Table 61 s
  let buff := groups ++ [10]
  if (L.toLong (s.length * 4)).tdiv 3 + 6 < buff.length then .error .memory else .ok buff

/-- The loop of `u` and `m`: lines of `len` bytes. -/
def encodeLines (L : LongSize) (uu : Bool) (len : ℕ) :
    ℕ → List UInt8 → Except ItemError (List UInt8)
  | _, [] => .ok []
  | 0, _ => .ok []
  | n + 1, s => do
      let line ← encodes L uu (s.take len)
      let rest ← encodeLines L uu len n (s.drop len)
      pure (line ++ rest)

/-- The length of the lines of `u` and `m`. -/
def lineLength (len : ℤ) : ℕ := (if len ≤ 2 then 45 else len / 3 * 3).toNat

/-- `u` and `m`. -/
def packLines (L : LongSize) (uu : Bool) (len : ℤ) (s : List UInt8) :
    Except ItemError (List UInt8) :=
  encodeLines L uu (lineLength len) s.length s

/-- `hex_table[i]`. -/
def hexTable (i : ℕ) : UInt8 := UInt8.ofNat (if i < 10 then 48 + i else 55 + i)

/-- The variables of `qpencode`: what was appended to the string, the bytes in the array, the length
of the line so far, and the byte before, which is none for `EOF`. -/
structure QpState where
  str : List UInt8
  buff : List UInt8
  n : ℕ
  prev : Option UInt8

/-- A byte that `M` does not write as it is. -/
def qpEscaped (c : UInt8) : Bool := c > 126 || (c < 32 && c ≠ 10 && c ≠ 9) || c = 61

/-- The byte is written. -/
def qpByte (c : UInt8) (st : QpState) : QpState :=
  if qpEscaped c then
    { st with
      buff := st.buff ++ [61, hexTable (c.toNat >>> 4), hexTable (c.toNat &&& 0x0f)]
      n := st.n + 3
      prev := none }
  else if c = 10 then
    let soft := if st.prev = some 32 ∨ st.prev = some 9 then [61, c] else []
    { st with buff := st.buff ++ soft ++ [c], n := 0, prev := some c }
  else { st with buff := st.buff ++ [c], n := st.n + 1, prev := some c }

/-- A line that is too long is broken. -/
def qpBreak (len : ℤ) (st : QpState) : QpState :=
  if st.n > len then { st with buff := st.buff ++ [61, 10], n := 0, prev := some 10 } else st

/-- An array that is nearly full is appended to the string. -/
def qpFlush (st : QpState) : QpState :=
  if st.buff.length > 1024 - 5 then { st with str := st.str ++ st.buff, buff := [] } else st

/-- The loop of `qpencode`. -/
def qpLoopEncode (len : ℤ) (st : QpState) (s : List UInt8) : QpState :=
  s.foldl (fun st c => qpFlush (qpBreak len (qpByte c st))) st

/-- `qpencode(str, from, len)`: the bytes that are appended. -/
def qpencode (len : ℤ) (s : List UInt8) : List UInt8 :=
  let st := qpLoopEncode len ⟨[], [], 0, none⟩ s
  let buff := if st.n > 0 then st.buff ++ [61, 10] else st.buff
  st.str ++ buff

/-- The length of the lines of `M`. -/
def qpLength (len : ℤ) : ℤ := if len ≤ 1 then 72 else len

/-! ## The switch -/

section Switch

variable {L : LongSize} (chars : ByteChars) (toS : Inum L → List UInt8) (fuel : ℕ)
  (others : UInt8 → Modifiers → ItemState L → Except (PackError ItemError) (ItemState L))

/-- `rb_obj_as_string(from)`. -/
def asString : Item L → List UInt8
  | .nil => []
  | .integer n => toS n
  | .string s => s

/-- A directive that takes one element and appends the bytes for it. -/
def packOne (f : Item L → Except ItemError (List UInt8)) (st : ItemState L) :
    Except (PackError ItemError) (ItemState L) :=
  match st.items with
  | [] => .error .tooFew
  | x :: xs =>
      match f x with
      | .error e => .error (.other e)
      | .ok bytes => .ok ⟨xs, st.res ++ bytes⟩

/-- A directive that does so for each of its elements: `while (len-- > 0)`. -/
def packEach (f : Item L → Except ItemError (List UInt8)) :
    ℕ → ItemState L → Except (PackError ItemError) (ItemState L)
  | 0, st => .ok st
  | n + 1, st =>
      match packOne f st with
      | .error e => .error e
      | .ok st => packEach f n st

/-- The `switch` of `pack_pack`. -/
def packItem (type : UInt8) (m : Modifiers) (st : ItemState L) :
    Except (PackError ItemError) (ItemState L) :=
  let digits (k : DigitWriter) : Item L → Except ItemError (List UInt8) :=
    fun x => stringOrNil x >>= packDigits L k m.star m.len
  match Char.ofNat type.toNat with
  | 'b' => packOne (digits writeBitsUp) st
  | 'B' => packOne (digits writeBitsDown) st
  | 'h' => packOne (digits writeHexUp) st
  | 'H' => packOne (digits writeHexDown) st
  | 'U' => packEach packUtf8 m.len.toNat st
  | 'u' => packOne (fun x => stringValue x >>= packLines L true m.len) st
  | 'm' => packOne (fun x => stringValue x >>= packLines L false m.len) st
  | 'M' => packOne (fun x => .ok (qpencode (qpLength m.len) (asString toS x))) st
  | 'w' => packEach (packBer chars fuel) m.len.toNat st
  | _ => others type m st

/-- `pack_pack(ary, fmt)`. -/
def packItems (ary : List (Item L)) (fmt : List UInt8) :
    Except (PackError ItemError) (List UInt8) :=
  (packFormat L (fun st : ItemState L => st.items.length) (packItem chars toS fuel others)
    fmt.length fmt ⟨ary, []⟩).map ItemState.res

end Switch

end MacRuby.Pack
