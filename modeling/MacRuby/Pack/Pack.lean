import MacRuby.Pack.Unpack
import MacRuby.String.Buffer

/-!
# `Array#pack` of Integers

The loop of `pack_pack` over the format, with the directives for Integers. What the other
directives do is a parameter: nothing here depends on it. The string that is returned has empty byte
data at first, and `rb_str_buf_cat` appends to it.

## Main definitions

* `num2i32`, `rbQuadPack` — the words that Integers are reduced to.
* `NumberType.encode` — the bytes that are appended for an Integer.
* `packModifiers`, `packLoop`, `packPack` — the loop.
-/

namespace MacRuby.Pack

variable {L : LongSize}

/-! ## Words -/

/-- The `w` lowest bytes of a word, in the order they have in memory. -/
def leBytes (w : ℕ) (n : ℤ) : List UInt8 :=
  (List.range w).map fun i => UInt8.ofNat (n / 256 ^ i % 256).toNat

/-- The loop of `big2ulong` and of `rb_quad_pack`, over the `n` lowest digits. -/
def foldDigits (ds : List BDigit) (n : ℕ) : ℤ :=
  Loop.downFrom (fun i num => toDbl (bigup num + digitAt ds i)) n 0

/-- `rb_big2ulong_pack(x)`. -/
def rbBig2ulongPack (L : LongSize) (x : Bignum) : ℤ :=
  let num := foldDigits x.digits (min x.len L.digsPerLong)
  (if x.sign then num else -num) % 2 ^ L.bits

/-- `num2i32(x)`, for an Integer. -/
def num2i32 : Inum L → ℤ
  | .fixnum x => x.val % 2 ^ L.bits
  | .bignum x => rbBig2ulongPack L x

/-- `rb_quad_pack(buf, val)`, for an Integer: the 64-bit word that is copied to `buf`. -/
def rbQuadPack : Inum L → ℤ
  | .fixnum x => toDbl x.val
  | .bignum x =>
      let q := foldDigits x.digits (min x.len 2)
      toDbl (if x.sign then q else -q)

/-! ## Directives -/

/-- `NATINT_HTONL(x)`, which is `swap32` also where `htonl` swaps a whole `long`. -/
def natintHtonl (x : ℤ) : ℤ := swap32 x.toNat

/-- The bytes that are appended for an Integer; none for the directives of Floats. -/
def NumberType.encode (natint : Bool) (x : Inum L) : NumberType → List UInt8
  | .c | .C => leBytes 1 (num2i32 x)
  | .s | .S => leBytes 2 (num2i32 x)
  | .i | .I => leBytes 4 (num2i32 x)
  | .l | .L => leBytes (if natint then L.bytes else 4) (num2i32 x)
  | .q | .Q => leBytes 8 (rbQuadPack x)
  | .n => leBytes 2 (swap16 (num2i32 x % 2 ^ 16).toNat)
  | .N => leBytes 4 (natintHtonl (num2i32 x))
  | .v => leBytes 2 (num2i32 x)
  | .V => leBytes 4 (num2i32 x)
  | .f | .F | .e | .E | .D | .d | .g | .G => []

/-- The directives for Integers. -/
def NumberType.isInteger : NumberType → Bool
  | .f | .F | .e | .E | .D | .d | .g | .G => false
  | _ => true

/-- The errors of `pack_pack`; `other` is one of the directives that are a parameter. -/
inductive PackError (ε : Type)
  /-- "too few arguments" -/
  | tooFew
  /-- "'%c' allowed only after types sSiIlL" -/
  | notNative (c : UInt8)
  /-- "pack length too big" -/
  | lengthTooBig
  | other (e : ε)

/-- The elements that are left, and the string so far. -/
structure PackState (L : LongSize) where
  items : List (Inum L)
  res : StringBuffer

section Loop

variable {ε : Type} (chars : ByteChars)
  (others : UInt8 → Modifiers → PackState L → Except ε (PackState L))

/-- A directive for Integers: `while (len-- > 0)`. -/
def packInteger (natint : Bool) (t : NumberType) :
    ℕ → PackState L → Except (PackError ε) (PackState L)
  | 0, st => .ok st
  | n + 1, st =>
      match st.items with
      | [] => .error .tooFew
      | x :: xs => packInteger natint t n ⟨xs, rbStrBufCat chars st.res (t.encode natint x)⟩

/-- `strchr("@Xxu", type)`; the NUL at the end is found too. -/
def countsNothing (type : UInt8) : Bool :=
  type = 0 || (Char.ofNat type.toNat) ∈ ['@', 'X', 'x', 'u']

/-- The count of a directive, and the rest of the format. -/
def packCount (L : LongSize) (type : UInt8) (natint : Bool) (p : List UInt8) (items : ℤ) :
    Except (PackError ε) (Modifiers × List UInt8) :=
  let c := p.headD 0
  if c = 42 then .ok (⟨natint, true, if countsNothing type then 0 else items⟩, p.drop 1)
  else if isDigit c then
    let r := rubyStrtoul L p 10
    if r.errno.isSome then .error .lengthTooBig
    else .ok (⟨natint, false, L.toLong r.value⟩, p.drop (r.endptr.getD 0))
  else .ok (⟨natint, false, 1⟩, p)

/-- The modifiers after a type, and the rest of the format. -/
def packModifiers (L : LongSize) (type : UInt8) (p : List UInt8) (items : ℤ) :
    Except (PackError ε) (Modifiers × List UInt8) :=
  let c := p.headD 0
  if c = 95 ∨ c = 33 then
    if isNative type then packCount L type true (p.drop 1) items else .error (.notNative c)
  else packCount L type false p items

/-- The `switch` of `pack_pack`. -/
def packDirective (type : UInt8) (m : Modifiers) (st : PackState L) :
    Except (PackError ε) (PackState L) :=
  match directive type with
  | .number t =>
      if t.isInteger then packInteger chars m.natint t m.len.toNat st
      else (others type m st).mapError .other
  | _ => (others type m st).mapError .other

/-- The loop of `pack_pack`. -/
def packLoop : ℕ → List UInt8 → PackState L → Except (PackError ε) (PackState L)
  | _, [], st => .ok st
  | 0, _, st => .ok st
  | fuel + 1, type :: p, st =>
      if isSpace type then packLoop fuel p st
      else if type = 35 then packLoop fuel (p.dropWhile (· ≠ 10)) st
      else
        match packModifiers L type p st.items.length with
        | .error e => .error e
        | .ok (m, p) =>
            match packDirective chars others type m st with
            | .error e => .error e
            | .ok st => packLoop fuel p st

/-- `pack_pack(ary, fmt)`. -/
def packPack (ary : List (Inum L)) (fmt : List UInt8) : Except (PackError ε) StringBuffer :=
  (packLoop chars others fmt.length fmt ⟨ary, ⟨[], some []⟩⟩).map PackState.res

end Loop

end MacRuby.Pack
