import MacRuby.Marshal.Bignum
import MacRuby.String.Buffer
import Mathlib.Data.List.TakeWhile

/-!
# Dumping objects

`Marshal.dump` goes through an object and all that it refers to. A value is immediate, or a class or
module, or an object by its address; objects may share others and contain themselves. Each object is
numbered when it is first met, and a link with its number is written when it is met again; symbols
have numbers of their own.

The conditional parts of the source are those of `WITH_OBJC`, with which objects other than plain
ones have no instance variables to be written and `w_extended` finds no modules. Classes are known
by their paths, to which `Classes` gives the answers of the class table. The objects here have no
hooks `_dump`, `_dump_data` or `marshal_dump`, and the text of a float is a parameter.

What is written is appended to a string by `rb_str_buf_cat`, a byte at a time or a whole text. It is
what `RSTRING_PTR` of this string points to, as long as no text has a NUL beside a byte that is not
ASCII (`rbStrBufCat_store`): from there on the string is not followed.

## Main definitions

* `Value`, `Cell`, `Heap` — values and objects.
* `Tag` — the types that begin what is written of an object.
* `wSymbol`, `wClass`, `wUclass`, `wObject`, `marshalDump` — the functions.
-/

namespace MacRuby.Marshal

/-! ## Values -/

/-- A name without NUL, of a symbol or of a class. -/
@[ext] structure Ident where
  name : List UInt8
  noNul : 0 ∉ name
  deriving DecidableEq

theorem zero_notMem_takeWhile (s : List UInt8) : 0 ∉ s.takeWhile (· != 0) := by
  intro h
  simpa using List.mem_takeWhile_imp h

/-- `rb_intern`, of a string that ends at its first NUL. -/
def intern (s : List UInt8) : Ident := ⟨s.takeWhile (· != 0), zero_notMem_takeWhile s⟩

theorem intern_name (id : Ident) : intern id.name = id := by
  apply Ident.ext
  refine List.takeWhile_eq_self_iff.mpr ?_
  intro b hb
  simpa using fun h0 : b = 0 => id.noNul (h0 ▸ hb)

/-- The name in a message. -/
def Ident.text (id : Ident) : String := String.ofList (id.name.map fun b => Char.ofNat b.toNat)

variable {κ F : Type} {L : LongSize}

/-- A value; classes and modules are named, and any other object is given by its address. -/
inductive Value (κ : Type) (L : LongSize)
  | nil
  | true
  | false
  | fixnum (n : Fixnum L)
  | symbol (id : Ident)
  | module (c : κ)
  | object (ref : ℕ)

/-- What an object holds, by its `TYPE`. -/
inductive Body (κ F : Type) (L : LongSize)
  | string (s : List UInt8)
  | regexp (s : List UInt8) (options : UInt8)
  | float (d : F)
  | bignum (x : Bignum)
  | array (elems : List (Value κ L))
  | hash (pairs : List (Value κ L × Value κ L))
  | struct (values : List (Value κ L))
  | object

/-- An object. -/
structure Cell (κ F : Type) (L : LongSize) where
  klass : κ
  body : Body κ F L
  ivars : List (Ident × Value κ L) := []
  /-- The modules it is extended with. -/
  extended : List κ := []

/-- The objects in memory. -/
abbrev Heap (κ F : Type) (L : LongSize) := ℕ → Option (Cell κ F L)

/-- `TYPE(obj)`, as far as it matters. -/
inductive Ty
  | string | regexp | float | bignum | array | hash | struct | object | data | cls | module | symbol
  | other
  deriving DecidableEq

/-- The type of an object. -/
def Body.ty : Body κ F L → Ty
  | .string _ => .string
  | .regexp _ _ => .regexp
  | .float _ => .float
  | .bignum _ => .bignum
  | .array _ => .array
  | .hash _ => .hash
  | .struct _ => .struct
  | .object => .object

/-- Why a function does not return, if it does not run out of fuel. -/
inductive Stop
  | raised (e : MarshalError)
  | outOfFuel
  deriving DecidableEq

/-- `rb_raise`. -/
def raise {α : Type} (e : MarshalError) : Except Stop α := .error (.raised e)

/-- A computation that takes no fuel. -/
def raising {α : Type} : Except MarshalError α → Except Stop α
  | .ok x => .ok x
  | .error e => raise e

/-- What the code asks of classes, strings, floats and regular expressions. -/
structure Classes (κ F : Type) where
  /-- The conversions of strings. -/
  enc : CFEncoding
  /-- `rb_class_path` -/
  path : κ → Ident
  /-- `rb_path2class` -/
  path2class : Ident → Except MarshalError κ
  /-- `TYPE(klass) == T_MODULE` -/
  isModule : κ → Bool
  /-- `TYPE(rb_obj_alloc(klass))` -/
  alloc : κ → Except MarshalError Ty
  /-- `rb_class_inherited_p` -/
  inherits : κ → κ → Bool
  /-- The class of an object of the type whose class is not written. -/
  builtin : Ty → κ
  /-- `rb_struct_s_members` -/
  members : κ → List Ident
  /-- The text that `w_float` writes. -/
  floatText : F → List UInt8
  /-- The float that is read from a text. -/
  textFloat : List UInt8 → F
  /-- `rb_reg_new_str`, which may raise. -/
  regNew : List UInt8 → UInt8 → Except MarshalError Unit

/-- The types that stand before objects in a dump. -/
inductive Tag
  | nil | true | false | fixnum | extendedR | uclass | object | data | userdef | usrmarshal | float
  | bignum | string | regexp | array | hash | hashDef | struct | moduleOld | cls | module | symbol
  | symlink | ivar | link
  deriving DecidableEq

/-- The character of a type. -/
def Tag.byte : Tag → UInt8
  | .nil => 0x30
  | .true => 0x54
  | .false => 0x46
  | .fixnum => 0x69
  | .extendedR => 0x65
  | .uclass => 0x43
  | .object => 0x6f
  | .data => 0x64
  | .userdef => 0x75
  | .usrmarshal => 0x55
  | .float => 0x66
  | .bignum => 0x6c
  | .string => 0x22
  | .regexp => 0x2f
  | .array => 0x5b
  | .hash => 0x7b
  | .hashDef => 0x7d
  | .struct => 0x53
  | .moduleOld => 0x4d
  | .cls => 0x63
  | .module => 0x6d
  | .symbol => 0x3a
  | .symlink => 0x3b
  | .ivar => 0x49
  | .link => 0x40

/-- The types. -/
def Tag.all : List Tag :=
  [.nil, .true, .false, .fixnum, .extendedR, .uclass, .object, .data, .userdef, .usrmarshal, .float,
    .bignum, .string, .regexp, .array, .hash, .hashDef, .struct, .moduleOld, .cls, .module, .symbol,
    .symlink, .ivar, .link]

/-! ## The writer -/

section Code

variable [DecidableEq κ]

/-- `struct dump_arg`: the number of a symbol is its place, and so is that of a class, module or
object; a bignum that is only made to be written has a number that nothing refers to. -/
structure DumpArg (κ : Type) (L : LongSize) where
  symbols : List Ident := []
  data : List (Option (Value κ L)) := []

deriving instance DecidableEq for Fixnum, Value

variable (L) in
/-- `w_long`, of a number of words in memory. -/
def wCount (n : ℕ) : Except MarshalError (List UInt8) :=
  if (n : ℤ) ≤ L.fixnumMax then wLong L (BitVec.ofInt L.bits n) else .error .undefined

variable (L) in
/-- `w_bytes(s, n)`, where the length is an `int`, and `w_nbyte(s, n)` appends the text. -/
def wBytes (s : List UInt8) : Except MarshalError (List UInt8) := do
  let n := toCInt s.length
  let len ← wLong L (BitVec.ofInt L.bits n)
  if n < 0 then .error .undefined
  else if MixedBytes (s.take n.toNat) then .error .notFollowed
  else .ok (len ++ s.take n.toNat)

/-- `w_symbol(id)`. -/
def wSymbol (id : Ident) (arg : DumpArg κ L) : Except Stop (List UInt8 × DumpArg κ L) :=
  if id ∈ arg.symbols then do
    let num ← raising (wCount L (arg.symbols.idxOf id))
    .ok (Tag.symlink.byte :: num, arg)
  else do
    let sym ← raising (wBytes L id.name)
    .ok (Tag.symbol.byte :: sym, { arg with symbols := arg.symbols ++ [id] })

variable (E : Classes κ F)

/-- `class2path(klass)`. -/
def class2path (c : κ) : Except Stop Ident := do
  let path := E.path c
  let kind := if E.isModule c then "module" else "class"
  if path.name.head? = some 0x23 then
    raise (.type s!"can't dump anonymous {kind} {path.text}")
  else
    let c' ← raising (E.path2class path)
    if c' ≠ c then raise (.type s!"{path.text} can't be referred") else .ok path

/-- `w_class(type, obj)`, of the class of the object. -/
def wClass (type : Tag) (c : κ) (arg : DumpArg κ L) : Except Stop (List UInt8 × DumpArg κ L) := do
  let path ← class2path E c
  let (out, arg) ← wSymbol path arg
  .ok (type.byte :: out, arg)

/-- `w_uclass(obj, is_pure)`. -/
def wUclass (c : κ) (isPure : Bool) (arg : DumpArg κ L) :
    Except Stop (List UInt8 × DumpArg κ L) :=
  if isPure then .ok ([], arg) else wClass E .uclass c arg

/-- A loop that writes the items of a list. -/
def wEach {α : Type} (w : α → DumpArg κ L → Except Stop (List UInt8 × DumpArg κ L)) :
    List α → DumpArg κ L → Except Stop (List UInt8 × DumpArg κ L)
  | [], arg => .ok ([], arg)
  | x :: xs, arg => do
      let (out, arg) ← w x arg
      let (outs, arg) ← wEach w xs arg
      .ok (out ++ outs, arg)

/-- `st_add_direct(arg->data, obj, arg->data->num_entries)`. -/
def DumpArg.enter (obj : Option (Value κ L)) (arg : DumpArg κ L) : DumpArg κ L :=
  { arg with data := arg.data ++ [obj] }

/-- Whether a fixnum is written as one; its word is shifted with the flag in it. -/
def fixnumFits (n : Fixnum L) : Bool :=
  L.bytes ≤ 4 || (2 * n.val + 1) / 2 ^ 31 == 0 || (2 * n.val + 1) / 2 ^ 31 == -1

/-- `w_object` on a bignum that has just been made of a fixnum. -/
def wNewBignum (n : Fixnum L) (limit : ℤ) (arg : DumpArg κ L) :
    Except Stop (List UInt8 × DumpArg κ L) :=
  if limit = 0 then raise (.argument "exceed depth limit")
  else do
    let out ← raising (wBignum L (rbInt2big L n.val))
    .ok (Tag.bignum.byte :: out, arg.enter none)

theorem idEncoding_noNul : (0 : UInt8) ∉ [0x65, 0x6e, 0x63, 0x6f, 0x64, 0x69, 0x6e, 0x67] := by
  decide

/-- `rb_id_encoding()`. -/
def idEncoding : Ident := ⟨[0x65, 0x6e, 0x63, 0x6f, 0x64, 0x69, 0x6e, 0x67], idEncoding_noNul⟩

/-- `w_obj_each(id, value)`, with the function that writes the value. -/
def wObjEach (object : Value κ L → DumpArg κ L → Except Stop (List UInt8 × DumpArg κ L))
    (iv : Ident × Value κ L) (arg : DumpArg κ L) : Except Stop (List UInt8 × DumpArg κ L) :=
  if iv.1 = idEncoding then .ok ([], arg)
  else do
    let (name, arg) ← wSymbol iv.1 arg
    let (value, arg) ← object iv.2 arg
    .ok (name ++ value, arg)

/-- A member of a struct and its value. -/
def wMember (object : Value κ L → DumpArg κ L → Except Stop (List UInt8 × DumpArg κ L))
    (member : Ident × Value κ L) (arg : DumpArg κ L) :
    Except Stop (List UInt8 × DumpArg κ L) := do
  let (name, arg) ← wSymbol member.1 arg
  let (value, arg) ← object member.2 arg
  .ok (name ++ value, arg)

/-- `hash_each(key, value)`. -/
def hashEach (object : Value κ L → DumpArg κ L → Except Stop (List UInt8 × DumpArg κ L))
    (pair : Value κ L × Value κ L) (arg : DumpArg κ L) :
    Except Stop (List UInt8 × DumpArg κ L) := do
  let (key, arg) ← object pair.1 arg
  let (value, arg) ← object pair.2 arg
  .ok (key ++ value, arg)

/-- `w_object`, of an object that has been entered, with the function for what it refers to. -/
def wCell (object : Value κ L → DumpArg κ L → Except Stop (List UInt8 × DumpArg κ L))
    (cell : Cell κ F L) (arg : DumpArg κ L) : Except Stop (List UInt8 × DumpArg κ L) :=
  let isPure := cell.klass = E.builtin cell.body.ty
  match cell.body with
  | .float d => do
      let out ← raising (wBytes L (E.floatText d))
      .ok (Tag.float.byte :: out, arg)
  | .bignum x => do
      let out ← raising (wBignum L x)
      .ok (Tag.bignum.byte :: out, arg)
  | .string s => do
      let (cls, arg) ← wUclass E cell.klass isPure arg
      let out ← raising (wBytes L s)
      .ok (cls ++ Tag.string.byte :: out, arg)
  | .regexp s options => do
      -- `rb_cRegexp` is passed as `is_pure`, which is never zero
      let (cls, arg) ← wUclass E cell.klass true arg
      let out ← raising (wBytes L s)
      .ok (cls ++ Tag.regexp.byte :: (out ++ [options]), arg)
  | .array elems => do
      let (cls, arg) ← wUclass E cell.klass isPure arg
      let len ← raising (wCount L elems.length)
      let (out, arg) ← wEach object elems arg
      .ok (cls ++ Tag.array.byte :: (len ++ out), arg)
  | .hash pairs => do
      let (cls, arg) ← wUclass E cell.klass isPure arg
      let len ← raising (wCount L pairs.length)
      let (out, arg) ← wEach (hashEach object) pairs arg
      .ok (cls ++ Tag.hash.byte :: (len ++ out), arg)
  | .struct values => do
      let (cls, arg) ← wClass E .struct cell.klass arg
      let len ← raising (wCount L values.length)
      let mem := E.members cell.klass
      if mem.length ≠ values.length then
        raise (.type s!"struct size differs ({mem.length} required {values.length} given)")
      else
        let (out, arg) ← wEach (wMember object) (mem.zip values) arg
        .ok (cls ++ (len ++ out), arg)
  | .object => do
      let (cls, arg) ← wClass E .object cell.klass arg
      let len ← raising (wCount L cell.ivars.length)
      let (out, arg) ← wEach (wObjEach object) cell.ivars arg
      .ok (cls ++ (len ++ out), arg)

/-- `w_object(obj, limit)`: the bytes that it writes, on fuel. -/
def wObject (h : Heap κ F L) :
    ℕ → (limit : ℤ) → Value κ L → DumpArg κ L → Except Stop (List UInt8 × DumpArg κ L)
  | 0, _, _, _ => .error .outOfFuel
  | fuel + 1, limit, obj, arg =>
      if limit = 0 then raise (.argument "exceed depth limit")
      else
        let limit := limit - 1
        if some obj ∈ arg.data then do
          let num ← raising (wCount L (arg.data.idxOf (some obj)))
          .ok (Tag.link.byte :: num, arg)
        else
          match obj with
          | .nil => .ok ([Tag.nil.byte], arg)
          | .true => .ok ([Tag.true.byte], arg)
          | .false => .ok ([Tag.false.byte], arg)
          | .fixnum n =>
              if fixnumFits n then do
                let out ← raising (wLong L (BitVec.ofInt L.bits n.val))
                .ok (Tag.fixnum.byte :: out, arg)
              else wNewBignum n limit arg
          | .symbol id => wSymbol id arg
          | .module c => do
              let arg := arg.enter (some (.module c))
              let path ← class2path E c
              let out ← raising (wBytes L path.name)
              .ok ((if E.isModule c then Tag.module.byte else Tag.cls.byte) :: out, arg)
          | .object r =>
              match h r with
              | none => raise .undefined
              | some cell =>
                  wCell E (wObject h fuel limit) cell (arg.enter (some (.object r)))

/-- `MARSHAL_MAJOR`. -/
def marshalMajor : UInt8 := 4

/-- `MARSHAL_MINOR`. -/
def marshalMinor : UInt8 := 8

/-- `Marshal.dump(obj, limit)`, to a string. -/
def marshalDump (h : Heap κ F L) (fuel : ℕ) (limit : ℤ) (obj : Value κ L) :
    Except Stop (List UInt8) := do
  let (out, _) ← wObject E h fuel limit obj {}
  .ok (marshalMajor :: marshalMinor :: out)

end Code

end MacRuby.Marshal
