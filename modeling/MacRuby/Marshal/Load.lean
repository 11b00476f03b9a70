import MacRuby.Lib.Assoc
import MacRuby.Marshal.Object

/-!
# Loading objects

`Marshal.load` makes the objects anew from the bytes of a string. An object is entered into a table
as soon as it is made, before what it refers to is read, so that a link inside of it finds it; the
objects are known here by their numbers in this table. A length is read as a `long`, which may be
anything: a negative number of elements of an array is refused, and the pairs of a hash are counted
down from one until the data is too short.

The classes have no hooks `_load`, `_load_data` or `marshal_load`, so that a dump that needs one
raises, and there is no `proc`. A string is the bytes that `RSTRING_PTR` points to, with the blanks
that `rb_str_new` has padded it with.

## Main definitions

* `Entry`, `LoadArg` — the table of the objects, and what is left to read.
* `rSymbol`, `rIvar`, `rArray`, `rHash`, `rStruct`, `rPlain`, `rType`, `setUserClass` — one type
  each.
* `rObject0`, `rObject`, `marshalLoad` — the functions.
-/

namespace MacRuby.Marshal

variable {κ F : Type} {L : LongSize}

/-- The type with a character. -/
def Tag.ofByte (b : UInt8) : Option Tag := Tag.all.find? fun t => t.byte == b

theorem Tag.ofByte_byte (t : Tag) : Tag.ofByte t.byte = some t := by
  cases t <;> rfl

/-- What a number stands for: an object that has been made, or another value. -/
inductive Entry (κ F : Type) (L : LongSize)
  | value (v : Value κ L)
  | object (cell : Cell κ F L)

/-- `struct load_arg`, with the bytes that are left in place of the string and the offset. -/
structure LoadArg (κ F : Type) (L : LongSize) where
  src : List UInt8
  symbols : List Ident := []
  data : List (Entry κ F L) := []

/-- The object with a number. -/
def Entry.cell? : Entry κ F L → Option (Cell κ F L)
  | .value _ => none
  | .object cell => some cell

/-- The objects that have been made. -/
def heapOf (data : List (Entry κ F L)) : Heap κ F L := fun k => data[k]?.bind Entry.cell?

/-- `rb_hash_aref(arg->data, num)`. -/
def entryAt (data : List (Entry κ F L)) (k : ℕ) : Option (Value κ L) :=
  data[k]?.map fun
    | .value v => v
    | .object _ => .object k

/-- What is done to an object. -/
def Entry.modify (f : Cell κ F L → Cell κ F L) : Entry κ F L → Entry κ F L
  | .value v => .value v
  | .object cell => .object (f cell)

/-- What is done to the object that a value is, if it is one. -/
def LoadArg.modify (v : Value κ L) (f : Cell κ F L → Cell κ F L) (arg : LoadArg κ F L) :
    LoadArg κ F L :=
  match v with
  | .object k => { arg with data := arg.data.modify k (Entry.modify f) }
  | _ => arg

/-- `r_entry(v)`, on an object that has just been made. -/
def rEntry (cell : Cell κ F L) (arg : LoadArg κ F L) : Value κ L × LoadArg κ F L :=
  (.object arg.data.length, { arg with data := arg.data ++ [.object cell] })

/-- `r_entry(v)`, on another value. -/
def rEntryValue (v : Value κ L) (arg : LoadArg κ F L) : Value κ L × LoadArg κ F L :=
  (v, { arg with data := arg.data ++ [.value v] })

section Reading

/-- A function that reads from the string. -/
def LoadArg.read {α : Type} (f : List UInt8 → Except MarshalError (α × List UInt8))
    (arg : LoadArg κ F L) : Except Stop (α × LoadArg κ F L) := do
  let (x, src) ← raising (f arg.src)
  .ok (x, { arg with src })

variable (enc : CFEncoding)

/-- `r_bytes(arg)`: what `RSTRING_PTR` of the string points to. -/
def rBytes (arg : LoadArg κ F L) : Except Stop (List UInt8 × LoadArg κ F L) := do
  let (len, arg) ← arg.read (rLong L)
  let (str, arg) ← arg.read (rBytes0 enc len.toInt)
  .ok (str.cstr enc, arg)

/-- `r_symlink(arg)`. -/
def rSymlink (arg : LoadArg κ F L) : Except Stop (Ident × LoadArg κ F L) := do
  let (num, arg) ← arg.read (rLong L)
  if num.toInt < 0 then raise (.argument "bad symbol")
  else
    match arg.symbols[num.toInt.toNat]? with
    | some id => .ok (id, arg)
    | none => raise (.argument "bad symbol")

/-- `r_symreal(arg)`. -/
def rSymreal (arg : LoadArg κ F L) : Except Stop (Ident × LoadArg κ F L) := do
  let (s, arg) ← rBytes enc arg
  let id := intern s
  .ok (id, { arg with symbols := arg.symbols ++ [id] })

/-- `dump format error(0x%x)`. -/
def formatError (type : UInt8) : MarshalError :=
  let hex := String.ofList (Nat.toDigits 16 type.toNat)
  .argument s!"dump format error(0x{hex})"

/-- `r_symbol(arg)`. -/
def rSymbol (arg : LoadArg κ F L) : Except Stop (Ident × LoadArg κ F L) := do
  let (type, arg) ← arg.read rByte
  if type = Tag.symbol.byte then rSymreal enc arg
  else if type = Tag.symlink.byte then rSymlink arg
  else raise (formatError type)

end Reading

section Code

variable (E : Classes κ F)

/-- `path2class(path)`. -/
def path2class (path : Ident) : Except Stop κ := do
  let c ← raising (E.path2class path)
  if E.isModule c then raise (.argument s!"{path.text} does not refer class") else .ok c

/-- `path2module(path)`. -/
def path2module (path : Ident) : Except Stop κ := do
  let c ← raising (E.path2class path)
  if E.isModule c then .ok c else raise (.argument s!"{path.text} does not refer module")

/-- `path2class(r_unique(arg))`. -/
def rClass (arg : LoadArg κ F L) : Except Stop (κ × LoadArg κ F L) := do
  let (path, arg) ← rSymbol E.enc arg
  let c ← path2class E path
  .ok (c, arg)

/-- A loop of so many turns. -/
def times {σ : Type} (body : σ → Except Stop σ) : ℕ → σ → Except Stop σ
  | 0, s => .ok s
  | n + 1, s => do
      let s ← body s
      times body n s

/-- `while (len--)`, on fuel where `len` is negative. -/
def whileLen {σ : Type} (body : σ → Except Stop σ) (fuel : ℕ) (len : ℤ) (s : σ) : Except Stop σ :=
  if 0 ≤ len then times body len.toNat s
  else do
    let _ ← times body fuel s
    .error .outOfFuel

/-- The name in a message. -/
def className (c : κ) : String := (E.path c).text

variable [DecidableEq κ]

/-- What keys of hashes are compared by. Keys other than strings and bignums are taken to be equal
only if they are the same. -/
inductive Key (κ : Type) (L : LongSize)
  | value (v : Value κ L)
  | string (s : List UInt8)
  | bignum (x : Bignum)
  deriving DecidableEq

/-- The key that an object is by what it holds. -/
def Body.key? : Body κ F L → Option (Key κ L)
  | .string s => some (.string s)
  | .bignum x => some (.bignum x)
  | _ => none

/-- The key that a value is. -/
def keyOf (h : Heap κ F L) : Value κ L → Key κ L
  | .object r => ((h r).bind fun cell => cell.body.key?).getD (.value (.object r))
  | v => .value v

/-- `rb_hash_aset(hash, key, value)`. -/
def hashAset (h : Heap κ F L) (key value : Value κ L) : Body κ F L → Body κ F L
  | .hash pairs => .hash (Assoc.store (fun k k' => keyOf h k = keyOf h k') pairs key value)
  | body => body

/-- `rb_ivar_set(obj, id, val)`. -/
def ivarSet (id : Ident) (val : Value κ L) (cell : Cell κ F L) : Cell κ F L :=
  { cell with ivars := Assoc.store (fun k k' => k = k') cell.ivars id val }

/-- `rb_ary_push(ary, item)`. -/
def aryPush (item : Value κ L) : Body κ F L → Body κ F L
  | .array elems => .array (elems ++ [item])
  | body => body

/-- What is done to the body of an object. -/
def onBody (f : Body κ F L → Body κ F L) (cell : Cell κ F L) : Cell κ F L :=
  { cell with body := f cell.body }

/-- `r_object`. -/
abbrev Reader (κ F : Type) (L : LongSize) :=
  LoadArg κ F L → Except Stop (Value κ L × LoadArg κ F L)

variable (object : Reader κ F L)

/-- A variable of `obj` and its value are read. -/
def rIvarEach (obj : Value κ L) (arg : LoadArg κ F L) : Except Stop (LoadArg κ F L) := do
  let (id, arg) ← rSymbol E.enc arg
  let (val, arg) ← object arg
  .ok (arg.modify obj (ivarSet id val))

/-- `r_ivar(obj, arg)`. -/
def rIvar (obj : Value κ L) (arg : LoadArg κ F L) : Except Stop (LoadArg κ F L) := do
  let (len, arg) ← arg.read (rLong L)
  if len.toInt > 0 then times (rIvarEach E object obj) len.toInt.toNat arg else .ok arg

/-- `TYPE_LINK`. -/
def rLink : Reader κ F L := fun arg => do
  let (id, arg) ← arg.read (rLong L)
  let id := (long2fix L id.toInt).val
  match if id < 0 then none else entryAt arg.data id.toNat with
  | some v => .ok (v, arg)
  | none => raise (.argument "dump format error (unlinked)")

/-- `TYPE_FIXNUM`. -/
def rFixnum : Reader κ F L := fun arg => do
  let (i, arg) ← arg.read (rLong L)
  .ok (.fixnum (long2fix L i.toInt), arg)

/-- `TYPE_FLOAT`. -/
def rFloat : Reader κ F L := fun arg => do
  let (str, arg) ← rBytes E.enc arg
  .ok (rEntry ⟨E.builtin .float, .float (E.textFloat str), [], []⟩ arg)

/-- `TYPE_STRING`. -/
def rString : Reader κ F L := fun arg => do
  let (str, arg) ← rBytes E.enc arg
  .ok (rEntry ⟨E.builtin .string, .string str, [], []⟩ arg)

/-- `TYPE_REGEXP`. -/
def rRegexp : Reader κ F L := fun arg => do
  let (str, arg) ← rBytes E.enc arg
  let (options, arg) ← arg.read rByte
  raising (E.regNew str options)
  .ok (rEntry ⟨E.builtin .regexp, .regexp str options, [], []⟩ arg)

/-- An element of an array is read. -/
def rPush (v : Value κ L) (arg : LoadArg κ F L) : Except Stop (LoadArg κ F L) := do
  let (item, arg) ← object arg
  .ok (arg.modify v (onBody (aryPush item)))

/-- `TYPE_ARRAY`. -/
def rArray : Reader κ F L := fun arg => do
  let (len, arg) ← arg.read (rLong L)
  if len.toInt < 0 then raise (.argument "negative array size (or size too big)")
  else if len.toInt > L.longMax / L.bytes then raise (.argument "array size too big")
  else
    let (v, arg) := rEntry ⟨E.builtin .array, .array [], [], []⟩ arg
    let arg ← times (rPush object v) len.toInt.toNat arg
    .ok (v, arg)

/-- A pair of a hash is read. -/
def rPair (v : Value κ L) (arg : LoadArg κ F L) : Except Stop (LoadArg κ F L) := do
  let (key, arg) ← object arg
  let (value, arg) ← object arg
  .ok (arg.modify v (onBody (hashAset (heapOf arg.data) key value)))

/-- `TYPE_HASH` and `TYPE_HASH_DEF`, whose default is not read. -/
def rHash (fuel : ℕ) : Reader κ F L := fun arg => do
  let (len, arg) ← arg.read (rLong L)
  let (v, arg) := rEntry ⟨E.builtin .hash, .hash [], [], []⟩ arg
  let arg ← whileLen (rPair object v) fuel len.toInt arg
  .ok (v, arg)

/-- The loop over the members of a struct. -/
def rMembers (klass : κ) :
    List Ident → LoadArg κ F L → Except Stop (List (Value κ L) × LoadArg κ F L)
  | [], arg => .ok ([], arg)
  | mem :: mems, arg => do
      let (slot, arg) ← rSymbol E.enc arg
      if mem ≠ slot then
        let name := className E klass
        raise (.type s!"struct {name} not compatible (:{slot.text} for :{mem.text})")
      else
        let (value, arg) ← object arg
        let (values, arg) ← rMembers klass mems arg
        .ok (value :: values, arg)

/-- `TYPE_STRUCT`. -/
def rStruct : Reader κ F L := fun arg => do
  let (klass, arg) ← rClass E arg
  let (len, arg) ← arg.read (rLong L)
  let type ← raising (E.alloc klass)
  let name := className E klass
  if type ≠ .struct then raise (.type s!"class {name} not a struct")
  else
    let mem := E.members klass
    if (mem.length : ℤ) ≠ len.toInt then
      raise (.type s!"struct {name} not compatible (struct size differs)")
    else
      let (v, arg) := rEntry ⟨klass, .struct (mem.map fun _ => .nil), [], []⟩ arg
      let (values, arg) ← rMembers E object klass mem arg
      .ok (v, arg.modify v (onBody fun _ => .struct values))

/-- `TYPE_OBJECT`. -/
def rPlain : Reader κ F L := fun arg => do
  let (klass, arg) ← rClass E arg
  let type ← raising (E.alloc klass)
  if type ≠ .object then raise (.argument "dump format error")
  else
    let (v, arg) := rEntry ⟨klass, .object, [], []⟩ arg
    let arg ← rIvar E object v arg
    .ok (v, arg)

/-- `TYPE_BIGNUM`. -/
def rBig : Reader κ F L := fun arg => do
  let (n, arg) ← arg.read (rBignum L E.enc)
  match n with
  | .fixnum n => .ok (rEntryValue (.fixnum n) arg)
  | .bignum x => .ok (rEntry ⟨E.builtin .bignum, .bignum x, [], []⟩ arg)

/-- `TYPE_USERDEF`, of a class without `_load`. -/
def rUserdef : Reader κ F L := fun arg => do
  let (klass, _) ← rClass E arg
  let name := className E klass
  raise (.type s!"class {name} needs to have method `_load'")

/-- `TYPE_USRMARSHAL`, of a class without `marshal_load`. -/
def rUsrmarshal : Reader κ F L := fun arg => do
  let (klass, _) ← rClass E arg
  let _ ← raising (E.alloc klass)
  let name := className E klass
  raise (.type s!"instance of {name} needs to have method `marshal_load'")

/-- `TYPE_DATA`, of a class without `_alloc` and `_load_data`. -/
def rData : Reader κ F L := fun arg => do
  let (klass, _) ← rClass E arg
  let type ← raising (E.alloc klass)
  if type ≠ .data then raise (.argument "dump format error")
  else
    let name := className E klass
    raise (.type s!"class {name} needs to have instance method `_load_data'")

/-- `TYPE_CLASS`, `TYPE_MODULE` and `TYPE_MODULE_OLD`, with the function that finds the class. -/
def rModule (find : Ident → Except Stop κ) : Reader κ F L := fun arg => do
  let (str, arg) ← rBytes E.enc arg
  let c ← find (intern str)
  .ok (rEntryValue (.module c) arg)

/-- `r_object0`, of the types behind which there is no object of the same one. -/
def rType (fuel : ℕ) : Tag → Reader κ F L
  | .nil => fun arg => .ok (.nil, arg)
  | .true => fun arg => .ok (.true, arg)
  | .false => fun arg => .ok (.false, arg)
  | .fixnum => rFixnum
  | .float => rFloat E
  | .bignum => rBig E
  | .string => rString E
  | .regexp => rRegexp E
  | .array => rArray E object
  | .hash | .hashDef => rHash E object fuel
  | .struct => rStruct E object
  | .object => rPlain E object
  | .userdef => rUserdef E
  | .usrmarshal => rUsrmarshal E
  | .data => rData E
  | .cls => rModule E (path2class E)
  | .module => rModule E (path2module E)
  | .moduleOld => rModule E fun path => raising (E.path2class path)
  | .symbol => fun arg => do
      let (id, arg) ← rSymreal E.enc arg
      .ok (.symbol id, arg)
  | .symlink => fun arg => do
      let (id, arg) ← rSymlink arg
      .ok (.symbol id, arg)
  | .link => rLink
  | .ivar | .extendedR | .uclass => fun _ => raise .undefined

/-- `rb_extend_object(v, m)`, which for a class or one of `nil`, `true` and `false` does nothing to
the objects. -/
def extendObject (v : Value κ L) (m : κ) (arg : LoadArg κ F L) : Except Stop (LoadArg κ F L) :=
  match v with
  | .fixnum _ | .symbol _ => raise (.type "can't define singleton")
  | v => .ok (arg.modify v fun cell => { cell with extended := cell.extended ++ [m] })

/-- `while (RARRAY_LEN(extmod) > 0)`: the modules are taken from the end. -/
def extendAll (v : Value κ L) (extmod : List κ) (arg : LoadArg κ F L) :
    Except Stop (LoadArg κ F L) :=
  extmod.reverse.foldlM (fun arg m => extendObject v m arg) arg

/-- `dump format error (user class)`. -/
def userClassError : MarshalError := .argument "dump format error (user class)"

/-- `TYPE_UCLASS`, when the object has been read.  A module or a symbol that is accepted has no
class here that could be set. -/
def setUserClass (c : κ) (v : Value κ L) (arg : LoadArg κ F L) : Except Stop (LoadArg κ F L) :=
  match v with
  | .object r =>
      match heapOf arg.data r with
      | none => raise .undefined
      | some cell =>
          if cell.body.ty = .object then raise userClassError
          else do
            if E.inherits c cell.klass then .ok ()
            else
              let type ← raising (E.alloc c)
              if cell.body.ty ≠ type then raise userClassError else .ok ()
            .ok (arg.modify v fun cell => { cell with klass := c })
  | .module m =>
      if !E.isModule m then raise userClassError
      else do
        let type ← raising (E.alloc c)
        if Ty.module ≠ type then raise userClassError else .ok arg
  | .symbol _ => do
      if E.inherits c (E.builtin .symbol) then .ok arg
      else
        let type ← raising (E.alloc c)
        if Ty.symbol ≠ type then raise userClassError else .ok arg
  | _ => raise userClassError

/-- `r_object`, of `r_object0`: without modules to extend the object with. -/
def toReader (object0 : List κ → LoadArg κ F L → Except Stop (Value κ L × List κ × LoadArg κ F L)) :
    Reader κ F L := fun arg => do
  let (v, _, arg) ← object0 [] arg
  .ok (v, arg)

/-- `r_object0(arg, ivp, extmod)`, on fuel: the value, and what is left of `extmod`, which the
function that is called for the object itself may have emptied. -/
def rObject0 : ℕ → (extmod : List κ) → LoadArg κ F L →
    Except Stop (Value κ L × List κ × LoadArg κ F L)
  | 0, _, _ => .error .outOfFuel
  | fuel + 1, extmod, arg => do
      let (type, arg) ← arg.read rByte
      match Tag.ofByte type with
      | none => raise (formatError type)
      | some .ivar => do
          let (v, extmod, arg) ← rObject0 fuel extmod arg
          let arg ← rIvar E (toReader (rObject0 fuel)) v arg
          .ok (v, extmod, arg)
      | some .extendedR => do
          let (path, arg) ← rSymbol E.enc arg
          let m ← path2module E path
          let (v, extmod, arg) ← rObject0 fuel (extmod ++ [m]) arg
          let arg ← extendAll v extmod arg
          .ok (v, [], arg)
      | some .uclass => do
          let (c, arg) ← rClass E arg
          let (v, extmod, arg) ← rObject0 fuel extmod arg
          let arg ← setUserClass E c v arg
          .ok (v, extmod, arg)
      | some type => do
          let (v, arg) ← rType E (toReader (rObject0 fuel)) fuel type arg
          .ok (v, extmod, arg)

/-- `r_object(arg)`. -/
def rObject (fuel : ℕ) : Reader κ F L := toReader (rObject0 E fuel)

/-- `Marshal.load(src)`: the value, and what is known when it has been read. -/
def marshalLoad (fuel : ℕ) (src : List UInt8) : Except Stop (Value κ L × LoadArg κ F L) := do
  let arg : LoadArg κ F L := { src }
  let (major, arg) ← arg.read rByte
  let (minor, arg) ← arg.read rByte
  if major ≠ marshalMajor ∨ minor > marshalMinor then
    raise (.type (s!"incompatible marshal file format (can't be read)\n\t" ++
      s!"format version {marshalMajor}.{marshalMinor} required; {major}.{minor} given"))
  else rObject E fuel arg

end Code

end MacRuby.Marshal
