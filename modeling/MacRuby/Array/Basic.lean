import MacRuby.Lib.Loop
import MacRuby.Range.BegLen

/-!
# Arrays over `CFArray`

A Ruby array of MacRuby is a `CFMutableArray`.  Its contents are a list here, and the primitives
of `CFArray` are the list operations they are documented to be.  The operations of `array.c` pass
these contents along, in the result of a call that raises an exception too.

The arrays are the ones that `rb_ary_modify` lets through, neither frozen nor immutable.

## Main definitions

* `RArray` — the contents of an array, which fit the address space.
* `ArrayError` — the exceptions.
* `IndexArg` — the arguments that say which elements of an array are meant.
* `cfArrayAppendValue`, … — the primitives.
-/

namespace MacRuby

/-- The contents of an array: their addresses take up no more than a `long` can count. -/
structure RArray (L : LongSize) (α : Type) where
  elems : List α
  fits : (elems.length : ℤ) * L.bytes ≤ L.longMax

/-- The exceptions that the operations raise, with their texts. -/
inductive ArrayError
  /-- `IndexError` -/
  | index (msg : String)
  /-- `ArgumentError` -/
  | argument (msg : String)
  /-- `RangeError`, from a range that is out of range -/
  | range
  /-- `RangeError`, from a number of results that is too big -/
  | tooBig (msg : String)
  deriving DecidableEq, Repr

/-- What a call leaves: a value or an exception, and the contents of the array. -/
abbrev ArrayResult (α β : Type) := EStateM.Result ArrayError (List α) β

/-- Which elements of an array are meant. -/
inductive IndexArg (L : LongSize)
  | index (i : Long L)
  | pair (start len : Long L)
  | range (r : IntRange L)

namespace RArray

variable {L : LongSize} {α : Type} (a : RArray L α)

/-- The sum of four lengths is a `long`. -/
theorem four_mul_length_le : 4 * (a.elems.length : ℤ) ≤ L.longMax := by
  have h := a.fits
  cases L <;> simp only [LongSize.bytes] at h <;> push_cast at h <;> omega

theorem length_le : (a.elems.length : ℤ) ≤ L.longMax := by
  have h := a.four_mul_length_le
  omega

/-- The length is less than `LONG_MAX`. -/
theorem length_lt : (a.elems.length : ℤ) < L.longMax := by
  have h := a.four_mul_length_le
  have hpos := L.longMax_pos
  omega

end RArray

section CFArray

variable {α : Type}

/-- `CFArrayAppendValue`. -/
def cfArrayAppendValue (a : List α) (v : α) : List α := a ++ [v]

/-- `CFArrayAppendArray`, of the elements in the range `(loc, len)` of `b`. -/
def cfArrayAppendArray (a b : List α) (loc len : ℕ) : List α := a ++ (b.drop loc).take len

/-- `CFArrayGetValues`. -/
def cfArrayGetValues (a : List α) (loc len : ℕ) : List α := (a.drop loc).take len

/-- `CFArrayReplaceValues`. -/
def cfArrayReplaceValues (a : List α) (loc len : ℕ) (values : List α) : List α :=
  a.take loc ++ values ++ a.drop (loc + len)

/-- `CFArraySetValueAtIndex`: at the length it appends. -/
def cfArraySetValueAtIndex (a : List α) (i : ℕ) (v : α) : List α :=
  if i = a.length then a ++ [v] else a.set i v

/-- `CFArrayRemoveValueAtIndex`. -/
def cfArrayRemoveValueAtIndex (a : List α) (i : ℕ) : List α := a.eraseIdx i

/-- A loop that appends one value again and again. -/
theorem upto_append (v : α) (k : ℕ) (a : List α) :
    Loop.upto (fun _ a => cfArrayAppendValue a v) k a = a ++ List.replicate k v := by
  induction k with
  | zero => simp
  | succ k ih =>
      rw [Loop.upto_succ, ih, cfArrayAppendValue, List.append_assoc, List.replicate_succ']

end CFArray

end MacRuby
