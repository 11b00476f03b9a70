import MacRuby.Array.Basic
import MacRuby.String.Object

/-!
# Strings in memory

The length of a string is a `long`, so that its characters can be counted from either end.

## Main definitions

* `RString` — a string whose `CFString` is in memory beside its header.
* `StringError` — why a function does not return.
-/

namespace MacRuby

/-- A string, whose `CFString` is in memory beside its header. -/
structure RString (L : LongSize) extends StringObject where
  fits : (chars.length : ℤ) < L.longMax

/-- Why a function on strings does not return. -/
inductive StringError
  /-- `RangeError`, from a range that is out of range -/
  | range
  /-- What the function does is undefined: a computation with a `long` overflows, or a function of
  the platform is called with a range that is not in the string. -/
  | undefined
  deriving DecidableEq, Repr

end MacRuby
