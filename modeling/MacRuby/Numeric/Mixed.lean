import MacRuby.Numeric.Power

/-!
# Integers and Floats

The operators of Integers where a Float may be among the operands: a power that is too large is one,
and what is computed from it is too. Two Integers are taken by their own methods, and everything
else is computed on Floats. These are a parameter.

## Main definitions

* `FloatMethods` — the operations of Floats.
* `Mixed` — an Integer or a Float.
* `mixedPlus`, `mixedMinus`, `mixedMod`, `mixedDiv`, `mixedCmp`, `mixedEqual`, `mixedNegate`,
  `mixedLt` — the operators.
-/

namespace MacRuby

/-- The operations of Floats. -/
structure FloatMethods (F : Type) extends Floats F where
  add : F → F → F
  sub : F → F → F
  div : F → F → F
  /-- The modulus of `flodivmod(x, y)`. -/
  mod : F → F → F
  lt : F → F → Bool
  /-- `x <=> y`: -1, 0 or 1, and no result for `nil`. -/
  cmp : F → F → Option ℤ
  equal : F → F → Bool
  neg : F → F

/-- An Integer or a Float. -/
inductive Mixed (L : LongSize) (F : Type)
  | int (n : Inum L)
  | float (f : F)

section Operators

variable {L : LongSize} {F : Type} (fl : FloatMethods F)

/-- The Float for an operand. -/
def Mixed.toFloat : Mixed L F → F
  | .int (.fixnum n) => fl.ofLong n.val
  | .int (.bignum x) => fl.ofBig x
  | .float f => f

/-- `x + y`. -/
def mixedPlus : Mixed L F → Mixed L F → Mixed L F
  | .int x, .int y => .int (intPlus x y)
  | x, y => .float (fl.add (x.toFloat fl) (y.toFloat fl))

/-- `x - y`. -/
def mixedMinus : Mixed L F → Mixed L F → Mixed L F
  | .int x, .int y => .int (intMinus x y)
  | x, y => .float (fl.sub (x.toFloat fl) (y.toFloat fl))

/-- `x % y`. -/
def mixedMod (fuel : ℕ) : Mixed L F → Mixed L F → Except DivError (Mixed L F)
  | .int x, .int y => do
      let r ← intMod fuel x y
      pure (.int r)
  | x, y => .ok (.float (fl.mod (x.toFloat fl) (y.toFloat fl)))

/-- `x / y`. -/
def mixedDiv (fuel : ℕ) : Mixed L F → Mixed L F → Except DivError (Mixed L F)
  | .int x, .int y => do
      let r ← intDiv fuel x y
      pure (.int r)
  | x, y => .ok (.float (fl.div (x.toFloat fl) (y.toFloat fl)))

/-- `x <=> y`; there is no result for `nil`. -/
def mixedCmp : Mixed L F → Mixed L F → Option ℤ
  | .int x, .int y => some (intCmp x y)
  | x, y => fl.cmp (x.toFloat fl) (y.toFloat fl)

/-- `x == y`. -/
def mixedEqual : Mixed L F → Mixed L F → Bool
  | .int x, .int y => intEqual x y
  | x, y => fl.equal (x.toFloat fl) (y.toFloat fl)

/-- `-x`. -/
def mixedNegate : Mixed L F → Mixed L F
  | .int x => .int (intNegate x)
  | .float x => .float (fl.neg x)

/-- `x < y`. -/
def mixedLt : Mixed L F → Mixed L F → Bool
  | .int x, .int y => intCmp x y < 0
  | x, y => fl.lt (x.toFloat fl) (y.toFloat fl)

end Operators

end MacRuby
