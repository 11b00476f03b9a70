import MacRuby.Bignum.AddSub

/-!
# Bignum division: the code

`bigdivrem` divides magnitudes and puts the signs on afterwards.  A dividend that
is shorter, or has a smaller top digit, is its own remainder; a one-digit divisor
is handled by short division; everything else goes through `bigdivrem1`, long
division with a one-digit estimate of each quotient digit, on operands shifted so
that the divisor's top bit is set.

Two loops of the source have no counter, the search for the normalising shift and
the "add back" loop.  They run on fuel here, and `DivError.outOfFuel` says that it
did not suffice.  `bigdivrem1` also polls a flag that another thread may set to
interrupt it; no interrupt arrives in this model.

## Main definitions

* `bigdivrem1`, `bigdivrem`, `bigdivmod` — the division routines.
* `rbBigDivide`, `rbBigModulo`, `rbBigDivmod`, `rbBigRemainder` — the methods.
-/

namespace MacRuby

/-- How a division can fail. -/
inductive DivError
  /-- `rb_num_zerodiv()`. -/
  | zeroDiv
  /-- The fuel of the model ran out. -/
  | outOfFuel
  deriving DecidableEq, Repr

/-! ## `bigdivrem1` -/

/-- The accumulator of the multiply-and-subtract loop. -/
structure MulSub where
  num : ℤ
  t2 : ℤ
  zds : List BDigit

/-- One turn of the multiply-and-subtract loop, on the digits from index `k`. -/
def MulSub.step (yds : List BDigit) (q : BDigit) (k i : ℕ) (s : MulSub) : MulSub :=
  let t2 := toDbl (s.t2 + digitAt yds i * q.toNat)
  let ee := toDbl (s.num - (biglo t2).toNat)
  let num := toDblSigned (toDbl (digitAt s.zds (k + i) + ee))
  ⟨bigdn num, bigdn t2, if ee ≠ 0 then s.zds.set (k + i) (biglo num) else s.zds⟩

/-- One turn of the loop that adds the divisor back. -/
def addBackStep (yds : List BDigit) (k i : ℕ) (s : Carry) : Carry :=
  let ee := toDbl (s.num + digitAt yds i)
  let num := toDblSigned (toDbl (digitAt s.zds (k + i) + ee))
  ⟨bigdn num, if ee ≠ 0 then s.zds.set (k + i) (biglo num) else s.zds⟩

/-- The state of the "add back" loop: the borrow, the quotient digit, the digits. -/
structure AddBack where
  num : ℤ
  q : BDigit
  zds : List BDigit

/-- The body of `while (num)`. -/
def AddBack.body (yds : List BDigit) (ny k : ℕ) (s : AddBack) : AddBack :=
  let t := Loop.upto (addBackStep yds k) ny ⟨0, s.zds⟩
  ⟨toDblSigned (t.num - 1), s.q - 1, t.zds⟩

/-- The estimate of the quotient digit at index `j`. -/
def quotientDigit (yds zds : List BDigit) (ny j : ℕ) : BDigit :=
  if zds.getD j 0 = yds.getD (ny - 1) 0 then biglo (bigrad - 1)
  else biglo (toDbl (bigup (digitAt zds j) + digitAt zds (j - 1)) / digitAt yds (ny - 1))

/-- One turn of the outer loop of `bigdivrem1`: the digit at index `j` of `zds`
becomes a quotient digit, and the `ny` digits below it a remainder. -/
def divStep (fuel : ℕ) (yds : List BDigit) (ny j : ℕ) (zds : List BDigit) :
    Option (List BDigit) :=
  let q := quotientDigit yds zds ny j
  if q ≠ 0 then
    let s := Loop.upto (MulSub.step yds q (j - ny)) ny ⟨0, 0, zds⟩
    -- borrow from the high digit, which is not updated
    let num := toDblSigned (s.num + toDbl (digitAt s.zds j - s.t2))
    (Loop.whileFuel (fun t : AddBack => t.num != 0) (AddBack.body yds ny (j - ny)) fuel
      ⟨num, q, s.zds⟩).map (fun t => t.zds.set j t.q)
  else some (zds.set j q)

/-- `bigdivrem1(ptr)`: `j` runs from `nx` (or `nx+1`) down to `ny`. -/
def bigdivrem1 (fuel nx ny : ℕ) (yds zds : List BDigit) : Option (List BDigit) :=
  let j := if nx = ny then nx + 1 else nx
  Loop.downFrom (fun k o => o.bind (divStep fuel yds ny (ny + k))) (j + 1 - ny) (some zds)

/-! ## `bigdivrem` -/

/-- `while (!yds[ny-1]) ny--;` -/
def dropZeros (ds : List BDigit) : ℕ → ℕ
  | 0 => 0
  | n + 1 => if ds.getD n 0 = 0 then dropZeros ds n else n + 1

/-- The search for the normalising shift `dd`. -/
def normShift (fuel : ℕ) (q : BDigit) : Option ℕ :=
  (Loop.whileFuel (fun s : BDigit × ℕ => s.1 &&& 0x80000000 == 0)
    (fun s => (s.1 <<< 1, s.2 + 1)) fuel (q, 0)).map Prod.snd

/-- Shifting the first `n` digits of `src` left by `dd` into `dst`; the carry out of
the top is left in `num`. -/
def shiftLeft (src : List BDigit) (dd n : ℕ) (dst : List BDigit) : Carry :=
  Loop.upto (fun j => Carry.step (digitAt src j * 2 ^ dd) j) n ⟨0, dst⟩

/-- The digits of the divisor `bigdivrem1` works on: the shifted `yy`, or those of `y`. -/
def normalizeDivisor (dd ny : ℕ) (y : Bignum) : List BDigit :=
  if dd ≠ 0 then (shiftLeft y.digits dd ny y.digits).zds else y.digits

/-- The digits of `x`, shifted or copied into those of `z`. -/
def normalizeDividend (dd : ℕ) (x : Bignum) (zds : List BDigit) : List BDigit :=
  if dd ≠ 0 then
    let s := shiftLeft x.digits dd x.len zds
    s.zds.set x.len (biglo s.num)
  else Loop.downFrom (fun j ds => ds.set j (x.digits.getD j 0)) x.len (zds.set x.len 0)

/-- Shifting the first `n` digits right by `dd`, from the top down. -/
def shiftRight (dd n : ℕ) (zds : List BDigit) : List BDigit :=
  (Loop.downFrom (fun i (s : ℕ × List BDigit) =>
    let t2 := (s.1 ||| (s.2.getD i 0).toNat) >>> dd
    ((bigup (digitAt s.2 i)).toNat, s.2.set i (biglo t2))) n (0, zds)).2

/-- Short division of the digits of `x` by the digit `dd`: the quotient digits, and
the remainder. -/
def shortDivide (dd : BDigit) (x : Bignum) : ℤ × List BDigit :=
  Loop.downFrom (fun i (s : ℤ × List BDigit) =>
    let t2 := toDbl (bigup s.1 + digitAt s.2 i)
    (t2 % dd.toNat, s.2.set i (biglo (t2 / dd.toNat)))) x.len (0, x.digits)

/-- The quotient moved down in a copy of `z`. -/
def moveQuotient (ny cnt : ℕ) (zds : List BDigit) : List BDigit :=
  (Loop.upto (fun i ds => ds.set i (ds.getD (i + ny) 0)) cnt zds).take cnt

/-- The remainder in a copy of `z`: trimmed, then shifted back. -/
def takeRemainder (ny dd : ℕ) (zds : List BDigit) : List BDigit :=
  let n := trimLen zds ny
  (if dd ≠ 0 then shiftRight dd n zds else zds).take n

/-- `bigdivrem(x, y, &div, &mod)`.  The source computes each of the two results only
when it is asked for, and neither depends on the other. -/
def bigdivrem (L : LongSize) (fuel : ℕ) (x y : Bignum) : Except DivError (Bignum × Bignum) :=
  let nx := x.len
  let ny := y.len
  if bigzerop y then .error .zeroDiv
  else if nx < ny ∨ (nx = ny ∧ x.digits.getD (nx - 1) 0 < y.digits.getD (ny - 1) 0) then
    .ok (rbInt2big L 0, x)
  else if ny = 1 then
    let r := shortDivide (y.digits.getD 0 0) x
    .ok (⟨x.sign == y.sign, r.2⟩, { rbUint2big L (r.1 % 2 ^ L.bits) with sign := x.sign })
  else
    let z := bignew (if nx = ny then nx + 2 else nx + 1) (x.sign == y.sign)
    let ny := dropZeros y.digits ny
    match normShift fuel (y.digits.getD (ny - 1) 0) with
    | none => .error .outOfFuel
    | some dd =>
        match bigdivrem1 fuel nx ny (normalizeDivisor dd ny y)
            (normalizeDividend dd x z.digits) with
        | none => .error .outOfFuel
        | some zds =>
            let cnt := (if nx = ny then nx + 2 else nx + 1) - ny
            .ok (⟨z.sign, moveQuotient ny cnt zds⟩, ⟨x.sign, takeRemainder ny dd zds⟩)

/-- `bigdivmod(x, y, &div, &mod)`. -/
def bigdivmod (L : LongSize) (fuel : ℕ) (x y : Bignum) : Except DivError (Bignum × Bignum) := do
  let (div, mod) ← bigdivrem L fuel x y
  if x.sign != y.sign && !bigzerop mod then
    pure (bigadd div (rbInt2big L 1) false, bigadd mod y true)
  else pure (div, mod)

/-- The operand conversion the methods start with: a fixnum becomes a bignum. -/
def Inum.toBignum {L : LongSize} : Inum L → Bignum
  | .fixnum n => rbInt2big L n.val
  | .bignum y => y

/-- `rb_big_divide(x, y, op)`, for an Integer `y`. -/
def rbBigDivide (L : LongSize) (fuel : ℕ) (x : Bignum) (y : Inum L) : Except DivError (Inum L) := do
  let r ← bigdivmod L fuel x y.toBignum
  pure (bignorm L r.1)

/-- `rb_big_modulo(x, y)`, for an Integer `y`. -/
def rbBigModulo (L : LongSize) (fuel : ℕ) (x : Bignum) (y : Inum L) : Except DivError (Inum L) := do
  let r ← bigdivmod L fuel x y.toBignum
  pure (bignorm L r.2)

/-- `rb_big_remainder(x, y)`, for an Integer `y`. -/
def rbBigRemainder (L : LongSize) (fuel : ℕ) (x : Bignum) (y : Inum L) :
    Except DivError (Inum L) := do
  let r ← bigdivrem L fuel x y.toBignum
  pure (bignorm L r.2)

/-- `rb_big_divmod(x, y)`, for an Integer `y`. -/
def rbBigDivmod (L : LongSize) (fuel : ℕ) (x : Bignum) (y : Inum L) :
    Except DivError (Inum L × Inum L) := do
  let r ← bigdivmod L fuel x y.toBignum
  pure (bignorm L r.1, bignorm L r.2)

end MacRuby
