import MacRuby.Numeric.Integer
import Mathlib.Algebra.Order.Field.Basic
import Mathlib.Data.Rat.Lemmas
import Mathlib.RingTheory.Coprime.Lemmas
import Mathlib.RingTheory.PrincipalIdealDomain

/-!
# Rationals

`+`, `-`, `*` and `/` of `rational.c`. The results are not reduced at the end: the greatest common
divisors of selected parts are removed on the way, and what is left has none.

The products in the paths for parts that are not all fixnums are those of Integers, so they take
over what `fix_mul` gets wrong.

## Main definitions

* `Rational`, `Numeric` — the receiver, and what the operand and the result can be.
* `iGcd`, `fGcd`, `fImul`, `fAddsub`, `fMuldiv` — the parts.
* `nuratAdd`, `nuratSub`, `nuratMul`, `nuratDiv` — the methods.
* `ExactRational` — the methods are exact for a pair of operands.

## Main results

* `knuth_add`, `knuth_mul` — why the results are reduced.
* `exactRational_iff` — the methods are exact unless `MulOverflow`.
-/

namespace MacRuby

/-! ## The code -/

/-- `struct RRational`. -/
structure Rational (L : LongSize) where
  num : Inum L
  den : Inum L

/-- An Integer or a Rational. -/
inductive Numeric (L : LongSize)
  | integer (n : Inum L)
  | rational (r : Rational L)

section Code

variable {L : LongSize}

/-- `f_negative_p(x)`. -/
def fNegativeP : Inum L → Bool
  | .fixnum x => x.val < 0
  | .bignum x => intCmp (.bignum x) (.zero L) < 0

/-- `f_zero_p(x)`. -/
def fZeroP : Inum L → Bool
  | .fixnum x => x.val = 0
  | .bignum x => intEqual (.bignum x) (.zero L)

/-- `f_add(x, y)`. -/
def fAdd (x y : Inum L) : Inum L :=
  match x, y with
  | _, .fixnum b => if b.val = 0 then x else intPlus x y
  | .fixnum a, .bignum _ => if a.val = 0 then y else intPlus x y
  | .bignum _, .bignum _ => intPlus x y

/-- `f_sub(x, y)`. -/
def fSub (x y : Inum L) : Inum L :=
  match y with
  | .fixnum b => if b.val = 0 then x else intMinus x y
  | .bignum _ => intMinus x y

/-- `f_mul(x, y)`. -/
def fMul (x y : Inum L) : Inum L :=
  match x, y with
  | _, .fixnum b => if b.val = 0 then .zero L else if b.val = 1 then x else intMul x y
  | .fixnum a, .bignum _ => if a.val = 0 then .zero L else if a.val = 1 then y else intMul x y
  | .bignum _, .bignum _ => intMul x y

/-- `while ((x & 1) == 0) x >>= 1;` -/
def halve (fuel x : ℕ) : Except DivError ℕ :=
  match Loop.whileFuel (fun x => x % 2 == 0) (· / 2) fuel x with
  | none => .error .outOfFuel
  | some x => .ok x

/-- The first loop of `i_gcd`. -/
def halveBoth (fuel x y : ℕ) : Except DivError (ℕ × ℕ × ℕ) :=
  match Loop.whileFuel (fun s : ℕ × ℕ × ℕ => s.1 % 2 == 0 && s.2.1 % 2 == 0)
      (fun s => (s.1 / 2, s.2.1 / 2, s.2.2 + 1)) fuel (x, y, 0) with
  | none => .error .outOfFuel
  | some s => .ok s

/-- The last loop of `i_gcd`. -/
def gcdOdd (fuel : ℕ) : ℕ → ℕ → ℕ → Except DivError ℕ
  | 0, _, _ => .error .outOfFuel
  | n + 1, x, y =>
      if x = y then .ok x
      else do
        let (x, y) := if y > x then (y, x) else (x, y)
        let x ← halve fuel (x - y)
        gcdOdd fuel n x y

/-- `i_gcd(x, y)`. -/
def iGcd (fuel : ℕ) (x y : ℤ) : Except DivError ℤ :=
  let x := x.natAbs
  let y := y.natAbs
  if x = 0 then .ok y
  else if y = 0 then .ok x
  else do
    let (x, y, b) ← halveBoth fuel x y
    let x ← halve fuel x
    let y ← halve fuel y
    let x ← gcdOdd fuel fuel x y
    pure (x * 2 ^ b : ℕ)

/-- The loop of `f_gcd`. -/
def fGcdLoop (fuel : ℕ) : ℕ → Inum L → Inum L → Except DivError (Inum L)
  | 0, _, _ => .error .outOfFuel
  | n + 1, x, y =>
      match x, y with
      | .fixnum a, .fixnum b =>
          if a.val = 0 then .ok y
          else do
            let g ← iGcd fuel a.val b.val
            pure (long2num L g)
      | .fixnum a, .bignum _ =>
          if a.val = 0 then .ok y
          else do
            let r ← intMod fuel y x
            fGcdLoop fuel n r x
      | .bignum _, _ => do
          let r ← intMod fuel y x
          fGcdLoop fuel n r x

/-- The part of `f_gcd` for Integers that are not both fixnums. -/
def fGcdGeneric (fuel : ℕ) (x y : Inum L) : Except DivError (Inum L) :=
  let x := if fNegativeP x then intNegate x else x
  let y := if fNegativeP y then intNegate y else y
  if fZeroP x then .ok y
  else if fZeroP y then .ok x
  else fGcdLoop fuel fuel x y

/-- `f_gcd(x, y)`. -/
def fGcd (fuel : ℕ) (x y : Inum L) : Except DivError (Inum L) :=
  match x, y with
  | .fixnum a, .fixnum b => do
      let g ← iGcd fuel a.val b.val
      pure (long2num L g)
  | x, y => fGcdGeneric fuel x y

/-- `f_imul(a, b)`. -/
def fImul (L : LongSize) (a b : ℤ) : Inum L :=
  if a = 0 ∨ b = 0 then .zero L
  else if a = 1 then long2num L b
  else if b = 1 then long2num L a
  else
    let c := L.toLong (a * b)
    let r := long2num L c
    if r.toInt ≠ c ∨ c.tdiv a ≠ b then rbBigMul L (rbInt2big L a) (.bignum (rbInt2big L b)) else r

/-- `nurat_s_canonicalize_internal_no_reduce(klass, num, den)`; `unify` tells whether the class has
a constant `Unify`. -/
def nuratNoReduce (unify : Bool) (num den : Inum L) : Except DivError (Numeric L) :=
  let c := intCmp den (.zero L)
  if c = 0 then .error .zeroDiv
  else
    let num' := if c = -1 then intNegate num else num
    let den' := if c = -1 then intNegate den else den
    .ok (if intEqual den' (.one L) && unify then .integer num' else .rational ⟨num', den'⟩)

/-- The end of both paths of `f_addsub`. -/
def addsubEnd (fuel : ℕ) (aden bden g c : Inum L) : Except DivError (Inum L × Inum L) := do
  let b ← intDiv fuel aden g
  let g ← fGcd fuel c g
  let num ← intDiv fuel c g
  let a ← intDiv fuel bden g
  pure (num, fMul a b)

/-- The path of `f_addsub` for fixnums. -/
def addsubFix (fuel : ℕ) (anum aden bnum bden : Fixnum L) (plus : Bool) :
    Except DivError (Inum L × Inum L) := do
  let ig ← iGcd fuel aden.val bden.val
  let g := long2num L ig
  let a := fImul L anum.val (bden.val.tdiv ig)
  let b := fImul L bnum.val (aden.val.tdiv ig)
  addsubEnd fuel (.fixnum aden) (.fixnum bden) g (if plus then fAdd a b else fSub a b)

/-- The other path of `f_addsub`. -/
def addsubGeneric (fuel : ℕ) (anum aden bnum bden : Inum L) (plus : Bool) :
    Except DivError (Inum L × Inum L) := do
  let g ← fGcd fuel aden bden
  let t ← intDiv fuel bden g
  let u ← intDiv fuel aden g
  let a := fMul anum t
  let b := fMul bnum u
  addsubEnd fuel aden bden g (if plus then fAdd a b else fSub a b)

/-- `f_addsub(self, anum, aden, bnum, bden, k)`. -/
def fAddsub (fuel : ℕ) (unify : Bool) (anum aden bnum bden : Inum L) (plus : Bool) :
    Except DivError (Numeric L) := do
  let (num, den) ← match anum, aden, bnum, bden with
    | .fixnum an, .fixnum ad, .fixnum bn, .fixnum bd => addsubFix fuel an ad bn bd plus
    | _, _, _, _ => addsubGeneric fuel anum aden bnum bden plus
  nuratNoReduce unify num den

/-- The path of `f_muldiv` for fixnums. -/
def muldivFix (fuel : ℕ) (anum aden bnum bden : Fixnum L) : Except DivError (Inum L × Inum L) := do
  let g1 ← iGcd fuel anum.val bden.val
  let g2 ← iGcd fuel aden.val bnum.val
  pure (fImul L (anum.val.tdiv g1) (bnum.val.tdiv g2),
    fImul L (aden.val.tdiv g2) (bden.val.tdiv g1))

/-- The other path of `f_muldiv`. -/
def muldivGeneric (fuel : ℕ) (anum aden bnum bden : Inum L) :
    Except DivError (Inum L × Inum L) := do
  let g1 ← fGcd fuel anum bden
  let g2 ← fGcd fuel aden bnum
  let an ← intDiv fuel anum g1
  let bn ← intDiv fuel bnum g2
  let ad ← intDiv fuel aden g2
  let bd ← intDiv fuel bden g1
  pure (fMul an bn, fMul ad bd)

/-- The part of `f_muldiv` that multiplies. -/
def muldivMul (fuel : ℕ) (unify : Bool) (anum aden bnum bden : Inum L) :
    Except DivError (Numeric L) := do
  let (num, den) ← match anum, aden, bnum, bden with
    | .fixnum an, .fixnum ad, .fixnum bn, .fixnum bd => muldivFix fuel an ad bn bd
    | _, _, _, _ => muldivGeneric fuel anum aden bnum bden
  nuratNoReduce unify num den

/-- `f_muldiv(self, anum, aden, bnum, bden, k)`. -/
def fMuldiv (fuel : ℕ) (unify : Bool) (anum aden bnum bden : Inum L) (divide : Bool) :
    Except DivError (Numeric L) :=
  if divide then
    let neg := fNegativeP bnum
    let anum := if neg then intNegate anum else anum
    let bnum := if neg then intNegate bnum else bnum
    muldivMul fuel unify anum aden bden bnum
  else muldivMul fuel unify anum aden bnum bden

/-- The numerator and the denominator of an operand; those of an Integer are itself and 1. -/
def Numeric.parts : Numeric L → Rational L
  | .integer n => ⟨n, .one L⟩
  | .rational r => r

/-- `f_zero_p(other)`: for a Rational this is its method `==`. -/
def Numeric.zeroP : Numeric L → Bool
  | .integer n => fZeroP n
  | .rational r =>
      match r.den with
      | .fixnum d => d.val = 1 && intEqual r.num (.zero L)
      | .bignum _ => false

/-- `nurat_add(self, other)`. -/
def nuratAdd (fuel : ℕ) (unify : Bool) (self : Rational L) (other : Numeric L) :
    Except DivError (Numeric L) :=
  fAddsub fuel unify self.num self.den other.parts.num other.parts.den true

/-- `nurat_sub(self, other)`. -/
def nuratSub (fuel : ℕ) (unify : Bool) (self : Rational L) (other : Numeric L) :
    Except DivError (Numeric L) :=
  fAddsub fuel unify self.num self.den other.parts.num other.parts.den false

/-- `nurat_mul(self, other)`. -/
def nuratMul (fuel : ℕ) (unify : Bool) (self : Rational L) (other : Numeric L) :
    Except DivError (Numeric L) :=
  fMuldiv fuel unify self.num self.den other.parts.num other.parts.den false

/-- `nurat_div(self, other)`. -/
def nuratDiv (fuel : ℕ) (unify : Bool) (self : Rational L) (other : Numeric L) :
    Except DivError (Numeric L) :=
  if other.zeroP then .error .zeroDiv
  else fMuldiv fuel unify self.num self.den other.parts.num other.parts.den true

end Code

/-! ## Why the results are reduced -/

/-- **Sums**: with `g` the common divisor of the denominators, only one of `g` and the numerator is
left to be removed. -/
theorem knuth_add {an ad bn bd : ℤ} (had : 0 < ad) (hbd : 0 < bd) (ha : IsCoprime an ad)
    (hb : IsCoprime bn bd) :
    let g : ℤ := Int.gcd ad bd
    let c := an * (bd / g) + bn * (ad / g)
    let g2 : ℤ := Int.gcd c g
    0 < g ∧ 0 < g2 ∧ g ∣ ad ∧ g ∣ bd ∧ g2 ∣ c ∧ g2 ∣ bd ∧
      0 < bd / g2 * (ad / g) ∧ IsCoprime (c / g2) (bd / g2 * (ad / g)) ∧
      c / g2 * (ad * bd) = (an * bd + bn * ad) * (bd / g2 * (ad / g)) := by
  intro g c g2
  have hg : 0 < g := Int.natCast_pos.mpr (Int.gcd_pos_of_ne_zero_left _ had.ne')
  obtain ⟨a', ha'⟩ : g ∣ ad := Int.gcd_dvd_left ..
  obtain ⟨b', hb'⟩ : g ∣ bd := Int.gcd_dvd_right ..
  have hda : ad / g = a' := by rw [ha']; exact Int.mul_ediv_cancel_left _ hg.ne'
  have hdb : bd / g = b' := by rw [hb']; exact Int.mul_ediv_cancel_left _ hg.ne'
  have hcop : IsCoprime a' b' := by
    rw [Int.isCoprime_iff_gcd_eq_one, ← hda, ← hdb]
    exact Int.gcd_ediv_gcd_ediv_gcd (Int.gcd_pos_of_ne_zero_left _ had.ne')
  have hc : c = an * b' + bn * a' := by simp only [c, hda, hdb]
  have hg2 : 0 < g2 := Int.natCast_pos.mpr (Int.gcd_pos_of_ne_zero_right _ hg.ne')
  obtain ⟨c', hc'⟩ : g2 ∣ c := Int.gcd_dvd_left ..
  obtain ⟨g', hg'⟩ : g2 ∣ g := Int.gcd_dvd_right ..
  have hdc : c / g2 = c' := by rw [hc']; exact Int.mul_ediv_cancel_left _ hg2.ne'
  have hbd' : bd = g2 * (g' * b') := by rw [hb', hg']; ring
  have hdbd : bd / g2 = g' * b' := by rw [hbd']; exact Int.mul_ediv_cancel_left _ hg2.ne'
  have hcop2 : IsCoprime c' g' := by
    rw [Int.isCoprime_iff_gcd_eq_one, ← hdc]
    have hdg : g / g2 = g' := by rw [hg']; exact Int.mul_ediv_cancel_left _ hg2.ne'
    rw [← hdg]
    exact Int.gcd_ediv_gcd_ediv_gcd (Int.gcd_pos_of_ne_zero_right _ hg.ne')
  have hcc : c' ∣ c := ⟨g2, by rw [hc']; ring⟩
  have hcopA : IsCoprime c' a' := by
    refine IsCoprime.of_isCoprime_of_dvd_left ?_ hcc
    rw [hc]
    refine IsCoprime.add_mul_right_left ?_ bn
    exact (ha.of_isCoprime_of_dvd_right ⟨g, by rw [ha']; ring⟩).mul_left hcop.symm
  have hcopB : IsCoprime c' b' := by
    refine IsCoprime.of_isCoprime_of_dvd_left ?_ hcc
    rw [hc, add_comm]
    refine IsCoprime.add_mul_right_left ?_ an
    exact (hb.of_isCoprime_of_dvd_right ⟨g, by rw [hb']; ring⟩).mul_left hcop
  have ha'pos : 0 < a' := by
    rw [ha'] at had
    exact pos_of_mul_pos_right had hg.le
  have hbpos : 0 < g' * b' := by
    rw [hbd'] at hbd
    exact pos_of_mul_pos_right hbd hg2.le
  rw [hdc, hdbd, hda]
  refine ⟨hg, hg2, ⟨a', ha'⟩, ⟨b', hb'⟩, ⟨c', hc'⟩, ⟨_, hbd'⟩, mul_pos hbpos ha'pos,
    (hcop2.mul_right hcopB).mul_right hcopA, ?_⟩
  have hsum : an * bd + bn * ad = g * (g2 * c') := by rw [← hc', hc, ha', hb']; ring
  rw [hsum, ha', hb', hg']
  ring

/-- **Products**: the factors of each numerator are removed from the other denominator. -/
theorem knuth_mul {an ad bn bd : ℤ} (had : 0 < ad) (hbd : 0 < bd) (ha : IsCoprime an ad)
    (hb : IsCoprime bn bd) :
    let g1 : ℤ := Int.gcd an bd
    let g2 : ℤ := Int.gcd ad bn
    0 < g1 ∧ 0 < g2 ∧ g1 ∣ an ∧ g1 ∣ bd ∧ g2 ∣ ad ∧ g2 ∣ bn ∧ 0 < ad / g2 ∧ 0 < bd / g1 ∧
      IsCoprime (an / g1 * (bn / g2)) (ad / g2 * (bd / g1)) ∧
      an / g1 * (bn / g2) * (ad * bd) = an * bn * (ad / g2 * (bd / g1)) := by
  intro g1 g2
  have hg1 : 0 < g1 := Int.natCast_pos.mpr (Int.gcd_pos_of_ne_zero_right _ hbd.ne')
  have hg2 : 0 < g2 := Int.natCast_pos.mpr (Int.gcd_pos_of_ne_zero_left _ had.ne')
  obtain ⟨p, hp⟩ : g1 ∣ an := Int.gcd_dvd_left ..
  obtain ⟨q, hq⟩ : g1 ∣ bd := Int.gcd_dvd_right ..
  obtain ⟨r, hr⟩ : g2 ∣ ad := Int.gcd_dvd_left ..
  obtain ⟨t, ht⟩ : g2 ∣ bn := Int.gcd_dvd_right ..
  have hdp : an / g1 = p := by rw [hp]; exact Int.mul_ediv_cancel_left _ hg1.ne'
  have hdq : bd / g1 = q := by rw [hq]; exact Int.mul_ediv_cancel_left _ hg1.ne'
  have hdr : ad / g2 = r := by rw [hr]; exact Int.mul_ediv_cancel_left _ hg2.ne'
  have hdt : bn / g2 = t := by rw [ht]; exact Int.mul_ediv_cancel_left _ hg2.ne'
  have hpq : IsCoprime p q := by
    rw [Int.isCoprime_iff_gcd_eq_one, ← hdp, ← hdq]
    exact Int.gcd_ediv_gcd_ediv_gcd (Int.gcd_pos_of_ne_zero_right _ hbd.ne')
  have hrt : IsCoprime r t := by
    rw [Int.isCoprime_iff_gcd_eq_one, ← hdr, ← hdt]
    exact Int.gcd_ediv_gcd_ediv_gcd (Int.gcd_pos_of_ne_zero_left _ had.ne')
  have hpr : IsCoprime p r :=
    (ha.of_isCoprime_of_dvd_left ⟨g1, by rw [hp]; ring⟩).of_isCoprime_of_dvd_right
      ⟨g2, by rw [hr]; ring⟩
  have htq : IsCoprime t q :=
    (hb.of_isCoprime_of_dvd_left ⟨g2, by rw [ht]; ring⟩).of_isCoprime_of_dvd_right
      ⟨g1, by rw [hq]; ring⟩
  have hrpos : 0 < r := by
    rw [hr] at had
    exact pos_of_mul_pos_right had hg2.le
  have hqpos : 0 < q := by
    rw [hq] at hbd
    exact pos_of_mul_pos_right hbd hg1.le
  rw [hdp, hdq, hdr, hdt]
  refine ⟨hg1, hg2, ⟨p, hp⟩, ⟨q, hq⟩, ⟨r, hr⟩, ⟨t, ht⟩, hrpos, hqpos,
    (hpr.mul_right hpq).mul_left (hrt.symm.mul_right htq), ?_⟩
  rw [hp, hq, hr, ht]
  ring

/-! ## The parts -/

section Parts

variable {L : LongSize} {x y : Inum L} {a b : ℤ}

theorem fNegativeP_eq (hx : x.Is a) : fNegativeP x = decide (a < 0) := by
  cases x with
  | fixnum n => exact hx.value ▸ rfl
  | bignum z =>
      show decide (intCmp (.bignum z) (.zero L) < 0) = decide (a < 0)
      rw [intCmp_eq hx (Inum.zero_is L), sub_zero, decide_eq_decide]
      exact Int.sign_neg_iff

theorem fZeroP_eq (hx : x.Is a) : fZeroP x = decide (a = 0) := by
  cases x with
  | fixnum n => exact hx.value ▸ rfl
  | bignum z => exact intEqual_eq hx (Inum.zero_is L)

theorem fAdd_is (hx : x.Is a) (hy : y.Is b) : (fAdd x y).Is (a + b) := by
  unfold fAdd
  split
  · split_ifs with h
    · rw [← hy.value, show (Inum.fixnum _).toInt = 0 from h, add_zero]
      exact hx
    · exact intPlus_is hx hy
  · split_ifs with h
    · rw [← hx.value, show (Inum.fixnum _).toInt = 0 from h, zero_add]
      exact hy
    · exact intPlus_is hx hy
  · exact intPlus_is hx hy

theorem fSub_is (hx : x.Is a) (hy : y.Is b) : (fSub x y).Is (a - b) := by
  unfold fSub
  split
  · split_ifs with h
    · rw [← hy.value, show (Inum.fixnum _).toInt = 0 from h, sub_zero]
      exact hx
    · exact intMinus_is hx hy
  · exact intMinus_is hx hy

/-- `f_mul` leaves out the products with 0 and 1, and is the product of Integers otherwise. -/
theorem fMul_cases (hx : x.Is a) (hy : y.Is b) :
    (fMul x y).Is (a * b) ∧ (a = 0 ∨ a = 1 ∨ b = 0 ∨ b = 1) ∨ fMul x y = intMul x y := by
  unfold fMul
  split
  · split_ifs with h0 h1
    · have hb : b = 0 := hy.value.symm.trans h0
      subst hb
      exact .inl ⟨by rw [mul_zero]; exact Inum.zero_is L, by omega⟩
    · have hb : b = 1 := hy.value.symm.trans h1
      subst hb
      exact .inl ⟨by rw [mul_one]; exact hx, by omega⟩
    · exact .inr rfl
  · split_ifs with h0 h1
    · have ha : a = 0 := hx.value.symm.trans h0
      subst ha
      exact .inl ⟨by rw [zero_mul]; exact Inum.zero_is L, by omega⟩
    · have ha : a = 1 := hx.value.symm.trans h1
      subst ha
      exact .inl ⟨by rw [one_mul]; exact hy, by omega⟩
    · exact .inr rfl
  · exact .inr rfl

theorem fMul_is (hx : x.Is a) (hy : y.Is b) (hsq : ¬ SquareOverflow L a b) :
    (fMul x y).Is (a * b) := by
  rcases fMul_cases hx hy with ⟨h, -⟩ | h
  · exact h
  · exact h ▸ intMul_is hx hy hsq

theorem fMul_squareOverflow (hx : x.Is a) (hy : y.Is b) (hsq : SquareOverflow L a b) :
    (fMul x y).Is (-2 ^ 62) := by
  rcases fMul_cases hx hy with ⟨-, h⟩ | h
  · obtain ⟨-, rfl, rfl⟩ := hsq
    omega
  · exact h ▸ intMul_squareOverflow hx hy hsq

/-- A product with a positive number is not the one that overflows. -/
theorem not_squareOverflow_of_pos (hb : 0 < b) : ¬ SquareOverflow L a b := by
  rintro ⟨-, -, rfl⟩
  omega

/-- **`f_imul` is exact on fixnums.** -/
theorem fImul_is (ha : -2 ^ (L.bits - 2) ≤ a) (ha' : a < 2 ^ (L.bits - 2))
    (hb : -2 ^ (L.bits - 2) ≤ b) (hb' : b < 2 ^ (L.bits - 2)) : (fImul L a b).Is (a * b) := by
  obtain ⟨-, -, hhalf⟩ := L.fixnum_range
  have hpos : (0 : ℤ) < 2 ^ (L.bits - 2) := by positivity
  rw [fImul]
  split_ifs with h0 h1 h2
  · have : a * b = 0 := mul_eq_zero.mpr h0
    rw [this]
    exact Inum.zero_is L
  · rw [h1, one_mul]
    exact long2num_is (by omega) (by omega)
  · rw [h2, mul_one]
    exact long2num_is (by omega) (by omega)
  · rw [not_or] at h0
    dsimp only
    split_ifs with hover
    · refine ⟨bignorm_canonical _ _, ?_⟩
      rw [toInt_rbBigMul]
      exact congrArg₂ _ (toInt_rbInt2big (by omega) (by omega))
        (toInt_rbInt2big (by omega) (by omega))
    · rw [not_or, not_not, not_not] at hover
      have hprod := mul_of_tdiv h0.1 ha ha'.le hover.2
      have hword : -2 ^ (L.bits - 1) ≤ L.toLong (a * b) ∧ L.toLong (a * b) < 2 ^ (L.bits - 1) := by
        have hle := Int.le_bmod (x := a * b) (m := 2 ^ L.bits) (by positivity)
        have hlt := Int.bmod_lt (x := a * b) (m := 2 ^ L.bits) (by positivity)
        cases L with
        | ilp32 =>
            simp only [LongSize.toLong, LongSize.bits, LongSize.bytes] at hle hlt ⊢
            omega
        | lp64 =>
            simp only [LongSize.toLong, LongSize.bits, LongSize.bytes] at hle hlt ⊢
            omega
      have := long2num_is hword.1 hword.2
      rw [hprod] at this ⊢
      exact this

end Parts

/-! ## The greatest common divisor -/

section Gcd

/-- `halve` leaves the odd part. -/
theorem halve_spec (fuel : ℕ) {x : ℕ} (hx : 0 < x) (hfuel : x ≤ fuel) :
    ∃ r k, halve fuel x = .ok r ∧ r % 2 = 1 ∧ x = r * 2 ^ k := by
  have hrun : ∃ r k, Loop.whileFuel (fun x => x % 2 == 0) (· / 2) fuel x = some r ∧ r % 2 = 1 ∧
      x = r * 2 ^ k := by
    induction fuel generalizing x with
    | zero => omega
    | succ n ih =>
        by_cases h : x % 2 = 0
        · rw [Loop.whileFuel_of_guard (by simp [h])]
          obtain ⟨r, k, hr, hodd, hval⟩ := ih (x := x / 2) (by omega) (by omega)
          refine ⟨r, k + 1, hr, hodd, ?_⟩
          rw [pow_succ, ← mul_assoc, ← hval]
          omega
        · rw [Loop.whileFuel_of_not (by simpa using h)]
          exact ⟨x, 0, rfl, by omega, by simp⟩
  obtain ⟨r, k, hr, hodd, hval⟩ := hrun
  refine ⟨r, k, ?_, hodd, hval⟩
  rw [halve, hr]

/-- `halveBoth` takes out the common powers of two. -/
theorem halveBoth_spec (fuel : ℕ) {x y : ℕ} (hx : 0 < x) (hy : 0 < y) (hfuel : x ≤ fuel) :
    ∃ x' y' b, halveBoth fuel x y = .ok (x', y', b) ∧ (x' % 2 = 1 ∨ y' % 2 = 1) ∧
      x = x' * 2 ^ b ∧ y = y' * 2 ^ b := by
  have hrun : ∀ b0, ∃ x' y' b, Loop.whileFuel
      (fun s : ℕ × ℕ × ℕ => s.1 % 2 == 0 && s.2.1 % 2 == 0)
      (fun s => (s.1 / 2, s.2.1 / 2, s.2.2 + 1)) fuel (x, y, b0) = some (x', y', b0 + b) ∧
      (x' % 2 = 1 ∨ y' % 2 = 1) ∧ x = x' * 2 ^ b ∧ y = y' * 2 ^ b := by
    induction fuel generalizing x y with
    | zero => omega
    | succ n ih =>
        intro b0
        by_cases h : x % 2 = 0 ∧ y % 2 = 0
        · rw [Loop.whileFuel_of_guard (by simp [h])]
          obtain ⟨x', y', b, hr, hodd, hvx, hvy⟩ :=
            ih (x := x / 2) (y := y / 2) (by omega) (by omega) (by omega) (b0 + 1)
          refine ⟨x', y', b + 1, ?_, hodd, ?_, ?_⟩
          · rw [hr, show b0 + 1 + b = b0 + (b + 1) by omega]
          · rw [pow_succ, ← mul_assoc, ← hvx]
            omega
          · rw [pow_succ, ← mul_assoc, ← hvy]
            omega
        · rw [Loop.whileFuel_of_not (by simpa using h)]
          exact ⟨x, y, 0, rfl, by omega, by simp, by simp⟩
  obtain ⟨x', y', b, hr, hodd, hvx, hvy⟩ := hrun 0
  refine ⟨x', y', b, ?_, hodd, hvx, hvy⟩
  rw [halveBoth, hr, zero_add]

/-- Factors of two do not matter for the common divisors with an odd number. -/
theorem gcd_mul_pow_two {r y : ℕ} (k : ℕ) (hy : y % 2 = 1) :
    Nat.gcd (r * 2 ^ k) y = Nat.gcd r y := by
  have hcop : Nat.Coprime (2 ^ k) y := by
    refine Nat.Coprime.pow_left k ?_
    rw [Nat.Coprime, Nat.gcd_rec, hy, Nat.gcd_one_left]
  exact hcop.gcd_mul_right_cancel r

/-- The difference of two odd numbers, halved until it is odd, keeps the greatest common divisor. -/
theorem halve_sub (fuel : ℕ) {x y : ℕ} (hx : x % 2 = 1) (hy : y % 2 = 1) (hlt : x < y)
    (hfuel : y ≤ fuel) :
    ∃ r, halve fuel (y - x) = .ok r ∧ r % 2 = 1 ∧ r * 2 ≤ y - x ∧ Nat.gcd r x = Nat.gcd x y := by
  obtain ⟨r, k, hr, hodd, hval⟩ := halve_spec fuel (x := y - x) (by omega) (by omega)
  have hk : 0 < k := by
    rcases Nat.eq_zero_or_pos k with rfl | h
    · omega
    · exact h
  refine ⟨r, hr, hodd, ?_, ?_⟩
  · rw [hval]
    exact Nat.mul_le_mul_left r (Nat.le_self_pow hk.ne' 2)
  · rw [← gcd_mul_pow_two k hx, ← hval, Nat.gcd_sub_self_left hlt.le, Nat.gcd_comm]

/-- The last loop of `i_gcd` finds the greatest common divisor of odd numbers. -/
theorem gcdOdd_eq {fuel n x y : ℕ} (hx : x % 2 = 1) (hy : y % 2 = 1) (hfuel : x + y ≤ fuel)
    (hn : x + y ≤ n) : gcdOdd fuel n x y = .ok (Nat.gcd x y) := by
  induction n generalizing x y with
  | zero => omega
  | succ n ih =>
      rw [gcdOdd]
      split_ifs with heq hgt
      · rw [heq, Nat.gcd_self]
      · obtain ⟨r, hr, hodd, hle, hgcd⟩ := halve_sub fuel hx hy (by omega) (by omega)
        show halve fuel (y - x) >>= _ = _
        rw [hr]
        show gcdOdd fuel n r x = _
        rw [ih hodd hx (by omega) (by omega), hgcd]
      · obtain ⟨r, hr, hodd, hle, hgcd⟩ := halve_sub fuel hy hx (by omega) (by omega)
        show halve fuel (x - y) >>= _ = _
        rw [hr]
        show gcdOdd fuel n r y = _
        rw [ih hodd hy (by omega) (by omega), hgcd, Nat.gcd_comm]

/-- **`i_gcd` is the greatest common divisor.** -/
theorem iGcd_eq {fuel : ℕ} {x y : ℤ} (hfuel : x.natAbs + y.natAbs ≤ fuel) :
    iGcd fuel x y = .ok (Int.gcd x y) := by
  rw [iGcd, Int.gcd]
  generalize x.natAbs = p at hfuel ⊢
  generalize y.natAbs = q at hfuel ⊢
  dsimp only
  split_ifs with hp hq
  · rw [hp, Nat.gcd_zero_left]
  · rw [hq, Nat.gcd_zero_right]
  · obtain ⟨p', q', b, hb, hodd, hvp, hvq⟩ := halveBoth_spec fuel (x := p) (y := q)
      (by omega) (by omega) (by omega)
    have hp' : 0 < p' := Nat.pos_of_ne_zero fun h => hp (by rw [hvp, h, zero_mul])
    have hq' : 0 < q' := Nat.pos_of_ne_zero fun h => hq (by rw [hvq, h, zero_mul])
    have hpow : 0 < 2 ^ b := by positivity
    have hpp : p' ≤ p := hvp ▸ Nat.le_mul_of_pos_right p' hpow
    have hqq : q' ≤ q := hvq ▸ Nat.le_mul_of_pos_right q' hpow
    obtain ⟨r, k, hr, hrodd, hrval⟩ := halve_spec fuel hp' (by omega)
    obtain ⟨t, l, ht, htodd, htval⟩ := halve_spec fuel hq' (by omega)
    have hrp : r ≤ p' := hrval ▸ Nat.le_mul_of_pos_right r (by positivity)
    have htq : t ≤ q' := htval ▸ Nat.le_mul_of_pos_right t (by positivity)
    -- at most one of the two was still even
    have hgcd : Nat.gcd r t = Nat.gcd p' q' := by
      rcases hodd with h | h
      · rw [htval, Nat.gcd_comm p' (t * 2 ^ l), gcd_mul_pow_two l h, Nat.gcd_comm t p', hrval,
          gcd_mul_pow_two k htodd]
      · rw [hrval, gcd_mul_pow_two k h, htval, Nat.gcd_comm r (t * 2 ^ l), gcd_mul_pow_two l hrodd,
          Nat.gcd_comm]
    rw [hb]
    show halve fuel p' >>= _ = _
    rw [hr]
    show halve fuel q' >>= _ = _
    rw [ht]
    show gcdOdd fuel fuel r t >>= _ = _
    rw [gcdOdd_eq hrodd htodd (by omega) (by omega), hgcd]
    show Except.ok _ = _
    rw [hvp, hvq, Nat.gcd_mul_right]

variable {L : LongSize}

/-- The common divisors of fixnums are words. -/
theorem gcd_word (n m : Fixnum L) : (long2num L (Int.gcd n.val m.val)).Is
    (Int.gcd n.val m.val) := by
  obtain ⟨hmin, hmax, hhalf⟩ := L.fixnum_range
  have hn0 := n.min_le
  have hn1 := n.le_max
  have hm0 := m.min_le
  have hm1 := m.le_max
  have hpos : (0 : ℤ) < 2 ^ (L.bits - 2) := by positivity
  have hle : Int.gcd n.val m.val ≤ n.val.natAbs ∨ n.val = 0 := by
    rcases eq_or_ne n.val 0 with h | h
    · exact .inr h
    · exact .inl (Nat.le_of_dvd (Int.natAbs_pos.mpr h) (Nat.gcd_dvd_left _ _))
  rcases hle with h | h
  · exact long2num_is (by omega) (by omega)
  · rw [h, Int.gcd_zero_left]
    exact long2num_is (by omega) (by omega)

/-- The loop of `f_gcd` runs Euclid's algorithm, and goes over to `i_gcd` on fixnums. -/
theorem fGcdLoop_settles (a : ℕ) : ∀ {b : ℕ} {x y : Inum L}, x.Is a → y.Is b →
    ∃ r : Inum L, r.Is (Nat.gcd a b) ∧
      ∃ N, ∀ fuel, N ≤ fuel → ∀ n, a < n → fGcdLoop fuel n x y = .ok r := by
  induction a using Nat.strongRecOn with
  | _ a ih =>
      intro b x y hx hy
      -- a turn of the loop on a number that is not zero
      have hturn : a ≠ 0 → ∃ r : Inum L, r.Is (Nat.gcd a b) ∧ ∃ N, ∀ fuel, N ≤ fuel →
          ∀ n, a ≤ n → (intMod fuel y x >>= fun r => fGcdLoop fuel n r x) = .ok r := by
        intro ha
        obtain ⟨m, hm, N, hN⟩ := intMod_settles hy hx (by omega)
        rw [Int.fmod_eq_emod_of_nonneg _ (by omega), ← Int.natCast_mod] at hm
        obtain ⟨r, hr, N', hN'⟩ := ih (b % a) (Nat.mod_lt b (by omega)) hm hx
        refine ⟨r, by rwa [Nat.gcd_rec], max N N', ?_⟩
        intro fuel hfuel n hn
        rw [show intMod fuel y x = .ok m from hN fuel ((le_max_left N N').trans hfuel)]
        exact hN' fuel ((le_max_right N N').trans hfuel) n
          ((Nat.mod_lt b (by omega)).trans_le hn)
      have hpos : ∀ {n : ℕ}, a < n → n = n - 1 + 1 ∧ a ≤ n - 1 := by
        intro n hn
        omega
      cases x with
      | fixnum p =>
          have hp : p.val = a := hx.value
          by_cases ha : a = 0
          · subst ha
            refine ⟨y, by simpa using hy, 0, ?_⟩
            intro fuel _ n hn
            rw [(hpos hn).1, fGcdLoop.eq_def]
            cases y <;> simp [hp]
          · cases y with
            | fixnum q =>
                have hq : q.val = b := hy.value
                have hgcd := gcd_word p q
                rw [hp, hq, Int.gcd_natCast_natCast] at hgcd
                refine ⟨_, hgcd, a + b, ?_⟩
                intro fuel hfuel n hn
                rw [(hpos hn).1, fGcdLoop.eq_def]
                simp only [hp, hq, Int.natCast_eq_zero, ha, if_false]
                rw [iGcd_eq (by omega), Int.gcd_natCast_natCast]
                rfl
            | bignum z =>
                obtain ⟨r, hr, N, hN⟩ := hturn ha
                refine ⟨r, hr, N, ?_⟩
                intro fuel hfuel n hn
                rw [(hpos hn).1, fGcdLoop.eq_def]
                simp only [hp, Int.natCast_eq_zero, ha, if_false]
                exact hN fuel hfuel _ (hpos hn).2
      | bignum z =>
          have ha : a ≠ 0 := by
            intro h
            have hrange := hx.canonical.1
            rw [show z.toInt = a from hx.value, h] at hrange
            have h0 := L.fixnumMin_nonpos
            have h1 := L.fixnumMax_nonneg
            omega
          obtain ⟨r, hr, N, hN⟩ := hturn ha
          refine ⟨r, hr, N, ?_⟩
          intro fuel hfuel n hn
          rw [(hpos hn).1, fGcdLoop.eq_def]
          exact hN fuel hfuel _ (hpos hn).2

/-- **`f_gcd` is the greatest common divisor.** -/
theorem fGcd_settles {a b : ℤ} {x y : Inum L} (hx : x.Is a) (hy : y.Is b) :
    ∃ r : Inum L, r.Is (Int.gcd a b) ∧ Fuel.Settles (fun fuel => fGcd fuel x y) (.ok r) := by
  -- the sign is taken off by a negation
  have habs : ∀ {z : Inum L} {c : ℤ}, z.Is c →
      (if fNegativeP z then intNegate z else z).Is (c.natAbs : ℤ) := by
    intro z c hz
    rw [fNegativeP_eq hz]
    by_cases hc : c < 0
    · simp only [hc, decide_true, if_true]
      rw [Int.ofNat_natAbs_of_nonpos hc.le]
      exact intNegate_is hz
    · simp only [hc, decide_false, Bool.false_eq_true, if_false]
      rw [Int.natAbs_of_nonneg (by omega)]
      exact hz
  have hgeneric : ∃ r : Inum L, r.Is (Int.gcd a b) ∧
      Fuel.Settles (fun fuel => fGcdGeneric fuel x y) (.ok r) := by
    unfold fGcdGeneric
    have hx' := habs hx
    have hy' := habs hy
    dsimp only
    generalize (if fNegativeP x then intNegate x else x) = p at hx' ⊢
    generalize (if fNegativeP y then intNegate y else y) = q at hy' ⊢
    rw [fZeroP_eq hx', fZeroP_eq hy', Int.gcd]
    by_cases ha : a.natAbs = 0
    · refine ⟨q, by rwa [ha, Nat.gcd_zero_left], ?_⟩
      simp only [ha, Nat.cast_zero, decide_true, if_true]
      exact Fuel.Settles.const _
    · by_cases hb : b.natAbs = 0
      · refine ⟨p, by rwa [hb, Nat.gcd_zero_right], ?_⟩
        simp only [Int.natCast_eq_zero, ha, hb, decide_true, decide_false, Bool.false_eq_true,
          if_true, if_false]
        exact Fuel.Settles.const _
      · obtain ⟨r, hr, N, hN⟩ := fGcdLoop_settles _ hx' hy'
        refine ⟨r, hr, .of_le (max N (a.natAbs + 1)) fun fuel hfuel => ?_⟩
        simp only [Int.natCast_eq_zero, ha, hb, decide_false, Bool.false_eq_true, if_false]
        exact hN fuel (by omega) fuel (by omega)
  cases x with
  | fixnum n =>
      cases y with
      | fixnum m =>
          have hn : n.val = a := hx.value
          have hm : m.val = b := hy.value
          subst hn hm
          refine ⟨_, gcd_word n m, .of_le (n.val.natAbs + m.val.natAbs) fun fuel hfuel => ?_⟩
          show iGcd fuel n.val m.val >>= _ = _
          rw [iGcd_eq hfuel]
          rfl
      | bignum z => exact hgeneric
  | bignum z => exact hgeneric

end Gcd

/-! ## Sums and products -/

section Paths

variable {L : LongSize}

/-- `div` by a divisor. -/
theorem intDiv_of_dvd {x y : Inum L} {a b : ℤ} (hx : x.Is a) (hy : y.Is b) (hb : 0 < b)
    (hdvd : b ∣ a) :
    ∃ r : Inum L, r.Is (a / b) ∧ Fuel.Settles (fun fuel => intDiv fuel x y) (.ok r) := by
  rw [← Int.fdiv_eq_ediv_of_dvd hdvd]
  exact intDiv_settles hx hy hb.ne'

theorem fixnum_range_word (n : Fixnum L) :
    -2 ^ (L.bits - 2) ≤ n.val ∧ n.val < 2 ^ (L.bits - 2) := by
  obtain ⟨hmin, hmax, -⟩ := L.fixnum_range
  have h0 := n.min_le
  have h1 := n.le_max
  omega

/-- A fixnum stays one when it is divided. -/
theorem fixnum_tdiv_range (n : Fixnum L) {g : ℤ} (hg : 0 < g) :
    -2 ^ (L.bits - 2) ≤ n.val.tdiv g ∧ n.val.tdiv g < 2 ^ (L.bits - 2) := by
  obtain ⟨h0, h1⟩ := fixnum_range_word n
  have hpos : (0 : ℤ) < 2 ^ (L.bits - 2) := by positivity
  refine ⟨?_, ?_⟩
  · calc -2 ^ (L.bits - 2) ≤ (-2 ^ (L.bits - 2) : ℤ).tdiv g := by
          rw [Int.neg_tdiv, Int.tdiv_eq_ediv_of_nonneg hpos.le]
          exact neg_le_neg (Int.ediv_le_self _ hpos.le)
      _ ≤ n.val.tdiv g := Int.tdiv_le_tdiv hg (by omega)
  · rcases le_or_gt 0 n.val with h | h
    · rw [Int.tdiv_eq_ediv_of_nonneg h]
      exact (Int.ediv_le_self _ h).trans_lt (by omega)
    · calc n.val.tdiv g ≤ (0 : ℤ).tdiv g := Int.tdiv_le_tdiv hg h.le
        _ = 0 := Int.zero_tdiv g
        _ < 2 ^ (L.bits - 2) := hpos

/-- A computation settles on a pair of Integers. -/
def SettlesPair (f : ℕ → Except DivError (Inum L × Inum L)) (p q : ℤ) : Prop :=
  ∃ num den : Inum L, num.Is p ∧ den.Is q ∧ Fuel.Settles f (.ok (num, den))

/-- The numerator and the denominator of a sum, as `f_addsub` computes them. -/
def addsubParts (an ad bn bd : ℤ) : ℤ × ℤ :=
  let g : ℤ := Int.gcd ad bd
  let c := an * (bd / g) + bn * (ad / g)
  let g2 : ℤ := Int.gcd c g
  (c / g2, bd / g2 * (ad / g))

section Parts

variable {an ad bn bd : ℤ} {x u y v : Inum L}

/-- The end of `f_addsub`, on positive denominators. -/
theorem addsubEnd_settles {g c : Inum L} {gv cv : ℤ} (hu : u.Is ad) (hv : v.Is bd) (hg : g.Is gv)
    (hc : c.Is cv) (had : 0 < ad) (hgpos : 0 < gv) (hga : gv ∣ ad) (hgb : gv ∣ bd) :
    SettlesPair (fun fuel => addsubEnd fuel u v g c) (cv / Int.gcd cv gv)
      (bd / Int.gcd cv gv * (ad / gv)) := by
  have hg2 : (0 : ℤ) < Int.gcd cv gv := Int.natCast_pos.mpr
    (Int.gcd_pos_of_ne_zero_right _ hgpos.ne')
  obtain ⟨b, hb, hbrun⟩ := intDiv_of_dvd hu hg hgpos hga
  obtain ⟨g', hg', hgrun⟩ := fGcd_settles hc hg
  obtain ⟨num, hnum, hnumrun⟩ := intDiv_of_dvd hc hg' hg2 (Int.gcd_dvd_left ..)
  obtain ⟨a, ha, harun⟩ := intDiv_of_dvd hv hg' hg2 ((Int.gcd_dvd_right ..).trans hgb)
  have hbpos : 0 < ad / gv := Int.ediv_pos_of_pos_of_dvd had hgpos.le hga
  refine ⟨num, fMul a b, hnum, fMul_is ha hb (not_squareOverflow_of_pos hbpos), ?_⟩
  exact hbrun.bind (hgrun.bind (hnumrun.bind (harun.bind (.const _))))

/-- The sum or the difference of the two products. -/
theorem fAddSub_is {a b : Inum L} {p q : ℤ} (plus : Bool) (ha : a.Is p) (hb : b.Is q) :
    (if plus then fAdd a b else fSub a b).Is (p + (if plus then q else -q)) := by
  cases plus with
  | true => exact fAdd_is ha hb
  | false =>
      have := fSub_is ha hb
      rwa [sub_eq_add_neg] at this

/-- **The generic path of `f_addsub`.** -/
theorem addsubGeneric_settles (hx : x.Is an) (hu : u.Is ad) (hy : y.Is bn) (hv : v.Is bd)
    (had : 0 < ad) (hbd : 0 < bd) (plus : Bool) :
    SettlesPair (fun fuel => addsubGeneric fuel x u y v plus)
      (addsubParts an ad (if plus then bn else -bn) bd).1
      (addsubParts an ad (if plus then bn else -bn) bd).2 := by
  have hgpos : (0 : ℤ) < Int.gcd ad bd := Int.natCast_pos.mpr
    (Int.gcd_pos_of_ne_zero_left _ had.ne')
  have hga : (Int.gcd ad bd : ℤ) ∣ ad := Int.gcd_dvd_left ..
  have hgb : (Int.gcd ad bd : ℤ) ∣ bd := Int.gcd_dvd_right ..
  obtain ⟨g, hg, hgrun⟩ := fGcd_settles hu hv
  obtain ⟨t, ht, htrun⟩ := intDiv_of_dvd hv hg hgpos hgb
  obtain ⟨w, hw, hwrun⟩ := intDiv_of_dvd hu hg hgpos hga
  have ha := fMul_is hx ht (not_squareOverflow_of_pos (Int.ediv_pos_of_pos_of_dvd hbd hgpos.le hgb))
  have hb := fMul_is hy hw (not_squareOverflow_of_pos (Int.ediv_pos_of_pos_of_dvd had hgpos.le hga))
  have hc := fAddSub_is plus ha hb
  obtain ⟨num, den, hnum, hden, hrun⟩ := addsubEnd_settles hu hv hg hc had hgpos hga hgb
  have hsign : an * (bd / Int.gcd ad bd) + (if plus then bn * (ad / Int.gcd ad bd)
      else -(bn * (ad / Int.gcd ad bd))) = an * (bd / Int.gcd ad bd)
        + (if plus then bn else -bn) * (ad / Int.gcd ad bd) := by
    cases plus <;> simp
  rw [hsign] at hnum hden
  exact ⟨num, den, hnum, hden, hgrun.bind (htrun.bind (hwrun.bind hrun))⟩

/-- **The path of `f_addsub` for fixnums.** -/
theorem addsubFix_settles (an : Fixnum L) {ad : Fixnum L} (bn bd : Fixnum L) (had : 0 < ad.val)
    (plus : Bool) :
    SettlesPair (fun fuel => addsubFix fuel an ad bn bd plus)
      (addsubParts an.val ad.val (if plus then bn.val else -bn.val) bd.val).1
      (addsubParts an.val ad.val (if plus then bn.val else -bn.val) bd.val).2 := by
  have hgpos : (0 : ℤ) < Int.gcd ad.val bd.val :=
    Int.natCast_pos.mpr (Int.gcd_pos_of_ne_zero_left _ had.ne')
  have hga : (Int.gcd ad.val bd.val : ℤ) ∣ ad.val := Int.gcd_dvd_left ..
  have hgb : (Int.gcd ad.val bd.val : ℤ) ∣ bd.val := Int.gcd_dvd_right ..
  have hfix := @fixnum_range_word L
  have hb' := fixnum_tdiv_range bd hgpos
  have ha' := fixnum_tdiv_range ad hgpos
  have ha := fImul_is (hfix an).1 (hfix an).2 hb'.1 hb'.2
  have hb := fImul_is (hfix bn).1 (hfix bn).2 ha'.1 ha'.2
  have hc := fAddSub_is plus ha hb
  rw [Int.tdiv_eq_ediv_of_dvd hgb, Int.tdiv_eq_ediv_of_dvd hga] at hc
  obtain ⟨num, den, hnum, hden, hrun⟩ := addsubEnd_settles (u := .fixnum ad) (v := .fixnum bd)
    ⟨trivial, rfl⟩ ⟨trivial, rfl⟩ (gcd_word ad bd) hc had hgpos hga hgb
  have hsign : an.val * (bd.val / Int.gcd ad.val bd.val)
      + (if plus then bn.val * (ad.val / Int.gcd ad.val bd.val)
        else -(bn.val * (ad.val / Int.gcd ad.val bd.val)))
      = an.val * (bd.val / Int.gcd ad.val bd.val)
        + (if plus then bn.val else -bn.val) * (ad.val / Int.gcd ad.val bd.val) := by
    cases plus <;> simp
  rw [hsign] at hnum hden
  refine ⟨num, den, hnum, hden, ?_⟩
  have hgcd : Fuel.Settles (fun fuel => iGcd fuel ad.val bd.val)
      (.ok (Int.gcd ad.val bd.val : ℤ)) := .of_le _ fun _ hfuel => iGcd_eq hfuel
  refine hgcd.bind ?_
  rw [Int.tdiv_eq_ediv_of_dvd hgb, Int.tdiv_eq_ediv_of_dvd hga]
  exact hrun

end Parts

/-- The four parts are fixnums. -/
def allFixnum : Inum L → Inum L → Inum L → Inum L → Bool
  | .fixnum _, .fixnum _, .fixnum _, .fixnum _ => true
  | _, _, _, _ => false

/-- **The path of `f_muldiv` for fixnums**; the products of machine words are checked. -/
theorem muldivFix_settles {an ad bn bd : Fixnum L} (had : 0 < ad.val) (hbd : 0 < bd.val) :
    SettlesPair (fun fuel => muldivFix fuel an ad bn bd)
      (an.val / Int.gcd an.val bd.val * (bn.val / Int.gcd ad.val bn.val))
      (ad.val / Int.gcd ad.val bn.val * (bd.val / Int.gcd an.val bd.val)) := by
  have hg1 : (0 : ℤ) < Int.gcd an.val bd.val :=
    Int.natCast_pos.mpr (Int.gcd_pos_of_ne_zero_right _ hbd.ne')
  have hg2 : (0 : ℤ) < Int.gcd ad.val bn.val :=
    Int.natCast_pos.mpr (Int.gcd_pos_of_ne_zero_left _ had.ne')
  have han := fixnum_tdiv_range an hg1
  have hbn := fixnum_tdiv_range bn hg2
  have had' := fixnum_tdiv_range ad hg2
  have hbd' := fixnum_tdiv_range bd hg1
  have hnum := fImul_is han.1 han.2 hbn.1 hbn.2
  have hden := fImul_is had'.1 had'.2 hbd'.1 hbd'.2
  have hrun : Fuel.Settles (fun fuel => muldivFix fuel an ad bn bd) (.ok
      (fImul L (an.val.tdiv (Int.gcd an.val bd.val)) (bn.val.tdiv (Int.gcd ad.val bn.val)),
        fImul L (ad.val.tdiv (Int.gcd ad.val bn.val)) (bd.val.tdiv (Int.gcd an.val bd.val)))) := by
    have h1 : Fuel.Settles (fun fuel => iGcd fuel an.val bd.val)
        (.ok (Int.gcd an.val bd.val : ℤ)) := .of_le _ fun _ hfuel => iGcd_eq hfuel
    have h2 : Fuel.Settles (fun fuel => iGcd fuel ad.val bn.val)
        (.ok (Int.gcd ad.val bn.val : ℤ)) := .of_le _ fun _ hfuel => iGcd_eq hfuel
    exact h1.bind (h2.bind (.const _))
  refine ⟨_, _, ?_, ?_, hrun⟩
  · rw [← Int.tdiv_eq_ediv_of_dvd (Int.gcd_dvd_left ..),
      ← Int.tdiv_eq_ediv_of_dvd (Int.gcd_dvd_right ..)]
    exact hnum
  · rw [← Int.tdiv_eq_ediv_of_dvd (Int.gcd_dvd_left ..),
      ← Int.tdiv_eq_ediv_of_dvd (Int.gcd_dvd_right ..)]
    exact hden

section Parts

variable {an ad bn bd : ℤ} {x u y v : Inum L}

/-- **The other path of `f_muldiv`**, up to the product of the numerators. -/
theorem muldivGeneric_settles (hx : x.Is an) (hu : u.Is ad) (hy : y.Is bn) (hv : v.Is bd)
    (had : 0 < ad) (hbd : 0 < bd) {p : ℤ}
    (hmul : ∀ {s t : Inum L}, s.Is (an / Int.gcd an bd) → t.Is (bn / Int.gcd ad bn) →
      (fMul s t).Is p) :
    SettlesPair (fun fuel => muldivGeneric fuel x u y v) p
      (ad / Int.gcd ad bn * (bd / Int.gcd an bd)) := by
  have hg1 : (0 : ℤ) < Int.gcd an bd := Int.natCast_pos.mpr (Int.gcd_pos_of_ne_zero_right _ hbd.ne')
  have hg2 : (0 : ℤ) < Int.gcd ad bn := Int.natCast_pos.mpr (Int.gcd_pos_of_ne_zero_left _ had.ne')
  obtain ⟨g, hg, hgrun⟩ := fGcd_settles hx hv
  obtain ⟨g', hg', hgrun'⟩ := fGcd_settles hu hy
  obtain ⟨a, ha, harun⟩ := intDiv_of_dvd hx hg hg1 (Int.gcd_dvd_left ..)
  obtain ⟨b, hb, hbrun⟩ := intDiv_of_dvd hy hg' hg2 (Int.gcd_dvd_right ..)
  obtain ⟨c, hc, hcrun⟩ := intDiv_of_dvd hu hg' hg2 (Int.gcd_dvd_left ..)
  obtain ⟨d, hd, hdrun⟩ := intDiv_of_dvd hv hg hg1 (Int.gcd_dvd_right ..)
  have hpos : 0 < bd / Int.gcd an bd :=
    Int.ediv_pos_of_pos_of_dvd hbd hg1.le (Int.gcd_dvd_right ..)
  refine ⟨fMul a b, fMul c d, hmul ha hb, fMul_is hc hd (not_squareOverflow_of_pos hpos), ?_⟩
  exact hgrun.bind (hgrun'.bind (harun.bind (hbrun.bind (hcrun.bind (hdrun.bind (.const _))))))

end Parts

end Paths

/-! ## Exactness -/

section Exact

variable {L : LongSize}

/-- The denominator is positive and coprime to the numerator. -/
structure Rational.Canonical (r : Rational L) : Prop where
  num : r.num.Canonical
  den : r.den.Canonical
  pos : 0 < r.den.toInt
  coprime : IsCoprime r.num.toInt r.den.toInt

/-- The number that a Rational stands for. -/
def Rational.toRat (r : Rational L) : ℚ := r.num.toInt / r.den.toInt

/-- A canonical Rational is determined by its number. -/
theorem Rational.Canonical.ext {r r' : Rational L} (h : r.Canonical) (h' : r'.Canonical)
    (heq : r.toRat = r'.toRat) : r = r' := by
  have hcop := Int.isCoprime_iff_gcd_eq_one.mp h.coprime
  have hcop' := Int.isCoprime_iff_gcd_eq_one.mp h'.coprime
  have hnum : r.num.toInt = r'.num.toInt := by
    rw [← Rat.num_div_eq_of_coprime h.pos hcop, ← Rat.num_div_eq_of_coprime h'.pos hcop']
    exact congrArg _ heq
  have hden : r.den.toInt = r'.den.toInt := by
    rw [← Rat.den_div_eq_of_coprime h.pos hcop, ← Rat.den_div_eq_of_coprime h'.pos hcop']
    exact congrArg (fun q : ℚ => (q.den : ℤ)) heq
  cases r
  cases r'
  congr 1
  · exact h.num.ext h'.num hnum
  · exact h.den.ext h'.den hden

/-- What the class makes of a Rational: with `Unify`, one with the denominator 1 becomes its
numerator. -/
def Rational.unified (unify : Bool) (r : Rational L) : Numeric L :=
  if unify && r.den.toInt = 1 then .integer r.num else .rational r

/-- With enough fuel the result is the canonical Rational that is equal to `q`. -/
def SettlesRat (f : ℕ → Except DivError (Numeric L)) (unify : Bool) (q : ℚ) : Prop :=
  ∃ r : Rational L, r.Canonical ∧ r.toRat = q ∧ Fuel.Settles f (.ok (r.unified unify))

theorem nuratNoReduce_eq {num den : Inum L} {q : ℤ} (hden : den.Is q) (hq : 0 < q)
    (unify : Bool) :
    nuratNoReduce unify num den = .ok (Rational.unified unify ⟨num, den⟩) := by
  have hcmp : intCmp den (.zero L) = 1 := by
    rw [intCmp_eq hden (Inum.zero_is L), sub_zero]
    exact Int.sign_eq_one_of_pos hq
  simp only [nuratNoReduce, hcmp, one_ne_zero, if_false, Rational.unified,
    show (1 : ℤ) ≠ -1 by decide]
  rw [intEqual_eq hden (Inum.one_is L), hden.value, Bool.and_comm]

/-- A pair of coprime parts makes the result. -/
theorem settlesRat_of_pair {f : ℕ → Except DivError (Inum L × Inum L)} {p q n d : ℤ}
    (h : SettlesPair f p q) (hq : 0 < q) (hcop : IsCoprime p q) (hd : d ≠ 0) (hval : p * d = n * q)
    (unify : Bool) :
    SettlesRat (fun fuel => f fuel >>= fun r => nuratNoReduce unify r.1 r.2) unify (n / d) := by
  obtain ⟨num, den, hnum, hden, hrun⟩ := h
  refine ⟨⟨num, den⟩, ⟨hnum.canonical, hden.canonical, ?_, ?_⟩, ?_, ?_⟩
  · exact hden.value ▸ hq
  · exact hnum.value ▸ hden.value ▸ hcop
  · rw [Rational.toRat, hnum.value, hden.value, div_eq_div_iff]
    · exact_mod_cast hval
    · exact_mod_cast hq.ne'
    · exact_mod_cast hd
  · refine hrun.bind ?_
    rw [nuratNoReduce_eq hden hq]
    exact .const _

/-- Four Integers are fixnums or take the generic path. -/
theorem allFixnum_cases (x u y v : Inum L) :
    (∃ a b c d : Fixnum L, x = .fixnum a ∧ u = .fixnum b ∧ y = .fixnum c ∧ v = .fixnum d) ∨
      allFixnum x u y v = false := by
  cases x <;> cases u <;> cases y <;> cases v <;> simp [allFixnum]

theorem fAddsub_generic {x u y v : Inum L} (h : allFixnum x u y v = false) (fuel : ℕ)
    (unify plus : Bool) :
    fAddsub fuel unify x u y v plus
      = addsubGeneric fuel x u y v plus >>= fun r => nuratNoReduce unify r.1 r.2 := by
  cases x <;> cases u <;> cases y <;> cases v <;> first | rfl | exact absurd h (by simp [allFixnum])

theorem muldivMul_generic {x u y v : Inum L} (h : allFixnum x u y v = false) (fuel : ℕ)
    (unify : Bool) :
    muldivMul fuel unify x u y v
      = muldivGeneric fuel x u y v >>= fun r => nuratNoReduce unify r.1 r.2 := by
  cases x <;> cases u <;> cases y <;> cases v <;> first | rfl | exact absurd h (by simp [allFixnum])

section Values

variable {an ad bn bd : ℤ} {x u y v : Inum L}

/-- **`f_addsub` is exact.** -/
theorem fAddsub_settles (hx : x.Is an) (hu : u.Is ad) (hy : y.Is bn) (hv : v.Is bd) (had : 0 < ad)
    (hbd : 0 < bd) (ha : IsCoprime an ad) (hb : IsCoprime bn bd) (unify plus : Bool) :
    SettlesRat (fun fuel => fAddsub fuel unify x u y v plus) unify
      ((an * bd + (if plus then bn else -bn) * ad : ℤ) / (ad * bd : ℤ)) := by
  have hb' : IsCoprime (if plus then bn else -bn) bd := by
    cases plus with
    | true => exact hb
    | false => exact hb.neg_left
  obtain ⟨-, -, -, -, -, -, hpos, hcop, hval⟩ := knuth_add had hbd ha hb'
  have hne : ad * bd ≠ 0 := (mul_pos had hbd).ne'
  rcases allFixnum_cases x u y v with ⟨a, b, c, d, rfl, rfl, rfl, rfl⟩ | h
  · obtain ⟨-, rfl⟩ := hx
    obtain ⟨-, rfl⟩ := hu
    obtain ⟨-, rfl⟩ := hy
    obtain ⟨-, rfl⟩ := hv
    exact settlesRat_of_pair (addsubFix_settles a c d had plus) hpos hcop hne hval unify
  · simp only [fAddsub_generic h]
    exact settlesRat_of_pair (addsubGeneric_settles hx hu hy hv had hbd plus) hpos hcop hne hval
      unify

/-- The product of the reduced numerators is the one that overflows, and `fix_mul` takes it. -/
def ProductOverflow (x u y v : Inum L) : Prop :=
  allFixnum x u y v = false ∧ SquareOverflow L (x.toInt / Int.gcd x.toInt v.toInt)
    (y.toInt / Int.gcd u.toInt y.toInt)

instance (x u y v : Inum L) : Decidable (ProductOverflow x u y v) :=
  inferInstanceAs (Decidable (_ ∧ _))

/-- **`f_muldiv` is exact without the overflow.** -/
theorem muldivMul_settles (hx : x.Is an) (hu : u.Is ad) (hy : y.Is bn) (hv : v.Is bd) (had : 0 < ad)
    (hbd : 0 < bd) (ha : IsCoprime an ad) (hb : IsCoprime bn bd) (hover : ¬ ProductOverflow x u y v)
    (unify : Bool) :
    SettlesRat (fun fuel => muldivMul fuel unify x u y v) unify
      ((an * bn : ℤ) / (ad * bd : ℤ)) := by
  obtain ⟨-, -, -, -, -, -, hpos, hpos', hcop, hval⟩ := knuth_mul had hbd ha hb
  have hne : ad * bd ≠ 0 := (mul_pos had hbd).ne'
  have hden := mul_pos hpos hpos'
  rcases allFixnum_cases x u y v with ⟨a, b, c, d, rfl, rfl, rfl, rfl⟩ | h
  · obtain ⟨-, rfl⟩ := hx
    obtain ⟨-, rfl⟩ := hu
    obtain ⟨-, rfl⟩ := hy
    obtain ⟨-, rfl⟩ := hv
    exact settlesRat_of_pair (muldivFix_settles had hbd) hden hcop hne hval unify
  · have hsq : ¬ SquareOverflow L (an / Int.gcd an bd) (bn / Int.gcd ad bn) := by
      rw [← hx.value, ← hu.value, ← hy.value, ← hv.value]
      exact fun hsq => hover ⟨h, hsq⟩
    simp only [muldivMul_generic h]
    refine settlesRat_of_pair ?_ hden hcop hne hval unify
    exact muldivGeneric_settles hx hu hy hv had hbd fun hs ht => fMul_is hs ht hsq

/-- **With the overflow the numerator is negative**, though both factors are. -/
theorem muldivMul_overflow (hx : x.Is an) (hu : u.Is ad) (hy : y.Is bn) (hv : v.Is bd)
    (had : 0 < ad)
    (hbd : 0 < bd) (hover : ProductOverflow x u y v) (unify : Bool) :
    ∃ num den : Inum L, num.toInt = -2 ^ 62 ∧ 0 < den.toInt ∧
      Fuel.Settles (fun fuel => muldivMul fuel unify x u y v)
        (.ok (Rational.unified unify ⟨num, den⟩)) := by
  obtain ⟨h, hsq⟩ := hover
  rw [hx.value, hu.value, hy.value, hv.value] at hsq
  have hg1 : (0 : ℤ) < Int.gcd an bd := Int.natCast_pos.mpr (Int.gcd_pos_of_ne_zero_right _ hbd.ne')
  have hg2 : (0 : ℤ) < Int.gcd ad bn := Int.natCast_pos.mpr (Int.gcd_pos_of_ne_zero_left _ had.ne')
  have hden : 0 < ad / Int.gcd ad bn * (bd / Int.gcd an bd) :=
    mul_pos (Int.ediv_pos_of_pos_of_dvd had hg2.le (Int.gcd_dvd_left ..))
      (Int.ediv_pos_of_pos_of_dvd hbd hg1.le (Int.gcd_dvd_right ..))
  obtain ⟨num, den, hnum, hd, hrun⟩ := muldivGeneric_settles hx hu hy hv had hbd
    fun hs ht => fMul_squareOverflow hs ht hsq
  refine ⟨num, den, hnum.value, hd.value ▸ hden, ?_⟩
  simp only [muldivMul_generic h]
  refine hrun.bind ?_
  rw [nuratNoReduce_eq hd hden]
  exact .const _

end Values

/-! ## The methods -/

variable {a b : Rational L}

/-- The methods are exact for the operands `a` and `b`. -/
structure ExactRational (a b : Rational L) : Prop where
  add : ∀ unify, SettlesRat (fun fuel => nuratAdd fuel unify a (.rational b)) unify
    (a.toRat + b.toRat)
  sub : ∀ unify, SettlesRat (fun fuel => nuratSub fuel unify a (.rational b)) unify
    (a.toRat - b.toRat)
  mul : ∀ unify, SettlesRat (fun fuel => nuratMul fuel unify a (.rational b)) unify
    (a.toRat * b.toRat)
  div : ∀ unify, b.toRat ≠ 0 → SettlesRat (fun fuel => nuratDiv fuel unify a (.rational b)) unify
    (a.toRat / b.toRat)
  divZero : ∀ fuel unify, b.toRat = 0 → nuratDiv fuel unify a (.rational b) = .error .zeroDiv
  /-- An Integer operand is as good as the Rational with the denominator 1. -/
  integer : ∀ fuel unify n, b = ⟨n, .one L⟩ →
    nuratAdd fuel unify a (.integer n) = nuratAdd fuel unify a (.rational b) ∧
    nuratSub fuel unify a (.integer n) = nuratSub fuel unify a (.rational b) ∧
    nuratMul fuel unify a (.integer n) = nuratMul fuel unify a (.rational b) ∧
    nuratDiv fuel unify a (.integer n) = nuratDiv fuel unify a (.rational b)
  /-- The two paths of `f_addsub` agree where both apply. -/
  paths : ∀ an ad bn bd plus, a = ⟨.fixnum an, .fixnum ad⟩ → b = ⟨.fixnum bn, .fixnum bd⟩ →
    ∃ r, Fuel.Settles (fun fuel => addsubFix fuel an ad bn bd plus) (.ok r) ∧
      Fuel.Settles (fun fuel => addsubGeneric fuel a.num a.den b.num b.den plus) (.ok r)

theorem Rational.Canonical.den_ne (ha : a.Canonical) : (a.den.toInt : ℚ) ≠ 0 := by
  exact_mod_cast ha.pos.ne'

theorem Rational.Canonical.toRat_eq_zero (hb : b.Canonical) : b.toRat = 0 ↔ b.num.toInt = 0 := by
  rw [Rational.toRat, div_eq_zero_iff, or_iff_left hb.den_ne, Int.cast_eq_zero]

theorem nuratAdd_settles (ha : a.Canonical) (hb : b.Canonical) (unify : Bool) :
    SettlesRat (fun fuel => nuratAdd fuel unify a (.rational b)) unify (a.toRat + b.toRat) := by
  have h := fAddsub_settles ha.num.is ha.den.is hb.num.is hb.den.is ha.pos hb.pos ha.coprime
    hb.coprime unify true
  rw [Rational.toRat, Rational.toRat, div_add_div _ _ ha.den_ne hb.den_ne]
  simp only [if_true] at h
  push_cast at h
  rw [mul_comm (b.num.toInt : ℚ)] at h
  exact h

theorem nuratSub_settles (ha : a.Canonical) (hb : b.Canonical) (unify : Bool) :
    SettlesRat (fun fuel => nuratSub fuel unify a (.rational b)) unify (a.toRat - b.toRat) := by
  have h := fAddsub_settles ha.num.is ha.den.is hb.num.is hb.den.is ha.pos hb.pos ha.coprime
    hb.coprime unify false
  rw [Rational.toRat, Rational.toRat, div_sub_div _ _ ha.den_ne hb.den_ne]
  simp only [Bool.false_eq_true, if_false, neg_mul, ← sub_eq_add_neg] at h
  push_cast at h
  rw [mul_comm (b.num.toInt : ℚ)] at h
  exact h

/-- The product of the numerators of `a` and `b`, each without what it has in common with the
other's denominator, is the square of -2^31, and one of the four parts is a bignum. -/
def MulOverflow (a b : Rational L) : Prop := ProductOverflow a.num a.den b.num b.den

instance (a b : Rational L) : Decidable (MulOverflow a b) :=
  inferInstanceAs (Decidable (ProductOverflow _ _ _ _))

theorem nuratMul_settles (ha : a.Canonical) (hb : b.Canonical) (hover : ¬ MulOverflow a b)
    (unify : Bool) :
    SettlesRat (fun fuel => nuratMul fuel unify a (.rational b)) unify (a.toRat * b.toRat) := by
  have h := muldivMul_settles ha.num.is ha.den.is hb.num.is hb.den.is ha.pos hb.pos ha.coprime
    hb.coprime hover unify
  rw [Rational.toRat, Rational.toRat, div_mul_div_comm]
  push_cast at h
  exact h

/-- **A product that overflows has the wrong sign.** -/
theorem nuratMul_overflow (ha : a.Canonical) (hb : b.Canonical) (hover : MulOverflow a b) :
    ¬ SettlesRat (fun fuel => nuratMul fuel false a (.rational b)) false (a.toRat * b.toRat) := by
  rintro ⟨r, -, hval, hrun⟩
  obtain ⟨num, den, hnum, hden, hrun'⟩ := muldivMul_overflow ha.num.is ha.den.is hb.num.is hb.den.is
    ha.pos hb.pos hover false
  have heq : r = ⟨num, den⟩ := by
    have h := hrun.unique hrun'
    simp only [Rational.unified, Bool.false_and, Bool.false_eq_true, if_false, Except.ok.injEq,
      Numeric.rational.injEq] at h
    exact h
  -- the numerators are negative, so the product is positive
  have hneg : ∀ {n : ℤ} {g : ℕ}, n / (g : ℤ) = -2 ^ 31 → n < 0 := by
    intro n g h
    by_contra hn
    have := Int.ediv_nonneg (a := n) (b := g) (by omega) (by omega)
    omega
  have ha0 : (a.num.toInt : ℚ) < 0 := by exact_mod_cast hneg hover.2.2.1
  have hb0 : (b.num.toInt : ℚ) < 0 := by exact_mod_cast hneg hover.2.2.2
  have hda : (0 : ℚ) < a.den.toInt := by exact_mod_cast ha.pos
  have hdb : (0 : ℚ) < b.den.toInt := by exact_mod_cast hb.pos
  have hpos : 0 < a.toRat * b.toRat :=
    mul_pos_of_neg_of_neg (div_neg_of_neg_of_pos ha0 hda) (div_neg_of_neg_of_pos hb0 hdb)
  have hd : (0 : ℚ) < den.toInt := by exact_mod_cast hden
  have hn : (num.toInt : ℚ) < 0 := by exact_mod_cast hnum ▸ (by decide : (-2 ^ 62 : ℤ) < 0)
  rw [← hval, heq] at hpos
  exact absurd (div_neg_of_neg_of_pos hn hd) (not_lt.mpr hpos.le)

/-- `f_zero_p` of a canonical Rational. -/
theorem zeroP_eq (hb : b.Canonical) : (Numeric.rational b).zeroP = decide (b.num.toInt = 0) := by
  obtain ⟨num, den⟩ := b
  have heq := intEqual_eq hb.num.is (Inum.zero_is L)
  -- the denominator of zero is 1
  have hone : num.toInt = 0 → den.toInt = 1 := by
    intro h
    have hcop := Int.isCoprime_iff_gcd_eq_one.mp hb.coprime
    simp only [h, Int.gcd_zero_left] at hcop
    have := hb.pos
    dsimp only at this
    omega
  cases den with
  | fixnum d =>
      show (decide (d.val = 1) && intEqual num (.zero L)) = _
      rw [heq, ← Bool.decide_and, decide_eq_decide]
      exact ⟨fun h => h.2, fun h => ⟨hone h, h⟩⟩
  | bignum d =>
      symm
      show decide (num.toInt = 0) = false
      rw [decide_eq_false_iff_not]
      intro h
      have hd : d.toInt = 1 := hone h
      have hrange : d.toInt < L.fixnumMin ∨ L.fixnumMax < d.toInt := hb.den.1
      have h0 := L.fixnumMin_nonpos
      have h1 : 1 ≤ L.fixnumMax := by cases L <;> decide
      omega

theorem nuratDiv_settles (ha : a.Canonical) (hb : b.Canonical) (hne : b.toRat ≠ 0) (unify : Bool) :
    SettlesRat (fun fuel => nuratDiv fuel unify a (.rational b)) unify (a.toRat / b.toRat) := by
  have hb0 : b.num.toInt ≠ 0 := fun h => hne (hb.toRat_eq_zero.mpr h)
  have hb0' : (b.num.toInt : ℚ) ≠ 0 := by exact_mod_cast hb0
  have hzero : (Numeric.rational b).zeroP = false := by
    rw [zeroP_eq hb]
    exact decide_eq_false hb0
  -- a product with the denominator of `b`, which is positive, does not overflow
  have hover : ∀ x v : Inum L, ¬ ProductOverflow x a.den b.den v := by
    rintro x v ⟨-, -, -, h⟩
    have := Int.ediv_nonneg (a := b.den.toInt) (b := Int.gcd a.den.toInt b.den.toInt) hb.pos.le
      (by omega)
    omega
  simp only [nuratDiv, hzero, Bool.false_eq_true, if_false, fMuldiv, if_true, Numeric.parts,
    fNegativeP_eq hb.num.is]
  rw [Rational.toRat, Rational.toRat, div_div_div_eq]
  by_cases hneg : b.num.toInt < 0
  · have h := muldivMul_settles (intNegate_is ha.num.is) ha.den.is hb.den.is
      (intNegate_is hb.num.is) ha.pos (by omega) ha.coprime.neg_left hb.coprime.symm.neg_right
      (hover _ _) unify
    push_cast at h
    rw [neg_mul, mul_neg, neg_div_neg_eq] at h
    simp only [hneg, decide_true, if_true]
    exact h
  · have h := muldivMul_settles ha.num.is ha.den.is hb.den.is hb.num.is ha.pos (by omega) ha.coprime
      hb.coprime.symm (hover _ _) unify
    push_cast at h
    simp only [hneg, decide_false, Bool.false_eq_true, if_false]
    exact h

/-- **Rational arithmetic is exact and keeps the canonical form exactly when the product does not
overflow.** -/
theorem exactRational_iff (ha : a.Canonical) (hb : b.Canonical) :
    ExactRational a b ↔ ¬ MulOverflow a b := by
  constructor
  · intro h hover
    exact nuratMul_overflow ha hb hover (h.mul false)
  · intro hover
    refine ⟨nuratAdd_settles ha hb, nuratSub_settles ha hb, nuratMul_settles ha hb hover,
      fun unify hne => nuratDiv_settles ha hb hne unify, ?_, ?_, ?_⟩
    · intro fuel unify hzero
      have hz : (Numeric.rational b).zeroP = true := by
        rw [zeroP_eq hb]
        exact decide_eq_true (hb.toRat_eq_zero.mp hzero)
      rw [nuratDiv, hz]
      rfl
    · rintro fuel unify n rfl
      refine ⟨rfl, rfl, rfl, ?_⟩
      have hz : (Numeric.integer n).zeroP = (Numeric.rational ⟨n, .one L⟩).zeroP := by
        rw [zeroP_eq hb]
        exact fZeroP_eq hb.num.is
      rw [nuratDiv, nuratDiv, hz]
      rfl
    · rintro an ad bn bd plus rfl rfl
      obtain ⟨num, den, hnum, hden, hrun⟩ :=
        addsubFix_settles an bn bd ha.pos plus
      obtain ⟨num', den', hnum', hden', hrun'⟩ := addsubGeneric_settles ha.num.is ha.den.is
        hb.num.is
        hb.den.is ha.pos hb.pos plus
      refine ⟨(num, den), hrun, ?_⟩
      rw [hnum.unique hnum', hden.unique hden']
      exact hrun'

end Exact

/-! ## Two pairs of operands -/

/-- The fixnum -2^31. -/
def minusTwo31 : Inum .lp64 := .fixnum ⟨-2 ^ 31, by decide, by decide⟩

/-- `2 ** 70 + 1`. -/
def twoPow70Succ : Inum .lp64 := .bignum ⟨true, [1, 0, 64]⟩

/-- `Rational(-2 ** 31, 2 ** 70 + 1)`. -/
def overflowLeft : Rational .lp64 := ⟨minusTwo31, twoPow70Succ⟩

/-- `Rational(-2 ** 31, 1)`. -/
def overflowRight : Rational .lp64 := ⟨minusTwo31, .one .lp64⟩

theorem overflowLeft_canonical : overflowLeft.Canonical := by
  have hval : twoPow70Succ.toInt = 2 ^ 70 + 1 := by decide
  refine ⟨trivial, ⟨by decide, by decide, by decide⟩, by decide, ?_⟩
  refine Int.isCoprime_iff_gcd_eq_one.mpr ?_
  show Int.gcd (-2 ^ 31) twoPow70Succ.toInt = 1
  rw [hval]
  decide

theorem overflowRight_canonical : overflowRight.Canonical :=
  ⟨trivial, trivial, by decide, isCoprime_one_right⟩

/-- Exactness of one pair, where a part is a bignum and one is negative. -/
theorem exactRational_bignum : ExactRational overflowLeft ⟨.one .lp64, .one .lp64⟩ :=
  (exactRational_iff (b := ⟨.one .lp64, .one .lp64⟩) overflowLeft_canonical
    ⟨trivial, trivial, by decide, isCoprime_one_right⟩).mpr (by decide)

/-- **Rational arithmetic is not always exact**: the product of two negative Rationals comes out
negative. -/
theorem not_forall_exactRational :
    ¬ ∀ (L : LongSize) (a b : Rational L), a.Canonical → b.Canonical → ExactRational a b := by
  intro h
  have hover : MulOverflow overflowLeft overflowRight := by decide
  exact nuratMul_overflow overflowLeft_canonical overflowRight_canonical hover
    ((h .lp64 _ _ overflowLeft_canonical overflowRight_canonical).mul false)

end MacRuby
