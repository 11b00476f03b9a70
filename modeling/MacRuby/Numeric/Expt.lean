import MacRuby.Lib.Result
import MacRuby.Numeric.Mixed
import MacRuby.Numeric.PowerLimit
import MacRuby.Numeric.Rational

/-!
# Powers of Rationals

`**` of `rational.c`, for an Integer exponent. The parts are raised by the methods of Integers, and
a new Rational is made of what they give. Beyond the limit of these that is a Float, and the common
divisor that the parts are then divided by is looked for without an end.

## Main definitions

* `mixedGcd`, `mixedIdiv`, `nuratCanonicalize`, `exptParts`, `nuratExpt` — the method and its parts.
* `ExptFits` — the parts are raised within the limit.
* `ExactExpt` — what is required of a power.

## Main results

* `nuratCanonicalize_settles` — a new Rational is canonical.
* `exactExpt_iff` — exactly which powers are exact.
* `nuratExpt_endless` — the others do not end.
-/

namespace MacRuby

open Result

/-! ## The code -/

/-- The operations of Floats that the method `div` uses. -/
structure FloorMethods (F : Type) extends FloatMethods F where
  floor : F → F
  /-- `dbl2big(x)`, for a finite `x`. -/
  toBig : F → Option Bignum

/-- How `nurat_expt` can fail. -/
inductive ExptError
  | division (e : DivError)
  /-- `FloatDomainError`. -/
  | floatDomain
  /-- The power is a call of the method `**` of a Rational, which no positive exponent makes. -/
  | rational
  deriving DecidableEq, Repr

/-- What `nurat_expt` can return. -/
inductive MixedNumeric (L : LongSize) (F : Type)
  | number (x : Mixed L F)
  | rational (num den : Mixed L F)

section Code

variable {L : LongSize} {F : Type}

/-- The failures of a part. -/
def liftExpt {α : Type} : Except DivError α → Except ExptError α
  | .ok a => .ok a
  | .error e => .error (.division e)

/-- `f_expt(x, y)`. -/
def fExpt (fl : Floats F) (fuel : ℕ) (x y : Inum L) : Except ExptError (Mixed L F) := do
  match ← liftExpt (intPower fl fuel x y) with
  | .int r => pure (.int r)
  | .float f => pure (.float f)
  | .rational _ _ => .error .rational

variable (fl : FloorMethods F)

/-- `f_negative_p(x)`. -/
def mixedNegativeP : Mixed L F → Bool
  | .int x => fNegativeP x
  | .float x => fl.lt x (fl.ofLong 0)

/-- `f_zero_p(x)`. -/
def mixedZeroP : Mixed L F → Bool
  | .int x => fZeroP x
  | .float x => fl.equal x (fl.ofLong 0)

/-- `f_one_p(x)`. -/
def mixedOneP : Mixed L F → Bool
  | .int x => intEqual x (.one L)
  | .float x => fl.equal x (fl.ofLong 1)

/-- The loop of `f_gcd`. -/
def mixedGcdLoop (fuel : ℕ) : ℕ → Mixed L F → Mixed L F → Except DivError (Mixed L F)
  | 0, _, _ => .error .outOfFuel
  | n + 1, .int (.fixnum a), y =>
      if a.val = 0 then .ok y
      else
        match y with
        | .int (.fixnum b) => do
            let g ← iGcd fuel a.val b.val
            pure (.int (long2num L g))
        | y => do
            let r ← mixedMod fl.toFloatMethods fuel y (.int (.fixnum a))
            mixedGcdLoop fuel n r (.int (.fixnum a))
  | n + 1, x, y => do
      let r ← mixedMod fl.toFloatMethods fuel y x
      mixedGcdLoop fuel n r x

/-- `f_gcd(x, y)`. -/
def mixedGcd (fuel : ℕ) (x y : Mixed L F) : Except DivError (Mixed L F) :=
  match x, y with
  | .int (.fixnum a), .int (.fixnum b) => do
      let g ← iGcd fuel a.val b.val
      pure (.int (long2num L g))
  | x, y =>
      let x := if mixedNegativeP fl x then mixedNegate fl.toFloatMethods x else x
      let y := if mixedNegativeP fl y then mixedNegate fl.toFloatMethods y else y
      if mixedZeroP fl x then .ok y
      else if mixedZeroP fl y then .ok x
      else mixedGcdLoop fl fuel fuel x y

/-- `rb_dbl2big(x)`. -/
def rbDbl2big (x : F) : Except ExptError (Mixed L F) :=
  match fl.toBig x with
  | none => .error .floatDomain
  | some z => .ok (.int (bignorm L z))

/-- `f_idiv(x, y)`: a bignum is not rounded down. -/
def mixedIdiv (fuel : ℕ) : Mixed L F → Mixed L F → Except ExptError (Mixed L F)
  | .int x, .int y => do
      let r ← liftExpt (intDiv fuel x y)
      pure (.int r)
  | .int (.fixnum x), .float y =>
      if fl.equal y (fl.ofLong 0) then .error (.division .zeroDiv)
      else rbDbl2big fl (fl.floor (fl.div (fl.ofLong x.val) y))
  | .int (.bignum x), .float y => rbDbl2big fl (fl.div (fl.ofBig x) y)
  | .float x, y =>
      if mixedEqual fl.toFloatMethods (.int (.zero L)) y then .error (.division .zeroDiv)
      else rbDbl2big fl (fl.floor (fl.div x (y.toFloat fl.toFloatMethods)))

/-- `nurat_s_canonicalize_internal(klass, num, den)`; `unify` tells whether the class has a constant
`Unify`. -/
def nuratCanonicalize (fuel : ℕ) (unify : Bool) (num den : Mixed L F) :
    Except ExptError (MixedNumeric L F) :=
  -- the comparison of a Float that is no number is none of the cases
  let c := mixedCmp fl.toFloatMethods den (.int (.zero L))
  if c = some 0 then .error (.division .zeroDiv)
  else do
    let num := if c = some (-1) then mixedNegate fl.toFloatMethods num else num
    let den := if c = some (-1) then mixedNegate fl.toFloatMethods den else den
    let gcd ← liftExpt (mixedGcd fl fuel num den)
    let num ← mixedIdiv fl fuel num gcd
    let den ← mixedIdiv fl fuel den gcd
    pure (if mixedOneP fl den && unify then .number num else .rational num den)

/-- What `nurat_expt` makes a Rational of. -/
def exptParts (fl : Floats F) (fuel : ℕ) (self : Rational L) (other : Inum L) :
    Except ExptError (Mixed L F × Mixed L F) :=
  let c := intCmp other (.zero L)
  if c = 1 then do
    let num ← fExpt fl fuel self.num other
    let den ← fExpt fl fuel self.den other
    pure (num, den)
  else if c = -1 then do
    let num ← fExpt fl fuel self.den (intNegate other)
    let den ← fExpt fl fuel self.num (intNegate other)
    pure (num, den)
  else .ok (.int (.one L), .int (.one L))

/-- `nurat_expt(self, other)`, for an Integer `other`. -/
def nuratExpt (fuel : ℕ) (unify : Bool) (self : Rational L) (other : Inum L) :
    Except ExptError (MixedNumeric L F) :=
  if fZeroP other then .ok (.rational (.int (.one L)) (.int (.one L)))
  else do
    let (num, den) ← exptParts fl.toFloats fuel self other
    nuratCanonicalize fl fuel unify num den

end Code

/-! ## New Rationals -/

section New

variable {L : LongSize} {F : Type} {p q : ℤ} {num den : Inum L}

/-- A result without Floats. -/
def Numeric.toMixed (F : Type) : Numeric L → MixedNumeric L F
  | .integer n => .number (.int n)
  | .rational r => .rational (.int r.num) (.int r.den)

theorem settles_liftExpt {α : Type} {f : ℕ → Except DivError α} {a : α}
    (h : Fuel.Settles f (.ok a)) : Fuel.Settles (fun fuel => liftExpt (f fuel)) (.ok a) := by
  obtain ⟨k, hk⟩ := h
  refine .of_le k fun fuel hfuel => ?_
  rw [hk fuel hfuel]
  rfl

/-- The turn that both loops take on parts that do not end them. -/
theorem mixedGcdLoop_turn {fl : FloorMethods F} {fuel n : ℕ} {x y : Inum L} {g : Inum L}
    (ih : ∀ {x y : Inum L}, fGcdLoop fuel n x y = .ok g →
      mixedGcdLoop fl fuel n (.int x) (.int y) = .ok (.int g))
    (h : (do
      let r ← intMod fuel y x
      fGcdLoop fuel n r x) = .ok g) :
    (do
      let r ← mixedMod fl.toFloatMethods fuel (.int y) (.int x)
      mixedGcdLoop fl fuel n r (.int x)) = .ok (.int g) := by
  obtain ⟨r, hr, h⟩ := bind_eq_ok.mp h
  rw [mixedMod, hr]
  exact ih h

/-- **On Integers the loop is that of Integers.** -/
theorem mixedGcdLoop_int (fl : FloorMethods F) (fuel : ℕ) {n : ℕ} {x y : Inum L} {g : Inum L}
    (h : fGcdLoop fuel n x y = .ok g) : mixedGcdLoop fl fuel n (.int x) (.int y)
      = .ok (.int g) := by
  induction n generalizing x y with
  | zero => cases h
  | succ n ih =>
      cases x with
      | bignum x =>
          cases y with
          | fixnum b => exact mixedGcdLoop_turn ih h
          | bignum y => exact mixedGcdLoop_turn ih h
      | fixnum a =>
          cases y with
          | fixnum b =>
              rw [fGcdLoop] at h
              rw [mixedGcdLoop]
              split_ifs at h ⊢ with h0
              · cases h
                rfl
              · obtain ⟨i, hi, h⟩ := bind_eq_ok.mp h
                cases h
                rw [hi]
                rfl
          | bignum y =>
              rw [fGcdLoop] at h
              rw [mixedGcdLoop]
              · split_ifs at h ⊢ with h0
                · cases h
                  rfl
                · exact mixedGcdLoop_turn ih h
              · intro b hb
                cases hb

theorem mixedGcd_int (fl : FloorMethods F) (fuel : ℕ) {x y : Inum L} {g : Inum L}
    (h : fGcd fuel x y = .ok g) : mixedGcd fl fuel (.int x) (.int y) = .ok (.int g) := by
  have habs : ∀ z : Inum L, (if mixedNegativeP fl (.int z) then
      mixedNegate fl.toFloatMethods (.int z) else .int z) =
      (.int (if fNegativeP z then intNegate z else z) : Mixed L F) := by
    intro z
    exact (apply_ite _ _ _ _).symm
  have hgeneric : ∀ {x y : Inum L}, fGcdGeneric fuel x y = .ok g →
      (let x : Mixed L F := if mixedNegativeP fl (.int x) then
          mixedNegate fl.toFloatMethods (.int x) else .int x
        let y : Mixed L F := if mixedNegativeP fl (.int y) then
          mixedNegate fl.toFloatMethods (.int y) else .int y
        if mixedZeroP fl x then .ok y
        else if mixedZeroP fl y then .ok x
        else mixedGcdLoop fl fuel fuel x y) = .ok (.int g) := by
    intro x y h
    rw [fGcdGeneric] at h
    simp only [habs, mixedZeroP]
    generalize (if fNegativeP x then intNegate x else x) = x at h ⊢
    generalize (if fNegativeP y then intNegate y else y) = y at h ⊢
    split_ifs at h ⊢
    · cases h
      rfl
    · cases h
      rfl
    · exact mixedGcdLoop_int fl fuel h
  cases x with
  | bignum x =>
      cases y with
      | fixnum b => exact hgeneric h
      | bignum y => exact hgeneric h
  | fixnum a =>
      cases y with
      | bignum y => exact hgeneric h
      | fixnum b =>
          obtain ⟨i, hi, h⟩ := bind_eq_ok.mp h
          cases h
          rw [mixedGcd, hi]
          rfl

theorem settles_mixedGcd (fl : FloorMethods F) {x y g : Inum L}
    (h : Fuel.Settles (fun fuel => fGcd fuel x y) (.ok g)) :
    Fuel.Settles (fun fuel => mixedGcd fl fuel (.int x) (.int y)) (.ok (.int g)) := by
  obtain ⟨k, hk⟩ := h
  exact .of_le k fun fuel hfuel => mixedGcd_int fl fuel (hk fuel hfuel)

theorem settles_mixedIdiv (fl : FloorMethods F) {x y r : Inum L}
    (h : Fuel.Settles (fun fuel => intDiv fuel x y) (.ok r)) :
    Fuel.Settles (fun fuel => mixedIdiv fl fuel (.int x) (.int y)) (.ok (.int r)) :=
  (settles_liftExpt h).bind (.const _)

/-- **Parts are reduced**: what is left is canonical. -/
theorem reduce_settles (fl : FloorMethods F) (hnum : num.Is p) (hden : den.Is q) (hq : 0 < q)
    (unify : Bool) :
    ∃ r : Rational L, r.Canonical ∧ r.toRat = p / q ∧
      Fuel.Settles (fun fuel => do
        let gcd ← liftExpt (mixedGcd fl fuel (.int num) (.int den))
        let num ← mixedIdiv fl fuel (.int num) gcd
        let den ← mixedIdiv fl fuel (.int den) gcd
        pure (if mixedOneP fl den && unify then MixedNumeric.number num
          else MixedNumeric.rational num den))
        (.ok ((r.unified unify).toMixed F)) := by
  obtain ⟨g, hg, hrun⟩ := fGcd_settles hnum hden
  have hpos : (0 : ℤ) < Int.gcd p q := Int.natCast_pos.mpr (Int.gcd_pos_of_ne_zero_right _ hq.ne')
  obtain ⟨x, hx, hrunx⟩ := intDiv_of_dvd hnum hg hpos (Int.gcd_dvd_left ..)
  obtain ⟨y, hy, hruny⟩ := intDiv_of_dvd hden hg hpos (Int.gcd_dvd_right ..)
  have hden' : 0 < q / Int.gcd p q := Int.ediv_pos_of_pos_of_dvd hq hpos.le (Int.gcd_dvd_right ..)
  refine ⟨⟨x, y⟩, ⟨hx.canonical, hy.canonical, hy.value ▸ hden', ?_⟩, ?_, ?_⟩
  · rw [Int.isCoprime_iff_gcd_eq_one]
    show Int.gcd x.toInt y.toInt = 1
    rw [hx.value, hy.value]
    exact Int.gcd_ediv_gcd_ediv_gcd (Int.gcd_pos_of_ne_zero_right _ hq.ne')
  · have hg0 : ((Int.gcd p q : ℤ) : ℚ) ≠ 0 := by exact_mod_cast hpos.ne'
    rw [Rational.toRat, hx.value, hy.value, Int.cast_div (Int.gcd_dvd_left ..) hg0,
      Int.cast_div (Int.gcd_dvd_right ..) hg0]
    exact div_div_div_cancel_right₀ hg0 _ _
  · refine (settles_liftExpt (settles_mixedGcd fl hrun)).bind ((settles_mixedIdiv fl hrunx).bind
      ((settles_mixedIdiv fl hruny).bind ?_))
    simp only [mixedOneP, intEqual_eq hy (Inum.one_is L), Rational.unified, hy.value,
      Bool.and_comm unify]
    refine (Fuel.Settles.const _).congr fun fuel => ?_
    split_ifs <;> rfl

/-- **A new Rational is canonical.** -/
theorem nuratCanonicalize_settles (fl : FloorMethods F) (hnum : num.Is p) (hden : den.Is q)
    (hq : q ≠ 0) (unify : Bool) :
    ∃ r : Rational L, r.Canonical ∧ r.toRat = p / q ∧
      Fuel.Settles (fun fuel => nuratCanonicalize fl fuel unify (.int num) (.int den))
        (.ok ((r.unified unify).toMixed F)) := by
  have hcmp : intCmp den (.zero L) = q.sign := by
    rw [intCmp_eq hden (Inum.zero_is L), sub_zero]
  rcases lt_or_gt_of_ne hq with hneg | hpos
  · rw [Int.sign_eq_neg_one_of_neg hneg] at hcmp
    obtain ⟨r, hr, hval, hrun⟩ := reduce_settles fl (intNegate_is hnum) (intNegate_is hden)
      (by omega) unify
    refine ⟨r, hr, ?_, hrun.congr fun fuel => ?_⟩
    · rw [hval]
      push_cast
      exact neg_div_neg_eq _ _
    · simp only [nuratCanonicalize, mixedCmp, hcmp]
      rfl
  · rw [Int.sign_eq_one_of_pos hpos] at hcmp
    obtain ⟨r, hr, hval, hrun⟩ := reduce_settles fl hnum hden hpos unify
    refine ⟨r, hr, hval, hrun.congr fun fuel => ?_⟩
    simp only [nuratCanonicalize, mixedCmp, hcmp]
    rfl

theorem nuratCanonicalize_zero (fl : FloorMethods F) (hden : den.Is 0) (fuel : ℕ) (unify : Bool)
    (num : Mixed L F) :
    nuratCanonicalize fl fuel unify num (.int den) = .error (.division .zeroDiv) := by
  have hcmp : intCmp den (.zero L) = 0 := by
    rw [intCmp_eq hden (Inum.zero_is L)]
    rfl
  simp only [nuratCanonicalize, mixedCmp, hcmp]
  rfl

end New

/-! ## Powers -/

section Powers

variable {L : LongSize} {F : Type} {a : Rational L} {n : Inum L}

/-- The absolute value of an exponent. -/
def absExponent (n : Inum L) : Inum L := if n.toInt < 0 then intNegate n else n

theorem absExponent_is (hn : n.Canonical) : (absExponent n).Is n.toInt.natAbs := by
  rw [absExponent]
  split_ifs with h
  · rw [Int.ofNat_natAbs_of_nonpos h.le]
    exact intNegate_is hn.is
  · rw [Int.natAbs_of_nonneg (not_lt.mp h)]
    exact hn.is

/-- The exponent is zero, or both parts can be raised to its absolute value. -/
def ExptFits (a : Rational L) (n : Inum L) : Prop :=
  n.toInt = 0 ∨ PowerFits a.num (absExponent n) ∧ PowerFits a.den (absExponent n)

theorem fExpt_settles (fl : Floats F) {x y : Inum L} {e : ℕ} (hx : x.Canonical) (hy : y.Is e)
    (hpos : 0 < e) :
    ∃ z, Fuel.Settles (fun fuel => fExpt fl fuel x y) (.ok z) ∧
      (PowerFits x y → ∃ r, z = .int r ∧ r.Is (x.toInt ^ e)) ∧
      (¬ PowerFits x y → ∃ f, z = .float f ∧ FloatPower fl f) := by
  obtain ⟨p, hrun, hint, hfloat⟩ := intPower_case fl hx hy.canonical (by rw [hy.value]; omega)
  rw [hy.value, Int.toNat_natCast] at hint
  by_cases hfits : PowerFits x y
  · obtain ⟨r, rfl, hr⟩ := hint hfits
    exact ⟨.int r, (settles_liftExpt hrun).bind (.const _), fun _ => ⟨r, rfl, hr⟩,
      fun h => absurd hfits h⟩
  · obtain ⟨f, rfl, hf⟩ := hfloat hfits
    exact ⟨.float f, (settles_liftExpt hrun).bind (.const _), fun h => absurd h hfits,
      fun _ => ⟨f, rfl, hf⟩⟩

/-- The power of `x` to `e`, or a Float that is one. -/
inductive IsRaised (L : LongSize) (fl : Floats F) (x : ℤ) (e : ℕ) : Mixed L F → Prop
  | int {r : Inum L} (h : r.Is (x ^ e)) : IsRaised L fl x e (.int r)
  | float {f : F} (h : FloatPower fl f) : IsRaised L fl x e (.float f)

/-- What a Rational is made of: powers of `x` and `y`, which are Integers if they fit. -/
structure RaisedParts (fl : Floats F) (x y : ℤ) (e : ℕ) (fits : Prop) (num den : Mixed L F) :
    Prop where
  left : IsRaised L fl x e num
  right : IsRaised L fl y e den
  int : fits → ∃ s t, num = .int s ∧ den = .int t
  float : ¬ fits → (∃ f, num = .float f) ∨ ∃ f, den = .float f

theorem raisedParts_settles (fl : Floats F) {x y m : Inum L} {e : ℕ} (hx : x.Canonical)
    (hy : y.Canonical) (hm : m.Is e) (hpos : 0 < e) :
    ∃ num den, RaisedParts fl x.toInt y.toInt e (PowerFits x m ∧ PowerFits y m) num den ∧
      Fuel.Settles (fun fuel => do
        let num ← fExpt fl fuel x m
        let den ← fExpt fl fuel y m
        pure (num, den)) (.ok (num, den)) := by
  have hpart : ∀ {x : Inum L}, x.Canonical → ∃ z, Fuel.Settles (fun fuel => fExpt fl fuel x m)
    (.ok z) ∧
      IsRaised L fl x.toInt e z ∧ (PowerFits x m → ∃ r, z = .int r) ∧
      (¬ PowerFits x m → ∃ f, z = .float f) := by
    intro x hx
    obtain ⟨z, hrun, hint, hfloat⟩ := fExpt_settles fl hx hm hpos
    by_cases hfits : PowerFits x m
    · obtain ⟨r, rfl, hr⟩ := hint hfits
      exact ⟨_, hrun, .int hr, fun _ => ⟨r, rfl⟩, fun h => absurd hfits h⟩
    · obtain ⟨f, rfl, hf⟩ := hfloat hfits
      exact ⟨_, hrun, .float hf, fun h => absurd h hfits, fun _ => ⟨f, rfl⟩⟩
  obtain ⟨num, hrun, hnum, hint, hfloat⟩ := hpart hx
  obtain ⟨den, hrun', hden, hint', hfloat'⟩ := hpart hy
  refine ⟨num, den, ⟨hnum, hden, fun h => ?_, fun h => ?_⟩, hrun.bind (hrun'.bind (.const _))⟩
  · obtain ⟨s, hs⟩ := hint h.1
    obtain ⟨t, ht⟩ := hint' h.2
    exact ⟨s, t, hs, ht⟩
  · exact (not_and_or.mp h).imp hfloat hfloat'

/-- **The parts are raised**, and change places for a negative exponent. -/
theorem exptParts_settles (fl : Floats F) (ha : a.Canonical) (hn : n.Canonical) (h0 : n.toInt ≠ 0) :
    ∃ num den, Fuel.Settles (fun fuel => exptParts fl fuel a n) (.ok (num, den)) ∧
      (0 < n.toInt → RaisedParts fl a.num.toInt a.den.toInt n.toInt.natAbs (ExptFits a n) num den) ∧
      (n.toInt < 0 →
        RaisedParts fl a.den.toInt a.num.toInt n.toInt.natAbs (ExptFits a n) num den) := by
  have hcmp : intCmp n (.zero L) = n.toInt.sign := by
    rw [intCmp_eq hn.is (Inum.zero_is L), sub_zero]
  have hfits : ExptFits a n ↔ PowerFits a.num (absExponent n) ∧ PowerFits a.den (absExponent n) :=
    or_iff_right h0
  have habs := absExponent_is hn
  have hpos : 0 < n.toInt.natAbs := Int.natAbs_pos.mpr h0
  rcases lt_or_gt_of_ne h0 with hlt | hgt
  · rw [Int.sign_eq_neg_one_of_neg hlt] at hcmp
    obtain ⟨num, den, hparts, hrun⟩ := raisedParts_settles fl ha.den ha.num habs hpos
    rw [hfits, and_comm]
    refine ⟨num, den, hrun.congr fun fuel => ?_, fun h => absurd h (by omega), fun _ => hparts⟩
    simp only [exptParts, hcmp, absExponent, if_pos hlt]
    rfl
  · rw [Int.sign_eq_one_of_pos hgt] at hcmp
    obtain ⟨num, den, hparts, hrun⟩ := raisedParts_settles fl ha.num ha.den habs hpos
    rw [hfits]
    refine ⟨num, den, hrun.congr fun fuel => ?_, fun _ => hparts, fun h => absurd h (by omega)⟩
    simp only [exptParts, hcmp, absExponent, if_neg (show ¬ n.toInt < 0 by omega)]
    rfl

/-! ### Exact powers -/

/-- What is required of a power: the canonical Rational that is equal to it, or a Float where it is
too large, and an error for what is divided by zero. A Rational is made of Integers, and the common
divisor is that of Integers. -/
structure ExactExpt (fl : FloorMethods F) (a : Rational L) (n : Inum L) : Prop where
  power : ∀ unify, a.toRat ≠ 0 ∨ 0 ≤ n.toInt →
    (∃ r : Numeric L, r.parts.Canonical ∧ r.parts.toRat = a.toRat ^ n.toInt ∧
      (unify = false → ∃ q, r = .rational q) ∧
      Fuel.Settles (fun fuel => nuratExpt fl fuel unify a n) (.ok (r.toMixed F))) ∨
    (¬ ExptFits a n ∧ ∃ f, Fuel.Settles (fun fuel => nuratExpt fl fuel unify a n)
      (.ok (.number (.float f))))
  zeroDiv : ∀ unify, a.toRat = 0 → n.toInt < 0 →
    Fuel.Settles (fun fuel => nuratExpt fl fuel unify a n) (.error (.division .zeroDiv))
  integers : ∀ num den,
    Fuel.Settles (fun fuel => exptParts fl.toFloats fuel a n) (.ok (num, den)) →
    (∃ x, num = .int x) ∧ ∃ y, den = .int y

/-- A Rational and what it is made are one. -/
theorem Rational.Canonical.unified_parts {r : Rational L} (hr : r.Canonical) (unify : Bool) :
    (r.unified unify).parts = r := by
  rw [Rational.unified]
  split_ifs with h
  · rw [Bool.and_eq_true, decide_eq_true_eq] at h
    have hone : r.den = .one L := (h.2 ▸ hr.den.is).unique (Inum.one_is L)
    rw [Numeric.parts, ← hone]
  · rfl

theorem IsRaised.int_is {fl : Floats F} {x : ℤ} {e : ℕ} {r : Inum L}
    (h : IsRaised L fl x e (.int r)) : r.Is (x ^ e) := by
  cases h with
  | int h => exact h

theorem nuratExpt_eq (fl : FloorMethods F) (hn : n.Canonical) (h0 : n.toInt ≠ 0) (fuel : ℕ)
    (unify : Bool) :
    nuratExpt fl fuel unify a n =
      exptParts fl.toFloats fuel a n >>= fun p => nuratCanonicalize fl fuel unify p.1 p.2 := by
  have hzero : fZeroP n = false := by
    rw [fZeroP_eq hn.is]
    exact decide_eq_false h0
  rw [nuratExpt, hzero]
  rfl

/-- The method goes on with the parts. -/
theorem nuratExpt_settles (fl : FloorMethods F) {num den : Mixed L F} {unify : Bool}
    {r : Except ExptError (MixedNumeric L F)} (hn : n.Canonical) (h0 : n.toInt ≠ 0)
    (hrun : Fuel.Settles (fun fuel => exptParts fl.toFloats fuel a n) (.ok (num, den)))
    (h : Fuel.Settles (fun fuel => nuratCanonicalize fl fuel unify num den) r) :
    Fuel.Settles (fun fuel => nuratExpt fl fuel unify a n) r := by
  have h' : Fuel.Settles (fun fuel => (fun p : Mixed L F × Mixed L F =>
      nuratCanonicalize fl fuel unify p.1 p.2) (num, den)) r := h
  exact (hrun.bind h').congr fun fuel => nuratExpt_eq fl hn h0 fuel unify

/-- **What is made of raised parts** is the quotient of the powers. -/
theorem quotient_settles (fl : FloorMethods F) {x y : ℤ} {e : ℕ} {num den : Mixed L F}
    (hn : n.Canonical) (h0 : n.toInt ≠ 0)
    (hrun : Fuel.Settles (fun fuel => exptParts fl.toFloats fuel a n) (.ok (num, den)))
    (hparts : RaisedParts fl.toFloats x y e (ExptFits a n) num den) (hfits : ExptFits a n)
    (hy : y ≠ 0) (unify : Bool) :
    ∃ r : Rational L, r.Canonical ∧ r.toRat = (x / y) ^ e ∧
      Fuel.Settles (fun fuel => nuratExpt fl fuel unify a n)
        (.ok ((r.unified unify).toMixed F)) := by
  obtain ⟨s, t, rfl, rfl⟩ := hparts.int hfits
  obtain ⟨r, hr, hval, hrun'⟩ := nuratCanonicalize_settles fl hparts.left.int_is
    hparts.right.int_is (pow_ne_zero e hy) unify
  refine ⟨r, hr, ?_, nuratExpt_settles fl hn h0 hrun hrun'⟩
  rw [hval]
  push_cast
  exact (div_pow _ _ _).symm

/-- The power to zero is one. -/
theorem exactExpt_of_zero (fl : FloorMethods F) (hn : n.Canonical) (h0 : n.toInt = 0) :
    ExactExpt fl a n := by
  have hone : (Inum.one L).toInt = 1 := rfl
  refine ⟨fun unify hne => .inl ?_, fun unify _ hlt => absurd hlt (by omega), fun num den h => ?_⟩
  · refine ⟨.rational ⟨.one L, .one L⟩, ⟨trivial, trivial, Int.one_pos, isCoprime_one_right⟩, ?_,
      fun _ => ⟨_, rfl⟩, ?_⟩
    · rw [Numeric.parts, Rational.toRat, hone, h0, zpow_zero, Int.cast_one, div_one]
    · refine (Fuel.Settles.const _).congr fun fuel => ?_
      rw [nuratExpt, fZeroP_eq hn.is, decide_eq_true h0, if_pos rfl]
      rfl
  · have hcmp : intCmp n (.zero L) = 0 := by
      rw [intCmp_eq hn.is (Inum.zero_is L), h0]
      rfl
    simp only [exptParts, hcmp] at h
    have heq := h.unique (.const _)
    simp only [Except.ok.injEq, Prod.mk.injEq] at heq
    exact ⟨⟨_, heq.1⟩, _, heq.2⟩

/-- **Powers of Rationals are exact exactly within the limit.** -/
theorem exactExpt_iff (fl : FloorMethods F) (ha : a.Canonical) (hn : n.Canonical) :
    ExactExpt fl a n ↔ ExptFits a n := by
  by_cases h0 : n.toInt = 0
  · exact ⟨fun _ => .inl h0, fun _ => exactExpt_of_zero fl hn h0⟩
  obtain ⟨num, den, hrun, hpos, hneg⟩ := exptParts_settles fl.toFloats ha hn h0
  constructor
  · intro h
    by_contra hfits
    obtain ⟨⟨x, rfl⟩, y, rfl⟩ := h.integers num den hrun
    have hfloat : (∃ f : F, Mixed.int x = .float f) ∨ ∃ f : F, Mixed.int y = .float f := by
      rcases lt_or_gt_of_ne h0 with hlt | hgt
      · exact (hneg hlt).float hfits
      · exact (hpos hgt).float hfits
    rcases hfloat with ⟨f, hf⟩ | ⟨f, hf⟩
    · cases hf
    · cases hf
  · intro hfits
    have hint : ∃ s t, num = .int s ∧ den = .int t := by
      rcases lt_or_gt_of_ne h0 with hlt | hgt
      · exact (hneg hlt).int hfits
      · exact (hpos hgt).int hfits
    refine ⟨fun unify hne => .inl ?_, fun unify hzero hlt => ?_, fun num' den' hrun' => ?_⟩
    · have hpower : ∃ r : Rational L, r.Canonical ∧ r.toRat = a.toRat ^ n.toInt ∧
          Fuel.Settles (fun fuel => nuratExpt fl fuel unify a n)
            (.ok ((r.unified unify).toMixed F)) := by
        rcases lt_or_gt_of_ne h0 with hlt | hgt
        · have hnum : a.num.toInt ≠ 0 := by
            intro hzero
            exact hne.elim (fun h => h (ha.toRat_eq_zero.mpr hzero)) (fun h => by omega)
          obtain ⟨r, hr, hval, hrun'⟩ := quotient_settles fl hn h0 hrun (hneg hlt) hfits hnum unify
          refine ⟨r, hr, ?_, hrun'⟩
          have habs : n.toInt = -(n.toInt.natAbs : ℤ) := by omega
          rw [hval, habs, Int.natAbs_neg, Int.natAbs_natCast, zpow_neg, zpow_natCast,
            Rational.toRat,
            ← inv_pow, inv_div]
        · obtain ⟨r, hr, hval, hrun'⟩ := quotient_settles fl hn h0 hrun (hpos hgt) hfits ha.pos.ne'
            unify
          refine ⟨r, hr, ?_, hrun'⟩
          have habs : n.toInt = (n.toInt.natAbs : ℤ) := by omega
          rw [hval, habs, Int.natAbs_natCast, zpow_natCast, Rational.toRat]
      obtain ⟨r, hr, hval, hrun'⟩ := hpower
      refine ⟨r.unified unify, ?_, ?_, ?_, hrun'⟩
      · rwa [hr.unified_parts]
      · rwa [hr.unified_parts]
      · rintro rfl
        exact ⟨r, rfl⟩
    · obtain ⟨s, t, rfl, rfl⟩ := hint
      have hden := (hneg hlt).right.int_is
      rw [ha.toRat_eq_zero.mp hzero, zero_pow (by omega)] at hden
      refine nuratExpt_settles fl hn h0 hrun ?_
      exact .of_le 0 fun fuel _ => nuratCanonicalize_zero fl hden fuel unify _
    · have heq := hrun.unique hrun'
      simp only [Except.ok.injEq, Prod.mk.injEq] at heq
      obtain ⟨s, t, hs, ht⟩ := hint
      exact ⟨⟨s, heq.1 ▸ hs⟩, t, heq.2 ▸ ht⟩

/-! ### Powers that do not end -/

/-- What is relied on of Floats: a power that does not get smaller than 1 is not zero, nor is it
with another sign, and what is not equal to zero does not compare as zero. -/
structure NonzeroPowers (fl : FloorMethods F) : Prop where
  pow : ∀ f, FloatPower fl.toFloats f → fl.equal f (fl.ofLong 0) = false
  neg : ∀ f, fl.equal f (fl.ofLong 0) = false → fl.equal (fl.neg f) (fl.ofLong 0) = false
  cmp : ∀ f, fl.equal f (fl.ofLong 0) = false → fl.cmp f (fl.ofLong 0) ≠ some 0

/-- A part of a Rational that is not zero. -/
def PartNonzero (fl : FloorMethods F) : Mixed L F → Prop
  | .int x => x.Canonical ∧ x.toInt ≠ 0
  | .float f => fl.equal f (fl.ofLong 0) = false

/-- Whether a part is a Float. -/
def Mixed.isFloat : Mixed L F → Prop
  | .int _ => False
  | .float _ => True

section Endless

variable {fl : FloorMethods F} {x y : Mixed L F}

theorem partNonzero_negate (hfl : NonzeroPowers fl) (h : PartNonzero fl x) :
    PartNonzero fl (mixedNegate fl.toFloatMethods x) := by
  cases x with
  | int x =>
      have hneg := intNegate_is h.1.is
      exact ⟨hneg.canonical, hneg.value ▸ neg_ne_zero.mpr h.2⟩
  | float f => exact hfl.neg f h

theorem isFloat_negate (h : x.isFloat) : (mixedNegate fl.toFloatMethods x).isFloat := by
  cases x with
  | int x => exact h
  | float f => trivial

theorem mixedZeroP_eq (h : PartNonzero fl x) : mixedZeroP fl x = false := by
  cases x with
  | int x => exact (fZeroP_eq h.1.is).trans (decide_eq_false h.2)
  | float f => exact h

/-- **The loop goes on with Floats.** -/
theorem mixedGcdLoop_float (fuel n : ℕ) (f : F) (y : Mixed L F) :
    mixedGcdLoop fl fuel n (.float f) y = .error .outOfFuel := by
  induction n generalizing f y with
  | zero => rfl
  | succ n ih =>
      have hmod : ∃ g, mixedMod fl.toFloatMethods fuel y (.float f) = .ok (.float g) := by
        cases y with
        | int y => exact ⟨_, rfl⟩
        | float g => exact ⟨_, rfl⟩
      obtain ⟨g, hg⟩ := hmod
      rw [mixedGcdLoop, hg]
      · exact ih g _
      · intro a ha
        cases ha

/-- On an Integer and a Float it goes on with Floats after a turn. -/
theorem mixedGcdLoop_endless (hx : PartNonzero fl x) (h : x.isFloat ∨ y.isFloat) (fuel n : ℕ) :
    mixedGcdLoop fl fuel n x y = .error .outOfFuel := by
  cases x with
  | float f => exact mixedGcdLoop_float fuel n f y
  | int x =>
      cases y with
      | int y => exact h.elim False.elim False.elim
      | float g =>
          cases n with
          | zero => rfl
          | succ n =>
              cases x with
              | bignum x => exact mixedGcdLoop_float fuel n _ _
              | fixnum b =>
                  have hb : b.val ≠ 0 := hx.2
                  rw [mixedGcdLoop, if_neg hb]
                  · exact mixedGcdLoop_float fuel n _ _
                  · intro c hc
                    cases hc

/-- **The common divisor with a Float is not found.** -/
theorem mixedGcd_endless (hfl : NonzeroPowers fl) (hx : PartNonzero fl x) (hy : PartNonzero fl y)
    (h : x.isFloat ∨ y.isFloat) (fuel : ℕ) : mixedGcd fl fuel x y = .error .outOfFuel := by
  have hpos : ∀ {z : Mixed L F}, PartNonzero fl z →
      PartNonzero fl (if mixedNegativeP fl z then mixedNegate fl.toFloatMethods z else z) := by
    intro z hz
    split_ifs
    · exact partNonzero_negate hfl hz
    · exact hz
  have hfloat : ∀ {z : Mixed L F}, z.isFloat →
      (if mixedNegativeP fl z then mixedNegate fl.toFloatMethods z else z).isFloat := by
    intro z hz
    split_ifs
    · exact isFloat_negate hz
    · exact hz
  have hx' := hpos hx
  have hy' := hpos hy
  have hloop := mixedGcdLoop_endless hx' (h.imp hfloat hfloat) fuel fuel
  rw [mixedGcd]
  · simp only [mixedZeroP_eq hx', mixedZeroP_eq hy', Bool.false_eq_true, if_false]
    exact hloop
  · rintro a b rfl rfl
    exact h.elim False.elim False.elim

theorem nuratCanonicalize_endless (hfl : NonzeroPowers fl) (hx : PartNonzero fl x)
    (hy : PartNonzero fl y) (h : x.isFloat ∨ y.isFloat) (fuel : ℕ) (unify : Bool) :
    nuratCanonicalize fl fuel unify x y = .error (.division .outOfFuel) := by
  have hcmp : mixedCmp fl.toFloatMethods y (.int (.zero L)) ≠ some 0 := by
    cases y with
    | int y =>
        intro hzero
        have hval : (y.toInt - 0).sign = 0 := by
          rw [← intCmp_eq hy.1.is (Inum.zero_is L)]
          exact Option.some.inj hzero
        rw [sub_zero, Int.sign_eq_zero_iff_zero] at hval
        exact hy.2 hval
    | float f => exact hfl.cmp f hy
  rw [nuratCanonicalize, if_neg hcmp]
  have hgcd : ∀ c : Bool, mixedGcd fl fuel (if c then mixedNegate fl.toFloatMethods x else x)
      (if c then mixedNegate fl.toFloatMethods y else y) = .error .outOfFuel := by
    intro c
    cases c with
    | false => exact mixedGcd_endless hfl hx hy h fuel
    | true =>
        exact mixedGcd_endless hfl (partNonzero_negate hfl hx) (partNonzero_negate hfl hy)
          (h.imp isFloat_negate isFloat_negate) fuel
  have hgcd' := hgcd (mixedCmp fl.toFloatMethods y (.int (.zero L)) = some (-1))
  simp only [decide_eq_true_eq] at hgcd'
  simp only [hgcd', liftExpt]
  rfl

end Endless

theorem powerFits_of_abs_le_one {x y : Inum L} (hx : x.Canonical) (h : |x.toInt| ≤ 1) :
    PowerFits x y := by
  cases x with
  | fixnum x =>
      cases y with
      | fixnum y => exact .inl h
      | bignum y => exact h
  | bignum x =>
      have hrange : x.toInt < L.fixnumMin ∨ L.fixnumMax < x.toInt := hx.1
      have hmin : L.fixnumMin ≤ -1 ∧ 1 ≤ L.fixnumMax := by cases L <;> decide
      have hle : -1 ≤ x.toInt ∧ x.toInt ≤ 1 := abs_le.mp h
      omega

theorem IsRaised.partNonzero {fl : FloorMethods F} (hfl : NonzeroPowers fl) {x : ℤ} {e : ℕ}
    {z : Mixed L F} (h : IsRaised L fl.toFloats x e z) (hx : x ≠ 0) : PartNonzero fl z := by
  cases h with
  | int h => exact ⟨h.canonical, h.value ▸ pow_ne_zero e hx⟩
  | float h => exact hfl.pow _ h

/-- **Powers that are too large do not end.** -/
theorem nuratExpt_endless {fl : FloorMethods F} (hfl : NonzeroPowers fl) (ha : a.Canonical)
    (hn : n.Canonical) (hfits : ¬ ExptFits a n) (unify : Bool) :
    Fuel.Settles (fun fuel => nuratExpt fl fuel unify a n) (.error (.division .outOfFuel)) := by
  have h0 : n.toInt ≠ 0 := fun h0 => hfits (.inl h0)
  -- powers of zero and one are within the limit
  have hnum : a.num.toInt ≠ 0 := by
    intro hzero
    have hcop := Int.isCoprime_iff_gcd_eq_one.mp ha.coprime
    rw [hzero, Int.gcd_zero_left] at hcop
    exact hfits (.inr ⟨powerFits_of_abs_le_one ha.num (by rw [hzero]; decide),
      powerFits_of_abs_le_one ha.den (by rw [Int.abs_eq_natAbs, hcop]; decide)⟩)
  obtain ⟨num, den, hrun, hpos, hneg⟩ := exptParts_settles fl.toFloats ha hn h0
  have hparts : PartNonzero fl num ∧ PartNonzero fl den ∧ (num.isFloat ∨ den.isFloat) := by
    have hfloat : ∀ {z : Mixed L F}, (∃ f, z = .float f) → z.isFloat := by
      rintro z ⟨f, rfl⟩
      trivial
    rcases lt_or_gt_of_ne h0 with hlt | hgt
    · exact ⟨(hneg hlt).left.partNonzero hfl ha.pos.ne', (hneg hlt).right.partNonzero hfl hnum,
        ((hneg hlt).float hfits).imp hfloat hfloat⟩
    · exact ⟨(hpos hgt).left.partNonzero hfl hnum, (hpos hgt).right.partNonzero hfl ha.pos.ne',
        ((hpos hgt).float hfits).imp hfloat hfloat⟩
  refine nuratExpt_settles fl hn h0 hrun (.of_le 0 fun fuel _ => ?_)
  exact nuratCanonicalize_endless hfl hparts.1 hparts.2.1 hparts.2.2 fuel unify

end Powers

/-! ## Two exponents -/

/-- Floats that are not told apart, none of which is equal to a number. -/
def nanMethods : FloorMethods Unit where
  toFloats := unitFloats
  add _ _ := ()
  sub _ _ := ()
  div _ _ := ()
  mod _ _ := ()
  lt _ _ := false
  cmp _ _ := none
  equal _ _ := false
  neg _ := ()
  floor _ := ()
  toBig _ := none

theorem nanMethods_nonzeroPowers : NonzeroPowers nanMethods :=
  ⟨fun _ _ => rfl, fun _ _ => rfl, fun _ _ h => nomatch h⟩

/-- `Rational(3, 2)`. -/
def threeHalves : Rational .lp64 :=
  ⟨.fixnum ⟨3, by decide, by decide⟩, .fixnum ⟨2, by decide, by decide⟩⟩

theorem threeHalves_canonical : threeHalves.Canonical :=
  ⟨trivial, trivial, by decide, Int.isCoprime_iff_gcd_eq_one.mpr (by decide)⟩

/-- `Rational(3, 2) ** -3`. -/
theorem exactExpt_minusThree :
    ExactExpt nanMethods threeHalves (.fixnum ⟨-3, by decide, by decide⟩) := by
  have hfits : ∀ x : ℤ, x = 3 ∨ x = 2 → WordPowerFits .lp64 x 3 := by
    intro x hx
    refine wordPowerFits_of_end (i := 1) ?_ (fun _ => ?_) (by decide)
    · intro j hj
      obtain rfl : j = 0 := by omega
      exact ⟨by rcases hx with rfl | rfl <;> decide, fun h => absurd rfl h⟩
    · rcases hx with rfl | rfl <;> decide
  exact (exactExpt_iff (n := .fixnum ⟨-3, by decide, by decide⟩) nanMethods threeHalves_canonical
    trivial).mpr (.inr ⟨.inr (.inr (hfits 3 (.inl rfl))), .inr (.inr (hfits 2 (.inr rfl)))⟩)

/-- `2 ** 64`. -/
def twoPow64 : Inum .lp64 := .bignum ⟨true, [0, 0, 1]⟩

theorem twoPow64_canonical : twoPow64.Canonical := ⟨by decide, by decide, by decide⟩

/-- **Not all powers are exact**: of `Rational(3, 2) ** (2 ** 64)` both parts are Floats. -/
theorem not_forall_exactExpt :
    ¬ ∀ (L : LongSize) (F : Type) (fl : FloorMethods F) (a : Rational L) (n : Inum L),
      NonzeroPowers fl → a.Canonical → n.Canonical → ExactExpt fl a n := by
  intro h
  have hexact := h .lp64 Unit nanMethods threeHalves twoPow64 nanMethods_nonzeroPowers
    threeHalves_canonical twoPow64_canonical
  have hrun : Fuel.Settles (fun fuel => exptParts nanMethods.toFloats fuel threeHalves twoPow64)
      (.ok (.float (), .float ())) := .of_le 0 fun fuel _ => rfl
  obtain ⟨⟨x, hx⟩, -⟩ := hexact.integers _ _ hrun
  cases hx

end MacRuby
