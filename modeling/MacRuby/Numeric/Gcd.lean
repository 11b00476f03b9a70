import MacRuby.Lib.Result
import MacRuby.Numeric.Long
import MacRuby.Numeric.Rational

/-!
# Greatest common divisors in machine words

`i_gcd` of `rational.c` with every `long` it computes, where `iGcd` has natural numbers: an
operation whose exact result is not a `long`, and a shift by more than the width of one, is an
error.  On fixnums there is none, also when one of them has no negative that is a fixnum.

## Main definitions

* `iGcdWord` — `i_gcd`.

## Main results

* `iGcdWord_of_iGcd` — on fixnums the words of `iGcdWord` are the numbers of `iGcd`.
* `gcd_settles` — what `f_gcd` and `i_gcd` find.
-/

namespace MacRuby

/-! ## The code -/

/-- What can go wrong in a loop on `long`s. -/
inductive WordError
  | outOfFuel
  | overflow
  deriving DecidableEq

section Code

variable (L : LongSize)

/-- The result of an operation on `long`s, whose exact result is `n`. -/
def longResult (n : ℤ) : Except WordError ℤ :=
  match L.signed n with
  | none => .error .overflow
  | some n => .ok n

/-- `if (x < 0) x = -x;` -/
def absWord (x : ℤ) : Except WordError ℤ :=
  if x < 0 then longResult L (-x) else .ok x

/-- `while ((x & 1) == 0) x >>= 1;` -/
def halveWord (fuel : ℕ) (x : ℤ) : Except WordError ℤ :=
  match Loop.whileFuel (fun x => x % 2 == 0) (· / 2) fuel x with
  | none => .error .outOfFuel
  | some x => .ok x

/-- The first loop of `i_gcd`. -/
def halveBothWord : ℕ → ℤ → ℤ → ℤ → Except WordError (ℤ × ℤ × ℤ)
  | 0, x, y, b => if x % 2 = 0 ∧ y % 2 = 0 then .error .outOfFuel else .ok (x, y, b)
  | n + 1, x, y, b =>
      if x % 2 = 0 ∧ y % 2 = 0 then do
        let b ← longResult L (b + 1)
        halveBothWord n (x / 2) (y / 2) b
      else .ok (x, y, b)

/-- The last loop of `i_gcd`. -/
def gcdOddWord (fuel : ℕ) : ℕ → ℤ → ℤ → Except WordError ℤ
  | 0, _, _ => .error .outOfFuel
  | n + 1, x, y =>
      if x = y then .ok x
      else do
        let (x, y) := if y > x then (y, x) else (x, y)
        let x ← longResult L (x - y)
        let x ← halveWord fuel x
        gcdOddWord fuel n x y

/-- `x << b`. -/
def shiftWord (x b : ℤ) : Except WordError ℤ :=
  if 0 ≤ b ∧ b < L.bits then longResult L (x * 2 ^ b.toNat) else .error .overflow

/-- `i_gcd(x, y)`. -/
def iGcdWord (fuel : ℕ) (x y : ℤ) : Except WordError ℤ := do
  let x ← absWord L x
  let y ← absWord L y
  if x = 0 then .ok y
  else if y = 0 then .ok x
  else do
    let (x, y, b) ← halveBothWord L fuel x y 0
    let x ← halveWord fuel x
    let y ← halveWord fuel y
    let x ← gcdOddWord L fuel fuel x y
    shiftWord L x b

end Code

/-! ## The words are the numbers -/

section Words

variable {L : LongSize}

/-- A natural number up to `LONG_MAX` is a result. -/
theorem longResult_natCast {n : ℕ} (h : (n : ℤ) ≤ L.longMax) :
    longResult L n = .ok (n : ℤ) := by
  have hmin : L.longMin ≤ n := by
    have := L.longMin_eq
    have := L.longMax_pos
    omega
  rw [longResult, LongSize.signed_of_mem hmin h]

/-- The absolute value of a fixnum, which need not be one. -/
theorem natAbs_fixnum_le (a : Fixnum L) : a.val.natAbs ≤ 2 ^ (L.bits - 2) := by
  obtain ⟨hmin, hmax, hhalf⟩ := L.fixnum_range
  have ha0 := a.min_le
  have ha1 := a.le_max
  rw [hmin] at ha0
  rw [hmax] at ha1
  have hle : (a.val.natAbs : ℤ) ≤ 2 ^ (L.bits - 2) := by omega
  exact_mod_cast hle

/-- What a fixnum can be in size is a `long`. -/
theorem natCast_le_longMax {n : ℕ} (h : n ≤ 2 ^ (L.bits - 2)) : (n : ℤ) ≤ L.longMax := by
  obtain ⟨hmin, hmax, hhalf⟩ := L.fixnum_range
  have hcast : (n : ℤ) ≤ 2 ^ (L.bits - 2) := by exact_mod_cast h
  have hpos : (1 : ℤ) ≤ 2 ^ (L.bits - 2) := one_le_pow₀ (by norm_num)
  rw [LongSize.longMax, hhalf]
  omega

theorem absWord_fixnum (a : Fixnum L) : absWord L a.val = .ok (a.val.natAbs : ℤ) := by
  have hlong := longResult_natCast (natCast_le_longMax (natAbs_fixnum_le a))
  rw [absWord]
  split_ifs with hneg
  · rw [← hlong]
    congr 1
    omega
  · congr 1
    omega

theorem halveWord_natCast {fuel x r : ℕ} (h : halve fuel x = .ok r) :
    halveWord fuel x = .ok (r : ℤ) := by
  have hrun : Loop.whileFuel (fun x : ℤ => x % 2 == 0) (· / 2) fuel x =
      (Loop.whileFuel (fun x : ℕ => x % 2 == 0) (· / 2) fuel x).map Nat.cast := by
    apply Loop.whileFuel_map
    · intro a
      rw [Bool.eq_iff_iff, beq_iff_eq, beq_iff_eq]
      omega
    · intro a
      exact (Nat.cast_ofNat (R := ℤ) (n := 2)) ▸ (Int.natCast_div a 2).symm
  rw [halveWord, hrun]
  unfold halve at h
  cases hx : Loop.whileFuel (fun x : ℕ => x % 2 == 0) (· / 2) fuel x with
  | none => simp [hx] at h
  | some y =>
      simp only [hx, Except.ok.injEq] at h
      simp [h]

/-- Halving does not enlarge a number. -/
theorem halve_le {fuel x r : ℕ} (h : halve fuel x = .ok r) : r ≤ x := by
  have hrun : ∀ {fuel x : ℕ},
      Loop.whileFuel (fun x : ℕ => x % 2 == 0) (· / 2) fuel x = some r → r ≤ x := by
    intro fuel
    induction fuel with
    | zero =>
        intro x hx
        simp only [Loop.whileFuel] at hx
        split_ifs at hx
        simp_all
    | succ n ih =>
        intro x hx
        simp only [Loop.whileFuel] at hx
        split_ifs at hx
        · exact (ih hx).trans (Nat.div_le_self x 2)
        · simp_all
  unfold halve at h
  cases hx : Loop.whileFuel (fun x : ℕ => x % 2 == 0) (· / 2) fuel x with
  | none => simp [hx] at h
  | some y =>
      simp only [hx, Except.ok.injEq] at h
      exact hrun (h ▸ hx)

/-- Both loops go on as long as the numbers are even. -/
theorem bothEven_iff (x y : ℕ) :
    ((x : ℤ) % 2 = 0 ∧ (y : ℤ) % 2 = 0) ↔ (x % 2 == 0 && y % 2 == 0) = true := by
  simp only [Bool.and_eq_true, beq_iff_eq]
  omega

theorem whileFuel_of_halveBoth {fuel x y x' y' b : ℕ} (h : halveBoth fuel x y = .ok (x', y', b)) :
    Loop.whileFuel (fun s : ℕ × ℕ × ℕ => s.1 % 2 == 0 && s.2.1 % 2 == 0)
      (fun s => (s.1 / 2, s.2.1 / 2, s.2.2 + 1)) fuel (x, y, 0) = some (x', y', b) := by
  unfold halveBoth at h
  split at h
  · cases h
  · rename_i s hs
    rw [hs, Except.ok.inj h]

/-- The first loop counts the halvings of a word, which are fewer than its bits. -/
theorem halveBothWord_natCast {x' y' b : ℕ} (fuel : ℕ) : ∀ {x y b0 : ℕ},
    Loop.whileFuel (fun s : ℕ × ℕ × ℕ => s.1 % 2 == 0 && s.2.1 % 2 == 0)
      (fun s => (s.1 / 2, s.2.1 / 2, s.2.2 + 1)) fuel (x, y, b0) = some (x', y', b) →
    0 < x → x * 2 ^ b0 ≤ 2 ^ (L.bits - 2) →
    halveBothWord L fuel x y b0 = .ok ((x' : ℤ), (y' : ℤ), (b : ℤ)) ∧ b ≤ L.bits - 2 ∧
      x' * 2 ^ b = x * 2 ^ b0 ∧ y' ≤ y := by
  have hcount : ∀ {x b : ℕ}, 0 < x → x * 2 ^ b ≤ 2 ^ (L.bits - 2) → b ≤ L.bits - 2 := by
    intro x b hx hle
    exact (Nat.pow_le_pow_iff_right Nat.one_lt_two).mp
      ((Nat.le_mul_of_pos_left _ hx).trans hle)
  induction fuel with
  | zero =>
      intro x y b0 hrun hx hle
      simp only [Loop.whileFuel] at hrun
      split_ifs at hrun with heven
      cases hrun
      rw [halveBothWord, if_neg ((bothEven_iff _ _).not.mpr heven)]
      exact ⟨rfl, hcount hx hle, rfl, le_rfl⟩
  | succ n ih =>
      intro x y b0 hrun hx hle
      simp only [Loop.whileFuel] at hrun
      split_ifs at hrun with heven
      · rw [halveBothWord, if_pos ((bothEven_iff x y).mpr heven)]
        simp only [Bool.and_eq_true, beq_iff_eq] at heven
        have hx2 : x / 2 * 2 ^ (b0 + 1) = x * 2 ^ b0 := by
          rw [pow_succ, mul_comm (2 ^ b0) 2, ← mul_assoc]
          congr 1
          omega
        have hbits : ((b0 + 1 : ℕ) : ℤ) ≤ L.longMax := by
          have hb := hcount hx hle
          cases L
          · simp only [LongSize.bits, LongSize.bytes] at hb
            simp only [LongSize.longMax, LongSize.bits, LongSize.bytes]
            omega
          · simp only [LongSize.bits, LongSize.bytes] at hb
            simp only [LongSize.longMax, LongSize.bits, LongSize.bytes]
            omega
        obtain ⟨hword, hb, hx', hy'⟩ := ih hrun (by omega) (hx2 ▸ hle)
        refine ⟨?_, hb, hx'.trans hx2, hy'.trans (Nat.div_le_self y 2)⟩
        have hcast := longResult_natCast hbits
        push_cast at hcast hword
        rw [hcast]
        exact hword
      · cases hrun
        rw [halveBothWord, if_neg ((bothEven_iff _ _).not.mpr heven)]
        exact ⟨rfl, hcount hx hle, rfl, le_rfl⟩

/-- The last loop subtracts the smaller number from the larger one. -/
theorem gcdOddWord_natCast {fuel r : ℕ} (n : ℕ) : ∀ {x y : ℕ}, gcdOdd fuel n x y = .ok r →
    (x : ℤ) ≤ L.longMax → (y : ℤ) ≤ L.longMax →
    gcdOddWord L fuel n x y = .ok (r : ℤ) ∧ r ≤ x ∧ r ≤ y := by
  induction n with
  | zero =>
      intro x y h
      simp [gcdOdd] at h
  | succ n ih =>
      -- one turn, once the larger number stands first
      have hturn : ∀ {x y : ℕ}, y ≤ x →
          (halve fuel (x - y) >>= fun x => gcdOdd fuel n x y) = .ok r →
          (x : ℤ) ≤ L.longMax → (y : ℤ) ≤ L.longMax →
          (longResult L ((x : ℤ) - y) >>= fun x => halveWord fuel x >>= fun x =>
            gcdOddWord L fuel n x y) = .ok (r : ℤ) ∧ r ≤ y := by
        intro x y hle h hx hy
        rw [← Nat.cast_sub hle, longResult_natCast (by omega), Result.ok_bind]
        obtain ⟨z, hz, hrest⟩ := Result.bind_eq_ok.mp h
        rw [halveWord_natCast hz, Result.ok_bind]
        have hzle := halve_le hz
        obtain ⟨hword, -, hry⟩ := ih hrest (by omega) hy
        exact ⟨hword, hry⟩
      intro x y h hx hy
      rw [gcdOdd] at h
      rw [gcdOddWord]
      simp only [Nat.cast_inj]
      split_ifs at h ⊢ with heq hgt hgt' hgt'
      · cases h
        exact ⟨rfl, le_rfl, heq.le⟩
      · obtain ⟨hword, hr⟩ := hturn (by omega) h hy hx
        exact ⟨hword, hr, by omega⟩
      · omega
      · omega
      · obtain ⟨hword, hr⟩ := hturn (by omega) h hx hy
        exact ⟨hword, by omega, hr⟩

/-- **On fixnums the words of `i_gcd` are the numbers of `iGcd`**: nothing overflows. -/
theorem iGcdWord_of_iGcd {fuel : ℕ} {a b : Fixnum L} {g : ℤ}
    (h : iGcd fuel a.val b.val = .ok g) : iGcdWord L fuel a.val b.val = .ok g := by
  have ha := natAbs_fixnum_le a
  have hb := natAbs_fixnum_le b
  rw [iGcdWord, absWord_fixnum, absWord_fixnum]
  simp only [Result.ok_bind, Int.natCast_eq_zero]
  rw [iGcd] at h
  generalize a.val.natAbs = x at h ha ⊢
  generalize b.val.natAbs = y at h hb ⊢
  dsimp only at h
  split_ifs at h ⊢ with hx hy
  · exact congrArg Except.ok (Except.ok.inj h)
  · exact congrArg Except.ok (Except.ok.inj h)
  · obtain ⟨⟨x', y', k⟩, hboth, h⟩ := Result.bind_eq_ok.mp h
    obtain ⟨u, hu, h⟩ := Result.bind_eq_ok.mp h
    obtain ⟨v, hv, h⟩ := Result.bind_eq_ok.mp h
    obtain ⟨r, hr, h⟩ := Result.bind_eq_ok.mp h
    dsimp only at hu hv hr h
    have hloop := whileFuel_of_halveBoth hboth
    obtain ⟨hword, hk, hx', hy'⟩ :=
      halveBothWord_natCast (L := L) fuel hloop (Nat.pos_of_ne_zero hx) (by simpa using ha)
    rw [pow_zero, mul_one] at hx'
    have hux := halve_le hu
    have hvy := halve_le hv
    have hxle : x' ≤ x := hx' ▸ Nat.le_mul_of_pos_right x' (by positivity)
    obtain ⟨hodd, hru, -⟩ := gcdOddWord_natCast (L := L) fuel hr
      (natCast_le_longMax (by omega)) (natCast_le_longMax (by omega))
    have hshift : r * 2 ^ k ≤ 2 ^ (L.bits - 2) :=
      calc r * 2 ^ k ≤ x' * 2 ^ k := Nat.mul_le_mul_right _ (hru.trans hux)
        _ = x := hx'
        _ ≤ 2 ^ (L.bits - 2) := ha
    have hbits : L.bits - 2 < L.bits := by cases L <;> decide
    have hlong := longResult_natCast (natCast_le_longMax hshift)
    push_cast at hlong
    rw [Nat.cast_zero] at hword
    simp only [hword, Result.ok_bind, halveWord_natCast hu, halveWord_natCast hv, hodd]
    rw [shiftWord, if_pos ⟨by omega, by omega⟩, Int.toNat_natCast, hlong]
    rw [← Except.ok.inj h]
    push_cast
    rfl

/-- **`f_gcd` finds the greatest common divisor of any two Integers, and `i_gcd` that of any two
fixnums**; the numbers of the `i_gcd` that `f_gcd` calls are words. -/
theorem gcd_settles {a b : ℤ} {x y : Inum L} (hx : x.Is a) (hy : y.Is b) :
    (∃ r : Inum L, r.Is (Int.gcd a b) ∧ Fuel.Settles (fun fuel => fGcd fuel x y) (.ok r)) ∧
      (∀ m n : Fixnum L, Fuel.Settles (fun fuel => iGcdWord L fuel m.val n.val)
        (.ok (Int.gcd m.val n.val : ℤ))) ∧
      ∀ fuel (m n : Fixnum L) g, iGcd fuel m.val n.val = .ok g →
        iGcdWord L fuel m.val n.val = .ok g := by
  refine ⟨fGcd_settles hx hy, ?_, fun fuel m n g => iGcdWord_of_iGcd⟩
  intro m n
  apply Fuel.Settles.of_le (m.val.natAbs + n.val.natAbs)
  intro fuel hfuel
  exact iGcdWord_of_iGcd (iGcd_eq hfuel)

/-- The most negative fixnum, and the bignum that is its absolute value. -/
theorem gcd_settles_fixnumMin :
    (∃ r : Inum .lp64, r.Is (Int.gcd (-2 ^ 62) (2 ^ 62)) ∧
      Fuel.Settles (fun fuel => fGcd fuel (long2num .lp64 (-2 ^ 62)) (long2num .lp64 (2 ^ 62)))
        (.ok r)) ∧
      (∀ m n : Fixnum .lp64, Fuel.Settles (fun fuel => iGcdWord .lp64 fuel m.val n.val)
        (.ok (Int.gcd m.val n.val : ℤ))) ∧
      ∀ fuel (m n : Fixnum .lp64) g, iGcd fuel m.val n.val = .ok g →
        iGcdWord .lp64 fuel m.val n.val = .ok g :=
  gcd_settles (long2num_is (by decide) (by decide)) (long2num_is (by decide) (by decide))

end Words

end MacRuby
