import Mathlib.Tactic.Linarith
import Mathlib.Tactic.Ring

/-!
# Numerals of mixed radix

A numeral is a list of places, the lowest first, and every place has a radix of its own.  As many
values are below the capacity of a numeral as there are numerals with its radices, and two of these
differ in value.

## Main definitions

* `Place` — a digit with its radix.
* `radices ps`, `capacity ps`, `value ps` — the radices of a numeral, how many numerals have them,
  and its value.

## Main results

* `value_lt_capacity` — a value is below the capacity.
* `value_inj` — numerals with the same radices are the same when their values are.
* `value_append` — the value of two numerals, one above the other.
-/

namespace MixedRadix

/-- A digit, which is below the radix of its place. -/
@[ext]
structure Place where
  radix : ℕ
  digit : ℕ
  digit_lt : digit < radix

variable {p q : Place} {ps qs : List Place}

/-- The radices of a numeral. -/
def radices (ps : List Place) : List ℕ := ps.map Place.radix

/-- How many numerals have these radices. -/
def capacity (ps : List Place) : ℕ := (radices ps).prod

/-- The value of a numeral. -/
def value : List Place → ℕ
  | [] => 0
  | p :: ps => p.digit + p.radix * value ps

@[simp] theorem value_nil : value [] = 0 := rfl

@[simp] theorem value_cons : value (p :: ps) = p.digit + p.radix * value ps := rfl

@[simp] theorem radices_nil : radices [] = [] := rfl

@[simp] theorem radices_cons : radices (p :: ps) = p.radix :: radices ps := rfl

@[simp] theorem capacity_nil : capacity [] = 1 := rfl

@[simp] theorem capacity_cons : capacity (p :: ps) = p.radix * capacity ps := by
  simp [capacity]

theorem capacity_congr (h : radices ps = radices qs) : capacity ps = capacity qs := by
  rw [capacity, h, capacity]

/-- **A value is below the capacity.** -/
theorem value_lt_capacity : ∀ ps : List Place, value ps < capacity ps
  | [] => by simp
  | p :: ps => by
      have ih : value ps + 1 ≤ capacity ps := value_lt_capacity ps
      have hp := p.digit_lt
      have hmul := Nat.mul_le_mul_left p.radix ih
      rw [value_cons, capacity_cons]
      linarith

/-- **Numerals with the same radices are the same when their values are.** -/
theorem value_inj (hr : radices ps = radices qs) (hv : value ps = value qs) : ps = qs := by
  induction ps generalizing qs with
  | nil =>
      cases qs with
      | nil => rfl
      | cons q qs => simp at hr
  | cons p ps ih =>
      cases qs with
      | nil => simp at hr
      | cons q qs =>
          simp only [radices_cons, List.cons.injEq] at hr
          simp only [value_cons] at hv
          have hp := p.digit_lt
          have hq := q.digit_lt
          rw [← hr.1] at hv hq
          have hdigit : p.digit = q.digit := by
            simpa [Nat.mod_eq_of_lt hp, Nat.mod_eq_of_lt hq] using congrArg (· % p.radix) hv
          have hrest : value ps = value qs := by
            rw [hdigit] at hv
            exact Nat.eq_of_mul_eq_mul_left (by omega) (Nat.add_left_cancel hv)
          rw [ih hr.2 hrest, Place.ext hr.1 hdigit]

/-- **The value of two numerals**, one above the other. -/
theorem value_append : value (ps ++ qs) = value ps + capacity ps * value qs := by
  induction ps with
  | nil => simp
  | cons p ps ih =>
      rw [List.cons_append, value_cons, ih, value_cons, capacity_cons]
      ring

end MixedRadix
