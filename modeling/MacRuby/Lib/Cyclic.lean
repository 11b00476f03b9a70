import Mathlib.Algebra.Order.Ring.Nat
import Mathlib.Data.List.Basic
import Mathlib.Tactic.Common

/-!
# Infinite repetitions

The beginning of the infinite repetition of a list is made of copies of it and a part of one more.
With that part in front of the copies instead, it is the same only if the part can be moved past a
copy.

## Main definitions

* `copies u q` — `q` copies of `u`.
* `cyclic u n` — the first `n` elements of the infinite repetition of `u`.

## Main results

* `cyclic_eq` — how it is made up.
* `part_copies_iff` — when the part can stand in front.
-/

namespace Cyclic

universe v

variable {α : Type v} {u : List α}

/-- `q` copies of a list, one after the other. -/
def copies (u : List α) (q : ℕ) : List α := (List.replicate q u).flatten

@[simp] theorem copies_zero : copies u 0 = [] := rfl

theorem copies_succ (q : ℕ) : copies u (q + 1) = u ++ copies u q := by
  rw [copies, List.replicate_succ, List.flatten_cons, copies]

theorem copies_add (p q : ℕ) : copies u (p + q) = copies u p ++ copies u q := by
  rw [copies, List.replicate_add, List.flatten_append, copies, copies]

@[simp] theorem copies_one : copies u 1 = u := by
  rw [copies_succ, copies_zero, List.append_nil]

/-- A copy can as well be the last one. -/
theorem copies_append (q : ℕ) : copies u q ++ u = u ++ copies u q := by
  rw [← copies_succ, copies_add, copies_one]

@[simp] theorem length_copies (q : ℕ) : (copies u q).length = q * u.length := by
  simp [copies]

/-- **The first elements of the infinite repetition** of a list that is not empty. -/
def cyclic (u : List α) (n : ℕ) : List α := (copies u n).take n

theorem length_cyclic (hu : u ≠ []) (n : ℕ) : (cyclic u n).length = n := by
  have hpos := List.length_pos_of_ne_nil hu
  rw [cyclic, List.length_take, length_copies]
  exact Nat.min_eq_left (Nat.le_mul_of_pos_right n hpos)

/-- **They are copies of the list, and a part of one more.** -/
theorem cyclic_eq (hu : u ≠ []) (n : ℕ) :
    cyclic u n = copies u (n / u.length) ++ u.take (n % u.length) := by
  have hpos := List.length_pos_of_ne_nil hu
  have hdiv := Nat.div_add_mod n u.length
  have hlt := Nat.mod_lt n hpos
  generalize n / u.length = q at hdiv ⊢
  generalize n % u.length = t at hdiv hlt ⊢
  have hq : q ≤ n := (Nat.le_mul_of_pos_left q hpos).trans (hdiv ▸ Nat.le_add_right _ t)
  obtain ⟨k, rfl⟩ := Nat.exists_eq_add_of_le hq
  have hlen : (copies u q).length = u.length * q := by rw [length_copies, mul_comm]
  rw [cyclic, copies_add, List.take_append, List.take_of_length_le (by omega)]
  congr 1
  have htake : q + k - (copies u q).length = t := by omega
  rw [htake]
  cases k with
  | zero =>
      have hle := Nat.le_mul_of_pos_left q hpos
      have ht : t = 0 := by omega
      rw [ht, List.take_zero, List.take_zero]
  | succ k =>
      rw [copies_succ, List.take_append_of_le_length hlt.le]

/-- **The part can stand in front of the copies** if and only if there are none, or it can be moved
past one. -/
theorem part_copies_iff (q : ℕ) {t : ℕ} (ht : t ≤ u.length) :
    u.take t ++ copies u q = copies u q ++ u.take t ↔
      q = 0 ∨ u.take t ++ u = u ++ u.take t := by
  constructor
  · intro h
    cases q with
    | zero => exact .inl rfl
    | succ q =>
        -- the first elements on both sides, as many as a copy and the part have
        have hlength : (u.take t ++ u).length = t + u.length := by
          rw [List.length_append, List.length_take, Nat.min_eq_left ht]
        have hleft : (u.take t ++ copies u (q + 1)).take (t + u.length) = u.take t ++ u := by
          rw [copies_succ, ← List.append_assoc, List.take_append_of_le_length,
            List.take_of_length_le]
          · exact hlength.le
          · exact hlength.ge
        have hright : (copies u (q + 1) ++ u.take t).take (t + u.length) = u ++ u.take t := by
          rw [copies_succ, List.append_assoc, List.take_append, Nat.add_sub_cancel,
            List.take_of_length_le (Nat.le_add_left _ _)]
          congr 1
          cases q with
          | zero => rw [copies_zero, List.nil_append, List.take_take, Nat.min_self]
          | succ q =>
              rw [copies_succ, List.append_assoc, List.take_append_of_le_length ht]
        rw [← hleft, h, hright]
        exact .inr rfl
  · rintro (rfl | h)
    · rw [copies_zero, List.append_nil, List.nil_append]
    · induction q with
      | zero => rw [copies_zero, List.append_nil, List.nil_append]
      | succ q ih =>
          rw [copies_succ, ← List.append_assoc, h, List.append_assoc, ih, List.append_assoc]

end Cyclic
