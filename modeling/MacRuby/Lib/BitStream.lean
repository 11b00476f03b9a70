import Mathlib.Data.Nat.Bitwise
import Mathlib.Data.Nat.Find

/-!
# Streams of bits

A list of words of `w` bits as a stream of bits: the words one after another, the most significant
bit of each word first. After the last word there are zeros.

## Main definitions

* `bit` — a bit of the stream.

## Main results

* `bit_append_left`, `bit_append_right`, `bit_drop` — the bits of parts.
* `eq_zero_of_bit` — words whose bits are zeros are zero.
* `exists_last` — a stream with a one has a last one.
-/

namespace BitStream

variable {w : ℕ} {xs ys : List ℕ} {i : ℕ}

/-- Bit `i` of the stream. -/
def bit (w : ℕ) (xs : List ℕ) (i : ℕ) : Bool := (xs.getD (i / w) 0).testBit (w - 1 - i % w)

/-- There are zeros after the last word. -/
theorem bit_of_le (hw : 0 < w) (h : w * xs.length ≤ i) : bit w xs i = false := by
  have hlen : xs.length ≤ i / w := (Nat.le_div_iff_mul_le hw).mpr (by rwa [mul_comm])
  rw [bit, List.getD_eq_default _ _ hlen, Nat.zero_testBit]

theorem bit_append_left (h : i < w * xs.length) : bit w (xs ++ ys) i = bit w xs i := by
  have hlt : i / w < xs.length := Nat.div_lt_of_lt_mul h
  rw [bit, bit, List.getD_append _ _ _ _ hlt]

theorem bit_append_right (hw : 0 < w) : bit w (xs ++ ys) (w * xs.length + i) = bit w ys i := by
  rw [bit, bit, Nat.mul_add_div hw, Nat.mul_add_mod,
    List.getD_append_right _ _ _ _ (Nat.le_add_right _ _), Nat.add_sub_cancel_left]

/-- A word of zeros at the end changes nothing. -/
theorem bit_append_zero (hw : 0 < w) : bit w (xs ++ [0]) i = bit w xs i := by
  rcases Nat.lt_or_ge i (w * xs.length) with hi | hi
  · exact bit_append_left hi
  · obtain ⟨j, rfl⟩ := Nat.exists_eq_add_of_le hi
    rw [bit_append_right hw, bit_of_le hw hi, bit]
    cases j / w <;> simp

theorem bit_drop (hw : 0 < w) (k : ℕ) : bit w (xs.drop k) i = bit w xs (w * k + i) := by
  rw [bit, bit, Nat.mul_add_div hw, Nat.mul_add_mod, List.getD_eq_getElem?_getD, List.getElem?_drop,
    List.getD_eq_getElem?_getD]

/-- Words whose bits are zeros are zero. -/
theorem eq_zero_of_bit (hw : 0 < w) (hxs : ∀ x ∈ xs, x < 2 ^ w) (h : ∀ i, bit w xs i = false) :
    ∀ x ∈ xs, x = 0 := by
  intro x hx
  obtain ⟨n, hn, rfl⟩ := List.getElem_of_mem hx
  apply Nat.eq_of_testBit_eq
  intro k
  rw [Nat.zero_testBit]
  rcases Nat.lt_or_ge k w with hk | hk
  · have hbit := h (w * n + (w - 1 - k))
    have hlow : w - 1 - k < w := by omega
    rw [bit, Nat.mul_add_div hw, Nat.mul_add_mod, Nat.div_eq_of_lt hlow, Nat.mod_eq_of_lt hlow,
      add_zero, List.getD_eq_getElem _ _ hn] at hbit
    have hback : w - 1 - (w - 1 - k) = k := by omega
    rwa [hback] at hbit
  · exact Nat.testBit_lt_two_pow ((hxs _ hx).trans_le (Nat.pow_le_pow_right (by decide) hk))

/-- **A stream with a one has a last one.** -/
theorem exists_last (hw : 0 < w) (h : bit w xs i = true) :
    ∃ z ≥ i, bit w xs z = true ∧ ∀ j > z, bit w xs j = false := by
  have hin : ∀ j, bit w xs j = true → j < w * xs.length := by
    intro j hj
    by_contra hle
    rw [bit_of_le hw (not_lt.mp hle)] at hj
    cases hj
  refine ⟨Nat.findGreatest (fun j => bit w xs j = true) (w * xs.length), ?_, ?_, ?_⟩
  · exact Nat.le_findGreatest (hin i h).le h
  · exact Nat.findGreatest_spec (P := fun j => bit w xs j = true) (hin i h).le h
  · intro j hj
    by_contra hone
    rw [Bool.not_eq_false] at hone
    exact absurd hone (Nat.findGreatest_is_greatest hj (hin j hone).le)

end BitStream
