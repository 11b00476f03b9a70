import Mathlib.Data.List.TakeWhile
import Mathlib.Data.Nat.Digits.Defs

/-!
# Numerals of a fixed width

The lowest digits of a natural number, the most significant first, written with an arbitrary symbol
for each digit. A numeral may be wider than its number needs; then it begins with the symbol for
zero, and `strip` takes these symbols away. The lemmas are about a numeral that is put together from
two: its upper part may be stripped, and where nothing is left of it, so may the lower part.

## Main definitions

* `Numerals.padded f b n v` — the `n` lowest digits of `v` in base `b`.
* `Numerals.strip f l` — the numeral without the zeros in front.

## Main results

* `Numerals.padded_add`, `Numerals.padded_split` — a numeral in two parts.
* `Numerals.strip_append` — the parts are stripped one after the other.
* `Numerals.strip_padded` — a stripped numeral is that of `Nat.digits`.
-/

namespace Numerals

universe u
variable {α : Type u} {f : ℕ → α} {b m n v : ℕ}

/-- The `n` lowest digits of `v` in base `b`, the most significant first. -/
def padded (f : ℕ → α) (b : ℕ) : ℕ → ℕ → List α
  | 0, _ => []
  | n + 1, v => padded f b n (v / b) ++ [f (v % b)]

@[simp] theorem length_padded (f : ℕ → α) (b n v : ℕ) : (padded f b n v).length = n := by
  induction n generalizing v with
  | zero => rfl
  | succ n ih => rw [padded, List.length_append, ih, List.length_singleton]

/-- A numeral consists of the digits above a place and the digits below it. -/
theorem padded_add (f : ℕ → α) (b m n v : ℕ) :
    padded f b (m + n) v = padded f b m (v / b ^ n) ++ padded f b n v := by
  induction n generalizing v with
  | zero => rw [pow_zero, Nat.div_one, padded, List.append_nil, Nat.add_zero]
  | succ n ih =>
      rw [← Nat.add_assoc, padded, ih, padded, Nat.div_div_eq_div_mul, pow_succ', List.append_assoc]

/-- Digits do not depend on what is above them. -/
theorem padded_mod (f : ℕ → α) (b : ℕ) (hmn : n ≤ m) (v : ℕ) :
    padded f b n (v % b ^ m) = padded f b n v := by
  induction n generalizing m v with
  | zero => rfl
  | succ n ih =>
      obtain ⟨k, rfl⟩ : ∃ k, m = k + 1 := ⟨m - 1, by omega⟩
      have hdiv : v % b ^ (k + 1) / b = v / b % b ^ k := by
        rw [pow_succ', Nat.mod_mul_right_div_self]
      have hmod : v % b ^ (k + 1) % b = v % b := by
        rw [pow_succ', Nat.mod_mul_right_mod]
      rw [padded, padded, hdiv, hmod, ih (Nat.le_of_succ_le_succ hmn)]

/-- A quotient and a remainder are written side by side. -/
theorem padded_split (f : ℕ → α) (hb : 0 < b) (m : ℕ) {q r : ℕ} (hr : r < b ^ n) :
    padded f b (m + n) (q * b ^ n + r) = padded f b m q ++ padded f b n r := by
  have hpos : 0 < b ^ n := Nat.pow_pos hb
  have hdiv : (q * b ^ n + r) / b ^ n = q := by
    rw [Nat.mul_comm, Nat.mul_add_div hpos, Nat.div_eq_of_lt hr, Nat.add_zero]
  have hmod : (q * b ^ n + r) % b ^ n = r := by
    rw [Nat.mul_comm, Nat.mul_add_mod, Nat.mod_eq_of_lt hr]
  rw [padded_add, hdiv, ← padded_mod f b le_rfl (q * b ^ n + r), hmod]

theorem padded_zero (f : ℕ → α) (b n : ℕ) : padded f b n 0 = List.replicate n (f 0) := by
  induction n with
  | zero => rfl
  | succ n ih => rw [padded, Nat.zero_div, Nat.zero_mod, ih, List.replicate_succ']

section Strip

variable [DecidableEq α]

/-- The numeral without the zeros in front. -/
def strip (f : ℕ → α) (l : List α) : List α := l.dropWhile fun c => decide (c = f 0)

theorem strip_replicate (f : ℕ → α) (n : ℕ) (l : List α) :
    strip f (List.replicate n (f 0) ++ l) = strip f l :=
  List.dropWhile_append_of_pos fun _ h => decide_eq_true (List.eq_of_mem_replicate h)

/-- The lower part is stripped if nothing is left of the upper part. -/
theorem strip_append (f : ℕ → α) (l l' : List α) :
    strip f (l ++ l') = strip f l ++ if strip f l = [] then strip f l' else l' := by
  rw [strip, List.dropWhile_append]
  by_cases h : strip f l = []
  · have h' : l.dropWhile (fun c => decide (c = f 0)) = [] := h
    rw [if_pos h, h, h', if_pos List.isEmpty_nil]
    rfl
  · have h' : ¬ (l.dropWhile fun c => decide (c = f 0)).isEmpty = true :=
      fun hempty => h (List.isEmpty_iff.mp hempty)
    rw [if_neg h, if_neg h']
    rfl

theorem strip_cons {c : α} (hc : c ≠ f 0) (l : List α) : strip f (c :: l) = c :: l :=
  List.dropWhile_cons_of_neg (by simpa using hc)

/-- Digits above the number are stripped. -/
theorem strip_padded_of_lt (f : ℕ → α) (hmn : n ≤ m) (hv : v < b ^ n) :
    strip f (padded f b m v) = strip f (padded f b n v) := by
  obtain ⟨k, rfl⟩ := Nat.exists_eq_add_of_le' hmn
  rw [padded_add, Nat.div_eq_of_lt hv, padded_zero, strip_replicate]

/-- **A stripped numeral is made of the digits of its number**, if it is wide enough for it. -/
theorem strip_padded (hb : 2 ≤ b) (hf : ∀ d, d < b → f d = f 0 → d = 0) (hv : v < b ^ n) :
    strip f (padded f b n v) = ((Nat.digits b v).map f).reverse := by
  induction n generalizing v with
  | zero =>
      obtain rfl : v = 0 := by
        rw [pow_zero] at hv
        omega
      rw [Nat.digits_zero]
      rfl
  | succ n ih =>
      have hdiv : v / b < b ^ n := Nat.div_lt_of_lt_mul (by rwa [← pow_succ'])
      rw [padded, strip_append, ih hdiv]
      by_cases hzero : v = 0
      · subst hzero
        rw [Nat.zero_div, Nat.zero_mod, Nat.digits_zero]
        exact strip_replicate f 1 []
      · rw [Nat.digits_def' (by omega) (Nat.pos_of_ne_zero hzero), List.map_cons, List.reverse_cons]
        by_cases hup : v / b = 0
        · -- the digit is the whole number
          have hmod : v % b ≠ 0 := by
            intro hmod
            have hsplit := Nat.div_add_mod v b
            rw [hup, hmod, Nat.mul_zero] at hsplit
            exact hzero hsplit.symm
          have hne : f (v % b) ≠ f 0 := fun h => hmod (hf _ (Nat.mod_lt _ (by omega)) h)
          rw [hup, Nat.digits_zero, List.map_nil, List.reverse_nil, if_pos rfl, strip_cons hne]
        · have hne : ((Nat.digits b (v / b)).map f).reverse ≠ [] := by
            intro h
            rw [List.reverse_eq_nil_iff, List.map_eq_nil_iff] at h
            exact hup (Nat.digits_eq_nil_iff_eq_zero.mp h)
          rw [if_neg hne]

end Strip

end Numerals
