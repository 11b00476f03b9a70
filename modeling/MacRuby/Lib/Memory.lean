import MacRuby.Lib.Loop
import Mathlib.Data.List.Basic
import Mathlib.Logic.Function.Basic

/-!
# Copies within a memory

A memory as a function of the address. A C program copies with a rising loop of stores, which
reads cells it may already have overwritten; `copy` is that loop, and `copy_apply` says when it is
a copy all the same: the cells it still has to read are none it stores to.

## Main definitions

* `copy` — a rising loop of stores, each of a value read from the current memory.
* `move` — `memmove`, which reads everything before it stores.
* `fill` — the same value stored to a range.
* `slice` — the values of a range.

## Main results

* `copy_apply`, `fill_apply` — what the loops leave at an address.
-/

namespace Memory

variable {α : Type*}

/-- Store `read 0`, `read 1`, … to `dst`, `dst + 1`, …, each read when it is stored. -/
def copy (read : (ℕ → α) → ℕ → α) (dst n : ℕ) (m : ℕ → α) : ℕ → α :=
  Loop.upto (fun k m => Function.update m (dst + k) (read m k)) n m

/-- Move `n` cells from `src` to `dst`, reading all of them first. -/
def move (src dst n : ℕ) (m : ℕ → α) : ℕ → α := fun i =>
  if dst ≤ i ∧ i < dst + n then m (src + (i - dst)) else m i

/-- `for (i = lo; i < hi; i++) m[i] = v`. -/
def fill (lo hi : ℕ) (v : α) (m : ℕ → α) : ℕ → α :=
  Loop.upto (fun k m => Function.update m (lo + k) v) (hi - lo) m

/-- The `n` values from `off` on. -/
def slice (m : ℕ → α) (off n : ℕ) : List α := (List.range n).map fun k => m (off + k)

@[simp] theorem length_slice (m : ℕ → α) (off n : ℕ) : (slice m off n).length = n := by
  simp [slice]

theorem getElem?_slice {m : ℕ → α} {off n k : ℕ} (h : k < n) :
    (slice m off n)[k]? = some (m (off + k)) := by
  simp [slice, h]

/-- **The copying loop copies** when no cell it reads is one it has stored to. -/
theorem copy_apply (read : (ℕ → α) → ℕ → α) (dst n : ℕ) (m : ℕ → α)
    (h : ∀ k < n, ∀ m' : ℕ → α, (∀ i, i < dst ∨ dst + n ≤ i → m' i = m i) →
      read m' k = read m k) (i : ℕ) :
    copy read dst n m i = if dst ≤ i ∧ i < dst + n then read m (i - dst) else m i := by
  -- after `j` stores the first `j` cells hold what was read from the memory at the start
  have hinv := Loop.upto_induction (n := n) (a := m)
    (f := fun k m => Function.update m (dst + k) (read m k))
    (fun j m' => j ≤ n → ∀ i, m' i = if dst ≤ i ∧ i < dst + j then read m (i - dst) else m i)
    (fun _ i => by rw [if_neg (by omega)]) ?_
  · exact hinv (Nat.le_refl n) i
  · intro j m' hj ih _ i
    have hread : read m' j = read m j := by
      apply h j hj
      intro i hi
      rw [ih (by omega), if_neg (by omega)]
    by_cases hi : i = dst + j
    · subst hi
      rw [Function.update_self, hread, if_pos (by omega), Nat.add_sub_cancel_left]
    · rw [Function.update_of_ne hi, ih (by omega)]
      by_cases hij : dst ≤ i ∧ i < dst + j
      · rw [if_pos hij, if_pos (by omega)]
      · rw [if_neg hij, if_neg (by omega)]

theorem fill_apply (lo hi : ℕ) (v : α) (m : ℕ → α) (i : ℕ) :
    fill lo hi v m i = if lo ≤ i ∧ i < hi then v else m i := by
  have h := copy_apply (fun _ _ => v) lo (hi - lo) m (by simp) i
  rw [fill]
  rw [copy] at h
  rw [h]
  by_cases hlo : lo ≤ i ∧ i < hi
  · rw [if_pos hlo, if_pos (by omega)]
  · rw [if_neg hlo, if_neg (by omega)]

end Memory
