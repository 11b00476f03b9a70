import Mathlib.Data.List.Flatten
import Mathlib.Order.Nat

/-!
# Layout of a list of blocks

A program that emits one block of words per item, in order, lays its blocks out one after
another. `start n` is the address of block `n`, `starts` the addresses of the blocks that hold
anything, and `next m` the address of the first such block from `m` on. An empty block takes no
room, so `next m` is `start m` whatever lies between.

## Main definitions

* `start`, `starts`, `next` — the addresses of the blocks.

## Main results

* `next_eq_start` — the first block that holds anything stands where the empty ones stood.
* `starts_pairwise` — the addresses of the blocks that hold something are strictly increasing.
-/

namespace Blocks

variable {α : Type*}

/-- The address of block `n`: the words of the blocks before it. -/
def start (bs : List (List α)) (n : ℕ) : ℕ := (bs.take n).flatten.length

/-- The addresses of the blocks that hold something, the first block standing at `pos`. -/
def starts : ℕ → List (List α) → List ℕ
  | _, [] => []
  | pos, [] :: bs => starts pos bs
  | pos, (w :: ws) :: bs => pos :: starts (pos + (w :: ws).length) bs

/-- The address of the first block from `m` on that holds something, or the end. -/
def next (bs : List (List α)) (m : ℕ) : ℕ :=
  (starts (start bs m) (bs.drop m)).head?.getD bs.flatten.length

@[simp] theorem start_zero (bs : List (List α)) : start bs 0 = 0 := by
  simp [start]

/-- Without a block that holds something the blocks hold nothing. -/
theorem flatten_eq_nil_of_starts {pos : ℕ} {bs : List (List α)} (h : starts pos bs = []) :
    bs.flatten = [] := by
  induction bs generalizing pos with
  | nil => rfl
  | cons b bs ih =>
      cases b with
      | nil => simpa using ih (by simpa [starts] using h)
      | cons w ws => simp [starts] at h

/-- The first address is the one the blocks start at. -/
theorem head?_starts {pos a : ℕ} {bs : List (List α)} (h : (starts pos bs).head? = some a) :
    a = pos := by
  induction bs generalizing pos with
  | nil => simp [starts] at h
  | cons b bs ih =>
      cases b with
      | nil => exact ih (by simpa [starts] using h)
      | cons w ws => simpa [starts] using h.symm

/-- **The first block that holds anything stands where the empty ones stood.** -/
theorem next_eq_start (bs : List (List α)) (m : ℕ) : next bs m = start bs m := by
  rw [next]
  cases h : (starts (start bs m) (bs.drop m)).head? with
  | some a => exact head?_starts h
  | none =>
      have hnil := flatten_eq_nil_of_starts (List.head?_eq_none_iff.mp h)
      have hsplit : bs.flatten = (bs.take m).flatten ++ (bs.drop m).flatten := by
        rw [← List.flatten_append, List.take_append_drop]
      rw [Option.getD_none, hsplit, hnil, List.append_nil, start]

theorem le_of_mem_starts {pos a : ℕ} {bs : List (List α)} (h : a ∈ starts pos bs) : pos ≤ a := by
  induction bs generalizing pos with
  | nil => simp [starts] at h
  | cons b bs ih =>
      cases b with
      | nil => exact ih (by simpa [starts] using h)
      | cons w ws =>
          rcases List.mem_cons.mp (by simpa only [starts] using h) with h | h
          · exact le_of_eq h.symm
          · exact le_trans (Nat.le_add_right _ _) (ih h)

/-- **The addresses of the blocks that hold something are strictly increasing.** -/
theorem starts_pairwise (pos : ℕ) (bs : List (List α)) : (starts pos bs).Pairwise (· < ·) := by
  induction bs generalizing pos with
  | nil => simp [starts]
  | cons b bs ih =>
      cases b with
      | nil => simpa [starts] using ih pos
      | cons w ws =>
          rw [starts, List.pairwise_cons]
          refine ⟨fun a ha => ?_, ih _⟩
          have hle := le_of_mem_starts ha
          simp only [List.length_cons] at hle
          omega

/-- The words of block `n` stand from its address on. -/
theorem getElem?_flatten {bs : List (List α)} {n j : ℕ} {b : List α} (hb : bs[n]? = some b)
    (hj : j < b.length) : bs.flatten[start bs n + j]? = b[j]? := by
  obtain ⟨hn, rfl⟩ := List.getElem?_eq_some_iff.mp hb
  have hsplit : bs = bs.take n ++ bs[n] :: bs.drop (n + 1) := by
    rw [List.getElem_cons_drop, List.take_append_drop]
  have hflat : bs.flatten =
      (bs.take n).flatten ++ (bs[n] ++ (bs.drop (n + 1)).flatten) := by
    rw [← List.flatten_cons, ← List.flatten_append, ← hsplit]
  rw [start, hflat, List.getElem?_append_right (Nat.le_add_right _ _), Nat.add_sub_cancel_left,
    List.getElem?_append_left hj]

end Blocks
