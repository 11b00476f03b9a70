import Mathlib.Data.Nat.Notation
import Mathlib.Tactic.Common

/-!
# Counted loops, and their invariants

The loops of an imperative program as structural recursions on their trip count:
a rising `for`, a falling `while (n--)`, and a rising loop with a second guard
that may stop it early.  Each comes with the one rule its correctness proofs use,
an invariant indexed by the counter.

## Main definitions

* `Loop.upto f n a` — `for (i = 0; i < n; i++) a = f(i, a)`.
* `Loop.downFrom f n a` — `while (n--) a = f(n, a)`.
* `Loop.whileUpto c f k i a` — `while (c(a) && i < i0 + k) a = f(i++, a)`.
* `Loop.whileFuel c f n a` — `while (c(a)) a = f(a)`, given up after `n` turns.
-/

namespace Loop

universe u
variable {α : Type u}

/-- Run `f 0`, `f 1`, …, `f (n-1)` in order, threading an accumulator. -/
def upto (f : ℕ → α → α) : ℕ → α → α
  | 0, a => a
  | n + 1, a => f n (upto f n a)

@[simp] theorem upto_zero (f : ℕ → α → α) (a : α) : upto f 0 a = a := rfl

theorem upto_succ (f : ℕ → α → α) (n : ℕ) (a : α) :
    upto f (n + 1) a = f n (upto f n a) := rfl

/-- **Induction along a rising loop.** -/
theorem upto_induction {f : ℕ → α → α} {n : ℕ} {a : α} (P : ℕ → α → Prop) (h0 : P 0 a)
    (hstep : ∀ i x, i < n → P i x → P (i + 1) (f i x)) : P n (upto f n a) := by
  induction n with
  | zero => exact h0
  | succ n ih =>
      refine hstep n _ (by omega) (ih ?_)
      intro i x hi
      exact hstep i x (by omega)

/-- Run `f (n-1)`, …, `f 1`, `f 0` in order, threading an accumulator. -/
def downFrom (f : ℕ → α → α) : ℕ → α → α
  | 0, a => a
  | n + 1, a => downFrom f n (f n a)

@[simp] theorem downFrom_zero (f : ℕ → α → α) (a : α) : downFrom f 0 a = a := rfl

/-- **Induction along a falling loop.** -/
theorem downFrom_induction {f : ℕ → α → α} {n : ℕ} {a : α} (P : ℕ → α → Prop) (hn : P n a)
    (hstep : ∀ i x, i < n → P (i + 1) x → P i (f i x)) : P 0 (downFrom f n a) := by
  induction n generalizing a with
  | zero => exact hn
  | succ n ih =>
      refine ih (hstep n a (by omega) hn) ?_
      intro i x hi
      exact hstep i x (by omega)

/-- Run `f i`, `f (i+1)`, … for at most `k` turns, stopping before the first turn
whose accumulator fails the guard `c`.  The index reached is returned too. -/
def whileUpto (c : α → Bool) (f : ℕ → α → α) : ℕ → ℕ → α → ℕ × α
  | 0, i, a => (i, a)
  | k + 1, i, a => if c a then whileUpto c f k (i + 1) (f i a) else (i, a)

/-- **Induction along a guarded loop.**  The loop ends either at its bound or at
an accumulator that fails the guard. -/
theorem whileUpto_induction {c : α → Bool} {f : ℕ → α → α} {k i : ℕ} {a : α}
    (P : ℕ → α → Prop) (h0 : P i a)
    (hstep : ∀ j x, i ≤ j → j < i + k → c x = true → P j x → P (j + 1) (f j x)) :
    ∃ j, i ≤ j ∧ j ≤ i + k ∧ (whileUpto c f k i a).1 = j ∧ P j (whileUpto c f k i a).2 ∧
      (j = i + k ∨ c (whileUpto c f k i a).2 = false) := by
  induction k generalizing i a with
  | zero => exact ⟨i, Nat.le_refl _, Nat.le_refl _, rfl, h0, Or.inl rfl⟩
  | succ k ih =>
      by_cases hc : c a = true
      · have hrun : whileUpto c f (k + 1) i a = whileUpto c f k (i + 1) (f i a) := by
          simp [whileUpto, hc]
        rw [hrun]
        obtain ⟨j, h1, h2, h3, h4, h5⟩ := ih (hstep i a (Nat.le_refl i) (by omega) hc h0)
          (fun j x hj hj' => hstep j x (by omega) (by omega))
        exact ⟨j, by omega, by omega, h3, h4, h5.imp (fun h => by omega) id⟩
      · have hrun : whileUpto c f (k + 1) i a = (i, a) := by simp [whileUpto, hc]
        rw [hrun]
        exact ⟨i, Nat.le_refl _, by omega, rfl, h0, Or.inr (by simpa using hc)⟩

/-- Run `f` while the guard `c` holds, giving up after `n` turns. -/
def whileFuel (c : α → Bool) (f : α → α) : ℕ → α → Option α
  | 0, a => if c a then none else some a
  | n + 1, a => if c a then whileFuel c f n (f a) else some a

attribute [grind =] whileFuel

theorem whileFuel_of_not {c : α → Bool} {f : α → α} {a : α} (h : c a = false) (n : ℕ) :
    whileFuel c f n a = some a := by
  cases n <;> simp [whileFuel, h]

theorem whileFuel_of_guard {c : α → Bool} {f : α → α} {a : α} (h : c a = true) (n : ℕ) :
    whileFuel c f (n + 1) a = whileFuel c f n (f a) := by
  simp [whileFuel, h]

/-- A loop that follows another one, guard by guard and turn by turn, ends where it ends. -/
theorem whileFuel_map {β : Type*} {c : α → Bool} {f : α → α} {d : β → Bool} {g : β → β}
    {r : α → β} (hguard : ∀ a, d (r a) = c a) (hturn : ∀ a, g (r a) = r (f a)) (n : ℕ) (a : α) :
    whileFuel d g n (r a) = (whileFuel c f n a).map r := by
  induction n generalizing a with
  | zero =>
      simp only [whileFuel, hguard]
      split <;> rfl
  | succ n ih =>
      simp only [whileFuel, hguard, hturn, ih]
      split <;> rfl

end Loop
