import Mathlib.Order.Nat

/-!
# Computations that run on fuel

A loop without a counter is given fuel, and what it computes is what it computes with enough of
it. `Settles f r` says that `f` has the result `r` from some amount of fuel on. Such results are
unique and compose along a sequence of fallible steps.

## Main definitions

* `Fuel.Settles f r` — `f n = r` for every large enough `n`.

## Main results

* `Fuel.Settles.bind` — a sequence settles when its steps do.
* `Fuel.Settles.unique` — there is at most one such result.
* `Fuel.Settles.of_wellFounded` — a run that keeps an invariant and comes down an order settles.
-/

namespace Fuel

universe u v w

variable {α : Type u} {ε : Type w}

/-- With enough fuel the result is `r`. -/
def Settles (f : ℕ → α) (r : α) : Prop := ∃ n, ∀ m, n ≤ m → f m = r

theorem Settles.const (r : α) : Settles (fun _ => r) r := ⟨0, fun _ _ => rfl⟩

/-- What holds from a known amount of fuel on. -/
theorem Settles.of_le {f : ℕ → α} {r : α} (n : ℕ) (h : ∀ m, n ≤ m → f m = r) : Settles f r :=
  ⟨n, h⟩

/-- What is made of a result. -/
theorem Settles.map {β : Type v} {f : ℕ → α} {r : α} (g : α → β) (h : Settles f r) :
    Settles (fun m => g (f m)) (g r) := by
  obtain ⟨n, hn⟩ := h
  exact ⟨n, fun m hm => congrArg g (hn m hm)⟩

/-- A turn of a loop takes one unit of fuel. -/
theorem Settles.of_succ {f g : ℕ → α} {r : α} (hfg : ∀ m, f (m + 1) = g m) (h : Settles g r) :
    Settles f r := by
  obtain ⟨n, hn⟩ := h
  refine ⟨n + 1, fun m hm => ?_⟩
  obtain ⟨m, rfl⟩ := Nat.exists_eq_add_of_le' (show 1 ≤ m by omega)
  rw [hfg, hn m (by omega)]

/-- **Results are unique.** -/
theorem Settles.unique {f : ℕ → α} {r r' : α} (h : Settles f r) (h' : Settles f r') : r = r' := by
  obtain ⟨n, hn⟩ := h
  obtain ⟨n', hn'⟩ := h'
  rw [← hn (max n n') (le_max_left n n'), ← hn' (max n n') (le_max_right n n')]

theorem Settles.congr {f g : ℕ → α} {r : α} (h : Settles f r) (hfg : ∀ m, g m = f m) :
    Settles g r := by
  obtain ⟨n, hn⟩ := h
  exact ⟨n, fun m hm => (hfg m).trans (hn m hm)⟩

/-- **A sequence settles when its first step succeeds and the rest settles.** -/
theorem Settles.bind {α β : Type v} {f : ℕ → Except ε α} {g : ℕ → α → Except ε β} {a : α}
    {r : Except ε β} (h : Settles f (.ok a)) (h' : Settles (fun m => g m a) r) :
    Settles (fun m => f m >>= g m) r := by
  obtain ⟨n, hn⟩ := h
  obtain ⟨n', hn'⟩ := h'
  refine ⟨max n n', fun m hm => ?_⟩
  dsimp only
  rw [hn m ((le_max_left n n').trans hm)]
  exact hn' m ((le_max_right n n').trans hm)

/-- **A run that keeps an invariant and comes down a well-founded order settles**, on a result of
the kind that its last step gives. -/
theorem Settles.of_wellFounded {σ : Type v} {lower : σ → σ → Prop} (hwf : WellFounded lower)
    {run : ℕ → σ → α} {inv : σ → Prop} {good : α → Prop}
    (hstep : ∀ s, inv s → (∃ r, good r ∧ Settles (fun m => run m s) r) ∨
      ∃ s', inv s' ∧ lower s' s ∧ ∀ m, run (m + 1) s = run m s') {s : σ} (h : inv s) :
    ∃ r, good r ∧ Settles (fun m => run m s) r := by
  induction s using hwf.induction with
  | _ s ih =>
      rcases hstep s h with hend | ⟨s', hinv, hlower, hrun⟩
      · exact hend
      · obtain ⟨r, hgood, hr⟩ := ih s' hlower hinv
        exact ⟨r, hgood, hr.of_succ hrun⟩

end Fuel
