import MacRuby.Lib.Fuel
import Mathlib.Data.Int.Order.Basic
import Mathlib.Data.List.Forall2
import Mathlib.Data.List.Range
import Mathlib.Tactic.Linarith
import Mathlib.Tactic.Ring

/-!
# Loops through arithmetic progressions

A loop that yields a number, adds a step to it, and goes on as long as the number is inside of
something.  How it represents the numbers, and how it tests and adds, is left open.

## Main definitions

* `Enumerates R values a d inside` — the values represent `a`, `a + d`, … as long as these are
  inside.

## Main results

* `Enumerates.unique` — there is one such list.
* `enumerates_settles` — a loop whose turns yield the number and add the step enumerates.
-/

namespace Progression

universe u v w

variable {α : Type u} {σ : Type v} {ε : Type w} {R : α → ℤ → Prop} {values : List α}
  {a d : ℤ} {inside : ℤ → Prop} {x : α}

/-- **The values represent `a`, `a + d`, `a + 2 * d`, … as long as these are inside**, and the next
one is not. -/
structure Enumerates (R : α → ℤ → Prop) (values : List α) (a d : ℤ) (inside : ℤ → Prop) :
    Prop where
  represents : List.Forall₂ R values ((List.range values.length).map fun k : ℕ => a + k * d)
  stays : ∀ k < values.length, inside (a + k * d)
  ends : ¬ inside (a + values.length * d)

theorem Enumerates.nil (h : ¬ inside a) : Enumerates R [] a d inside where
  represents := List.Forall₂.nil
  stays k hk := absurd hk (Nat.not_lt_zero k)
  ends := by simpa using h

theorem Enumerates.cons (hx : R x a) (ha : inside a) (h : Enumerates R values (a + d) d inside) :
    Enumerates R (x :: values) a d inside := by
  have hshift : ∀ k : ℕ, a + d + k * d = a + (k + 1 : ℕ) * d := by
    intro k
    push_cast
    ring
  constructor
  · rw [List.length_cons, List.range_succ_eq_map, List.map_cons, List.map_map]
    apply List.Forall₂.cons
    · simpa using hx
    · have hrest := h.represents
      simp only [hshift] at hrest
      exact hrest
  · intro k hk
    cases k with
    | zero => simpa using ha
    | succ k =>
        rw [← hshift]
        exact h.stays k (Nat.lt_of_succ_lt_succ hk)
  · rw [List.length_cons, ← hshift]
    exact h.ends

/-- **There is one enumeration**, if a number is represented by one value. -/
theorem Enumerates.unique {values' : List α} (hR : ∀ x y i, R x i → R y i → x = y)
    (h : Enumerates R values a d inside) (h' : Enumerates R values' a d inside) :
    values = values' := by
  have hlen : values.length = values'.length := by
    rcases lt_trichotomy values.length values'.length with hlt | heq | hlt
    · exact absurd (h'.stays _ hlt) h.ends
    · exact heq
    · exact absurd (h.stays _ hlt) h'.ends
  have hrep := h.represents
  have hrep' := h'.represents
  rw [← hlen] at hrep'
  generalize (List.range values.length).map _ = l at hrep hrep'
  clear h h' hlen
  induction hrep generalizing values' with
  | nil => exact (List.forall₂_nil_right_iff.mp hrep').symm
  | cons hx _ ih =>
      cases hrep' with
      | cons hy hrest => rw [hR _ _ _ hx hy, ih hrest]

/-- **A loop enumerates** when in every state, which stands for a number, it either leaves with what
is still to be enumerated, or yields the number and goes to a state for the next one, with less to
do. -/
theorem enumerates_settles {run : σ → ℕ → Except ε (List α)} (S : σ → ℤ → Prop) (f : ℤ → ℕ)
    (hturn : ∀ s i, S s i →
      (∃ values, Enumerates R values i d inside ∧ ∀ n, run s (n + 1) = .ok values) ∨
      (inside i ∧ ∃ x s', R x i ∧ S s' (i + d) ∧ f (i + d) < f i ∧
        ∀ n, run s (n + 1) = (x :: ·) <$> run s' n)) {s : σ} (hs : S s a) :
    ∃ values, Fuel.Settles (run s) (.ok values) ∧ Enumerates R values a d inside := by
  induction hn : f a using Nat.strong_induction_on generalizing a s with
  | _ n ih =>
      rcases hturn s a hs with ⟨values, henum, hrun⟩ | ⟨ha, x, s', hx, hs', hlt, hrun⟩
      · exact ⟨values, (Fuel.Settles.const _).of_succ hrun, henum⟩
      · obtain ⟨values, hsettles, henum⟩ := ih (f (a + d)) (hn ▸ hlt) hs' rfl
        refine ⟨x :: values, ?_, henum.cons hx ha⟩
        exact (hsettles.map fun r => (x :: ·) <$> r).of_succ hrun

end Progression
