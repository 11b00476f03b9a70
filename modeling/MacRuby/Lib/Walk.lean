import MacRuby.Lib.Fuel
import Mathlib.Data.List.Range
import Mathlib.Logic.Function.Iterate
import Mathlib.Order.WellFounded
import Mathlib.Tactic.Common

/-!
# Walks that yield

A loop that goes from state to state, yields something at every one, and is left at a state where a
test says so, perhaps after yielding something more.

## Main definitions

* `walk stop out step` — what the loop yields, on fuel.

## Main results

* `walk_settles` — a loop whose steps descend is left at a state of its chain, and what it yields is
  yielded at the states before.
-/

namespace Walk

universe u v w

variable {σ : Type u} {α : Type v} {β : Type w}

/-- What the loop yields from a state on: `stop` gives what is yielded at a state where the loop is
left. -/
def walk (stop : σ → Option (List α)) (out : σ → α) (step : σ → σ) : ℕ → σ → Option (List α)
  | 0, _ => none
  | fuel + 1, s =>
      match stop s with
      | some tail => some tail
      | none => (out s :: ·) <$> walk stop out step fuel (step s)

variable {stop : σ → Option (List α)} {out : σ → α} {step : σ → σ} {s : σ}

theorem walk_stop {tail : List α} (h : stop s = some tail) (n : ℕ) :
    walk stop out step (n + 1) s = some tail := by
  simp [walk, h]

theorem walk_next (h : stop s = none) (n : ℕ) :
    walk stop out step (n + 1) s = (out s :: ·) <$> walk stop out step n (step s) := by
  simp [walk, h]

/-- **A loop whose steps descend is left** at a state of its chain. -/
theorem walk_settles [Preorder β] [WellFoundedLT β] (out : σ → α) (inv : σ → Prop) (f : σ → β)
    (hstep : ∀ s, inv s → stop s = none → inv (step s) ∧ f (step s) < f s) (hs : inv s) :
    ∃ k tail, (∀ i ≤ k, inv (step^[i] s)) ∧ (∀ i < k, stop (step^[i] s) = none) ∧
      stop (step^[k] s) = some tail ∧ Fuel.Settles (fun n => walk stop out step n s)
        (some ((List.range k).map (fun i => out (step^[i] s)) ++ tail)) := by
  induction hb : f s using WellFoundedLT.induction generalizing s with
  | ind b ih =>
      cases hstop : stop s with
      | some tail =>
          refine ⟨0, tail, by simpa using hs, by simp, hstop, ?_⟩
          exact (Fuel.Settles.const (some tail)).of_succ (walk_stop hstop)
      | none =>
          obtain ⟨hinv, hlt⟩ := hstep s hs hstop
          obtain ⟨k, tail, hinvs, hbefore, hend, hsettles⟩ :=
            ih (f (step s)) (hb ▸ hlt) hinv rfl
          refine ⟨k + 1, tail, fun i hi => ?_, fun i hi => ?_, hend, ?_⟩
          · cases i with
            | zero => exact hs
            | succ i => exact hinvs i (by omega)
          · cases i with
            | zero => exact hstop
            | succ i => exact hbefore i (by omega)
          · have hmap := hsettles.map fun r => (out s :: ·) <$> r
            simpa [List.range_succ_eq_map, Function.comp_def] using
              hmap.of_succ (walk_next hstop)

end Walk
