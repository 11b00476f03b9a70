import Mathlib.Data.List.Basic

/-!
# Runs of an object against a specification

An object takes operations one after another and answers each. A specification says, of an
abstract state, which answers are right and which abstract state comes next. The object conforms
along a run when every answer is right. A run may be restricted by a condition on the state in
which each operation is called.

## Main definitions

* `Refinement.Throughout step C s ops` — each operation of the run is called in a state that
  meets `C`.
* `Refinement.Conforms step spec t s ops` — the answers are those the specification allows.

## Main results

* `Refinement.conforms_of_step` — one step preserves a relation, so every run conforms.
-/

namespace Refinement

universe u v w x
variable {σ : Type u} {τ : Type v} {ω : Type w} {ρ : Type x}

/-- Each operation of the run is called in a state that meets the condition. -/
def Throughout (step : σ → ω → ρ × σ) (C : σ → ω → Prop) : σ → List ω → Prop
  | _, [] => True
  | s, op :: ops => C s op ∧ Throughout step C (step s op).2 ops

instance Throughout.instDecidable (step : σ → ω → ρ × σ) (C : σ → ω → Prop)
    [∀ s op, Decidable (C s op)] : ∀ s ops, Decidable (Throughout step C s ops)
  | _, [] => inferInstanceAs (Decidable True)
  | s, op :: ops =>
      let _ := Throughout.instDecidable step C (step s op).2 ops
      inferInstanceAs (Decidable (C s op ∧ Throughout step C (step s op).2 ops))

/-- Every answer of the run is one the specification allows. -/
def Conforms (step : σ → ω → ρ × σ) (spec : τ → ω → ρ → τ → Prop) : τ → σ → List ω → Prop
  | _, _, [] => True
  | t, s, op :: ops =>
      ∃ t', spec t op (step s op).1 t' ∧ Conforms step spec t' (step s op).2 ops

/-- **A relation that each step keeps makes every run conform.** -/
theorem conforms_of_step {step : σ → ω → ρ × σ} {spec : τ → ω → ρ → τ → Prop}
    {C : σ → ω → Prop} (R : τ → σ → Prop)
    (hstep : ∀ t s op, R t s → C s op →
      ∃ t', spec t op (step s op).1 t' ∧ R t' (step s op).2)
    {t : τ} {s : σ} {ops : List ω} (h : R t s) (hC : Throughout step C s ops) :
    Conforms step spec t s ops := by
  induction ops generalizing t s with
  | nil => trivial
  | cons op ops ih =>
      obtain ⟨t', hans, hR⟩ := hstep t s op h hC.1
      exact ⟨t', hans, ih hR hC.2⟩

end Refinement
