import Mathlib.Tactic.Common

/-!
# Following a partial function

A loop that replaces a value by another until there is none to replace it by. Whether it ends is
decided by the function alone, and stays so under changes of the function where it agrees with the
old one or ends anyway.

## Main definitions

* `Follow.Halts f a` — following `f` from `a` ends.

## Main results

* `Follow.Halts.of_agree` — a second function ends where it agrees with one that does.
* `Follow.not_halts` — a set of values that is never left is followed for ever.
-/

namespace Follow

universe u

variable {α : Type u} {f g : α → Option α} {a b : α}

/-- Following `f` from `a` comes to a value that has no next one. -/
inductive Halts (f : α → Option α) : α → Prop
  | stop {a : α} (h : f a = none) : Halts f a
  | step {a b : α} (h : f a = some b) (hb : Halts f b) : Halts f a

/-- The next value decides. -/
theorem halts_iff_of_eq_some (h : f a = some b) : Halts f a ↔ Halts f b := by
  constructor
  · intro ha
    cases ha with
    | stop h' =>
        rw [h] at h'
        cases h'
    | step h' hb =>
        rw [h] at h'
        cases h'
        exact hb
  · exact .step h

/-- **A function ends where another does**, if it agrees with that one wherever it does not end. -/
theorem Halts.of_agree (h : Halts f a) (hfg : ∀ a, g a = f a ∨ Halts g a) : Halts g a := by
  induction h with
  | @stop a h =>
      rcases hfg a with heq | hhalt
      · exact .stop (heq.trans h)
      · exact hhalt
  | @step a b h _ ih =>
      rcases hfg a with heq | hhalt
      · exact .step (heq.trans h) ih
      · exact hhalt

/-- **What is never left is followed for ever.** -/
theorem not_halts {P : α → Prop} (hP : ∀ a, P a → ∃ b, f a = some b ∧ P b) (ha : P a) :
    ¬ Halts f a := by
  intro h
  induction h with
  | @stop a h =>
      obtain ⟨b, hb, -⟩ := hP a ha
      rw [h] at hb
      cases hb
  | @step a b h _ ih =>
      obtain ⟨b', hb', hP'⟩ := hP a ha
      rw [h] at hb'
      cases hb'
      exact ih hP'

end Follow
