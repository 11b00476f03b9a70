import Mathlib.Init

/-!
# Computations that may fail

How a computation in `Except` that succeeds came apart into steps that succeeded. Proofs about
fallible code take their hypotheses apart with these and never unfold a bind.

## Main results

* `bind_eq_ok` — a sequence succeeds when its first step and the rest do.
* `bind_ne_error` — a sequence does not fail in a way its steps do not.
* `Ensures.bind` — the rule for sequences of what computations come to.
* `bind_map` — two sequences go along with each other when their steps do.
-/

namespace Result

universe u v

variable {ε : Type u} {α β : Type v}

instance instDecidableEqExcept [DecidableEq ε] [DecidableEq α] : DecidableEq (Except ε α)
  | .ok a, .ok b => decidable_of_iff (a = b) ⟨congrArg _, Except.ok.inj⟩
  | .error a, .error b => decidable_of_iff (a = b) ⟨congrArg _, Except.error.inj⟩
  | .ok _, .error _ => isFalse nofun
  | .error _, .ok _ => isFalse nofun

/-- A step that has succeeded is over. -/
theorem ok_bind (a : α) (f : α → Except ε β) : (Except.ok a >>= f) = f a := rfl

/-- **A sequence succeeds exactly when its first step does and then the rest.** -/
theorem bind_eq_ok {x : Except ε α} {f : α → Except ε β} {b : β} :
    x >>= f = .ok b ↔ ∃ a, x = .ok a ∧ f a = .ok b := by
  cases x with
  | error e =>
      refine ⟨fun h => ?_, fun ⟨a, h, _⟩ => ?_⟩
      · cases h
      · cases h
  | ok a =>
      refine ⟨fun h => ⟨a, rfl, h⟩, fun ⟨a', h, hf⟩ => ?_⟩
      cases h
      exact hf

/-- **A sequence does not fail in a way in which neither its first step nor the rest does.** -/
theorem bind_ne_error {x : Except ε α} {f : α → Except ε β} {e : ε} (hx : x ≠ .error e)
    (hf : ∀ a, x = .ok a → f a ≠ .error e) : x >>= f ≠ .error e := by
  cases x with
  | error e' =>
      intro h
      cases h
      exact hx rfl
  | ok a => exact hf a rfl

/-- **Two sequences go along with each other when their steps do.** -/
theorem bind_map {α' β' : Type v} {x : Except ε α} {x' : Except ε α'} {g : α → α'} {k : β → β'}
    {f : α → Except ε β} {f' : α' → Except ε β'} (hx : x' = x.map g)
    (hf : ∀ a, x = .ok a → f' (g a) = (f a).map k) : x' >>= f' = (x >>= f).map k := by
  subst hx
  cases x with
  | error e => rfl
  | ok a => exact hf a rfl

/-! ## What results are like -/

/-- Both computations come to the same, which is not the failure `e`; and if it is a result, it has
the property. -/
structure Ensures (e : ε) (P : α → Prop) (x x' : Except ε α) : Prop where
  same : x = x'
  ne_error : x ≠ .error e
  of_ok : ∀ a, x = .ok a → P a

variable {e : ε} {P : α → Prop} {Q : β → Prop} {x x' : Except ε α}

theorem Ensures.ok {a : α} (ha : P a) : Ensures e P (.ok a) (.ok a) where
  same := rfl
  ne_error h := by cases h
  of_ok b hb := by
    cases hb
    exact ha

theorem Ensures.error {e' : ε} (he : e' ≠ e) : Ensures e P (.error e') (.error e') where
  same := rfl
  ne_error h := by
    cases h
    exact he rfl
  of_ok b hb := by cases hb

theorem Ensures.mono {P' : α → Prop} (h : Ensures e P x x') (hP : ∀ a, P a → P' a) :
    Ensures e P' x x' where
  same := h.same
  ne_error := h.ne_error
  of_ok a ha := hP a (h.of_ok a ha)

/-- **The rule for sequences.** -/
theorem Ensures.bind {f f' : α → Except ε β} (h : Ensures e P x x')
    (hf : ∀ a, P a → Ensures e Q (f a) (f' a)) : Ensures e Q (x >>= f) (x' >>= f') := by
  obtain ⟨rfl, hne, hok⟩ := h
  cases x with
  | error e' =>
      exact .error fun he => hne (he ▸ rfl)
  | ok a => exact hf a (hok a rfl)

end Result
