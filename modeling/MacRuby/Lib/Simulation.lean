import Mathlib.Data.Set.Basic
import Mathlib.Logic.Relation

/-!
# Machines with silent moves, and simulations between them

A machine is a function that gives the move of each state: a silent step, a visible action whose
event and successor depend on an answer of the environment, or a halt.  Two machines are compared
by what an observer can see of their runs, so silent steps do not count, and a simulation may
match a state after silent steps of either side.

## Main definitions

* `Simulation.Move` — the moves of a machine.
* `Simulation.run m n o s` — the events of at most `n` moves from `s`, under the answers `o`.
* `Simulation.observations m o s` — all that can be observed from `s`.
* `Simulation.IsSimulation m m' R` — `m'` can follow `m` from related states.

## Main results

* `Simulation.run_of_isSimulation` — a simulating machine has every run of the simulated one.
* `Simulation.observations_eq` — two simulations give the same observations.
-/

namespace Simulation

universe u v
variable {σ σ' ι ε : Type u} {τ : Type v}

/-- A move of a machine with states `σ`, answers `ι`, events `ε` and results `τ`. -/
inductive Move (σ ι ε : Type u) (τ : Type v)
  | silent (s : σ)
  | act (k : ι → ε × σ)
  | halt (t : τ)

/-- The events of at most `n` moves, and the result if the machine has halted by then. -/
def run (m : σ → Move σ ι ε τ) : ℕ → (ℕ → ι) → σ → List ε × Option τ
  | 0, _, _ => ([], none)
  | n + 1, o, s =>
      match m s with
      | .silent s' => run m n o s'
      | .act k =>
          let (es, t) := run m n (fun i => o (i + 1)) (k (o 0)).2
          ((k (o 0)).1 :: es, t)
      | .halt t => ([], some t)

attribute [grind =] run

/-- All that can be observed from a state: the events so far and the result, if there is one. -/
def observations (m : σ → Move σ ι ε τ) (o : ℕ → ι) (s : σ) : Set (List ε × Option τ) :=
  Set.range fun n => run m n o s

/-- One silent step. -/
def Silent (m : σ → Move σ ι ε τ) (s s' : σ) : Prop := m s = .silent s'

/-- Any number of silent steps. -/
def SilentStar (m : σ → Move σ ι ε τ) : σ → σ → Prop := Relation.ReflTransGen (Silent m)

section Runs

variable {m : σ → Move σ ι ε τ} {o : ℕ → ι} {s s' : σ}

theorem run_silent (h : m s = .silent s') (n : ℕ) : run m (n + 1) o s = run m n o s' := by
  rw [run, h]

theorem run_act {k : ι → ε × σ} (h : m s = .act k) (n : ℕ) :
    run m (n + 1) o s =
      ((k (o 0)).1 :: (run m n (fun i => o (i + 1)) (k (o 0)).2).1,
        (run m n (fun i => o (i + 1)) (k (o 0)).2).2) := by
  rw [run, h]

theorem run_halt {t : τ} (h : m s = .halt t) (n : ℕ) : run m (n + 1) o s = ([], some t) := by
  rw [run, h]

/-- A run to the end of silent steps is a longer run from their start. -/
theorem exists_run_of_silentStar (h : SilentStar m s s') (n : ℕ) :
    ∃ n', run m n' o s = run m n o s' := by
  induction h using Relation.ReflTransGen.head_induction_on with
  | refl => exact ⟨n, rfl⟩
  | head hstep _ ih =>
      obtain ⟨n', hn'⟩ := ih
      exact ⟨n' + 1, by rw [run_silent hstep, hn']⟩

/-- A run has seen nothing within silent steps, or it is a run no longer from their end. -/
theorem run_silentStar (h : SilentStar m s s') (n : ℕ) :
    run m n o s = ([], none) ∨ ∃ n', n' ≤ n ∧ run m n o s = run m n' o s' := by
  induction h using Relation.ReflTransGen.head_induction_on generalizing n with
  | refl => exact .inr ⟨n, le_rfl, rfl⟩
  | head hstep _ ih =>
      cases n with
      | zero => exact .inl rfl
      | succ n =>
          rw [run_silent hstep]
          rcases ih n with h | ⟨n', hle, h⟩
          · exact .inl h
          · exact .inr ⟨n', by omega, h⟩

end Runs

section Simulations

variable (m : σ → Move σ ι ε τ) (m' : σ' → Move σ' ι ε τ) (R : σ → σ' → Prop)

/-- Related after silent steps of both sides. -/
def UpTo (s : σ) (s' : σ') : Prop :=
  ∃ t t', SilentStar m s t ∧ SilentStar m' s' t' ∧ R t t'

/-- The move of `s` is matched at `s'`, and what follows is again related up to silent steps. -/
inductive Matches : σ → σ' → Prop
  | silent {s t : σ} {s' : σ'} (h : m s = .silent t) (hR : UpTo m m' R t s') : Matches s s'
  | act {s : σ} {s' : σ'} {k : ι → ε × σ} {k' : ι → ε × σ'} (h : m s = .act k)
      (h' : m' s' = .act k') (hev : ∀ i, (k i).1 = (k' i).1)
      (hR : ∀ i, UpTo m m' R (k i).2 (k' i).2) : Matches s s'
  | halt {s : σ} {s' : σ'} {r : τ} (h : m s = .halt r) (h' : m' s' = .halt r) : Matches s s'

/-- Matched after silent steps of both sides. -/
def Follows (s : σ) (s' : σ') : Prop :=
  ∃ t t', SilentStar m s t ∧ SilentStar m' s' t' ∧ Matches m m' R t t'

/-- Every pair of related states is matched, possibly after silent steps. -/
def IsSimulation : Prop := ∀ s s', R s s' → Follows m m' R s s'

variable {m m' R}

theorem UpTo.of_rel {s : σ} {s' : σ'} (h : R s s') : UpTo m m' R s s' :=
  ⟨s, s', .refl, .refl, h⟩

theorem Follows.of_matches {s t : σ} {s' t' : σ'} (h : SilentStar m s t) (h' : SilentStar m' s' t')
    (hm : Matches m m' R t t') : Follows m m' R s s' :=
  ⟨t, t', h, h', hm⟩

/-- Silent steps of both sides match. -/
theorem Matches.of_silent {s t : σ} {s' t' : σ'} (h : m s = .silent t) (h' : m' s' = .silent t')
    (hR : UpTo m m' R t t') : Matches m m' R s s' := by
  obtain ⟨u, u', hu, hu', huu'⟩ := hR
  exact .silent h ⟨u, u', hu, .head h' hu', huu'⟩

/-- A silent step is followed by doing nothing, if what it leads to is related. -/
theorem Follows.of_silent {s t : σ} {s' : σ'} (h : m s = .silent t) (hR : UpTo m m' R t s') :
    Follows m m' R s s' :=
  ⟨s, s', .refl, .refl, .silent h hR⟩

/-- A matched move is matched in the runs, when the runs from the successors are. -/
theorem Matches.run {s : σ} {s' : σ'} (h : Matches m m' R s s') (n : ℕ) (o : ℕ → ι)
    (ih : ∀ k < n, ∀ o s s', UpTo m m' R s s' → ∃ n', run m' n' o s' = run m k o s) :
    ∃ n', Simulation.run m' n' o s' = Simulation.run m n o s := by
  cases n with
  | zero => exact ⟨0, rfl⟩
  | succ n =>
      cases h with
      | silent h hR =>
          rw [run_silent h]
          exact ih n (by omega) o _ _ hR
      | act h h' hev hR =>
          obtain ⟨n', hn'⟩ := ih n (by omega) (fun i => o (i + 1)) _ _ (hR (o 0))
          refine ⟨n' + 1, ?_⟩
          rw [run_act h, run_act h', hev, hn']
      | halt h h' => exact ⟨1, by rw [run_halt h, run_halt h']⟩

/-- **A simulating machine has every run of the simulated one.** -/
theorem run_of_isSimulation (hsim : IsSimulation m m' R) (n : ℕ) (o : ℕ → ι) (s : σ) (s' : σ')
    (h : UpTo m m' R s s') : ∃ n', run m' n' o s' = run m n o s := by
  induction n using Nat.strong_induction_on generalizing o s s' with
  | _ n ih =>
      obtain ⟨t, t', hst, hst', hR⟩ := h
      obtain ⟨u, u', htu, htu', hm⟩ := hsim t t' hR
      rcases run_silentStar (hst.trans htu) (o := o) n with hnone | ⟨k, hk, hrun⟩
      · exact ⟨0, hnone.symm⟩
      · obtain ⟨n', hn'⟩ := hm.run k o fun j hj => ih j (by omega)
        obtain ⟨n'', hn''⟩ := exists_run_of_silentStar (o := o) (hst'.trans htu') n'
        exact ⟨n'', by rw [hn'', hn', hrun]⟩

/-- **Two simulations give the same observations.** -/
theorem observations_eq (hsim : IsSimulation m m' R) (hsim' : IsSimulation m' m fun s' s => R s s')
    (o : ℕ → ι) {s : σ} {s' : σ'} (h : R s s') : observations m o s = observations m' o s' := by
  apply Set.eq_of_subset_of_subset
  · rintro _ ⟨n, rfl⟩
    exact run_of_isSimulation hsim n o s s' (.of_rel h)
  · rintro _ ⟨n, rfl⟩
    exact run_of_isSimulation hsim' n o s' s (.of_rel h)

end Simulations

end Simulation
