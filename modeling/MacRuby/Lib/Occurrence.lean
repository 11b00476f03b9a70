import Mathlib.Data.List.TakeDrop
import Mathlib.Data.Nat.Find
import Mathlib.Order.Monotone.Defs
import Mathlib.Order.Nat

/-!
# Occurrences of a list in another

A list occurs in another at a place when it starts what follows this place.  A search finds the
first or the last place that has a property, and what it finds is unique.

## Main definitions

* `OccursAt t s i` — `t` occurs in `s` at `i`.
* `IsFirst P r`, `IsLast P r` — `r` is the first, or last, place with the property `P`, if any.
* `firstBelow`, `lastBelow` — the searches.
* `Spaced P next a places`, `Greedy P next a places` — places with a property, one after the other,
  chosen anyhow or found by a search.
* `substitute s stop val m a places` — `s` from `a` on, with parts of it replaced.
* `Cuts t s heads rest` — the parts of `s` before the successive first occurrences of `t`, and what
  is left.

## Main results

* `OccursAt.split` — a list is split at an occurrence.
* `IsFirst.unique`, `IsLast.unique` — there is one result.
* `IsLast.iff_forall_iff` — when two properties have the same last place.
* `firstBelow_isFirst`, `lastBelow_isLast` — the searches find it.
* `Greedy.length_le`, `Greedy.ahead` — a search finds as many places as can be chosen, and each is
  at or before the chosen one.
* `substitute_self` — parts that are replaced with themselves stay.
* `exists_cuts` — a list can be cut until `t` does not occur in what is left.
* `Cuts.join`, `Cuts.only_end`, `Cuts.unique` — the parts make up the list, `t` occurs only at their
  ends, and there is one way to cut.
-/

namespace Occurrence

universe u

variable {α : Type u} {s t : List α} {i j k n : ℕ}

/-! ## Places -/

/-- `t` occurs in `s` at `i`. -/
def OccursAt (t s : List α) (i : ℕ) : Prop := t <+: s.drop i

instance [DecidableEq α] (t s : List α) (i : ℕ) : Decidable (OccursAt t s i) :=
  inferInstanceAs (Decidable (t <+: s.drop i))

/-- An occurrence ends in the list. -/
theorem OccursAt.le (h : OccursAt t s i) (ht : t ≠ []) : i + t.length ≤ s.length := by
  have hlen := h.length_le
  have hpos := List.length_pos_iff.mpr ht
  rw [List.length_drop] at hlen
  omega

/-- Occurrences in a part. -/
theorem occursAt_drop : OccursAt t (s.drop k) i ↔ OccursAt t s (k + i) := by
  unfold OccursAt
  rw [List.drop_drop]

/-- Occurrences of one element. -/
theorem occursAt_singleton {c : α} : OccursAt [c] s i ↔ s[i]? = some c := by
  have hget : s[i]? = (s.drop i).head? := List.head?_drop.symm
  unfold OccursAt
  rw [hget]
  constructor
  · rintro ⟨rest, hrest⟩
    rw [← hrest]
    rfl
  · intro h
    obtain ⟨rest, hrest⟩ := List.head?_eq_some_iff.mp h
    exact ⟨rest, hrest.symm⟩

/-- What stands at an occurrence. -/
theorem OccursAt.take_drop (h : OccursAt t s i) : (s.drop i).take t.length = t :=
  (List.prefix_iff_eq_take.mp h).symm

/-- **A list is split at an occurrence.** -/
theorem OccursAt.split (h : OccursAt t s i) : s.take i ++ t ++ s.drop (i + t.length) = s := by
  have hrest := List.prefix_iff_eq_append.mp h
  rw [List.drop_drop] at hrest
  rw [List.append_assoc, hrest, List.take_append_drop]

/-- An occurrence stays when something follows. -/
theorem OccursAt.append_right (h : OccursAt t s i) (hi : i ≤ s.length) (b : List α) :
    OccursAt t (s ++ b) i := by
  unfold OccursAt
  rw [List.drop_append_of_le_length hi]
  exact h.trans (List.prefix_append _ b)

/-! ## First and last places -/

section Places

variable {P Q : ℕ → Prop} {r r' : Option ℕ}

/-- `r` is the first place with the property. -/
def IsFirst (P : ℕ → Prop) : Option ℕ → Prop
  | none => ∀ i, ¬P i
  | some i => P i ∧ ∀ j, P j → i ≤ j

/-- `r` is the last place with the property. -/
def IsLast (P : ℕ → Prop) : Option ℕ → Prop
  | none => ∀ i, ¬P i
  | some i => P i ∧ ∀ j, P j → j ≤ i

/-- **There is one first place.** -/
theorem IsFirst.unique (h : IsFirst P r) (h' : IsFirst P r') : r = r' := by
  cases r with
  | none =>
      cases r' with
      | none => rfl
      | some j => exact absurd h'.1 (h j)
  | some i =>
      cases r' with
      | none => exact absurd h.1 (h' i)
      | some j => exact congrArg some (le_antisymm (h.2 j h'.1) (h'.2 i h.1))

/-- **There is one last place.** -/
theorem IsLast.unique (h : IsLast P r) (h' : IsLast P r') : r = r' := by
  cases r with
  | none =>
      cases r' with
      | none => rfl
      | some j => exact absurd h'.1 (h j)
  | some i =>
      cases r' with
      | none => exact absurd h.1 (h' i)
      | some j => exact congrArg some (le_antisymm (h'.2 i h.1) (h.2 j h'.1))

/-- There is a first place or none. -/
theorem exists_isFirst (P : ℕ → Prop) : ∃ r, IsFirst P r := by
  classical
  by_cases h : ∃ i, P i
  · exact ⟨some (Nat.find h), Nat.find_spec h, fun j hj => Nat.find_min' h hj⟩
  · exact ⟨none, not_exists.mp h⟩

theorem IsFirst.congr (h : IsFirst P r) (hPQ : ∀ i, P i ↔ Q i) : IsFirst Q r := by
  rwa [← funext fun i => propext (hPQ i)]

theorem IsLast.congr (h : IsLast P r) (hPQ : ∀ i, P i ↔ Q i) : IsLast Q r := by
  rwa [← funext fun i => propext (hPQ i)]

/-- **Two properties have the same last place exactly when they are the same**, provided that each
one holds below its places wherever the other one does. -/
theorem IsLast.iff_forall_iff (h : IsLast P r) (hP : ∀ i j, i ≤ j → Q i → P j → P i)
    (hQ : ∀ i j, i ≤ j → P i → Q j → Q i) : IsLast Q r ↔ ∀ i, P i ↔ Q i := by
  refine ⟨fun hlast i => ?_, h.congr⟩
  cases r with
  | none => exact iff_of_false (h i) (hlast i)
  | some k =>
      refine ⟨fun hi => hQ i k (h.2 i hi) hi hlast.1, ?_⟩
      intro hi
      exact hP i k (hlast.2 i hi) hi h.1

variable (p : ℕ → Prop) [DecidablePred p]

/-- The first place below a bound. -/
def firstBelow : ℕ → Option ℕ
  | 0 => none
  | n + 1 =>
      match firstBelow n with
      | some i => some i
      | none => if p n then some n else none

/-- The last place below a bound. -/
def lastBelow : ℕ → Option ℕ
  | 0 => none
  | n + 1 => if p n then some n else lastBelow n

/-- **The search forward finds the first place.** -/
theorem firstBelow_isFirst (n : ℕ) : IsFirst (fun i => i < n ∧ p i) (firstBelow p n) := by
  induction n with
  | zero =>
      intro i hi
      exact absurd hi.1 (Nat.not_lt_zero i)
  | succ n ih =>
      unfold firstBelow
      generalize firstBelow p n = r at ih
      cases r with
      | some i =>
          refine ⟨⟨ih.1.1.trans (Nat.lt_succ_self n), ih.1.2⟩, ?_⟩
          intro j hj
          rcases Nat.lt_succ_iff_lt_or_eq.mp hj.1 with hlt | heq
          · exact ih.2 j ⟨hlt, hj.2⟩
          · exact heq ▸ ih.1.1.le
      | none =>
          have hbelow : ∀ j, j < n + 1 ∧ p j → j = n := by
            intro j hj
            rcases Nat.lt_succ_iff_lt_or_eq.mp hj.1 with hlt | heq
            · exact absurd ⟨hlt, hj.2⟩ (ih j)
            · exact heq
          by_cases hp : p n
          · simp only [hp, if_true]
            exact ⟨⟨Nat.lt_succ_self n, hp⟩, fun j hj => (hbelow j hj).ge⟩
          · simp only [hp, if_false]
            intro j hj
            exact hp (hbelow j hj ▸ hj.2)

/-- **The search backward finds the last place.** -/
theorem lastBelow_isLast (n : ℕ) : IsLast (fun i => i < n ∧ p i) (lastBelow p n) := by
  induction n with
  | zero =>
      intro i hi
      exact absurd hi.1 (Nat.not_lt_zero i)
  | succ n ih =>
      unfold lastBelow
      by_cases hp : p n
      · rw [if_pos hp]
        exact ⟨⟨Nat.lt_succ_self n, hp⟩, fun j hj => Nat.lt_succ_iff.mp hj.1⟩
      · rw [if_neg hp]
        refine ih.congr fun i => ?_
        refine ⟨fun hi => ⟨hi.1.trans (Nat.lt_succ_self n), hi.2⟩, ?_⟩
        intro hi
        rcases Nat.lt_succ_iff_lt_or_eq.mp hi.1 with hlt | heq
        · exact ⟨hlt, hi.2⟩
        · exact absurd (heq ▸ hi.2) hp

end Places

/-! ## Places one after the other -/

/-- **Places with the property, one after the other**: the search for the next one continues where
`next` says. -/
inductive Spaced (P : ℕ → Prop) (next : ℕ → ℕ) : ℕ → List ℕ → Prop
  | nil (a : ℕ) : Spaced P next a []
  | cons {a i : ℕ} {places : List ℕ} :
      a ≤ i → P i → Spaced P next (next i) places → Spaced P next a (i :: places)

/-- **The places that are found one after the other**, each as the first one from where the search
continues. -/
inductive Greedy (P : ℕ → Prop) (next : ℕ → ℕ) : ℕ → List ℕ → Prop
  | done {a : ℕ} : IsFirst (fun i => a ≤ i ∧ P i) none → Greedy P next a []
  | found {a i : ℕ} {places : List ℕ} : IsFirst (fun i => a ≤ i ∧ P i) (some i) →
      Greedy P next (next i) places → Greedy P next a (i :: places)

section Chosen

variable {P Q : ℕ → Prop} {next next' : ℕ → ℕ} {a b : ℕ} {places chosen : List ℕ}

/-- **The search ends.** -/
theorem exists_greedy (hP : ∀ i, P i → i ≤ n) (hnext : ∀ i, P i → i < next i) (a : ℕ) :
    ∃ places, Greedy P next a places := by
  induction hk : n + 1 - a using Nat.strong_induction_on generalizing a with
  | _ k ih =>
      obtain ⟨r, hr⟩ := exists_isFirst fun i => a ≤ i ∧ P i
      cases r with
      | none => exact ⟨[], Greedy.done hr⟩
      | some i =>
          have hle := hP i hr.1.2
          have hlt := hnext i hr.1.2
          obtain ⟨places, hplaces⟩ := ih (n + 1 - next i) (by have := hr.1.1; omega) (next i) rfl
          exact ⟨i :: places, Greedy.found hr hplaces⟩

/-- **What is found does not depend on the search.** -/
theorem Greedy.unique (h : Greedy P next a places) (h' : Greedy P next a chosen) :
    places = chosen := by
  induction h generalizing chosen with
  | done hnone =>
      cases h' with
      | done _ => rfl
      | found hfirst _ => exact absurd hfirst.1 (hnone _)
  | found hfirst _ ih =>
      cases h' with
      | done hnone => exact absurd hfirst.1 (hnone _)
      | found hfirst' hrest =>
          obtain rfl := Option.some.inj (hfirst.unique hfirst')
          rw [ih hrest]

theorem Greedy.spaced (h : Greedy P next a places) : Spaced P next a places := by
  induction h with
  | done _ => exact Spaced.nil _
  | found hi _ ih => exact Spaced.cons hi.1.1 hi.1.2 ih

/-- Places that are farther apart than they have to be. -/
theorem Spaced.mono (h : Spaced P next a places) (hba : b ≤ a) (hPQ : ∀ i, P i → Q i)
    (hnext : ∀ i, next' i ≤ next i) : Spaced Q next' b places := by
  induction h generalizing b with
  | nil _ => exact Spaced.nil b
  | cons hi hP _ ih => exact Spaced.cons (hba.trans hi) (hPQ _ hP) (ih (hnext _))

theorem Spaced.forall (h : Spaced P next a places) : ∀ i ∈ places, P i := by
  induction h with
  | nil => simp
  | cons _ hi _ ih => exact List.forall_mem_cons.mpr ⟨hi, ih⟩

/-- Places that have another property as well. -/
theorem Spaced.and (h : Spaced P next a places) (hQ : ∀ i ∈ places, Q i) :
    Spaced (fun i => P i ∧ Q i) next a places := by
  induction h with
  | nil a => exact Spaced.nil a
  | cons hi hP _ ih =>
      obtain ⟨hhead, htail⟩ := List.forall_mem_cons.mp hQ
      exact Spaced.cons hi ⟨hP, hhead⟩ (ih htail)

/-- **No choice of places has more of them than the search finds.** -/
theorem Greedy.length_le (h : Greedy P next b places) (hnext : Monotone next) (hba : b ≤ a)
    (hchosen : Spaced P next a chosen) : chosen.length ≤ places.length := by
  induction h generalizing a chosen with
  | done hnone =>
      cases hchosen with
      | nil => exact le_rfl
      | cons hi hP _ => exact absurd ⟨hba.trans hi, hP⟩ (hnone _)
  | found hfirst _ ih =>
      cases hchosen with
      | nil => exact Nat.zero_le _
      | cons hi hP hrest =>
          have hle := hfirst.2 _ ⟨hba.trans hi, hP⟩
          exact Nat.succ_le_succ (ih (hnext hle) hrest)

/-- **The search stays ahead of every choice of places**: if these are as many and have a property
that is kept below, then so do the places it finds. -/
theorem Greedy.ahead (h : Greedy P next b places) (hnext : Monotone next) (hba : b ≤ a)
    (hchosen : Spaced (fun i => P i ∧ Q i) next a chosen)
    (hQ : ∀ i j, i ≤ j → Q j → Q i) (hlen : places.length ≤ chosen.length) :
    ∀ i ∈ places, Q i := by
  induction h generalizing a chosen with
  | done _ =>
      intro i hi
      exact absurd hi List.not_mem_nil
  | found hfirst _ ih =>
      cases hchosen with
      | nil => exact absurd hlen (Nat.not_succ_le_zero _)
      | cons hi hP hrest =>
          have hle := hfirst.2 _ ⟨hba.trans hi, hP.1⟩
          intro k hk
          rcases List.mem_cons.mp hk with rfl | hk
          · exact hQ _ _ hle hP.2
          · exact ih (hnext hle) hrest (Nat.le_of_succ_le_succ hlen) k hk

end Chosen

/-! ## Cutting a list at occurrences -/

/-- **`heads` are the parts of `s` before the successive first occurrences of `t`**, and `rest` is
what follows the last of these. -/
inductive Cuts (t : List α) : List α → List (List α) → List α → Prop
  | stop (s : List α) : Cuts t s [] s
  | cut {s : List α} {i : ℕ} {heads : List (List α)} {rest : List α} :
      IsFirst (OccursAt t s) (some i) → Cuts t (s.drop (i + t.length)) heads rest →
        Cuts t s (s.take i :: heads) rest

section Cutting

variable {heads heads' : List (List α)} {rest rest' : List α}

/-- **A list can be cut until `t` does not occur in what is left.** -/
theorem exists_cuts (ht : t ≠ []) (s : List α) :
    ∃ heads rest, Cuts t s heads rest ∧ ∀ i, ¬OccursAt t rest i := by
  induction hlen : s.length using Nat.strong_induction_on generalizing s with
  | _ n ih =>
      obtain ⟨r, hr⟩ := exists_isFirst (OccursAt t s)
      cases r with
      | none => exact ⟨[], s, Cuts.stop s, hr⟩
      | some i =>
          have hpos := List.length_pos_iff.mpr ht
          have hle := hr.1.le ht
          obtain ⟨heads, rest, hcuts, hdone⟩ := ih (s.drop (i + t.length)).length
            (by rw [List.length_drop]; omega) _ rfl
          exact ⟨s.take i :: heads, rest, Cuts.cut hr hcuts, hdone⟩

/-- **The parts make up the list.** -/
theorem Cuts.join (h : Cuts t s heads rest) : (heads.map (· ++ t)).flatten ++ rest = s := by
  induction h with
  | stop s => rfl
  | cut hi _ ih =>
      rw [List.map_cons, List.flatten_cons, List.append_assoc, ih]
      exact hi.1.split

/-- **`t` occurs only at the end of a part with the `t` that follows it.** -/
theorem Cuts.only_end (h : Cuts t s heads rest) (ht : t ≠ []) :
    ∀ head ∈ heads, ∀ j, OccursAt t (head ++ t) j → j = head.length := by
  induction h with
  | stop s =>
      intro head hmem
      exact absurd hmem List.not_mem_nil
  | @cut s i heads rest hi _ ih =>
      intro head hmem j hj
      rcases List.mem_cons.mp hmem with rfl | hmem
      · have hle := hi.1.le ht
        have hlen : (s.take i).length = i := List.length_take_of_le (by omega)
        have hjle := hj.le ht
        have hin : OccursAt t s j := by
          have happ := hj.append_right (by omega) (s.drop (i + t.length))
          rwa [hi.1.split] at happ
        have hfirst := hi.2 j hin
        rw [List.length_append] at hjle
        omega
      · exact ih head hmem j hj

/-- `t` does not occur in a part. -/
theorem Cuts.not_occursAt (h : Cuts t s heads rest) (ht : t ≠ []) {head : List α}
    (hmem : head ∈ heads) (j : ℕ) : ¬OccursAt t head j := by
  intro hj
  have hle := hj.le ht
  have hpos := List.length_pos_iff.mpr ht
  have hend := h.only_end ht head hmem j (hj.append_right (by omega) t)
  omega

/-- **There is one way to cut a list until `t` does not occur in what is left.** -/
theorem Cuts.unique (h : Cuts t s heads rest) (h' : Cuts t s heads' rest')
    (hdone : ∀ i, ¬OccursAt t rest i) (hdone' : ∀ i, ¬OccursAt t rest' i) :
    heads = heads' ∧ rest = rest' := by
  induction h generalizing heads' with
  | stop s =>
      cases h' with
      | stop => exact ⟨rfl, rfl⟩
      | cut hi' _ => exact absurd hi'.1 (hdone _)
  | cut hi _ ih =>
      cases h' with
      | stop => exact absurd hi.1 (hdone' _)
      | cut hi' hrest =>
          obtain rfl := Option.some.inj (hi.unique hi')
          obtain ⟨rfl, rfl⟩ := ih hrest hdone
          exact ⟨rfl, rfl⟩

/-- The first parts only. -/
theorem Cuts.take (h : Cuts t s heads rest) (k : ℕ) :
    ∃ rest', Cuts t s (heads.take k) rest' ∧ (heads.length ≤ k → rest' = rest) := by
  induction h generalizing k with
  | stop s => exact ⟨s, by rw [List.take_nil]; exact Cuts.stop s, fun _ => rfl⟩
  | @cut s i heads rest hi _ ih =>
      cases k with
      | zero => exact ⟨s, Cuts.stop s, fun h => absurd h (Nat.not_succ_le_zero _)⟩
      | succ k =>
          obtain ⟨rest', hcuts, hrest⟩ := ih k
          exact ⟨rest', Cuts.cut hi hcuts, fun h => hrest (Nat.le_of_succ_le_succ h)⟩

/-- **The parts and what is left, joined with `t`, make up the list.** -/
theorem Cuts.intercalate (h : Cuts t s heads rest) : t.intercalate (heads ++ [rest]) = s := by
  induction h with
  | stop s => exact List.intercalate_singleton
  | cut hi _ ih =>
      rw [List.cons_append, List.intercalate_cons_of_ne_nil (List.concat_ne_nil _ _), ih]
      exact hi.1.split

end Cutting

/-! ## Replacing parts -/

section Replacing

variable {P : ℕ → Prop} {next stop : ℕ → ℕ} {a b : ℕ} {places : List ℕ}

/-- The list from `a` on, with the part from each of the places `i` to `stop i` replaced; the value
can depend on how many parts there were before. -/
def substitute (s : List α) (stop : ℕ → ℕ) (val : ℕ → ℕ → List α) : ℕ → ℕ → List ℕ → List α
  | _, a, [] => s.drop a
  | m, a, i :: places =>
      (s.drop a).take (i - a) ++ val m i ++ substitute s stop val (m + 1) (stop i) places

/-- What is before the first place stays. -/
theorem substitute_skip {val : ℕ → ℕ → List α} (m a k : ℕ) (h : ∀ i ∈ places.head?, a + k ≤ i) :
    substitute s stop val m a places =
      (s.drop a).take k ++ substitute s stop val m (a + k) places := by
  cases places with
  | nil => rw [substitute, substitute, ← List.drop_drop, List.take_append_drop]
  | cons i places =>
      have hi : a + k ≤ i := h i rfl
      have hsplit : i - a = k + (i - (a + k)) := by omega
      rw [substitute, substitute, hsplit, List.take_add, List.drop_drop]
      simp only [List.append_assoc]

/-- Values that are the same at the places. -/
theorem substitute_congr {val val' : ℕ → ℕ → List α} {m a : ℕ}
    (h : ∀ k i, places[k]? = some i → val (m + k) i = val' (m + k) i) :
    substitute s stop val m a places = substitute s stop val' m a places := by
  induction places generalizing m a with
  | nil => rfl
  | cons i places ih =>
      have hi : val m i = val' m i := h 0 i rfl
      have hrest : ∀ k j, places[k]? = some j → val (m + 1 + k) j = val' (m + 1 + k) j := by
        intro k j hk
        rw [Nat.add_right_comm m 1 k]
        exact h (k + 1) j (by simpa using hk)
      rw [substitute, substitute, hi, ih hrest]

theorem length_substitute_le (s : List α) (stop : ℕ → ℕ) (places : List ℕ)
    {val val' : ℕ → ℕ → List α}
    (h : ∀ m i, (val m i).length ≤ (val' m i).length) (m a : ℕ) :
    (substitute s stop val m a places).length ≤ (substitute s stop val' m a places).length := by
  induction places generalizing m a with
  | nil => exact le_rfl
  | cons i places ih =>
      have hval := h m i
      have hrest := ih (m + 1) (stop i)
      simp only [substitute, List.length_append]
      omega

/-- **Values that are not longer, in a list that is not longer either, are as long.** -/
theorem length_val_of_substitute {val val' : ℕ → ℕ → List α}
    (h : ∀ m i, (val m i).length ≤ (val' m i).length) {m a : ℕ}
    (heq : substitute s stop val' m a places = substitute s stop val m a places) {k i : ℕ}
    (hk : places[k]? = some i) : (val (m + k) i).length = (val' (m + k) i).length := by
  replace heq := congrArg List.length heq
  induction places generalizing m a k with
  | nil => simp at hk
  | cons j places ih =>
      have hval := h m j
      have hrest := length_substitute_le s stop places h (m + 1) (stop j)
      simp only [substitute, List.length_append] at heq
      cases k with
      | zero =>
          obtain rfl : j = i := by simpa using hk
          rw [Nat.add_zero]
          omega
      | succ k =>
          have hindex : m + (k + 1) = m + 1 + k := by omega
          rw [hindex]
          exact ih (a := stop j) (by simpa using hk) (by omega)

/-- Places at or behind the one from which on they are chosen. -/
theorem Spaced.head?_le (h : Spaced P next a places) : ∀ i ∈ places.head?, a ≤ i := by
  intro i hi
  cases h with
  | nil => simp at hi
  | cons hle _ _ =>
      obtain rfl := Option.some.inj hi
      exact hle

/-- Places up to `n`, each before the next choice. -/
theorem Spaced.length_le (h : Spaced P next a places) (hP : ∀ i, P i → i ≤ n)
    (hnext : ∀ i, P i → i < next i) : places.length ≤ n + 1 - a := by
  induction h with
  | nil a => exact Nat.zero_le _
  | @cons a i places hle hi _ ih =>
      have hin := hP i hi
      have hlt := hnext i hi
      rw [List.length_cons]
      omega

/-- **A part that is replaced with itself stays.** -/
theorem substitute_self {val : ℕ → ℕ → List α} (h : Spaced P next a places)
    (hP : ∀ i, P i → i ≤ stop i ∧ stop i ≤ next i)
    (hval : ∀ m i, P i → val m i = (s.drop i).take (stop i - i)) (m : ℕ) {b : ℕ} (hb : b ≤ a) :
    substitute s stop val m b places = s.drop b := by
  induction h generalizing m b with
  | nil a => rfl
  | @cons a i places hle hi _ ih =>
      obtain ⟨hstop, hnext⟩ := hP i hi
      have hback : s.drop i = (s.drop b).drop (i - b) := by
        rw [List.drop_drop]
        congr 1
        omega
      have hrest : s.drop (stop i) = (s.drop i).drop (stop i - i) := by
        rw [List.drop_drop]
        congr 1
        omega
      rw [substitute, hval m i hi, ih (m + 1) hnext, hrest, List.append_assoc,
        List.take_append_drop, hback, List.take_append_drop]

end Replacing

end Occurrence
