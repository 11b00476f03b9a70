import Mathlib.Algebra.Group.End
import Mathlib.Algebra.Order.Ring.Int
import Mathlib.Tactic.Common

/-!
# Arrays that are in order except within regions

A sorting algorithm that works on one region of an array after the other keeps the array in order
except within the regions that are still to be sorted.  To rearrange a region keeps this, and so
does to replace a region by parts of it, if what does not lie in one of the parts is in order.

The regions are a stack.  If the smaller part is always sorted first, the region with `k` others
below it has at most the `2 ^ k`-th part of all elements.

## Main definitions

* `SortedOn`, `SortedExcept` — in order within a region, and except within some.
* `Halving` — the sizes of the regions on a stack.
* `Pending` — all of it.
* `Parted` — a region that is parted at an index.

## Main results

* `Pending.rearrange` — the first region is rearranged.
* `Pending.replace` — the first region is replaced.
* `Pending.sorted_nil` — without regions the array is sorted.
* `Halving.depth` — how many regions there are.
-/

namespace Regions

universe u

variable {α : Type u}

section Order

variable (le : α → α → Prop) (v : ℤ → α)

/-- **In order within a region**, from its first to its last index. -/
def SortedOn (r : ℤ × ℤ) : Prop := ∀ i j, r.1 ≤ i → i < j → j ≤ r.2 → le (v i) (v j)

/-- Two indices lie in one region. -/
def Together (rs : List (ℤ × ℤ)) (i j : ℤ) : Prop := ∃ r ∈ rs, r.1 ≤ i ∧ j ≤ r.2

/-- **In order except within regions.** -/
def SortedExcept (n : ℕ) (rs : List (ℤ × ℤ)) : Prop :=
  ∀ i j : ℤ, 0 ≤ i → i < j → j < n → ¬ Together rs i j → le (v i) (v j)

/-- Two regions without a common index. -/
def Apart (r q : ℤ × ℤ) : Prop := r.2 < q.1 ∨ q.2 < r.1

/-- The number of indices in a region. -/
def width (r : ℤ × ℤ) : ℕ := (r.2 - r.1 + 1).toNat

/-- Each region is small enough for the number of regions below it. -/
def Halving (n : ℕ) : List (ℤ × ℤ) → Prop
  | [] => True
  | r :: rs => width r * 2 ^ rs.length ≤ n ∧ Halving n rs

/-- **What is left to be sorted** of an array: regions with more than one index, apart from each
other, that get smaller. -/
structure Pending (n : ℕ) (rs : List (ℤ × ℤ)) : Prop where
  bounds : ∀ r ∈ rs, 0 ≤ r.1 ∧ r.1 < r.2 ∧ r.2 < n
  apart : rs.Pairwise Apart
  halving : Halving n rs
  sorted : SortedExcept le v n rs

/-- A region is parted at an index. -/
structure Parted (r : ℤ × ℤ) (p : ℤ) : Prop where
  left : ∀ i, r.1 ≤ i → i < p → le (v i) (v p)
  right : ∀ i, p < i → i ≤ r.2 → le (v p) (v i)

end Order

/-- A permutation that moves only what is in a region. -/
def Confined (r : ℤ × ℤ) (σ : Equiv.Perm ℤ) : Prop := ∀ i, ¬ (r.1 ≤ i ∧ i ≤ r.2) → σ i = i

/-- The number of indices in all regions. -/
def total (rs : List (ℤ × ℤ)) : ℕ := (rs.map width).sum

@[simp] theorem total_nil : total [] = 0 := rfl

@[simp] theorem total_cons (r : ℤ × ℤ) (rs : List (ℤ × ℤ)) :
    total (r :: rs) = width r + total rs := by
  rw [total, List.map_cons, List.sum_cons, total]

variable {le : α → α → Prop} {v : ℤ → α} {n : ℕ} {r : ℤ × ℤ} {rs : List (ℤ × ℤ)}

/-! ## Permutations within a region -/

section Rearrange

variable {σ τ : Equiv.Perm ℤ}

/-- What is in the region stays in it. -/
theorem Confined.mem (h : Confined r σ) {i : ℤ} (hi : r.1 ≤ i ∧ i ≤ r.2) :
    r.1 ≤ σ i ∧ σ i ≤ r.2 := by
  by_contra hout
  have hfix : σ (σ i) = σ i := h _ hout
  rw [σ.injective hfix] at hout
  exact hout hi

theorem Confined.one : Confined r 1 := fun _ _ => rfl

theorem Confined.mul (h : Confined r σ) (h' : Confined r τ) : Confined r (σ * τ) := by
  intro i hi
  rw [Equiv.Perm.mul_apply, h' i hi, h i hi]

theorem Confined.swap {i j : ℤ} (hi : r.1 ≤ i ∧ i ≤ r.2) (hj : r.1 ≤ j ∧ j ≤ r.2) :
    Confined r (Equiv.swap i j) := by
  intro k hk
  apply Equiv.swap_apply_of_ne_of_ne
  · rintro rfl
    exact hk hi
  · rintro rfl
    exact hk hj

theorem Confined.mono {q : ℤ × ℤ} (h : Confined q σ) (hq : r.1 ≤ q.1) (hq' : q.2 ≤ r.2) :
    Confined r σ := fun i hi => h i fun hin => hi ⟨hq.trans hin.1, hin.2.trans hq'⟩

/-- **The first region may be rearranged.** -/
theorem Pending.rearrange (h : Pending le v n (r :: rs)) (hσ : Confined r σ) :
    Pending le (v ∘ σ) n (r :: rs) := by
  obtain ⟨hr0, hr, hrn⟩ := h.bounds r List.mem_cons_self
  refine ⟨h.bounds, h.apart, h.halving, fun i j hi hij hj htog => ?_⟩
  have happart := (List.pairwise_cons.mp h.apart).1
  by_cases hri : r.1 ≤ i ∧ i ≤ r.2
  · -- `j` lies behind the region, which `i` stays in
    have hrj : ¬ j ≤ r.2 := fun hle => htog ⟨r, List.mem_cons_self, hri.1, hle⟩
    have hin := hσ.mem hri
    have hfix : σ j = j := hσ j fun h => hrj h.2
    refine h.sorted (σ i) (σ j) (by omega) (by omega) (by omega) ?_
    rw [hfix]
    rintro ⟨q, hq, hqi, hqj⟩
    rcases List.mem_cons.mp hq with rfl | hq
    · exact hrj hqj
    · rcases happart q hq with h | h <;> omega
  have hfix : σ i = i := hσ i hri
  by_cases hrj : r.1 ≤ j ∧ j ≤ r.2
  · have hin := hσ.mem hrj
    refine h.sorted (σ i) (σ j) (by omega) (by omega) (by omega) ?_
    rw [hfix]
    rintro ⟨q, hq, hqi, hqj⟩
    rcases List.mem_cons.mp hq with rfl | hq
    · exact hri ⟨hqi, by omega⟩
    · rcases happart q hq with h | h <;> omega
  · have hfix' : σ j = j := hσ j hrj
    refine h.sorted (σ i) (σ j) (by omega) (by omega) (by omega) ?_
    rw [hfix, hfix']
    exact htog

end Rearrange

/-! ## Parts of a region -/

/-- **The first region may be replaced by parts of it**, if the rest of it is in order. -/
theorem Pending.replace (h : Pending le v n (r :: rs)) {qs : List (ℤ × ℤ)}
    (hin : ∀ q ∈ qs, r.1 ≤ q.1 ∧ q.1 < q.2 ∧ q.2 ≤ r.2) (hqs : qs.Pairwise Apart)
    (hhalving : Halving n (qs ++ rs))
    (hsorted : ∀ i j, r.1 ≤ i → i < j → j ≤ r.2 → ¬ Together qs i j → le (v i) (v j)) :
    Pending le v n (qs ++ rs) := by
  obtain ⟨hr0, hr, hrn⟩ := h.bounds r List.mem_cons_self
  have happart := (List.pairwise_cons.mp h.apart).1
  refine ⟨fun q hq => ?_, ?_, hhalving, fun i j hi hij hj htog => ?_⟩
  · rcases List.mem_append.mp hq with hq | hq
    · obtain ⟨h1, h2, h3⟩ := hin q hq
      exact ⟨hr0.trans h1, h2, h3.trans_lt hrn⟩
    · exact h.bounds q (List.mem_cons_of_mem r hq)
  · refine List.pairwise_append.mpr ⟨hqs, h.apart.of_cons, fun q hq p hp => ?_⟩
    obtain ⟨h1, h2, h3⟩ := hin q hq
    exact (happart p hp).imp h3.trans_lt fun h => h.trans_le h1
  · by_cases hboth : r.1 ≤ i ∧ j ≤ r.2
    · refine hsorted i j hboth.1 hij hboth.2 fun ⟨q, hq, hqi⟩ => ?_
      exact htog ⟨q, List.mem_append_left rs hq, hqi⟩
    · refine h.sorted i j hi hij hj fun ⟨q, hq, hqi⟩ => ?_
      rcases List.mem_cons.mp hq with rfl | hq
      · exact hboth hqi
      · exact htog ⟨q, List.mem_append_right qs hq, hqi⟩

/-- **A region that is in order is done with.** -/
theorem Pending.drop (h : Pending le v n (r :: rs)) (hr : SortedOn le v r) :
    Pending le v n rs :=
  h.replace (List.forall_mem_nil _) List.Pairwise.nil h.halving.2
    fun i j hi hij hj _ => hr i j hi hij hj

theorem Pending.sorted_nil (h : Pending le v n []) : SortedOn le v (0, (n : ℤ) - 1) :=
  fun i j hi hij hj => h.sorted i j hi hij (by dsimp only at hj; omega) (by rintro ⟨_, ⟨⟩, _⟩)

/-- At first all of the array is to be sorted. -/
theorem Pending.init (hn : 2 ≤ n) : Pending le v n [(0, (n : ℤ) - 1)] where
  bounds r hr := by
    obtain rfl := List.mem_singleton.mp hr
    dsimp only
    omega
  apart := List.pairwise_singleton _ _
  halving := by
    refine ⟨?_, trivial⟩
    rw [width, List.length_nil, pow_zero, mul_one]
    dsimp only
    omega
  sorted i j hi hij hj htog := absurd ⟨_, List.mem_singleton_self _, hi, by dsimp only; omega⟩ htog

/-- **The number of regions is bounded** by the logarithm of the number of elements. -/
theorem Halving.depth (h : Halving n (r :: rs)) (hr : r.1 < r.2) : 2 ^ (rs.length + 1) ≤ n := by
  have htwo : 2 ≤ width r := by
    rw [width]
    omega
  calc 2 ^ (rs.length + 1) = 2 * 2 ^ rs.length := pow_succ' 2 _
    _ ≤ width r * 2 ^ rs.length := Nat.mul_le_mul_right _ htwo
    _ ≤ n := h.1

/-- A smaller region takes the place of the first one. -/
theorem Halving.shrink (h : Halving n (r :: rs)) {q : ℤ × ℤ} (hq : width q ≤ width r) :
    Halving n (q :: rs) := ⟨(Nat.mul_le_mul_right _ hq).trans h.1, h.2⟩

/-- **The smaller one of two parts is put on top of the other one.** -/
theorem Halving.push (h : Halving n (r :: rs)) {q p : ℤ × ℤ} (hq : 2 * width q ≤ width r)
    (hp : width p ≤ width r) : Halving n (q :: p :: rs) := by
  refine ⟨?_, h.shrink hp⟩
  calc width q * 2 ^ (p :: rs).length = 2 * width q * 2 ^ rs.length := by
        rw [List.length_cons, pow_succ', ← mul_assoc, mul_comm (width q)]
    _ ≤ width r * 2 ^ rs.length := Nat.mul_le_mul_right _ hq
    _ ≤ n := h.1

section Trans

variable (htrans : ∀ a b c, le a b → le b c → le a c)
include htrans

/-- What is parted is in order if its parts are, as far as they are not left out. -/
theorem Parted.sorted {p : ℤ} (h : Parted le v r p) {qs : List (ℤ × ℤ)}
    (hleft : (r.1, p - 1) ∈ qs ∨ SortedOn le v (r.1, p - 1))
    (hright : (p + 1, r.2) ∈ qs ∨ SortedOn le v (p + 1, r.2)) {i j : ℤ} (hi : r.1 ≤ i)
    (hij : i < j) (hj : j ≤ r.2) (htog : ¬ Together qs i j) : le (v i) (v j) := by
  rcases lt_trichotomy j p with hjp | rfl | hjp
  · rcases hleft with hmem | hsorted
    · exact absurd ⟨_, hmem, hi, by dsimp only; omega⟩ htog
    · exact hsorted i j hi hij (by dsimp only; omega)
  · exact h.left i hi hij
  rcases lt_trichotomy i p with hip | rfl | hip
  · exact htrans _ _ _ (h.left i hi hip) (h.right j hjp hj)
  · exact h.right j hjp hj
  · rcases hright with hmem | hsorted
    · exact absurd ⟨_, hmem, by dsimp only; omega, hj⟩ htog
    · exact hsorted i j (by dsimp only; omega) hij hj

/-- **Neighbours in order are enough.** -/
theorem sortedOn_of_adjacent (h : ∀ i, r.1 ≤ i → i < r.2 → le (v i) (v (i + 1))) :
    SortedOn le v r := by
  intro i j hi hij hj
  obtain ⟨k, rfl⟩ : ∃ k : ℕ, j = i + 1 + k := ⟨(j - i - 1).toNat, by omega⟩
  induction k with
  | zero =>
      rw [Nat.cast_zero, add_zero] at hj ⊢
      exact h i hi hj
  | succ k ih =>
      refine htrans _ _ _ (ih (by omega) (by push_cast at hj; omega)) ?_
      have hnext := h (i + 1 + k) (by omega) (by push_cast at hj; omega)
      rwa [add_assoc (i + 1)] at hnext

end Trans

/-- **A region the other way round.** -/
theorem SortedOn.reverse {v' : ℤ → α} (h : SortedOn (fun a b => le b a) v r)
    (hrev : ∀ i, r.1 ≤ i → i ≤ r.2 → v' i = v (r.1 + r.2 - i)) : SortedOn le v' r := by
  intro i j hi hij hj
  rw [hrev i hi (by omega), hrev j (by omega) hj]
  exact h _ _ (by omega) (by omega) (by omega)

end Regions
