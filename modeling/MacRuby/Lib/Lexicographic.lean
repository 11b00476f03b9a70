import Mathlib.Algebra.BigOperators.Group.List.Basic
import Mathlib.Data.List.Forall2
import Mathlib.Data.List.Lex
import Mathlib.Data.Nat.Choose.Basic
import Mathlib.Order.Lattice

/-!
# Enumerations in lexicographic order

A list of sequences that is in strictly increasing lexicographic order has each of its sequences
once, so such a list is determined by which sequences are in it.  Enumerations are built up from
the first item of the sequences: the sequences that start with the least item come first, then the
ones that start with the next.

## Main definitions

* `Enumerates S p` — `S` has just the sequences with the property `p`, each once and in
  lexicographic order.
* `arrangements n d taken` — the sequences of `d` different numbers below `n` that are not taken.
* `ascending n k i` — the strictly increasing sequences of `k` numbers from `i` to below `n`.
* `ascendingFrom n ps m i` — those that do not come before a first part of one.
* `choices ks` — the sequences with one number below each bound.
* `choicesFrom ks cs` — those of them that do not come before `cs`.

## Main results

* `Enumerates.cons` — an enumeration by the first item.
* `arrangements_enumerates`, `ascending_enumerates`, `choices_enumerates` — the enumerations.
-/

namespace Lexicographic

universe u
variable {α : Type u} [LinearOrder α] {S : List (List α)} {p q : List α → Prop}

/-- **The list has the sequences with the property, each once and in lexicographic order.** -/
structure Enumerates (S : List (List α)) (p : List α → Prop) : Prop where
  sorted : S.Pairwise (· < ·)
  mem : ∀ s, s ∈ S ↔ p s

namespace Enumerates

theorem congr (h : Enumerates S p) (hpq : ∀ s, p s ↔ q s) : Enumerates S q :=
  ⟨h.sorted, fun s => (h.mem s).trans (hpq s)⟩

/-- Nothing is enumerated. -/
theorem empty : Enumerates ([] : List (List α)) fun _ => False :=
  ⟨.nil, by simp⟩

/-- The empty sequence alone. -/
theorem nil : Enumerates [([] : List α)] (· = []) :=
  ⟨List.pairwise_singleton _ _, by simp⟩

/-- Each sequence is there once. -/
theorem nodup (h : Enumerates S p) : S.Nodup :=
  h.sorted.imp fun hlt => ne_of_lt hlt

/-- Two enumerations have the same sequences, and so as many. -/
theorem length_eq {T : List (List α)} (hS : Enumerates S p) (hT : Enumerates T p) :
    S.length = T.length := by
  have hmem : ∀ s, s ∈ S ↔ s ∈ T := fun s => (hS.mem s).trans (hT.mem s).symm
  exact ((List.perm_ext_iff_of_nodup hS.nodup hT.nodup).mpr hmem).length_eq

/-- **An enumeration by the first item**, from one of the rests for each first item. -/
theorem cons {is : List α} {f : α → List (List α)} {r : α → List α → Prop}
    (his : is.Pairwise (· < ·)) (hf : ∀ i ∈ is, Enumerates (f i) (r i)) :
    Enumerates (is.flatMap fun i => (f i).map (i :: ·))
      fun s => ∃ i t, s = i :: t ∧ i ∈ is ∧ r i t := by
  constructor
  · rw [List.pairwise_flatMap]
    constructor
    · intro i hi
      rw [List.pairwise_map]
      exact (hf i hi).sorted.imp fun hlt => List.cons_lt_cons_iff.mpr (Or.inr ⟨rfl, hlt⟩)
    · refine his.imp fun hlt s hs t ht => ?_
      obtain ⟨s', -, rfl⟩ := List.mem_map.mp hs
      obtain ⟨t', -, rfl⟩ := List.mem_map.mp ht
      exact List.cons_lt_cons_iff.mpr (Or.inl hlt)
  · intro s
    rw [List.mem_flatMap]
    constructor
    · intro h
      obtain ⟨i, hi, hs⟩ := h
      obtain ⟨t, ht, rfl⟩ := List.mem_map.mp hs
      exact ⟨i, t, rfl, hi, ((hf i hi).mem t).mp ht⟩
    · intro h
      obtain ⟨i, t, rfl, hi, ht⟩ := h
      exact ⟨i, hi, List.mem_map_of_mem (((hf i hi).mem t).mpr ht)⟩

end Enumerates

/-! ## Arrangements -/

/-- The numbers below `n` that are not taken. -/
def free (n : ℕ) (taken : List ℕ) : List ℕ := (List.range n).filter (· ∉ taken)

/-- The sequences of `d` different numbers below `n` that are not taken. -/
def arrangements (n : ℕ) : ℕ → List ℕ → List (List ℕ)
  | 0, _ => [[]]
  | d + 1, taken =>
      (free n taken).flatMap fun i => (arrangements n d (taken ++ [i])).map (i :: ·)

theorem mem_free {n i : ℕ} {taken : List ℕ} : i ∈ free n taken ↔ i < n ∧ i ∉ taken := by
  simp [free]

theorem free_sorted (n : ℕ) (taken : List ℕ) : (free n taken).Pairwise (· < ·) :=
  List.pairwise_lt_range.filter _

/-- **The arrangements**, by their first number. -/
theorem arrangements_enumerates (n d : ℕ) (taken : List ℕ) :
    Enumerates (arrangements n d taken)
      fun s => s.length = d ∧ s.Nodup ∧ ∀ i ∈ s, i < n ∧ i ∉ taken := by
  induction d generalizing taken with
  | zero =>
      refine Enumerates.nil.congr fun s => ?_
      constructor
      · intro h
        simp [h]
      · intro h
        exact List.length_eq_zero_iff.mp h.1
  | succ d ih =>
      refine (Enumerates.cons (free_sorted n taken) fun i _ => ih (taken ++ [i])).congr fun s => ?_
      constructor
      · intro h
        obtain ⟨i, t, rfl, hi, hlen, hnodup, ht⟩ := h
        have hit : i ∉ t := fun hmem => (ht i hmem).2 (by simp)
        refine ⟨by simp [hlen], List.nodup_cons.mpr ⟨hit, hnodup⟩, ?_⟩
        intro j hj
        rcases List.mem_cons.mp hj with rfl | hj
        · exact mem_free.mp hi
        · exact ⟨(ht j hj).1, fun hmem => (ht j hj).2 (by simp [hmem])⟩
      · intro h
        cases s with
        | nil => simp at h
        | cons i t =>
            have hnodup := List.nodup_cons.mp h.2.1
            refine ⟨i, t, rfl, mem_free.mpr (h.2.2 i (by simp)), by simpa using h.1, hnodup.2, ?_⟩
            intro j hj
            refine ⟨(h.2.2 j (by simp [hj])).1, fun hmem => ?_⟩
            rcases List.mem_append.mp hmem with hmem | hmem
            · exact (h.2.2 j (by simp [hj])).2 hmem
            · exact hnodup.1 (List.mem_singleton.mp hmem ▸ hj)

/-! ## Strictly increasing sequences -/

/-- The strictly increasing sequences of `k` numbers from `i` to below `n`. -/
def ascending (n : ℕ) : ℕ → ℕ → List (List ℕ)
  | 0, _ => [[]]
  | k + 1, i => (List.range' i (n - i)).flatMap fun j => (ascending n k (j + 1)).map (j :: ·)

/-- **The strictly increasing sequences**, by their first number. -/
theorem ascending_enumerates (n k i : ℕ) :
    Enumerates (ascending n k i)
      fun s => s.length = k ∧ s.Pairwise (· < ·) ∧ ∀ j ∈ s, i ≤ j ∧ j < n := by
  induction k generalizing i with
  | zero =>
      refine Enumerates.nil.congr fun s => ?_
      constructor
      · intro h
        simp [h]
      · intro h
        exact List.length_eq_zero_iff.mp h.1
  | succ k ih =>
      refine (Enumerates.cons List.pairwise_lt_range' fun j _ => ih (j + 1)).congr fun s => ?_
      constructor
      · intro h
        obtain ⟨j, t, rfl, hj, hlen, hsorted, ht⟩ := h
        rw [List.mem_range'_1] at hj
        refine ⟨by simp [hlen], List.pairwise_cons.mpr ⟨fun m hm => (ht m hm).1, hsorted⟩, ?_⟩
        intro m hm
        rcases List.mem_cons.mp hm with rfl | hm
        · omega
        · have hmt := ht m hm
          omega
      · intro h
        cases s with
        | nil => simp at h
        | cons j t =>
            have hsorted := List.pairwise_cons.mp h.2.1
            have hj := h.2.2 j (by simp)
            refine ⟨j, t, rfl, List.mem_range'_1.mpr (by omega), by simpa using h.1, hsorted.2, ?_⟩
            intro m hm
            exact ⟨hsorted.1 m hm, (h.2.2 m (by simp [hm])).2⟩

/-- The first of them start with `i`. -/
theorem ascending_of_lt {n i : ℕ} (k : ℕ) (hi : i < n) :
    ascending n (k + 1) i =
      (ascending n k (i + 1)).map (i :: ·) ++ ascending n (k + 1) (i + 1) := by
  rw [ascending, ascending, show n - i = n - (i + 1) + 1 by omega, List.range'_succ,
    List.flatMap_cons]

theorem length_ascending (n k i : ℕ) : (ascending n k i).length = (n - i).choose k := by
  induction k generalizing i with
  | zero => simp [ascending]
  | succ k ihk =>
      induction hd : n - i generalizing i with
      | zero => simp [ascending, hd]
      | succ d ihd =>
          rw [ascending_of_lt k (by omega), List.length_append, List.length_map, ihk,
            ihd (i + 1) (by omega), show n - (i + 1) = d by omega, Nat.choose_succ_succ]

/-- The sequences of one number. -/
theorem ascending_one (n : ℕ) : ascending n 1 0 = arrangements n 1 [] := by
  simp [ascending, arrangements, free, List.range_eq_range']

/-- There are none where too few numbers are left. -/
theorem ascending_eq_nil {n k i : ℕ} (h : n < i + k) (hk : 0 < k) : ascending n k i = [] := by
  apply List.eq_nil_of_length_eq_zero
  rw [length_ascending, Nat.choose_eq_zero_of_lt (by omega)]

/-- The sequences that start with the numbers of `ps`, the last first, and go on with `m` numbers
from `i` on, and all that come after these. -/
def ascendingFrom (n : ℕ) : List ℕ → ℕ → ℕ → List (List ℕ)
  | [], m, i => ascending n m i
  | p :: ps, m, i =>
      (ascending n m i).map ((p :: ps).reverse ++ ·) ++ ascendingFrom n ps (m + 1) (p + 1)

attribute [grind =] ascendingFrom

/-- The next number of the first part is the first that is possible. -/
theorem ascendingFrom_of_lt {n m i : ℕ} (ps : List ℕ) (hi : i < n) :
    ascendingFrom n ps (m + 1) i = ascendingFrom n (i :: ps) m (i + 1) := by
  cases ps with
  | nil => simp [ascendingFrom, ascending_of_lt m hi]
  | cons p ps => simp [ascendingFrom, ascending_of_lt m hi]

/-- The first part is complete, and its last number goes on. -/
theorem ascendingFrom_zero (n p i : ℕ) (ps : List ℕ) :
    ascendingFrom n (p :: ps) 0 i = (p :: ps).reverse :: ascendingFrom n ps 1 (p + 1) := by
  simp [ascendingFrom, ascending]

/-- Where too few numbers are left, the number before goes on. -/
theorem ascendingFrom_eq {n m i : ℕ} (p : ℕ) (ps : List ℕ) (h : n < i + m) (hm : 0 < m) :
    ascendingFrom n (p :: ps) m i = ascendingFrom n ps (m + 1) (p + 1) := by
  rw [ascendingFrom, ascending_eq_nil h hm, List.map_nil, List.nil_append]

/-! ## Choices -/

/-- The sequences with one number below each bound. -/
def choices : List ℕ → List (List ℕ)
  | [] => [[]]
  | k :: ks => (List.range k).flatMap fun i => (choices ks).map (i :: ·)

/-- **The choices**, by their first number. -/
theorem choices_enumerates (ks : List ℕ) : Enumerates (choices ks) (List.Forall₂ (· < ·) · ks) := by
  induction ks with
  | nil => exact Enumerates.nil.congr fun s => List.forall₂_nil_right_iff.symm
  | cons k ks ih =>
      refine (Enumerates.cons List.pairwise_lt_range fun _ _ => ih).congr fun s => ?_
      rw [List.forall₂_cons_right_iff]
      constructor
      · intro h
        obtain ⟨i, t, rfl, hi, ht⟩ := h
        exact ⟨i, t, List.mem_range.mp hi, ht, rfl⟩
      · intro h
        obtain ⟨i, t, hi, ht, rfl⟩ := h
        exact ⟨i, t, rfl, List.mem_range.mpr hi, ht⟩

theorem length_choices (ks : List ℕ) : (choices ks).length = ks.prod := by
  induction ks with
  | nil => rfl
  | cons k ks ih =>
      simp [choices, List.length_flatMap, ih]

/-- The choices whose first number is at least `c`. -/
def choicesAbove (k : ℕ) (ks : List ℕ) (c : ℕ) : List (List ℕ) :=
  (List.range' c (k - c)).flatMap fun i => (choices ks).map (i :: ·)

/-- The choices that do not come before `cs`, where a first number at its bound is past them all. -/
def choicesFrom : List ℕ → List ℕ → List (List ℕ)
  | k :: ks, c :: cs =>
      if c < k then (choicesFrom ks cs).map (c :: ·) ++ choicesAbove k ks (c + 1) else []
  | _, _ => [[]]

attribute [grind =] choicesFrom

theorem choicesAbove_zero (k : ℕ) (ks : List ℕ) : choicesAbove k ks 0 = choices (k :: ks) := by
  rw [choicesAbove, choices, Nat.sub_zero, List.range_eq_range']

/-- The first of them start with `c`. -/
theorem choicesAbove_of_lt {k c : ℕ} (ks : List ℕ) (hc : c < k) :
    choicesAbove k ks c = (choices ks).map (c :: ·) ++ choicesAbove k ks (c + 1) := by
  obtain ⟨d, rfl⟩ := Nat.exists_eq_add_of_lt hc
  rw [choicesAbove, choicesAbove, show c + d + 1 - c = d + 1 by omega, List.range'_succ,
    List.flatMap_cons, show c + d + 1 - (c + 1) = d by omega]

theorem choicesFrom_of_lt {k c : ℕ} (ks cs : List ℕ) (hc : c < k) :
    choicesFrom (k :: ks) (c :: cs) =
      (choicesFrom ks cs).map (c :: ·) ++ choicesAbove k ks (c + 1) := by
  rw [choicesFrom, if_pos hc]

/-- A choice is one that does not come before itself. -/
theorem choicesFrom_ne_nil {ks cs : List ℕ} (h : List.Forall₂ (· < ·) cs ks) :
    choicesFrom ks cs ≠ [] := by
  induction h with
  | nil => simp [choicesFrom]
  | cons hc _ ih => simp [choicesFrom_of_lt _ _ hc, ih]

/-- With the other numbers at zero, these are the choices from the first number on. -/
theorem choicesFrom_zeros {ks : List ℕ} (hpos : ∀ k ∈ ks, 0 < k) (k c : ℕ) :
    choicesFrom (k :: ks) (c :: List.replicate ks.length 0) = choicesAbove k ks c := by
  induction ks generalizing k c with
  | nil =>
      by_cases hc : c < k
      · rw [choicesFrom, if_pos hc, choicesAbove_of_lt [] hc]
        rfl
      · rw [choicesFrom, if_neg hc, choicesAbove, Nat.sub_eq_zero_of_le (by omega)]
        rfl
  | cons k' ks ih =>
      have hzeros := ih (fun j hj => hpos j (by simp [hj])) k' 0
      by_cases hc : c < k
      · rw [choicesFrom, if_pos hc, choicesAbove_of_lt _ hc, List.length_cons,
          List.replicate_succ, hzeros, choicesAbove_zero]
      · rw [choicesFrom, if_neg hc, choicesAbove, Nat.sub_eq_zero_of_le (by omega)]
        rfl

end Lexicographic
