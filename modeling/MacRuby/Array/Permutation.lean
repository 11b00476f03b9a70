import MacRuby.Array.Basic
import MacRuby.Lib.Lexicographic

/-!
# Permutations

`rb_ary_permutation` fills a buffer of indexes from the left, by a function that calls itself for
the next place.  The indexes before the place are marked as used, and each mark is taken away
when the call for the next place is over.  The block leaves the array alone; what it is called
with is kept, where a read outside of the array shows as none.

## Main definitions

* `permute0`, `rbAryPermutation` — the functions.
* `PermutationRight` — what is yielded, and that no mark is left.

## Main results

* `permute0_permuting` — what a call yields, and what it puts back.
* `permutationRight` — the permutations are right.
-/

namespace MacRuby

open Lexicographic

section Code

variable {α : Type}

/-- The buffer of indexes, the marks of those that are used, and what has been yielded. -/
structure PermState (α : Type) where
  p : List ℕ
  used : List ℕ
  yields : List (List (Option α))

/-- `permute0(n, r, p, index, used, values)`. -/
def permute0 (n r : ℕ) (values : List α) (index : ℕ) (st : PermState α) : PermState α :=
  Loop.upto (fun i st =>
    if st.used.getD i 0 = 0 then
      let st := { st with p := st.p.set index i }
      if index < r - 1 then
        let st := permute0 n r values (index + 1) { st with used := st.used.set i 1 }
        { st with used := st.used.set i 0 }
      else { st with yields := st.yields ++ [(st.p.take r).map (values[·]?)] }
    else st) n st
termination_by r - index

variable {L : LongSize}

/-- `rb_ary_permutation`, of the length or none: what it yields, and the marks that it leaves. -/
def rbAryPermutation (ary : RArray L α) (num : Option (Long L)) :
    List (List (Option α)) × List ℕ :=
  let n : ℤ := ary.elems.length
  let r := num.elim n Long.val
  if r < 0 ∨ n < r then ([], [])
  else if r = 0 then ([[]], [])
  else if r = 1 then
    (Loop.upto (fun i yields => yields ++ [[ary.elems[i]?]]) ary.elems.length [], [])
  else
    let zeros := List.replicate ary.elems.length 0
    let st := permute0 ary.elems.length r.toNat ary.elems 0 ⟨zeros, zeros, []⟩
    (st.yields, st.used)

end Code

section Meaning

variable {L : LongSize} {α : Type}

/-- **What is yielded** are the elements at the sequences of `r` different indexes, each once and in
lexicographic order, and no mark is left. -/
def PermutationRight (ary : RArray L α) (num : Option (Long L)) : Prop :=
  let r := num.elim (ary.elems.length : ℤ) Long.val
  (∃ S, Enumerates S (fun s => (s.length : ℤ) = r ∧ s.Nodup ∧ ∀ i ∈ s, i < ary.elems.length) ∧
    (rbAryPermutation ary num).1 = S.map fun s => s.map (ary.elems[·]?)) ∧
  ∀ mark ∈ (rbAryPermutation ary num).2, mark = 0

end Meaning

/-! ## The marks -/

section Marks

variable {n i : ℕ} {pre : List ℕ}

/-- The marks of the indexes in `pre`. -/
def marks (n : ℕ) (pre : List ℕ) : List ℕ :=
  (List.range n).map fun i => if i ∈ pre then 1 else 0

theorem marks_getD (hi : i < n) : (marks n pre).getD i 0 = if i ∈ pre then 1 else 0 := by
  simp [marks, hi]

/-- One more index is marked. -/
theorem marks_set_one : (marks n pre).set i 1 = marks n (pre ++ [i]) := by
  apply List.ext_getElem
  · simp [marks]
  · intro j hj _
    by_cases h : i = j
    · simp [marks, h]
    · simp [marks, h, Ne.symm h]

/-- The last mark is taken away. -/
theorem marks_set_zero (hi : i ∉ pre) : (marks n (pre ++ [i])).set i 0 = marks n pre := by
  apply List.ext_getElem
  · simp [marks]
  · intro j hj _
    by_cases h : i = j
    · simp [marks, ← h, hi]
    · simp [marks, h, Ne.symm h]

theorem marks_nil : marks n [] = List.replicate n 0 := by
  simp [marks]

end Marks

/-! ## A call of `permute0` -/

section Spec

variable {α : Type} {n r d i : ℕ} {values : List α} {pre : List ℕ}
  {ys : List (List (Option α))} {st : PermState α}

/-- The elements at the indexes. -/
def tupleOf (values : List α) (pre s : List ℕ) : List (Option α) := (pre ++ s).map (values[·]?)

/-- **The state at a place**: the buffer is filled with the indexes `pre` up to there, just these
are marked, and `ys` has been yielded. -/
structure Permuting (n : ℕ) (pre : List ℕ) (ys : List (List (Option α))) (st : PermState α) :
    Prop where
  length : st.p.length = n
  filled : st.p.take pre.length = pre
  used : st.used = marks n pre
  yields : st.yields = ys

/-- One turn of the loop of `permute0`. -/
def permuteTurn (n r : ℕ) (values : List α) (index i : ℕ) (st : PermState α) : PermState α :=
  if st.used.getD i 0 = 0 then
    let st := { st with p := st.p.set index i }
    if index < r - 1 then
      let st := permute0 n r values (index + 1) { st with used := st.used.set i 1 }
      { st with used := st.used.set i 0 }
    else { st with yields := st.yields ++ [(st.p.take r).map (values[·]?)] }
  else st

theorem permute0_eq (index : ℕ) :
    permute0 n r values index st = Loop.upto (permuteTurn n r values index) n st := by
  rw [permute0]
  rfl

namespace Permuting

theorem take_set (h : Permuting n pre ys st) (hpre : pre.length < n) (i : ℕ) :
    (st.p.set pre.length i).take (pre ++ [i]).length = pre ++ [i] := by
  rw [List.length_append, List.length_singleton, List.take_add_one, List.take_set_of_le le_rfl,
    h.filled, List.getElem?_set_self (h.length ▸ hpre)]
  rfl

/-- The place is filled. -/
theorem fill (h : Permuting n pre ys st) (hpre : pre.length < n) (i : ℕ) :
    Permuting n (pre ++ [i]) ys
      { st with p := st.p.set pre.length i, used := st.used.set i 1 } where
  length := by simp [h.length]
  filled := h.take_set hpre i
  used := by rw [h.used, marks_set_one]
  yields := h.yields

/-- The mark of the place is taken away again. -/
theorem unmark (h : Permuting n (pre ++ [i]) ys st) (hi : i ∉ pre) :
    Permuting n pre ys { st with used := st.used.set i 0 } where
  length := h.length
  filled := by
    have hfilled := congrArg (List.take pre.length) h.filled
    rwa [List.take_take, List.take_left, min_eq_left (by simp)] at hfilled
  used := by rw [h.used, marks_set_zero hi]
  yields := h.yields

/-- **A turn**, where a call for the next place yields the arrangements of what is free there. -/
theorem turn (h : Permuting n pre ys st) (hi : i < n) (hd : pre.length + (d + 1) = r) (hr : r ≤ n)
    (hcall : ∀ {pre' ys' st'}, Permuting n pre' ys' st' → 0 < d → pre'.length + d = r →
      Permuting n pre' (ys' ++ (arrangements n d pre').map (tupleOf values pre'))
        (permute0 n r values pre'.length st')) :
    Permuting n pre
      (ys ++ (if i ∈ pre then [] else (arrangements n d (pre ++ [i])).map (i :: ·)).map
        (tupleOf values pre)) (permuteTurn n r values pre.length i st) := by
  have hmark : st.used.getD i 0 = if i ∈ pre then 1 else 0 := by rw [h.used, marks_getD hi]
  unfold permuteTurn
  by_cases hmem : i ∈ pre
  · rw [if_pos hmem] at hmark ⊢
    rw [if_neg (by omega)]
    simpa using h
  · rw [if_neg hmem] at hmark ⊢
    rw [if_pos hmark]
    have htuple : tupleOf values (pre ++ [i]) = fun s => tupleOf values pre (i :: s) := by
      funext s
      simp [tupleOf]
    have hfill := h.fill (by omega) i
    cases d with
    | zero =>
        have hlen : (pre ++ [i]).length = r := by simpa using hd
        have htake := h.take_set (by omega) i
        rw [hlen] at htake
        rw [if_neg (by omega)]
        refine ⟨by simp [h.length], ?_, h.used, ?_⟩
        · rw [List.take_set_of_le le_rfl, h.filled]
        · simp [arrangements, tupleOf, htake, h.yields]
    | succ d =>
        have hnext := hcall hfill (by omega) (by simp; omega)
        rw [if_pos (by omega), List.map_map]
        rw [htuple, List.length_append] at hnext
        exact hnext.unmark hmem

end Permuting

/-- The arrangements that start with an index below `i + 1`. -/
theorem flatMap_free_succ {β : Type} (f : ℕ → List β) (i : ℕ) :
    (free (i + 1) pre).flatMap f = (free i pre).flatMap f ++ if i ∈ pre then [] else f i := by
  rw [free, List.range_succ, List.filter_append, List.flatMap_append]
  by_cases h : i ∈ pre
  · simp [h, free]
  · simp [h, free]

/-- The loop of a call, from what the calls for the next place do. -/
theorem Permuting.upto (h : Permuting n pre ys st) (hd : pre.length + (d + 1) = r) (hr : r ≤ n)
    (hcall : ∀ {pre' ys' st'}, Permuting n pre' ys' st' → 0 < d → pre'.length + d = r →
      Permuting n pre' (ys' ++ (arrangements n d pre').map (tupleOf values pre'))
        (permute0 n r values pre'.length st')) :
    Permuting n pre (ys ++ (arrangements n (d + 1) pre).map (tupleOf values pre))
      (permute0 n r values pre.length st) := by
  let sofar := fun i => (free i pre).flatMap fun i => (arrangements n d (pre ++ [i])).map (i :: ·)
  rw [permute0_eq]
  refine Loop.upto_induction
    (fun i st => Permuting n pre (ys ++ (sofar i).map (tupleOf values pre)) st) ?_ ?_
  · simpa [sofar, free] using h
  · intro i st hi hst
    have hturn := hst.turn hi hd hr hcall
    rwa [List.append_assoc, ← List.map_append, ← flatMap_free_succ] at hturn

/-- **A call yields the elements at the arrangements** of what is free, and puts back the marks and
the part of the buffer that is filled. -/
theorem permute0_permuting (h : Permuting n pre ys st) (hd : pre.length + (d + 1) = r)
    (hr : r ≤ n) :
    Permuting n pre (ys ++ (arrangements n (d + 1) pre).map (tupleOf values pre))
      (permute0 n r values pre.length st) := by
  induction d generalizing pre ys st with
  | zero => exact h.upto hd hr fun _ hpos _ => absurd hpos (lt_irrefl 0)
  | succ d ih => exact h.upto hd hr fun h' _ hd' => ih h' hd'

end Spec

/-! ## The permutations -/

section Result

variable {L : LongSize} {α : Type} (ary : RArray L α) (num : Option (Long L))

/-- The special case of the single elements. -/
theorem upto_single (elems : List α) (n : ℕ) :
    Loop.upto (fun i yields => yields ++ [[elems[i]?]]) n [] =
      (arrangements n 1 []).map (tupleOf elems []) := by
  induction n with
  | zero => rfl
  | succ n ih =>
      rw [Loop.upto_succ, ih]
      simp [arrangements, free, List.range_succ, tupleOf]

/-- The yields are the arrangements of all indexes. -/
theorem permutationRight_of_yields {d : ℕ} (hd : (d : ℤ) = num.elim (ary.elems.length : ℤ) Long.val)
    (hyields : (rbAryPermutation ary num).1 =
      (arrangements ary.elems.length d []).map (tupleOf ary.elems []))
    (hused : ∀ mark ∈ (rbAryPermutation ary num).2, mark = 0) : PermutationRight ary num := by
  refine ⟨⟨arrangements ary.elems.length d [], ?_, hyields⟩, hused⟩
  refine (arrangements_enumerates _ _ _).congr fun s => ?_
  rw [← hd]
  simp

/-- **The permutations of an array are right.** -/
theorem permutationRight : PermutationRight ary num := by
  set n := ary.elems.length with hn
  set r := num.elim (n : ℤ) Long.val with hr
  by_cases hnone : r < 0 ∨ (n : ℤ) < r
  · have hrun : rbAryPermutation ary num = ([], []) := by
      simp only [rbAryPermutation, ← hn, ← hr, if_pos hnone]
    rw [PermutationRight, hrun]
    refine ⟨⟨[], Enumerates.empty.congr fun s => ?_, rfl⟩, by simp⟩
    simp only [false_iff, ← hn, ← hr]
    intro h
    have hsub : s ⊆ List.range n := fun i hi => List.mem_range.mpr (h.2.2 i hi)
    have hle := h.2.1.length_le_of_subset hsub
    rw [List.length_range] at hle
    omega
  · obtain ⟨d, hd⟩ := Int.eq_ofNat_of_zero_le (show 0 ≤ r by omega)
    by_cases h0 : r = 0
    · have hrun : rbAryPermutation ary num = ([[]], []) := by
        simp only [rbAryPermutation, ← hn, ← hr, if_neg hnone, if_pos h0]
      have hd0 : d = 0 := by omega
      refine permutationRight_of_yields ary num hd.symm ?_ (by simp [hrun])
      simp [hrun, hd0, arrangements, tupleOf]
    · by_cases h1 : r = 1
      · have hrun : rbAryPermutation ary num =
            (Loop.upto (fun i yields => yields ++ [[ary.elems[i]?]]) n [], []) := by
          simp only [rbAryPermutation, ← hn, ← hr, if_neg hnone, if_neg h0, if_pos h1]
        have hd1 : d = 1 := by omega
        refine permutationRight_of_yields ary num hd.symm ?_ (by simp [hrun])
        rw [hrun, hd1, upto_single]
      · let start : PermState α := ⟨List.replicate n 0, List.replicate n 0, []⟩
        have hstart : Permuting n [] [] start :=
          ⟨List.length_replicate, rfl, marks_nil.symm, rfl⟩
        obtain ⟨e, rfl⟩ := Nat.exists_eq_add_of_le' (show 1 ≤ d by omega)
        have hend : Permuting n [] ([] ++ (arrangements n (e + 1) []).map (tupleOf ary.elems []))
            (permute0 n r.toNat ary.elems 0 start) :=
          permute0_permuting hstart (by rw [List.length_nil]; omega) (by omega)
        have hrun : rbAryPermutation ary num =
            ((permute0 n r.toNat ary.elems 0 start).yields,
              (permute0 n r.toNat ary.elems 0 start).used) := by
          simp only [rbAryPermutation, ← hn, ← hr, if_neg hnone, if_neg h0, if_neg h1, start]
        refine permutationRight_of_yields ary num hd.symm ?_ ?_
        · rw [hrun]
          exact hend.yields
        · intro mark hmark
          rw [hrun] at hmark
          rw [hend.used, marks_nil] at hmark
          exact List.eq_of_mem_replicate hmark

end Result

end MacRuby
