import Mathlib.Data.List.TakeWhile
import MacRuby.Array.Permutation

/-!
# Products of arrays

`rb_ary_product` computes the number of the tuples first, and then counts through them: the last
counter is incremented, and one that reaches the length of its array is reset and the counter
before it incremented.  The number is a `long` that wraps, with a test after each product, and the
counters are of type `int`.

An array that is empty ends the computation of the number, with no tuple at all.  Where the
product of the lengths before it is no `long`, the exception comes first.

## Main definitions

* `productLen`, `carry`, `rbAryProduct` — the code.
* `ProductArgs` — the receiver and the arguments.
* `ProductRight`, `ProductArgs.Fits` — the documented result, and when the code has it.

## Main results

* `carry_step` — the counters go on to the next tuple.
* `permutation_product_right_iff` — permutations and products are right exactly when the product
  fits.
-/

namespace MacRuby

open Lexicographic

/-- `INT_MAX`. -/
def cIntMax : ℕ := 2 ^ 31 - 1

section Code

variable (L : LongSize) {α : Type} (nil : α)

/-- `rb_ary_new2(len)`. -/
def rbAryNew2 (len : ℤ) : Except ArrayError (List α) :=
  if len < 0 then .error (.argument "negative array size (or size too big)")
  else if len > L.longMax / L.bytes then .error (.argument "array size too big")
  else .ok []

/-- The loop that computes the number of the tuples; none is an empty array. -/
def productLen : List (List α) → ℤ → Except ArrayError (Option ℤ)
  | [], resultlen => .ok (some resultlen)
  | a :: arrays, l =>
      let k : ℤ := a.length
      if k = 0 then .ok none
      else
        let resultlen := L.toLong (l * k)
        if resultlen < k ∨ resultlen < l ∨ resultlen.tdiv k ≠ l then
          .error (.tooBig "too big to product")
        else productLen arrays resultlen

/-- `counters[m]++`; none where the `int` overflows. -/
def incr (counters : List ℕ) (m : ℕ) : Option (List ℕ) :=
  let c := counters.getD m 0 + 1
  if c ≤ cIntMax then some (counters.set m c) else none

/-- The increment of the counter `m`, with the loop that carries. -/
def carry (lens : List ℕ) : ℕ → List ℕ → Option (List ℕ)
  | 0, counters => incr counters 0
  | m + 1, counters => do
      let counters ← incr counters (m + 1)
      if counters.getD (m + 1) 0 = lens.getD (m + 1) 0 then carry lens m (counters.set (m + 1) 0)
      else some counters

/-- `rb_ary_entry(arrays[j], counters[j])`, for all `j`. -/
def subarrayAt (arrays : List (List α)) (counters : List ℕ) : List α :=
  List.zipWith (fun a c => a.getD c nil) arrays counters

/-- The loop that fills in the result, of `i` turns that are left. -/
def productLoop (arrays : List (List α)) : ℕ → List ℕ → List (List α) → Option (List (List α))
  | 0, _, result => some result
  | i + 1, counters, result => do
      let subarray := subarrayAt nil arrays counters
      let counters ← carry (arrays.map List.length) (arrays.length - 1) counters
      productLoop arrays i counters (result ++ [subarray])

/-- `rb_ary_product`, of the receiver and the arguments. -/
def rbAryProduct (arrays : List (List α)) : Option (Except ArrayError (List (List α))) :=
  match productLen L arrays 1 with
  | .error e => some (.error e)
  | .ok none => some (.ok [])
  | .ok (some resultlen) =>
      match rbAryNew2 L resultlen with
      | .error e => some (.error e)
      | .ok result =>
          (productLoop nil arrays resultlen.toNat (List.replicate arrays.length 0) result).map .ok

end Code

/-! ## The documented result -/

/-- The number of tuples of the arrays up to the first that is empty. -/
def prodUpto (lens : List ℕ) : ℕ := (lens.takeWhile (· ≠ 0)).prod

/-- The receiver and the arguments of a call; `argc` is an `int`, and so is `argc + 1`. -/
structure ProductArgs (L : LongSize) (α : Type) where
  ary : RArray L α
  args : List (RArray L α)
  argc_lt : args.length < cIntMax

namespace ProductArgs

variable {L : LongSize} {α : Type} (a : ProductArgs L α)

/-- The arrays that are chosen from. -/
def arrays : List (List α) := (a.ary :: a.args).map RArray.elems

/-- The number of elements in each. -/
def lens : List ℕ := a.arrays.map List.length

/-- **The number of the tuples fits**: as a `long`, as far as to an array that is empty; with no
such array, each counter goes up to the length of its array, unless the tuples are too many for
an array. -/
def Fits : Prop :=
  if 0 ∈ a.lens then (prodUpto a.lens : ℤ) ≤ L.longMax
  else L.longMax / L.bytes < (a.lens.prod : ℤ) ∨ ∀ k ∈ a.lens, k ≤ cIntMax

end ProductArgs

/-- **The documented result**: the tuples of elements at all choices of one index in each array,
each choice once and in lexicographic order, or an exception where there are more tuples than an
array has elements. -/
def ProductRight {L : LongSize} {α : Type} (nil : α) (a : ProductArgs L α) : Prop :=
  match rbAryProduct L nil a.arrays with
  | none => False
  | some (.error _) => L.longMax / L.bytes < (a.lens.prod : ℤ)
  | some (.ok res) =>
      ∃ S, Enumerates S (List.Forall₂ (· < ·) · a.lens) ∧ res = S.map (subarrayAt nil a.arrays)

/-! ## The number of the tuples -/

section Number

variable {L : LongSize} {α : Type}

/-- **The test after a product is exact.** -/
theorem product_test_iff {l k : ℤ} (hl : 1 ≤ l) (hk : 1 ≤ k) :
    (L.toLong (l * k) < k ∨ L.toLong (l * k) < l ∨ (L.toLong (l * k)).tdiv k ≠ l) ↔
      L.longMax < l * k := by
  have hmin := L.longMin_eq
  have hmax := L.longMax_pos
  constructor
  · intro h
    by_contra hle
    have hlk : 0 < l * k := by positivity
    rw [LongSize.toLong_of_mem (by omega) (by omega), Int.mul_tdiv_cancel l (by omega)] at h
    have hkle : 1 * k ≤ l * k := by gcongr
    have hlle : l * 1 ≤ l * k := by gcongr
    omega
  · intro h
    by_contra hno
    push Not at hno
    obtain ⟨h1, h2, h3⟩ := hno
    have hp := LongSize.toLong_le (L := L) (l * k)
    have hdiv := Int.mul_tdiv_self_le (x := L.toLong (l * k)) (k := k) (by omega)
    rw [h3] at hdiv
    have hcomm := mul_comm k l
    omega

theorem prodUpto_pos (lens : List ℕ) : 0 < prodUpto lens := by
  apply List.prod_pos
  intro k hk
  have hk0 := List.mem_takeWhile_imp hk
  exact Nat.pos_of_ne_zero (by simpa using hk0)

theorem prodUpto_eq_prod {lens : List ℕ} (h : 0 ∉ lens) : prodUpto lens = lens.prod := by
  rw [prodUpto, List.takeWhile_eq_self_iff.mpr]
  intro k hk
  simpa using fun h0 : k = 0 => h (h0 ▸ hk)

/-- **What the loop computes**: it raises where the product up to an empty array is no `long`. -/
theorem productLen_eq (arrays : List (List α)) {l : ℤ} (hl : 1 ≤ l) (hl' : l ≤ L.longMax) :
    productLen L arrays l =
      if L.longMax < l * prodUpto (arrays.map List.length) then
        .error (.tooBig "too big to product")
      else if 0 ∈ arrays.map List.length then .ok none
      else .ok (some (l * (arrays.map List.length).prod)) := by
  induction arrays generalizing l with
  | nil =>
      rw [if_neg (by simp [prodUpto]; omega)]
      simp [productLen]
  | cons a arrays ih =>
      rw [productLen]
      by_cases hk : a.length = 0
      · have hprod : prodUpto (List.map List.length (a :: arrays)) = 1 := by
          simp [prodUpto, hk]
        rw [if_pos (by exact_mod_cast hk), hprod, if_neg (by push_cast; omega),
          if_pos (by simp [hk])]
      · have hk' : (1 : ℤ) ≤ a.length := by omega
        have hpos := prodUpto_pos (arrays.map List.length)
        have hprod : prodUpto (List.map List.length (a :: arrays)) =
            a.length * prodUpto (arrays.map List.length) := by
          simp [prodUpto, hk]
        have hmul : (l * a.length) * 1 ≤ l * a.length * prodUpto (arrays.map List.length) := by
          gcongr
          exact_mod_cast hpos
        rw [if_neg (by exact_mod_cast hk), hprod, Nat.cast_mul, ← mul_assoc]
        by_cases hbig : L.longMax < l * a.length
        · rw [if_pos ((product_test_iff hl hk').mpr hbig), if_pos (by omega)]
        · have hone : 1 * 1 ≤ l * a.length := by gcongr
          have hmin := L.longMin_eq
          rw [if_neg (mt (product_test_iff hl hk').mp hbig),
            LongSize.toLong_of_mem (by omega) (by omega), ih (by omega) (by omega)]
          have hmem : 0 ∈ List.map List.length (a :: arrays) ↔ 0 ∈ List.map List.length arrays := by
            rw [List.map_cons, List.mem_cons]
            exact ⟨fun h => h.resolve_left (by omega), Or.inr⟩
          have hprods : (List.map List.length (a :: arrays)).prod =
              a.length * (arrays.map List.length).prod := List.prod_cons
          rw [hprods, Nat.cast_mul, ← mul_assoc]
          by_cases hz : 0 ∈ arrays.map List.length
          · rw [if_pos hz, if_pos (hmem.mpr hz)]
          · rw [if_neg hz, if_neg (mt hmem.mp hz)]

end Number

/-! ## The counters -/

section Counters

variable {k m : ℕ} {ks cs cs' : List ℕ}

theorem incr_eq_some_iff : incr cs m = some cs' ↔
    cs.getD m 0 + 1 ≤ cIntMax ∧ cs.set m (cs.getD m 0 + 1) = cs' := by
  simp [incr]

theorem incr_cons_zero (c : ℕ) :
    incr (c :: cs) 0 = if c + 1 ≤ cIntMax then some ((c + 1) :: cs) else none := by
  simp [incr]

theorem incr_cons_succ (c : ℕ) : incr (c :: cs) (m + 1) = (incr cs m).map (c :: ·) := by
  simp only [incr, List.getD_cons_succ, List.set_cons_succ]
  split <;> rfl

/-- A carry that starts further on may come as far as the counter here. -/
theorem carry_cons (c : ℕ) (hne : cs.getD 0 0 ≠ ks.getD 0 0) :
    carry (k :: ks) (m + 1) (c :: cs) =
      (carry ks m cs).bind fun cs' =>
        if cs'.getD 0 0 = ks.getD 0 0 then incr (c :: cs'.set 0 0) 0 else some (c :: cs') := by
  induction m generalizing cs with
  | zero =>
      conv_lhs => rw [carry, incr_cons_succ]
      rw [carry]
      cases incr cs 0 <;> simp [carry]
  | succ m ih =>
      conv_lhs => rw [carry, incr_cons_succ]
      rw [carry]
      cases hincr : incr cs (m + 1) with
      | none => rfl
      | some cs' =>
          have hhead : cs'.getD 0 0 = cs.getD 0 0 := by
            rw [← (incr_eq_some_iff.mp hincr).2]
            simp
          simp only [Option.map_some, Option.bind_eq_bind, Option.bind_some, List.getD_cons_succ,
            List.set_cons_succ]
          split
          · apply ih
            have hset : (cs'.set (m + 1) 0).getD 0 0 = cs'.getD 0 0 := by simp
            rwa [hset, hhead]
          · rw [Option.bind_some, if_neg (by rw [hhead]; exact hne)]

/-- Counters at zero are counters of arrays that are not empty. -/
theorem forall₂_zeros (hpos : ∀ j ∈ ks, 0 < j) :
    List.Forall₂ (· < ·) (List.replicate ks.length 0) ks := by
  induction ks with
  | nil => exact .nil
  | cons k ks ih => exact .cons (hpos k (by simp)) (ih fun j hj => hpos j (by simp [hj]))

/-- The counters that stand for a tuple, or for the end: then the first counter is at its length
and the others are reset, and each has been at its length before. -/
def Counting (k : ℕ) (ks cs : List ℕ) : Prop :=
  List.Forall₂ (· < ·) cs (k :: ks) ∨
    cs = k :: List.replicate ks.length 0 ∧ ∀ j ∈ k :: ks, j ≤ cIntMax

/-- The first counter is incremented, the others being reset. -/
theorem counting_head {c : ℕ} (hpos : ∀ j ∈ ks, 0 < j) (hc : c < k) (hmax : c + 1 ≤ cIntMax)
    (hks : ∀ j ∈ ks, j ≤ cIntMax) : Counting k ks ((c + 1) :: List.replicate ks.length 0) := by
  by_cases hlt : c + 1 < k
  · exact Or.inl (.cons hlt (forall₂_zeros hpos))
  · have hk : c + 1 = k := by omega
    exact Or.inr ⟨by rw [hk], List.forall_mem_cons.mpr ⟨hk ▸ hmax, hks⟩⟩

/-- **The counters go on to the next tuple**, or to the end. -/
theorem carry_step (hpos : ∀ j ∈ ks, 0 < j) (hcs : List.Forall₂ (· < ·) cs (k :: ks))
    (h : carry (k :: ks) ks.length cs = some cs') :
    choicesFrom (k :: ks) cs = cs :: choicesFrom (k :: ks) cs' ∧ Counting k ks cs' := by
  induction ks generalizing k cs cs' with
  | nil =>
      obtain ⟨c, t, hc, ht, rfl⟩ := List.forall₂_cons_right_iff.mp hcs
      obtain rfl := List.forall₂_nil_right_iff.mp ht
      rw [List.length_nil, carry, incr_cons_zero] at h
      split at h
      · rename_i hmax
        obtain rfl := Option.some_inj.mp h
        refine ⟨?_, counting_head (by simp) hc hmax (by simp)⟩
        have hzeros := choicesFrom_zeros (show ∀ j ∈ [], 0 < j by simp) k (c + 1)
        rw [List.length_nil, List.replicate_zero] at hzeros
        rw [hzeros, choicesFrom_of_lt [] [] hc]
        rfl
      · simp at h
  | cons k' ks ih =>
      obtain ⟨c, t, hc, ht, rfl⟩ := List.forall₂_cons_right_iff.mp hcs
      obtain ⟨c', t', hc', -, rfl⟩ := List.forall₂_cons_right_iff.mp ht
      rw [List.length_cons, carry_cons c (by simpa using hc'.ne)] at h
      obtain ⟨next, hnext, h⟩ := Option.bind_eq_some_iff.mp h
      obtain ⟨hfrom, hcount⟩ := ih (fun j hj => hpos j (by simp [hj])) ht hnext
      rw [choicesFrom_of_lt _ _ hc, hfrom, List.map_cons, List.cons_append]
      rcases hcount with hvalid | ⟨rfl, hmax⟩
      · obtain ⟨d, u, hd, -, rfl⟩ := List.forall₂_cons_right_iff.mp hvalid
        rw [if_neg (by simpa using hd.ne)] at h
        obtain rfl := Option.some_inj.mp h
        rw [choicesFrom_of_lt _ (d :: u) hc]
        exact ⟨rfl, Or.inl (.cons hc hvalid)⟩
      · rw [if_pos (by simp), List.set_cons_zero, incr_cons_zero] at h
        split at h
        · rename_i hmax'
          obtain rfl := Option.some_inj.mp h
          refine ⟨?_, counting_head hpos hc hmax' hmax⟩
          have hzeros := choicesFrom_zeros hpos k (c + 1)
          rw [List.length_cons, List.replicate_succ] at hzeros
          rw [hzeros, choicesFrom, if_neg (lt_irrefl k')]
          rfl
        · simp at h

/-- Where no length is beyond an `int`, the increment is defined. -/
theorem carry_isSome (hpos : ∀ j ∈ ks, 0 < j) (hcs : List.Forall₂ (· < ·) cs (k :: ks))
    (hmax : ∀ j ∈ k :: ks, j ≤ cIntMax) : ∃ cs', carry (k :: ks) ks.length cs = some cs' := by
  induction ks generalizing k cs with
  | nil =>
      obtain ⟨c, t, hc, ht, rfl⟩ := List.forall₂_cons_right_iff.mp hcs
      have hk := hmax k (by simp)
      exact ⟨(c + 1) :: t, by rw [List.length_nil, carry, incr_cons_zero, if_pos (by omega)]⟩
  | cons k' ks ih =>
      obtain ⟨c, t, hc, ht, rfl⟩ := List.forall₂_cons_right_iff.mp hcs
      obtain ⟨c', t', hc', -, rfl⟩ := List.forall₂_cons_right_iff.mp ht
      have hk := hmax k (by simp)
      obtain ⟨next, hnext⟩ := ih (fun j hj => hpos j (by simp [hj])) ht
        (fun j hj => hmax j (by simp [hj]))
      rw [List.length_cons, carry_cons c (by simpa using hc'.ne), hnext, Option.bind_some]
      split
      · exact ⟨_, by rw [incr_cons_zero, if_pos (by omega)]⟩
      · exact ⟨_, rfl⟩

end Counters

/-! ## The result -/

section Loop

variable {α : Type} {nil : α} {arrays : List (List α)} {k i : ℕ} {ks cs : List ℕ}
  {result : List (List α)}

/-- The counters stand for a tuple just where one is left. -/
theorem Counting.valid_or (h : Counting k ks cs) :
    List.Forall₂ (· < ·) cs (k :: ks) ∧ choicesFrom (k :: ks) cs ≠ [] ∨
      choicesFrom (k :: ks) cs = [] ∧ ∀ j ∈ k :: ks, j ≤ cIntMax := by
  rcases h with h | ⟨rfl, hmax⟩
  · exact Or.inl ⟨h, choicesFrom_ne_nil h⟩
  · exact Or.inr ⟨by rw [choicesFrom, if_neg (lt_irrefl k)], hmax⟩

/-- **A run of the loop** adds the tuples from the counters on, and each counter has been at the
length of its array when it is over. -/
theorem productLoop_some (hlens : arrays.map List.length = k :: ks) (hpos : ∀ j ∈ ks, 0 < j)
    {res : List (List α)} (hcs : Counting k ks cs) (hi : (choicesFrom (k :: ks) cs).length = i)
    (h : productLoop nil arrays i cs result = some res) :
    res = result ++ (choicesFrom (k :: ks) cs).map (subarrayAt nil arrays) ∧
      ∀ j ∈ k :: ks, j ≤ cIntMax := by
  have hlen : arrays.length - 1 = ks.length := by
    simpa using congrArg (fun l => List.length l - 1) hlens
  induction i generalizing cs result with
  | zero =>
      obtain rfl := Option.some_inj.mp h
      have hnil := List.length_eq_zero_iff.mp hi
      rcases hcs.valid_or with ⟨-, hne⟩ | ⟨-, hmax⟩
      · exact absurd hnil hne
      · exact ⟨by rw [hnil, List.map_nil, List.append_nil], hmax⟩
  | succ i ih =>
      rcases hcs.valid_or with ⟨hvalid, -⟩ | ⟨hnil, -⟩
      · rw [productLoop, hlens, hlen] at h
        obtain ⟨next, hnext, h⟩ := Option.bind_eq_some_iff.mp h
        obtain ⟨hfrom, hcount⟩ := carry_step hpos hvalid hnext
        rw [hfrom, List.length_cons, Nat.add_right_cancel_iff] at hi
        obtain ⟨hres, hmax⟩ := ih hcount hi h
        refine ⟨?_, hmax⟩
        rw [hres, hfrom, List.map_cons, List.append_assoc, List.singleton_append]
      · simp [hnil] at hi

/-- Where no length is beyond an `int`, the loop is defined. -/
theorem productLoop_isSome (hlens : arrays.map List.length = k :: ks) (hpos : ∀ j ∈ ks, 0 < j)
    (hmax : ∀ j ∈ k :: ks, j ≤ cIntMax) (hcs : Counting k ks cs)
    (hi : (choicesFrom (k :: ks) cs).length = i) :
    ∃ res, productLoop nil arrays i cs result = some res := by
  have hlen : arrays.length - 1 = ks.length := by
    simpa using congrArg (fun l => List.length l - 1) hlens
  induction i generalizing cs result with
  | zero => exact ⟨result, rfl⟩
  | succ i ih =>
      rcases hcs.valid_or with ⟨hvalid, -⟩ | ⟨hnil, -⟩
      · obtain ⟨next, hnext⟩ := carry_isSome hpos hvalid hmax
        obtain ⟨hfrom, hcount⟩ := carry_step hpos hvalid hnext
        rw [hfrom, List.length_cons, Nat.add_right_cancel_iff] at hi
        have hrun : ∃ res, productLoop nil arrays i next (result ++ [subarrayAt nil arrays cs]) =
            some res := ih hcount hi
        obtain ⟨res, hres⟩ := hrun
        exact ⟨res, by rw [productLoop, hlens, hlen, hnext]; exact hres⟩
      · simp [hnil] at hi

end Loop

/-! ## When products are right -/

section Result

variable {L : LongSize} {α : Type} {nil : α} (a : ProductArgs L α)

theorem rbAryNew2_eq {len : ℤ} (hlen : 0 ≤ len) :
    rbAryNew2 L len = if L.longMax / L.bytes < len then
      .error (.argument "array size too big") else .ok ([] : List α) := by
  rw [rbAryNew2, if_neg (by omega)]

theorem productLen_arrays : productLen L a.arrays 1 =
    if L.longMax < prodUpto a.lens then .error (.tooBig "too big to product")
    else if 0 ∈ a.lens then .ok none else .ok (some (a.lens.prod : ℤ)) := by
  have hmax := L.longMax_pos
  have hlen := productLen_eq a.arrays (le_refl 1) (show 1 ≤ L.longMax by omega)
  rwa [one_mul, one_mul] at hlen

/-- With an empty array there is no tuple, and the result is right unless the number is given up
before that array. -/
theorem productRight_iff_of_mem (h : 0 ∈ a.lens) :
    ProductRight nil a ↔ (prodUpto a.lens : ℤ) ≤ L.longMax := by
  have hprod : a.lens.prod = 0 := List.prod_eq_zero_iff.mpr h
  have hlen := productLen_arrays a
  rw [if_pos h] at hlen
  unfold ProductRight rbAryProduct
  by_cases hbig : L.longMax < prodUpto a.lens
  · rw [if_pos hbig] at hlen
    simp only [hlen, hprod, not_le.mpr hbig, iff_false, not_lt]
    exact Int.ediv_nonneg L.longMax_pos.le (by positivity)
  · rw [if_neg hbig] at hlen
    simp only [hlen, not_lt.mp hbig, iff_true]
    have hnone : choices a.lens = [] :=
      List.length_eq_zero_iff.mp (by rw [length_choices, hprod])
    exact ⟨choices a.lens, choices_enumerates a.lens, by rw [hnone]; rfl⟩

/-- The counters at the start, from where there are all the choices. -/
theorem counting_start (h : 0 ∉ a.lens) : ∃ k ks, a.lens = k :: ks ∧ (∀ j ∈ ks, 0 < j) ∧
    Counting k ks (List.replicate a.arrays.length 0) ∧
    choicesFrom (k :: ks) (List.replicate a.arrays.length 0) = choices (k :: ks) := by
  have hpos : ∀ j ∈ a.lens, 0 < j := fun j hj => Nat.pos_of_ne_zero fun h0 => h (h0 ▸ hj)
  have hlen : a.arrays.length = a.lens.length := List.length_map _ |>.symm
  obtain ⟨k, ks, hks⟩ : ∃ k ks, a.lens = k :: ks := ⟨_, _, rfl⟩
  rw [hks] at hpos hlen
  have hzeros := choicesFrom_zeros (fun j hj => hpos j (List.mem_cons_of_mem k hj)) k 0
  rw [choicesAbove_zero] at hzeros
  refine ⟨k, ks, hks, fun j hj => hpos j (List.mem_cons_of_mem k hj), ?_, ?_⟩
  · rw [hlen]
    exact Or.inl (forall₂_zeros hpos)
  · rw [hlen, List.length_cons, List.replicate_succ, hzeros]

/-- **The loop** gives all choices, and is defined exactly when each length is an `int`. -/
theorem productLoop_start (nil : α) (h : 0 ∉ a.lens) :
    (∀ res, productLoop nil a.arrays a.lens.prod (List.replicate a.arrays.length 0) [] = some res →
      res = (choices a.lens).map (subarrayAt nil a.arrays)) ∧
    ((∃ res,
        productLoop nil a.arrays a.lens.prod (List.replicate a.arrays.length 0) [] = some res) ↔
      ∀ k ∈ a.lens, k ≤ cIntMax) := by
  obtain ⟨k, ks, hks, hpos, hcs, hall⟩ := counting_start a h
  have hnum : (choicesFrom (k :: ks) (List.replicate a.arrays.length 0)).length = a.lens.prod := by
    rw [hall, length_choices, hks]
  rw [← hall.trans (congrArg choices hks.symm)]
  refine ⟨fun res hres => ?_, ⟨fun hres => ?_, fun hmax => ?_⟩⟩
  · have hrun := productLoop_some hks hpos hcs hnum hres
    rw [hrun.1, List.nil_append]
  · obtain ⟨res, hres⟩ := hres
    have hrun := productLoop_some hks hpos hcs hnum hres
    rw [hks]
    exact hrun.2
  · exact productLoop_isSome hks hpos (hks ▸ hmax) hcs hnum

/-- With no empty array the result is right unless a counter overflows. -/
theorem productRight_iff_of_notMem (h : 0 ∉ a.lens) :
    ProductRight nil a ↔
      L.longMax / L.bytes < (a.lens.prod : ℤ) ∨ ∀ k ∈ a.lens, k ≤ cIntMax := by
  have hlen := productLen_arrays a
  rw [if_neg h, prodUpto_eq_prod h] at hlen
  have hnew := rbAryNew2_eq (L := L) (α := List α) (show 0 ≤ (a.lens.prod : ℤ) by positivity)
  unfold ProductRight rbAryProduct
  by_cases hbig : L.longMax < a.lens.prod
  · rw [if_pos hbig] at hlen
    have hle : L.longMax / L.bytes ≤ L.longMax := Int.ediv_le_self _ L.longMax_pos.le
    have hlt : L.longMax / L.bytes < (a.lens.prod : ℤ) := by omega
    simp only [hlen, hlt, true_or]
  · rw [if_neg hbig] at hlen
    by_cases hsize : L.longMax / L.bytes < (a.lens.prod : ℤ)
    · rw [if_pos hsize] at hnew
      simp only [hlen, hnew, hsize, true_or]
    · rw [if_neg hsize] at hnew
      obtain ⟨hright, hdefined⟩ := productLoop_start a nil h
      simp only [hlen, hnew, hsize, false_or, Int.toNat_natCast, ← hdefined]
      cases hrun : productLoop nil a.arrays a.lens.prod (List.replicate a.arrays.length 0) [] with
      | none => simp
      | some res =>
          simp only [Option.map_some, Option.some.injEq, exists_eq', iff_true]
          exact ⟨choices a.lens, choices_enumerates a.lens, hright res hrun⟩

/-- A product is right exactly when it fits. -/
theorem productRight_iff : ProductRight nil a ↔ a.Fits := by
  unfold ProductArgs.Fits
  split
  · exact productRight_iff_of_mem a ‹_›
  · exact productRight_iff_of_notMem a ‹_›

/-- **Permutations and products are right exactly when the product fits.** -/
theorem permutation_product_right_iff (ary : RArray L α) (num : Option (Long L)) :
    (PermutationRight ary num ∧ ProductRight nil a) ↔ a.Fits := by
  rw [productRight_iff]
  exact and_iff_right (permutationRight ary num)

/-- The array `[0, 1]`. -/
def zeroOne : RArray .lp64 ℕ := ⟨[0, 1], by decide⟩

/-- The array `[]`. -/
def noElement : RArray .lp64 ℕ := ⟨[], by decide⟩

/-- The product of 63 arrays of two elements with an empty array after them. -/
def emptyLast : ProductArgs .lp64 ℕ where
  ary := zeroOne
  args := List.replicate 62 zeroOne ++ [noElement]
  argc_lt := by decide

/-- It is given up as too big, though it has no tuple at all. -/
theorem not_permutation_product_right_emptyLast :
    ¬(PermutationRight noElement none ∧ ProductRight 0 emptyLast) := by
  intro h
  have hlen : productLen .lp64 emptyLast.arrays 1 = .error (.tooBig "too big to product") := by
    decide +kernel
  have hprod : emptyLast.lens.prod = 0 := by decide
  have hright := h.2
  unfold ProductRight rbAryProduct at hright
  rw [hlen] at hright
  simp only [hprod] at hright
  exact absurd hright (by decide)

end Result

end MacRuby
