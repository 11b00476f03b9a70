import MacRuby.Array.Permutation

/-!
# Combinations

`rb_ary_combination` computes the number of the combinations first, in `combi_len`, and then goes
from one combination to the next as often.  The indexes are on a stack, where `stack[lev + 1]` is
the index of the element `lev` and `stack[0]` is none.  The number is a product that wraps, and the
test after each multiplication finds a result that is less than before, which is not every
overflow.  Where an overflow is not found, the number is too small, and the last combinations are
left out.

The block leaves the array alone; a read outside of the array shows as none.

## Main definitions

* `combiLen`, `combTurn`, `rbAryCombination` — the code.
* `CombinationRight` — what is documented.
* `combiVal`, `CombinationFits` — the value in the loop of `combi_len`, and when the number is right
  or the call raises.

## Main results

* `combTurn_combining` — a turn yields one combination and goes on to the next.
* `combinationRight_iff` — the combinations are right exactly when no overflow is missed.
-/

namespace MacRuby

open Lexicographic

section Code

variable (L : LongSize) {α : Type}

/-- The loop of `combi_len`, of so many turns that are left. -/
def combiLenLoop : ℕ → (i n val : ℤ) → Except ArrayError ℤ
  | 0, _, _, val => .ok val
  | turns + 1, i, n, val =>
      let m := val
      let val := L.toLong (val * n)
      if val < m then .error (.tooBig "too big for combination")
      else combiLenLoop turns (i + 1) (n - 1) (val.tdiv i)

/-- `combi_len(n, k)`. -/
def combiLen (n k : ℤ) : Except ArrayError ℤ :=
  let k := if L.toLong (k * 2) > n then n - k else k
  if k = 0 then .ok 1
  else if k < 0 then .ok 0
  else combiLenLoop L k.toNat 1 n 1

/-- `RARRAY_AT(ary, i)`; none where there is no such element. -/
def rarrayAt (ary : List α) (i : ℤ) : Option α := if i < 0 then none else ary[i.toNat]?

/-- The stack of indexes, the combination `cc`, the level, and what has been yielded. -/
structure CombState (α : Type) where
  stack : List ℤ
  cc : List (Option α)
  lev : ℕ
  yields : List (List (Option α))

/-- The loop `for (lev++; lev < n; lev++)`, of so many turns that are left.  The level is never
beyond the length of `cc`, so that `rb_ary_store` has nothing to pad. -/
def combFill (ary : List α) : ℕ → ℕ → List ℤ → List (Option α) → List ℤ × List (Option α)
  | 0, _, stack, cc => (stack, cc)
  | turns + 1, lev, stack, cc =>
      let stack := stack.set (lev + 1) (stack.getD lev 0 + 1)
      let cc := cfArraySetValueAtIndex cc lev (rarrayAt ary (stack.getD (lev + 1) 0))
      combFill ary turns (lev + 1) stack cc

/-- The loop `do stack[lev--]++; while (lev && (stack[lev+1]+n == len+lev+1))`, and the level that
it leaves.  It starts at a positive level. -/
def combBack (n len : ℕ) : ℕ → List ℤ → List ℤ × ℕ
  | 0, stack => (stack, 0)
  | lev + 1, stack =>
      let stack := stack.set (lev + 1) (stack.getD (lev + 1) 0 + 1)
      if lev ≠ 0 ∧ stack.getD (lev + 1) 0 + n = len + lev + 1 then combBack n len lev stack
      else (stack, lev)

/-- One turn of the loop of `rb_ary_combination`. -/
def combTurn (ary : List α) (n : ℕ) (st : CombState α) : CombState α :=
  let cc := cfArraySetValueAtIndex st.cc st.lev (rarrayAt ary (st.stack.getD (st.lev + 1) 0))
  let (stack, cc) := combFill ary (n - (st.lev + 1)) (st.lev + 1) st.stack cc
  let yields := st.yields ++ [cc]
  let (stack, lev) := combBack n ary.length n stack
  ⟨stack, cc, lev, yields⟩

variable {L}

/-- `rb_ary_combination`: what it yields. -/
def rbAryCombination (ary : RArray L α) (num : Long L) :
    Except ArrayError (List (List (Option α))) :=
  let n := num.val
  let len : ℤ := ary.elems.length
  if n < 0 ∨ len < n then .ok []
  else if n = 0 then .ok [[]]
  else if n = 1 then
    .ok (Loop.upto (fun i yields => yields ++ [[ary.elems[i]?]]) ary.elems.length [])
  else
    match combiLen L len n with
    | .error e => .error e
    | .ok nlen =>
        let start : CombState α := ⟨-1 :: List.replicate n.toNat 0, [], 0, []⟩
        .ok (Loop.upto (fun _ => combTurn ary.elems n.toNat) nlen.toNat start).yields

end Code

section Meaning

variable {L : LongSize} {α : Type}

/-- **What is documented**: a `RangeError` before anything is yielded, or the elements at all
strictly increasing sequences of `num` indexes, each once and in lexicographic order. -/
def CombinationRight (ary : RArray L α) (num : Long L) : Prop :=
  match rbAryCombination ary num with
  | .error e => e = .tooBig "too big for combination"
  | .ok yields => ∃ S, Enumerates S
      (fun s => (s.length : ℤ) = num.val ∧ s.Pairwise (· < ·) ∧ ∀ i ∈ s, i < ary.elems.length) ∧
      yields = S.map fun s => s.map (ary.elems[·]?)

/-- The value in the loop of `combi_len` after `i` turns that do not raise. -/
def combiVal (L : LongSize) (n : ℕ) : ℕ → ℤ
  | 0 => 1
  | i + 1 => (L.toLong (combiVal L n i * (n - i : ℕ))).tdiv (i + 1)

/-- The test of `combi_len` finds an overflow in the turn after `i` turns. -/
def CombiFound (L : LongSize) (n i : ℕ) : Prop :=
  L.toLong (combiVal L n i * (n - i : ℕ)) < combiVal L n i

instance (L : LongSize) (n i : ℕ) : Decidable (CombiFound L n i) :=
  inferInstanceAs (Decidable (_ < _))

/-- **No overflow is missed** in a number that `combi_len` computes: the last product fits, and
with it all before, or the test finds an overflow. -/
def CombinationFits (ary : RArray L α) (num : Long L) : Prop :=
  let n := ary.elems.length
  let k := min num.val.toNat (n - num.val.toNat)
  2 ≤ num.val → num.val ≤ n → ((n.choose k * k : ℕ) : ℤ) ≤ L.longMax ∨ ∃ i < k, CombiFound L n i

end Meaning

/-! ## The number of combinations -/

section Number

variable {L : LongSize} {n k i : ℕ}

/-- A turn of the loop of `combi_len`. -/
theorem combiLenLoop_succ (turns : ℕ) (hi : i < n) :
    combiLenLoop L (turns + 1) (i + 1) (n - i : ℕ) (combiVal L n i) =
      if CombiFound L n i then .error (.tooBig "too big for combination")
      else combiLenLoop L turns ((i + 1 : ℕ) + 1) (n - (i + 1) : ℕ) (combiVal L n (i + 1)) := by
  have hn : ((n - i : ℕ) : ℤ) - 1 = (n - (i + 1) : ℕ) := by omega
  rw [combiLenLoop, hn]
  rfl

/-- **The loop raises** where its test finds an overflow. -/
theorem combiLenLoop_of_found (turns : ℕ) (h : i + turns ≤ n)
    (hfound : ∃ j, i ≤ j ∧ j < i + turns ∧ CombiFound L n j) :
    combiLenLoop L turns (i + 1) (n - i : ℕ) (combiVal L n i) =
      .error (.tooBig "too big for combination") := by
  induction turns generalizing i with
  | zero =>
      obtain ⟨j, h1, h2, -⟩ := hfound
      omega
  | succ turns ih =>
      obtain ⟨j, h1, h2, hj⟩ := hfound
      rw [combiLenLoop_succ turns (by omega)]
      split
      · rfl
      · rename_i hno
        have hij : i ≠ j := fun h => hno (h ▸ hj)
        exact ih (by omega) ⟨j, by omega, by omega, hj⟩

/-- Where the test finds none, the loop gives the value. -/
theorem combiLenLoop_of_not_found (turns : ℕ) (h : i + turns ≤ n)
    (hno : ∀ j, i ≤ j → j < i + turns → ¬CombiFound L n j) :
    combiLenLoop L turns (i + 1) (n - i : ℕ) (combiVal L n i) =
      .ok (combiVal L n (i + turns)) := by
  induction turns generalizing i with
  | zero => rfl
  | succ turns ih =>
      rw [combiLenLoop_succ turns (by omega), if_neg (hno i le_rfl (by omega)),
        ih (by omega) fun j hj hlt => hno j (by omega) (by omega), Nat.add_right_comm i 1,
        Nat.add_assoc]

/-- **`combi_len`**, by the shorter of the two loops that give the number. -/
theorem combiLen_eq (hk : k ≤ n) (hn : (4 * n : ℤ) ≤ L.longMax) :
    combiLen L n k =
      if ∃ j < min k (n - k), CombiFound L n j then .error (.tooBig "too big for combination")
      else .ok (combiVal L n (min k (n - k))) := by
  have hmin := L.longMin_eq
  have hshort : (if L.toLong (k * 2) > n then (n - k : ℤ) else k) = (min k (n - k) : ℕ) := by
    rw [LongSize.toLong_of_mem (by omega) (by omega)]
    split <;> omega
  rw [combiLen, hshort]
  generalize hm : min k (n - k) = m
  rcases Nat.eq_zero_or_pos m with rfl | hpos
  · simp [combiVal]
  · simp only [Nat.cast_eq_zero, hpos.ne', if_false, Int.toNat_natCast,
      show ¬(m : ℤ) < 0 by omega]
    have hstart : combiLenLoop L m 1 n 1 =
        combiLenLoop L m ((0 : ℕ) + 1) (n - 0 : ℕ) (combiVal L n 0) := rfl
    rw [hstart]
    split
    · rename_i hfound
      obtain ⟨j, hj, hfound⟩ := hfound
      exact combiLenLoop_of_found m (by omega) ⟨j, by omega, by omega, hfound⟩
    · rename_i hno
      have hnone : ∀ j, 0 ≤ j → j < 0 + m → ¬CombiFound L n j :=
        fun j _ hj hfound => hno ⟨j, by omega, hfound⟩
      rw [combiLenLoop_of_not_found m (by omega) hnone, Nat.zero_add]

theorem combiVal_nonneg (hno : ∀ j < i, ¬CombiFound L n j) : 0 ≤ combiVal L n i := by
  induction i with
  | zero => exact Int.one_nonneg
  | succ i ih =>
      have hval := ih fun j hj => hno j (by omega)
      have htest := not_lt.mp (hno i (by omega))
      exact Int.tdiv_nonneg (hval.trans htest) (by omega)

/-- The value comes from a product that is a `long`. -/
theorem combiVal_mul_le (hno : ∀ j < i, ¬CombiFound L n j) : combiVal L n i * i ≤ L.longMax := by
  cases i with
  | zero => simpa using L.longMax_pos.le
  | succ i =>
      have hval := combiVal_nonneg fun j (hj : j < i) => hno j (by omega)
      have htest := not_lt.mp (hno i (by omega))
      have hdiv := Int.mul_tdiv_self_le (k := (i : ℤ) + 1) (hval.trans htest)
      have hmax := LongSize.toLong_le (L := L) (combiVal L n i * (n - i : ℕ))
      rw [mul_comm, Nat.cast_succ]
      exact hdiv.trans hmax

/-- The products of the loop rise up to the middle. -/
theorem choose_mul_le (hik : i ≤ k) (hk : 2 * k ≤ n) : n.choose i * i ≤ n.choose k * k := by
  induction k, hik using Nat.le_induction with
  | base => exact le_rfl
  | succ k hik ih =>
      have hrise := Nat.choose_le_succ_of_lt_half_left (show k < n / 2 by omega)
      calc n.choose i * i ≤ n.choose k * k := ih (by omega)
        _ ≤ n.choose (k + 1) * (k + 1) := Nat.mul_le_mul hrise (by omega)

/-- Where the last product fits, the value is the number of combinations. -/
theorem combiVal_eq_choose (hk : 2 * k ≤ n) (hfit : ((n.choose k * k : ℕ) : ℤ) ≤ L.longMax)
    (hik : i ≤ k) : combiVal L n i = n.choose i := by
  induction i with
  | zero => simp [combiVal]
  | succ i ih =>
      have hmin := L.longMin_eq
      have hle := choose_mul_le hik hk
      have hprod : (n.choose i : ℤ) * (n - i : ℕ) = n.choose (i + 1) * (i + 1) := by
        exact_mod_cast (Nat.choose_succ_right_eq n i).symm
      have hcast : (n.choose (i + 1) : ℤ) * (i + 1) = (n.choose (i + 1) * (i + 1) : ℕ) := by
        push_cast
        ring
      rw [combiVal, ih (by omega), hprod, hcast, LongSize.toLong_of_mem (by omega) (by omega),
        ← hcast, Int.mul_tdiv_cancel _ (by omega)]

/-- **The value is never too big**, and is the number of combinations just where the last product
fits. -/
theorem combiVal_le (hk : 2 * k ≤ n) (hno : ∀ j < k, ¬CombiFound L n j) :
    combiVal L n k ≤ n.choose k ∧
      (combiVal L n k = n.choose k ↔ ((n.choose k * k : ℕ) : ℤ) ≤ L.longMax) := by
  have hmul := combiVal_mul_le hno
  by_cases hfit : ((n.choose k * k : ℕ) : ℤ) ≤ L.longMax
  · have heq := combiVal_eq_choose hk hfit le_rfl
    exact ⟨heq.le, fun _ => hfit, fun _ => heq⟩
  · have hlt : combiVal L n k < n.choose k := by
      push_cast at hfit
      exact lt_of_mul_lt_mul_right (hmul.trans_lt (not_le.mp hfit)) (Nat.cast_nonneg k)
    exact ⟨hlt.le, fun heq => absurd heq hlt.ne, fun h => absurd h hfit⟩

end Number

/-! ## The stack -/

section Stack

variable {β : Type} {l s : List β}

/-- An item after a first part is set. -/
theorem prefix_set (h : l <+: s) (hlt : l.length < s.length) (x : β) :
    l ++ [x] <+: s.set l.length x := by
  obtain ⟨t, rfl⟩ := h
  rw [List.set_append_right l.length x le_rfl, Nat.sub_self]
  cases t with
  | nil => simp at hlt
  | cons y t => exact ⟨t, by simp⟩

/-- An item after a first part is set or appended. -/
theorem prefix_store (h : l <+: s) (x : β) : l ++ [x] <+: cfArraySetValueAtIndex s l.length x := by
  unfold cfArraySetValueAtIndex
  split
  · rename_i hlen
    rw [h.eq_of_length hlen]
  · have hle := h.length_le
    exact prefix_set h (by omega) x

theorem length_store (s : List β) (i : ℕ) (x : β) :
    (cfArraySetValueAtIndex s i x).length ≤ max s.length (i + 1) := by
  unfold cfArraySetValueAtIndex
  split
  · simp
    omega
  · simp

theorem getD_of_initial {x : β} (h : l ++ [x] <+: s) (d : β) : s.getD l.length d = x := by
  obtain ⟨t, rfl⟩ := h
  simp

end Stack

section Fill

variable {α : Type} {n len lev m i c : ℕ} {ary : List α} {qs ps : List ℕ} {stack : List ℤ}
  {cc : List (Option α)}

@[simp] theorem rarrayAt_natCast (c : ℕ) : rarrayAt ary c = ary[c]? := by
  rw [rarrayAt, if_neg (by omega), Int.toNat_natCast]

/-- The first items of the stack are these indexes. -/
structure Stacked (n : ℕ) (qs : List ℕ) (stack : List ℤ) : Prop where
  holds : (-1 : ℤ) :: qs.map (fun q : ℕ => (q : ℤ)) <+: stack
  length : stack.length = n + 1

/-- The first elements of the combination are those at these indexes. -/
structure Stored (n : ℕ) (ary : List α) (qs : List ℕ) (cc : List (Option α)) : Prop where
  holds : qs.map (ary[·]?) <+: cc
  length_le : cc.length ≤ n

theorem Stacked.of_initial (h : Stacked n qs stack) (hps : ps <+: qs) : Stacked n ps stack :=
  ⟨(List.cons_prefix_cons.mpr ⟨rfl, hps.map _⟩).trans h.holds, h.length⟩

theorem Stored.of_initial (h : Stored n ary qs cc) (hps : ps <+: qs) : Stored n ary ps cc :=
  ⟨(hps.map _).trans h.holds, h.length_le⟩

theorem Stacked.getD (h : Stacked n (qs ++ [c]) stack) : stack.getD (qs.length + 1) 0 = c := by
  have hholds := h.holds
  rw [List.map_append, ← List.cons_append, List.map_singleton] at hholds
  simpa using getD_of_initial hholds 0

theorem Stacked.push (h : Stacked n qs stack) (hlt : qs.length < n) (c : ℕ) :
    Stacked n (qs ++ [c]) (stack.set (qs.length + 1) c) := by
  have hset := prefix_set h.holds (by simp [h.length, hlt]) (c : ℤ)
  refine ⟨?_, by simp [h.length]⟩
  simpa using hset

theorem Stored.push (h : Stored n ary qs cc) (hlt : qs.length < n) (c : ℕ) :
    Stored n ary (qs ++ [c]) (cfArraySetValueAtIndex cc qs.length (rarrayAt ary c)) := by
  have hset := prefix_store h.holds ary[c]?
  have hlen := length_store cc qs.length (rarrayAt ary c)
  have hle := h.length_le
  refine ⟨?_, by omega⟩
  simpa using hset

/-- **The rest of the combination** is filled with the indexes that follow. -/
theorem combFill_spec (hs : Stacked n (qs ++ [c]) stack) (hc : Stored n ary (qs ++ [c]) cc)
    (hm : qs.length + 1 + m = n) :
    Stacked n (qs ++ List.range' c (m + 1)) (combFill ary m (qs.length + 1) stack cc).1 ∧
      Stored n ary (qs ++ List.range' c (m + 1)) (combFill ary m (qs.length + 1) stack cc).2 := by
  induction m generalizing qs c stack cc with
  | zero => exact ⟨hs, hc⟩
  | succ m ih =>
      have hlen : (qs ++ [c]).length = qs.length + 1 := by simp
      have hs' := hs.push (by omega) (c + 1)
      have hc' := hc.push (by omega) (c + 1)
      have hget := hs'.getD
      have hnext := ih hs' hc' (by omega)
      rw [hlen, List.append_assoc, List.singleton_append, ← List.range'_succ] at hnext
      rw [hlen] at hget
      have hrun : combFill ary (m + 1) (qs.length + 1) stack cc =
          combFill ary m (qs.length + 1 + 1) (stack.set (qs.length + 1 + 1) (c + 1 : ℕ))
            (cfArraySetValueAtIndex cc (qs.length + 1) (rarrayAt ary (c + 1 : ℕ))) := by
        rw [combFill, hs.getD, ← Nat.cast_succ, hget]
      rw [hrun]
      exact hnext

/-- The indexes leave room for what follows them, for the last of them `m` further ones. -/
def Room (len : ℕ) : List ℕ → ℕ → Prop
  | [], _ => True
  | p :: ps, m => p + 1 + m ≤ len ∧ Room len ps (m + 1)

/-- The last index goes on by one. -/
theorem Stacked.succ (hs : Stacked n (ps.reverse ++ [c]) stack) (hn : ps.length < n) :
    Stacked n (ps.reverse ++ [c + 1]) (stack.set (ps.length + 1) (c + 1 : ℕ)) := by
  have hpush := (hs.of_initial (List.prefix_append _ _)).push (by simpa using hn) (c + 1)
  rwa [List.length_reverse] at hpush

/-- A turn of going back. -/
theorem combBack_succ (hs : Stacked n (ps.reverse ++ [c]) stack) (hn : ps.length < n) :
    combBack n len (ps.length + 1) stack =
      if ps.length ≠ 0 ∧ ((c + 1 : ℕ) : ℤ) + n = len + ps.length + 1 then
        combBack n len ps.length (stack.set (ps.length + 1) (c + 1 : ℕ))
      else (stack.set (ps.length + 1) (c + 1 : ℕ), ps.length) := by
  have hget := hs.getD
  have hget' := (hs.succ hn).getD
  rw [List.length_reverse] at hget hget'
  rw [combBack, hget, ← Nat.cast_succ, hget']

/-- **Going back** leaves a level where the index can go on, or the first level. -/
theorem combBack_spec (hs : Stacked n (ps.reverse ++ [c]) stack) (hn : ps.length + 1 + m = n)
    (hroom : Room len (c :: ps) m) : ∃ ps' i,
      Stacked n (ps'.reverse ++ [i]) (combBack n len (ps.length + 1) stack).1 ∧
      (combBack n len (ps.length + 1) stack).2 = ps'.length ∧ ps'.reverse <+: ps.reverse ∧
      Room len ps' (n - ps'.length) ∧
      (i + (n - ps'.length) ≤ len ∨ ps' = [] ∧ i + n = len + 1) ∧
      ascendingFrom len ps (m + 1) (c + 1) = ascendingFrom len ps' (n - ps'.length) i := by
  rw [combBack_succ hs (by omega)]
  have hsucc := hs.succ (by omega)
  obtain ⟨hle, hrest⟩ := hroom
  have hm : n - ps.length = m + 1 := by omega
  induction ps generalizing c m stack with
  | nil =>
      rw [if_neg (by simp)]
      refine ⟨[], c + 1, hsucc, rfl, List.prefix_rfl, trivial, ?_, by rw [hm]⟩
      rw [List.length_nil, Nat.zero_add] at hn
      rw [List.length_nil, Nat.sub_zero]
      rcases Nat.lt_or_ge len (c + 1 + n) with hend | hend
      · exact Or.inr ⟨rfl, by omega⟩
      · exact Or.inl hend
  | cons p ps ih =>
      rw [List.length_cons] at hn hm
      split
      · rename_i hback
        have htop : Stacked n (ps.reverse ++ [p]) (stack.set (ps.length + 1 + 1) (c + 1 : ℕ)) := by
          refine hsucc.of_initial ?_
          rw [List.reverse_cons]
          exact List.prefix_append _ _
        obtain ⟨ps', i, hstack, hlev, hinit, hroom, hbound, hfrom⟩ :=
          ih htop (by omega) (htop.succ (by omega)) hrest.1 hrest.2 (by omega)
        have hlast : len < c + 1 + (m + 1) := by
          rw [List.length_cons] at hback
          omega
        rw [List.length_cons, combBack_succ htop (by omega)]
        refine ⟨ps', i, hstack, hlev, hinit.trans ?_, hroom, hbound, ?_⟩
        · rw [List.reverse_cons]
          exact List.prefix_append _ _
        · rw [ascendingFrom_eq p ps hlast (Nat.succ_pos m), hfrom]
      · rename_i hstop
        refine ⟨p :: ps, c + 1, hsucc, rfl, List.prefix_rfl, ?_, ?_, ?_⟩
        · rw [List.length_cons, hm]
          exact hrest
        · rw [List.length_cons] at hstop ⊢
          push_cast at hstop
          omega
        · rw [List.length_cons, hm]

/-- The indexes `ps`, the last first, with the `j` indexes from `i` on after them. -/
def filledUp (ps : List ℕ) (i j : ℕ) : List ℕ := (List.range' i j).reverse ++ ps

theorem filledUp_succ (ps : List ℕ) (i j : ℕ) :
    filledUp ps i (j + 1) = (i + j) :: filledUp ps i j := by
  simp [filledUp, List.range'_concat]

theorem reverse_filledUp (ps : List ℕ) (i j : ℕ) :
    (filledUp ps i j).reverse = ps.reverse ++ List.range' i j := by
  simp [filledUp]

theorem room_filledUp {j : ℕ} (hroom : Room len ps m) (hle : i + m ≤ len) (hj : j ≤ m) :
    Room len (filledUp ps i j) (m - j) := by
  induction j with
  | zero => exact hroom
  | succ j ih =>
      rw [filledUp_succ]
      refine ⟨by omega, ?_⟩
      rw [show m - (j + 1) + 1 = m - j by omega]
      exact ih (by omega)

theorem ascendingFrom_filledUp {j : ℕ} (hle : i + m ≤ len) (hj : j ≤ m) :
    ascendingFrom len ps m i = ascendingFrom len (filledUp ps i j) (m - j) (i + j) := by
  induction j with
  | zero => rfl
  | succ j ih =>
      rw [ih (by omega), filledUp_succ, show m - j = m - (j + 1) + 1 by omega,
        ascendingFrom_of_lt _ (by omega), Nat.add_assoc]

end Fill

/-! ## The loop -/

section Turn

variable {α : Type} {n i : ℕ} {ary : List α} {ps : List ℕ} {st : CombState α}

/-- **The state before a turn**: the indexes `ps`, the last first, are those below the level, and
the index at the level goes on from `i`.  At the end there is no room for it at the first level. -/
structure Combining (n : ℕ) (ary : List α) (ps : List ℕ) (i : ℕ) (st : CombState α) : Prop where
  stack : Stacked n (ps.reverse ++ [i]) st.stack
  cc : Stored n ary ps.reverse st.cc
  lev : st.lev = ps.length
  lev_lt : ps.length < n
  room : Room ary.length ps (n - ps.length)
  bound : i + (n - ps.length) ≤ ary.length ∨ ps = [] ∧ i + n = ary.length + 1

/-- The combinations that are left in a state. -/
def combsLeft (n : ℕ) (ary : List α) (ps : List ℕ) (i : ℕ) : List (List ℕ) :=
  ascendingFrom ary.length ps (n - ps.length) i

/-- **A turn yields one combination**, the first that is left, and goes on to the next. -/
theorem combTurn_combining (h : Combining n ary ps i st) (hle : i + (n - ps.length) ≤ ary.length) :
    ∃ s ps' i', Combining n ary ps' i' (combTurn ary n st) ∧
      (combTurn ary n st).yields = st.yields ++ [s.map (ary[·]?)] ∧
      combsLeft n ary ps i = s :: combsLeft n ary ps' i' := by
  have hlt := h.lev_lt
  obtain ⟨m, hm⟩ : ∃ m, n - ps.length = m + 1 := ⟨n - ps.length - 1, by omega⟩
  have hroom := h.room
  rw [hm] at hroom hle
  have hfull := reverse_filledUp ps i (m + 1)
  rw [filledUp_succ, List.reverse_cons] at hfull
  have hlen : (filledUp ps i m).length + 1 = n := by
    rw [filledUp, List.length_append, List.length_reverse, List.length_range']
    omega
  -- the rest of the combination is filled in
  have hget := h.stack.getD
  have hstored := h.cc.push (by simpa using hlt) i
  obtain ⟨hstack, hcc⟩ := combFill_spec (m := m) h.stack hstored (by simp; omega)
  simp only [List.length_reverse] at hget hstack hcc
  rw [← hfull] at hstack hcc
  generalize hfill : combFill ary m (ps.length + 1) st.stack
    (cfArraySetValueAtIndex st.cc ps.length (rarrayAt ary i)) = full at hstack hcc
  have hturn : combTurn ary n st = ⟨(combBack n ary.length n full.1).1, full.2,
      (combBack n ary.length n full.1).2, st.yields ++ [full.2]⟩ := by
    rw [combTurn, h.lev, hget, show n - (ps.length + 1) = m by omega, hfill]
  rw [hturn]
  -- the stack goes back to an index that can go on
  have hroom' := room_filledUp hroom hle le_rfl
  rw [filledUp_succ, Nat.sub_self] at hroom'
  obtain ⟨ps', i', hstack', hlev, hinit, hroom'', hbound, hfrom⟩ :=
    combBack_spec hstack hlen hroom'
  rw [hlen] at hstack' hlev
  refine ⟨(filledUp ps i m).reverse ++ [i + m], ps', i',
    ⟨hstack', hcc.of_initial (hinit.trans (List.prefix_append _ _)), hlev, ?_, hroom'', hbound⟩,
    ?_, ?_⟩
  · have hle := hinit.length_le
    simp only [List.length_reverse] at hle
    omega
  · have hall := hcc.holds.eq_of_length_le (by simp; have := hcc.length_le; omega)
    rw [hall]
  · rw [combsLeft, combsLeft, hm, ascendingFrom_filledUp hle le_rfl, filledUp_succ, Nat.sub_self,
      ascendingFrom_zero, ← hfrom, List.reverse_cons]

/-- The state before the first turn. -/
theorem combining_start (ary : List α) (hpos : 0 < n) (hle : n ≤ ary.length) :
    Combining n ary [] 0 ⟨-1 :: List.replicate n 0, [], 0, []⟩ where
  stack := by
    obtain ⟨m, rfl⟩ := Nat.exists_eq_add_of_le' hpos
    exact ⟨by simp [List.replicate_succ], by simp⟩
  cc := ⟨by simp, by simp⟩
  lev := rfl
  lev_lt := hpos
  room := trivial
  bound := Or.inl (by simpa using hle)

/-- While there are combinations left, there is room for the index. -/
theorem Combining.has_room (h : Combining n ary ps i st) (hne : combsLeft n ary ps i ≠ []) :
    i + (n - ps.length) ≤ ary.length := by
  rcases h.bound with hle | ⟨rfl, hend⟩
  · exact hle
  · have hlt := h.lev_lt
    exact absurd (ascending_eq_nil (by simp; omega) (by simpa using hlt)) hne

/-- **A run of the loop** yields the first combinations, as many as there are turns. -/
theorem upto_combTurn (hpos : 0 < n) (hle : n ≤ ary.length) {turns : ℕ}
    (hturns : turns ≤ (ascending ary.length n 0).length) :
    (Loop.upto (fun _ => combTurn ary n) turns ⟨-1 :: List.replicate n 0, [], 0, []⟩).yields =
      ((ascending ary.length n 0).take turns).map fun s => s.map (ary[·]?) := by
  generalize hall : ascending ary.length n 0 = all at hturns ⊢
  have hrun := Loop.upto_induction (f := fun _ => combTurn ary n) (n := turns)
    (a := ⟨-1 :: List.replicate n 0, [], 0, []⟩)
    (fun j st => ∃ ps i, Combining n ary ps i st ∧ combsLeft n ary ps i = all.drop j ∧
      st.yields = (all.take j).map fun s => s.map (ary[·]?)) ?_ ?_
  · obtain ⟨ps, i, -, -, hyields⟩ := hrun
    exact hyields
  · exact ⟨[], 0, combining_start ary hpos hle, hall, rfl⟩
  · intro j st hj h
    obtain ⟨ps, i, hst, hleft, hyields⟩ := h
    have hlt : j < all.length := by omega
    rw [List.drop_eq_getElem_cons hlt] at hleft
    have hne : combsLeft n ary ps i ≠ [] := hleft ▸ List.cons_ne_nil _ _
    obtain ⟨s, ps', i', hst', hyield, hnext⟩ := combTurn_combining hst (hst.has_room hne)
    rw [hleft] at hnext
    obtain ⟨rfl, hdrop⟩ := List.cons.inj hnext
    refine ⟨ps', i', hst', hdrop.symm, ?_⟩
    rw [hyield, hyields, List.take_succ_eq_append_getElem hlt, List.map_append, List.map_singleton]

end Turn

/-! ## When combinations are right -/

section Result

variable {L : LongSize} {α : Type} (ary : RArray L α) (num : Long L)

/-- The sequences that are documented. -/
theorem combinations_enumerates {k : ℕ} (hk : (k : ℤ) = num.val) :
    Enumerates (ascending ary.elems.length k 0) fun s =>
      (s.length : ℤ) = num.val ∧ s.Pairwise (· < ·) ∧ ∀ i ∈ s, i < ary.elems.length := by
  refine (ascending_enumerates ary.elems.length k 0).congr fun s => ?_
  rw [← hk]
  simp

/-- Yields of all the combinations are right. -/
theorem combinationRight_of_yields {k : ℕ} (hk : (k : ℤ) = num.val)
    (hyields : rbAryCombination ary num =
      .ok ((ascending ary.elems.length k 0).map fun s => s.map (ary.elems[·]?))) :
    CombinationRight ary num := by
  rw [CombinationRight, hyields]
  exact ⟨_, combinations_enumerates ary num hk, rfl⟩

/-- The number of combinations, by the smaller of the two sizes. -/
theorem choose_min {n k : ℕ} (hk : k ≤ n) : n.choose (min k (n - k)) = n.choose k := by
  rcases Nat.le_total k (n - k) with h | h
  · rw [Nat.min_eq_left h]
  · rw [Nat.min_eq_right h, Nat.choose_symm hk]

/-- The general case. -/
theorem rbAryCombination_general {k : ℕ} (hk : num.val = k) (h2 : 2 ≤ k)
    (hkn : k ≤ ary.elems.length) : rbAryCombination ary num =
      match combiLen L ary.elems.length k with
      | .error e => .error e
      | .ok nlen =>
          let start : CombState α := ⟨-1 :: List.replicate k 0, [], 0, []⟩
          .ok (Loop.upto (fun _ => combTurn ary.elems k) nlen.toNat start).yields := by
  rw [rbAryCombination]
  simp only [hk, Int.toNat_natCast]
  rw [if_neg (by omega), if_neg (by omega), if_neg (by omega)]

/-- **The general case is right exactly when no overflow is missed.** -/
theorem combinationRight_general_iff {k : ℕ} (hk : num.val = k) (h2 : 2 ≤ k)
    (hkn : k ≤ ary.elems.length) :
    CombinationRight ary num ↔
      ((ary.elems.length.choose (min k (ary.elems.length - k)) *
        min k (ary.elems.length - k) : ℕ) : ℤ) ≤ L.longMax ∨
      ∃ j < min k (ary.elems.length - k), CombiFound L ary.elems.length j := by
  have hrun := rbAryCombination_general ary num hk h2 hkn
  rw [combiLen_eq hkn ary.four_mul_length_le] at hrun
  have hchoose := choose_min hkn
  by_cases hfound : ∃ j < min k (ary.elems.length - k), CombiFound L ary.elems.length j
  · rw [if_pos hfound] at hrun
    rw [CombinationRight, hrun]
    exact iff_of_true rfl (Or.inr hfound)
  · rw [if_neg hfound] at hrun
    have hno : ∀ j < min k (ary.elems.length - k), ¬CombiFound L ary.elems.length j :=
      fun j hj h => hfound ⟨j, hj, h⟩
    obtain ⟨hle, hiff⟩ := combiVal_le (show 2 * min k (ary.elems.length - k) ≤ _ by omega) hno
    have hlen := length_ascending ary.elems.length k 0
    rw [Nat.sub_zero] at hlen
    rw [or_iff_left hfound, ← hiff]
    rw [hchoose] at hle ⊢
    generalize combiVal L ary.elems.length (min k (ary.elems.length - k)) = nlen at *
    have hturns : nlen.toNat ≤ (ascending ary.elems.length k 0).length := by omega
    have hyields := upto_combTurn (show 0 < k by omega) hkn hturns
    simp only [hyields] at hrun
    constructor
    · intro h
      rw [CombinationRight, hrun] at h
      obtain ⟨S, hS, hmap⟩ := h
      have hcount := congrArg List.length hmap
      rw [List.length_map, List.length_map, List.length_take_of_le hturns,
        hS.length_eq (combinations_enumerates ary num hk.symm), hlen] at hcount
      have hpos := Nat.choose_pos hkn
      omega
    · intro h
      refine combinationRight_of_yields ary num hk.symm ?_
      rw [hrun, List.take_of_length_le (by omega)]

/-- **The combinations are right exactly when no overflow is missed.** -/
theorem combinationRight_iff : CombinationRight ary num ↔ CombinationFits ary num := by
  by_cases hnone : num.val < 0 ∨ (ary.elems.length : ℤ) < num.val
  · refine iff_of_true ?_ fun h2 hle => by omega
    rw [CombinationRight, rbAryCombination, if_pos hnone]
    refine ⟨[], Enumerates.empty.congr fun s => ?_, rfl⟩
    rw [false_iff]
    intro h
    have hsub : s ⊆ List.range ary.elems.length := fun i hi => List.mem_range.mpr (h.2.2 i hi)
    have hnodup : s.Nodup := h.2.1.imp fun hlt => ne_of_lt hlt
    have hle := hnodup.length_le_of_subset hsub
    rw [List.length_range] at hle
    omega
  · obtain ⟨k, hk⟩ := Int.eq_ofNat_of_zero_le (show 0 ≤ num.val by omega)
    by_cases h0 : num.val = 0
    · refine iff_of_true ?_ fun h2 hle => by omega
      refine combinationRight_of_yields ary num hk.symm ?_
      obtain rfl : k = 0 := by omega
      rw [rbAryCombination, if_neg hnone, if_pos h0]
      rfl
    · by_cases h1 : num.val = 1
      · refine iff_of_true ?_ fun h2 hle => by omega
        refine combinationRight_of_yields ary num hk.symm ?_
        obtain rfl : k = 1 := by omega
        rw [rbAryCombination, if_neg hnone, if_neg h0, if_pos h1, upto_single, ascending_one]
        rfl
      · rw [combinationRight_general_iff ary num hk (by omega) (by omega), CombinationFits, hk,
          Int.toNat_natCast]
        constructor
        · intro h _ _
          exact h
        · intro h
          exact h (by omega) (by omega)

/-- The array of the numbers below 35. -/
def thirtyFive : RArray .ilp32 ℕ := ⟨List.range 35, by decide⟩

/-- Of the 417225900 combinations of 11 of 35 elements only 26774327 are yielded. -/
theorem not_combinationRight_thirtyFive :
    ¬CombinationRight thirtyFive ⟨11, by decide, by decide⟩ := by
  have hlen : thirtyFive.elems.length = 35 := by decide
  rw [combinationRight_general_iff thirtyFive _ (k := 11) rfl (by decide) (by decide), hlen,
    Nat.choose_eq_descFactorial_div_factorial]
  decide +kernel

end Result

end MacRuby
