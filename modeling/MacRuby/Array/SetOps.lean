import Mathlib.Data.Nat.Notation
import MacRuby.Array.Basic

/-!
# Arrays as sets

`Array#uniq!`, `delete` and `compact!` remove elements in place: each looks for the next element to
remove in a range that shrinks with every removal.  `|`, `&` and `-` look elements up in a
dictionary that is made from the arrays, and `|` and `&` take out of it what they have passed on.
All of them compare by one equality, `==` here, which the array search and the dictionary are
taken to respect.

## Main definitions

* `removeValues` — the loop that removes the elements equal to one.
* `rbAryUniqBang`, `rbAryDelete`, `rbAryCompactBang`, `rbAryOr`, `rbAryAnd`, `rbAryDiff` — the
  operations.
* `SetLaws` — what they should compute.

## Main results

* `setLaws` — they do.
-/

namespace MacRuby

section Code

variable {α : Type} [BEq α]

/-- `CFArrayGetFirstIndexOfValue`, in the range `(loc, len)`; -1 is none. -/
def cfArrayGetFirstIndexOfValue (ary : List α) (loc len : ℕ) (v : α) : Option ℕ :=
  (((ary.drop loc).take len).findIdx? (· == v)).map (loc + ·)

/-- The loop that removes what is equal to `v` in the range `(loc, len)` of an array of length `n`,
with the number `k` of elements that it has removed. -/
def removeValues (v : α) : ℕ → List α → (loc len n k : ℕ) → Option (List α × ℕ × ℕ)
  | 0, _, _, _, _, _ => none
  | fuel + 1, ary, loc, len, n, k =>
      match cfArrayGetFirstIndexOfValue ary loc len v with
      | none => some (ary, n, k)
      | some i => removeValues v fuel (cfArrayRemoveValueAtIndex ary i) i (n - 1 - i) (n - 1)
        (k + 1)

/-- `rb_ary_delete(ary, item)`: the value, where nil is none, and the array.  The block gives the
value when there is no such element. -/
def rbAryDelete (ary : List α) (item : α) (block : Option (α → α)) :
    Option (Option α × List α) := do
  let (ary, _, k) ← removeValues item (ary.length + 1) ary 0 ary.length ary.length 0
  return (if k = 0 then block.map (· item) else some item, ary)

/-- The loop of `rb_ary_uniq_bang`. -/
def uniqFrom : ℕ → List α → (i n : ℕ) → Bool → Option (List α × Bool)
  | 0, _, _, _, _ => none
  | fuel + 1, ary, i, n, changed =>
      if i < n then do
        let e ← ary[i]?
        let (ary, n, k) ← removeValues e (ary.length + 1) ary (i + 1) (n - i - 1) n 0
        uniqFrom fuel ary (i + 1) n (changed || 0 < k)
      else some (ary, changed)

/-- `rb_ary_uniq_bang`: the value, where nil is none, and the array. -/
def rbAryUniqBang (ary : List α) : Option (Option (List α) × List α) := do
  let (ary, changed) ← uniqFrom (ary.length + 1) ary 0 ary.length false
  return (if !changed then none else some ary, ary)

/-- `rb_ary_uniq`. -/
def rbAryUniq (ary : List α) : Option (List α) := (rbAryUniqBang ary).map Prod.snd

/-- `rb_ary_compact_bang`: the value, where nil is none, and the array. -/
def rbAryCompactBang (nil : α) (ary : List α) : Option (Option (List α) × List α) :=
  if ary.length = 0 then some (none, ary)
  else do
    let (ary, _, k) ← removeValues nil (ary.length + 1) ary 0 ary.length ary.length 0
    return (if k = 0 then none else some ary, ary)

/-- `rb_ary_compact`. -/
def rbAryCompact (nil : α) (ary : List α) : Option (List α) :=
  (rbAryCompactBang nil ary).map Prod.snd

/-- `CFDictionarySetValue`, on the keys of a dictionary. -/
def cfDictionarySetValue (keys : List α) (k : α) : List α :=
  if keys.contains k then keys else keys ++ [k]

/-- `CFDictionaryRemoveValue`. -/
def cfDictionaryRemoveValue (keys : List α) (k : α) : List α := keys.filter fun y => !(y == k)

/-- `ary_make_hash(ary1, ary2)`, where 0 is none. -/
def aryMakeHash (ary1 : List α) (ary2 : Option (List α)) : List α :=
  (ary2.getD []).foldl cfDictionarySetValue (ary1.foldl cfDictionarySetValue [])

/-- `rb_ary_diff`. -/
def rbAryDiff (ary1 ary2 : List α) : List α :=
  let hash := aryMakeHash ary2 none
  ary1.foldl (fun ary3 v => if hash.contains v then ary3 else ary3 ++ [v]) []

/-- One turn of the loops of `rb_ary_and` and `rb_ary_or`: an element whose key is in the dictionary
is passed on, and the key taken out. -/
def passOn (s : List α × List α) (v : α) : List α × List α :=
  if s.1.contains v then (cfDictionaryRemoveValue s.1 v, s.2 ++ [v]) else s

/-- `rb_ary_and`. -/
def rbAryAnd (ary1 ary2 : List α) : List α :=
  let hash := aryMakeHash ary2 none
  if hash.length = 0 then [] else (ary1.foldl passOn (hash, [])).2

/-- `rb_ary_or`. -/
def rbAryOr (ary1 ary2 : List α) : List α :=
  (ary2.foldl passOn (ary1.foldl passOn (aryMakeHash ary1 (some ary2), []))).2

end Code

/-! ## What the operations should compute -/

/-- The elements of `a` that are not equal to `x`. -/
def without {α : Type} [BEq α] (a : List α) (x : α) : List α := a.filter fun y => !(y == x)

/-- **The laws of the set operations** on arrays `a` and `b`, with an element `x` and nil. -/
structure SetLaws {α : Type} [BEq α] (nil : α) (a b : List α) (x : α) (block : Option (α → α)) :
    Prop where
  /-- The first occurrence of each element is kept. -/
  uniq : rbAryUniq a = some a.eraseDups
  uniqBang : rbAryUniqBang a =
    some (if a.eraseDups.length = a.length then none else some a.eraseDups, a.eraseDups)
  or : some (rbAryOr a b) = rbAryUniq (a ++ b)
  and : rbAryAnd a b = a.eraseDups.filter b.contains
  diff : rbAryDiff a b = a.filter fun y => !b.contains y
  delete : rbAryDelete a x block =
    some (if (without a x).length = a.length then block.map (· x) else some x, without a x)
  compact : rbAryCompact nil a = some (without a nil)
  compactBang : rbAryCompactBang nil a =
    some (if (without a nil).length = a.length then none else some (without a nil), without a nil)

/-! ## Removing in place -/

section Removing

variable {α : Type} [BEq α]

/-- The next element to remove, and the elements around it. -/
theorem firstIndex_cases (pre mid : List α) (v : α) :
    (cfArrayGetFirstIndexOfValue (pre ++ mid) pre.length mid.length v = none ∧
      without mid v = mid) ∨
    ∃ as x bs, mid = as ++ x :: bs ∧ (x == v) = true ∧ without as v = as ∧
      cfArrayGetFirstIndexOfValue (pre ++ mid) pre.length mid.length v =
        some (pre.length + as.length) := by
  have hrange : ((pre ++ mid).drop pre.length).take mid.length = mid := by
    rw [List.drop_left, List.take_length]
  have hall {as : List α} (h : ∀ y ∈ as, ¬ (y == v) = true) : without as v = as :=
    List.filter_eq_self.mpr fun y hy => by simpa using h y hy
  unfold cfArrayGetFirstIndexOfValue
  rw [hrange]
  cases hfind : mid.findIdx? (· == v) with
  | none =>
      left
      refine ⟨rfl, hall fun y hy => ?_⟩
      have hnone := List.findIdx?_eq_none_iff.mp hfind y hy
      simp [hnone]
  | some i =>
      right
      obtain ⟨hlt, hequal, hbefore⟩ := List.findIdx?_eq_some_iff_getElem.mp hfind
      refine ⟨mid.take i, mid[i], mid.drop (i + 1), ?_, hequal, hall fun y hy => ?_, ?_⟩
      · rw [← List.drop_eq_getElem_cons hlt, List.take_append_drop]
      · obtain ⟨j, hj, rfl⟩ := List.mem_iff_getElem.mp hy
        rw [List.length_take] at hj
        rw [List.getElem_take]
        exact hbefore j (by omega)
      · rw [List.length_take, min_eq_left hlt.le]
        rfl

/-- **The loop removes all elements of its range that are equal to the value, and counts them.** -/
theorem removeValues_spec (v : α) (fuel : ℕ) (pre mid : List α) (k : ℕ)
    (hfuel : mid.length < fuel) :
    removeValues v fuel (pre ++ mid) pre.length mid.length (pre ++ mid).length k =
      some (pre ++ without mid v, (pre ++ without mid v).length,
        k + (mid.length - (without mid v).length)) := by
  induction fuel generalizing pre mid k with
  | zero => omega
  | succ fuel ih =>
      rcases firstIndex_cases pre mid v with ⟨hnone, hkeep⟩ | ⟨as, x, bs, rfl, hx, has, hsome⟩
      · simp only [removeValues, hnone, hkeep, Nat.sub_self, Nat.add_zero]
      · have hremoved : cfArrayRemoveValueAtIndex (pre ++ (as ++ x :: bs))
          (pre.length + as.length) =
            (pre ++ as) ++ bs := by
          rw [cfArrayRemoveValueAtIndex, List.eraseIdx_append_of_length_le (by omega),
            Nat.add_sub_cancel_left, List.eraseIdx_append_of_length_le le_rfl, Nat.sub_self,
            List.eraseIdx_cons_zero, List.append_assoc]
        have hwithout : without (as ++ x :: bs) v = as ++ without bs v := by
          rw [without, List.filter_append, List.filter_cons_of_neg (by simp [hx]), ← without, has,
            ← without]
        have hle : (without bs v).length ≤ bs.length := List.length_filter_le _ _
        have hrec := ih (pre ++ as) bs (k + 1) (by
          rw [List.length_append, List.length_cons] at hfuel
          omega)
        rw [removeValues, hsome]
        simp only [hremoved]
        have hloc : pre.length + as.length = (pre ++ as).length := List.length_append.symm
        have hlen : (pre ++ (as ++ x :: bs)).length - 1 - (pre.length + as.length) = bs.length := by
          simp only [List.length_append, List.length_cons]
          omega
        have hcount : (pre ++ (as ++ x :: bs)).length - 1 = (pre ++ as ++ bs).length := by
          simp only [List.length_append, List.length_cons]
          omega
        rw [hlen, hcount, hloc, hrec, hwithout, List.append_assoc]
        congr 3
        simp only [List.length_append, List.length_cons]
        omega

/-- Erasing repetitions leaves no more elements than there were. -/
theorem length_eraseDups_le (xs : List α) : xs.eraseDups.length ≤ xs.length := by
  induction hn : xs.length using Nat.strong_induction_on generalizing xs with
  | _ n ih =>
      cases xs with
      | nil => simp
      | cons x xs =>
          have hle : (without xs x).length ≤ xs.length := List.length_filter_le _ _
          rw [List.length_cons] at hn
          have hrec := ih (without xs x).length (by omega) (without xs x) rfl
          rw [List.eraseDups_cons, List.length_cons]
          change (without xs x).eraseDups.length + 1 ≤ n
          omega

/-- **The loop of `uniq!` keeps the first occurrence of each element.** -/
theorem uniqFrom_spec {fuel : ℕ} (done rest : List α) (changed : Bool)
    (hfuel : rest.length < fuel) :
    uniqFrom fuel (done ++ rest) done.length (done ++ rest).length changed =
      some (done ++ rest.eraseDups, changed || decide (rest.eraseDups.length < rest.length)) := by
  induction fuel generalizing done rest changed with
  | zero => omega
  | succ fuel ih =>
      cases rest with
      | nil => simp [uniqFrom]
      | cons x xs =>
          have hlt : done.length < (done ++ x :: xs).length := by simp
          have hget : (done ++ x :: xs)[done.length]? = some x := by simp
          have hsplit : done ++ x :: xs = (done ++ [x]) ++ xs := by simp
          have hlen : (done ++ x :: xs).length - done.length - 1 = xs.length := by simp
          have hloc : done.length + 1 = (done ++ [x]).length := by simp
          have hremove := removeValues_spec x ((done ++ x :: xs).length + 1) (done ++ [x]) xs 0
            (by rw [hsplit, List.length_append]; omega)
          have hle : (without xs x).length ≤ xs.length := List.length_filter_le _ _
          have hdups := length_eraseDups_le (without xs x)
          have hrec := ih (done ++ [x]) (without xs x)
            (changed || decide (0 < 0 + (xs.length - (without xs x).length)))
            (by rw [List.length_cons] at hfuel; omega)
          rw [← hsplit] at hremove
          rw [uniqFrom, if_pos hlt, hget, hlen, hloc]
          simp only [Option.bind_eq_bind, Option.bind_some, hremove, hrec]
          have herase : (x :: xs).eraseDups = x :: (without xs x).eraseDups := List.eraseDups_cons
          have hflag : (0 < 0 + (xs.length - (without xs x).length) ∨
              (without xs x).eraseDups.length < (without xs x).length) ↔
                (x :: (without xs x).eraseDups).length < (x :: xs).length := by
            simp only [List.length_cons]
            omega
          rw [herase, List.append_assoc, List.singleton_append, Bool.or_assoc, ← Bool.decide_or,
            decide_eq_decide.mpr hflag]

/-- **`uniq!` keeps the first occurrence of each element.** -/
theorem rbAryUniqBang_eq (a : List α) : rbAryUniqBang a =
    some (if a.eraseDups.length = a.length then none else some a.eraseDups, a.eraseDups) := by
  have hspec := uniqFrom_spec [] a false (Nat.lt_succ_self a.length)
  have hle := length_eraseDups_le a
  rw [List.nil_append, List.nil_append, Bool.false_or] at hspec
  simp only [rbAryUniqBang, List.length_nil] at hspec ⊢
  rw [hspec]
  by_cases heq : a.eraseDups.length = a.length
  · simp [heq]
  · have hlt : a.eraseDups.length < a.length := by omega
    simp [heq, hlt]

/-- The loop over the whole array. -/
theorem removeValues_all (v : α) (a : List α) :
    removeValues v (a.length + 1) a 0 a.length a.length 0 =
      some (without a v, (without a v).length, a.length - (without a v).length) := by
  have hspec := removeValues_spec v (a.length + 1) [] a 0 (Nat.lt_succ_self _)
  simpa using hspec

/-- **`delete` removes the elements equal to the given one.** -/
theorem rbAryDelete_eq (a : List α) (x : α) (block : Option (α → α)) :
    rbAryDelete a x block =
      some (if (without a x).length = a.length then block.map (· x) else some x, without a x) := by
  have hle : (without a x).length ≤ a.length := List.length_filter_le _ _
  have hzero : a.length - (without a x).length = 0 ↔ (without a x).length = a.length := by omega
  unfold rbAryDelete
  rw [removeValues_all]
  simp only [Option.bind_eq_bind, Option.bind_some, hzero]
  rfl

/-- **`compact!` removes nil.** -/
theorem rbAryCompactBang_eq (nil : α) (a : List α) : rbAryCompactBang nil a =
    some (if (without a nil).length = a.length then none else some (without a nil),
      without a nil) := by
  unfold rbAryCompactBang
  by_cases hempty : a.length = 0
  · rw [List.length_eq_zero_iff] at hempty
    subst hempty
    rfl
  · have hle : (without a nil).length ≤ a.length := List.length_filter_le _ _
    have hzero : a.length - (without a nil).length = 0 ↔ (without a nil).length = a.length := by
      omega
    rw [if_neg hempty, removeValues_all]
    simp only [Option.bind_eq_bind, Option.bind_some, hzero]
    rfl

end Removing

/-! ## Looking up in a dictionary -/

section Dictionary

variable {α : Type} [BEq α] [EquivBEq α] {keys : List α} {k y : α}

theorem contains_setValue : (cfDictionarySetValue keys k).contains y =
    (keys.contains y || y == k) := by
  unfold cfDictionarySetValue
  by_cases hin : keys.contains k = true
  · rw [if_pos hin]
    cases hy : y == k with
    | false => rw [Bool.or_false]
    | true => rw [List.contains_congr hy, hin, Bool.true_or]
  · rw [if_neg hin, List.contains_append, List.contains_cons, List.contains_nil, Bool.or_false]

theorem contains_removeValue : (cfDictionaryRemoveValue keys k).contains y =
    (keys.contains y && !(y == k)) := by
  rw [Bool.eq_iff_iff, Bool.and_eq_true, List.contains_iff_exists_mem_beq,
    List.contains_iff_exists_mem_beq]
  constructor
  · intro h
    obtain ⟨z, hz, hyz⟩ := h
    obtain ⟨hz, hzk⟩ := List.mem_filter.mp hz
    refine ⟨⟨z, hz, hyz⟩, ?_⟩
    rw [BEq.congr_left hyz]
    exact hzk
  · intro h
    obtain ⟨⟨z, hz, hyz⟩, hyk⟩ := h
    refine ⟨z, List.mem_filter.mpr ⟨hz, ?_⟩, hyz⟩
    rw [← BEq.congr_left hyz]
    exact hyk

/-- The keys of the dictionary are the elements of the arrays. -/
theorem contains_foldl_setValue (xs : List α) :
    (xs.foldl cfDictionarySetValue keys).contains y = (keys.contains y || xs.contains y) := by
  induction xs generalizing keys with
  | nil => simp
  | cons x xs ih => rw [List.foldl_cons, ih, contains_setValue, List.contains_cons, Bool.or_assoc]

theorem contains_aryMakeHash (a : List α) (b : Option (List α)) :
    (aryMakeHash a b).contains y = (a.contains y || (b.getD []).contains y) := by
  rw [aryMakeHash, contains_foldl_setValue, contains_foldl_setValue, List.contains_nil,
    Bool.false_or]

/-- **The loops of `&` and `|` pass on the first occurrence of each element whose key is in the
dictionary.** -/
theorem foldl_passOn (xs out : List α) :
    (xs.foldl passOn (keys, out)).2 = out ++ (xs.filter keys.contains).eraseDups := by
  induction xs generalizing keys out with
  | nil => simp
  | cons x xs ih =>
      rw [List.foldl_cons, passOn]
      by_cases hin : keys.contains x = true
      · have hfilter : xs.filter (cfDictionaryRemoveValue keys x).contains =
            (xs.filter keys.contains).filter fun y => !(y == x) := by
          rw [List.filter_filter]
          refine List.filter_congr fun y _ => ?_
          rw [contains_removeValue, Bool.and_comm]
        rw [if_pos hin, ih, List.filter_cons_of_pos hin, List.eraseDups_cons, hfilter,
          List.append_assoc, List.singleton_append]
      · rw [if_neg hin, ih, List.filter_cons_of_neg hin]

omit [EquivBEq α] in
/-- The loop of `-` passes on the elements whose key is not in the dictionary. -/
theorem foldl_diff (xs out : List α) :
    xs.foldl (fun ary3 v => if keys.contains v then ary3 else ary3 ++ [v]) out =
      out ++ xs.filter fun y => !keys.contains y := by
  induction xs generalizing out with
  | nil => simp
  | cons x xs ih =>
      rw [List.foldl_cons, ih]
      by_cases hin : keys.contains x = true
      · rw [if_pos hin, List.filter_cons_of_neg (by simp only [hin, Bool.not_true]; decide)]
      · rw [if_neg hin, List.filter_cons_of_pos (by simpa using hin), List.append_assoc,
          List.singleton_append]

omit [EquivBEq α] in
/-- A property that equal elements share can be asked of the first occurrences. -/
theorem eraseDups_filter {p : α → Bool} (hp : ∀ x y, (x == y) = true → p x = p y) (xs : List α) :
    (xs.filter p).eraseDups = xs.eraseDups.filter p := by
  induction hn : xs.length using Nat.strong_induction_on generalizing xs with
  | _ n ih =>
      cases xs with
      | nil => rfl
      | cons x xs =>
          rw [List.length_cons] at hn
          have hle : (without xs x).length ≤ xs.length := List.length_filter_le _ _
          have hrec := ih (without xs x).length (by omega) (without xs x) rfl
          rw [List.eraseDups_cons]
          change _ = List.filter p (x :: (without xs x).eraseDups)
          by_cases hx : p x = true
          · rw [List.filter_cons_of_pos hx, List.filter_cons_of_pos hx, List.eraseDups_cons, ← hrec]
            congr 2
            rw [without, List.filter_filter, List.filter_filter]
            exact List.filter_congr fun y _ => Bool.and_comm _ _
          · rw [List.filter_cons_of_neg hx, List.filter_cons_of_neg hx, ← hrec]
            congr 1
            rw [without, List.filter_filter]
            refine List.filter_congr fun y _ => ?_
            cases hy : y == x with
            | false => simp
            | true => simpa [hp y x hy] using hx

end Dictionary

/-- **The set operations agree with their definitions on lists.** -/
theorem setLaws {α : Type} [BEq α] [EquivBEq α] (nil : α) (a b : List α) (x : α)
    (block : Option (α → α)) : SetLaws nil a b x block := by
  have huniq (l : List α) : rbAryUniq l = some l.eraseDups := by
    rw [rbAryUniq, rbAryUniqBang_eq]
    rfl
  have hkeys : (aryMakeHash b none).contains = b.contains := by
    funext y
    rw [contains_aryMakeHash]
    simp
  refine
    { uniq := huniq a
      uniqBang := rbAryUniqBang_eq a
      or := ?_
      and := ?_
      diff := ?_
      delete := rbAryDelete_eq a x block
      compact := by rw [rbAryCompact, rbAryCompactBang_eq]; rfl
      compactBang := rbAryCompactBang_eq nil a }
  · have hall : (a ++ b).filter (aryMakeHash a (some b)).contains = a ++ b := by
      rw [List.filter_eq_self]
      intro y hy
      rw [contains_aryMakeHash, Option.getD_some, ← List.contains_append]
      exact List.contains_iff_exists_mem_beq.mpr ⟨y, hy, BEq.rfl⟩
    rw [huniq, rbAryOr, ← List.foldl_append, foldl_passOn, hall, List.nil_append]
  · rw [← eraseDups_filter fun y z h => List.contains_congr h]
    unfold rbAryAnd
    by_cases hempty : (aryMakeHash b none).length = 0
    · rw [List.length_eq_zero_iff] at hempty
      have hnone : a.filter b.contains = [] := by
        rw [← hkeys, hempty]
        simp
      rw [if_pos (by rw [hempty]; rfl), hnone]
      rfl
    · rw [if_neg hempty, foldl_passOn, hkeys, List.nil_append]
  · rw [rbAryDiff, foldl_diff, hkeys, List.nil_append]

theorem setLaws_nat : SetLaws 0 [1, 2, 1, 3] [3, 1, 3] 1 none :=
  setLaws 0 [1, 2, 1, 3] [3, 1, 3] 1 none

end MacRuby
