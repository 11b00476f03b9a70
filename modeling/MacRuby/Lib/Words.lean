import Mathlib.Data.List.DropRight
import Mathlib.Order.Nat

/-!
# Words between white space

The words of a list are its longest parts without white space.  Cutting a list at a space, which may
be any or only some of the white space, does not change its words.

## Main definitions

* `words ws s` — the words of a list.
* `fromWord ws k s` — what is left of a list from a word on.
* `trim ws s` — a list without white space at its ends.
* `cutFirst p n s` — the parts of a list before the first elements with `p`, at most `n` of them,
  and what is left.

## Main results

* `words_append_cons` — the words before a space and after it.
* `words_cutFirst`, `fromWord_cutFirst` — the words of the parts.
* `words_trim` — trimming keeps the words.
-/

namespace Words

universe u

variable {α : Type u} (ws : α → Bool)

/-- The words of a list. -/
def words (s : List α) : List (List α) := (s.splitOnP ws).filter fun w => !w.isEmpty

/-- A list without white space at its ends. -/
def trim (s : List α) : List α := (s.dropWhile ws).rdropWhile ws

/-- What is left of a list from the `k`-th word on. -/
def fromWord : ℕ → List α → List α
  | 0, s => s.dropWhile ws
  | k + 1, s => fromWord k ((s.dropWhile ws).dropWhile fun c => !ws c)

/-- The parts of a list before the first elements with a property, at most so many, and what is
left. -/
def cutFirst (p : α → Bool) : ℕ → List α → List (List α) × List α
  | 0, s => ([], s)
  | n + 1, s =>
      match s.dropWhile fun c => !p c with
      | [] => ([], s)
      | _ :: rest =>
          let r := cutFirst p n rest
          (s.takeWhile (fun c => !p c) :: r.1, r.2)

variable {ws} {s a b : List α} {c : α}

/-- What stands first when a list was dropped while a property holds. -/
theorem not_of_dropWhile_eq {p : α → Bool} {rest : List α} (h : s.dropWhile p = c :: rest) :
    p c = false := by
  have hhead := List.head?_dropWhile_not p s
  rw [h] at hhead
  simpa using hhead

/-! ## The words of a list -/

@[simp] theorem words_nil : words ws [] = [] := rfl

/-- **The words before a space and after it.** -/
theorem words_append_cons (hc : ws c = true) (a b : List α) :
    words ws (a ++ c :: b) = words ws a ++ words ws b := by
  unfold words
  rw [List.splitOnP_append_cons a b hc, List.filter_append]

theorem words_cons (hc : ws c = true) (b : List α) : words ws (c :: b) = words ws b :=
  words_append_cons hc [] b

theorem words_concat (hc : ws c = true) (a : List α) : words ws (a ++ [c]) = words ws a := by
  rw [words_append_cons hc, words_nil, List.append_nil]

/-- A list without white space is one word. -/
theorem words_of_forall (h : ∀ c ∈ s, ws c = false) :
    words ws s = if s = [] then [] else [s] := by
  unfold words
  rw [List.splitOnP_eq_singleton h]
  by_cases hs : s = [] <;> simp [hs]

/-- There is no white space in a part. -/
theorem not_of_mem_splitOnP (s : List α) : ∀ w ∈ s.splitOnP ws, ∀ c ∈ w, ws c = false := by
  induction s with
  | nil =>
      intro w hw c hc
      rw [List.splitOnP_nil, List.mem_singleton] at hw
      exact absurd (hw ▸ hc) List.not_mem_nil
  | cons d s ih =>
      rw [List.splitOnP_cons_eq_if_modifyHead]
      split
      · exact List.forall_mem_cons.mpr ⟨fun c hc => absurd hc List.not_mem_nil, ih⟩
      · rename_i hd
        obtain ⟨first, rest, heq⟩ := List.exists_cons_of_ne_nil (List.splitOnP_ne_nil ws s)
        rw [heq, List.modifyHead_cons]
        rw [heq] at ih
        obtain ⟨hfirst, hrest⟩ := List.forall_mem_cons.mp ih
        refine List.forall_mem_cons.mpr ⟨?_, hrest⟩
        exact List.forall_mem_cons.mpr ⟨Bool.eq_false_iff.mpr hd, hfirst⟩

/-- **A word is not empty and has no white space.** -/
theorem mem_words {w : List α} (h : w ∈ words ws s) : w ≠ [] ∧ ∀ c ∈ w, ws c = false := by
  obtain ⟨hmem, hne⟩ := List.mem_filter.mp h
  refine ⟨fun hnil => ?_, not_of_mem_splitOnP s w hmem⟩
  rw [hnil] at hne
  cases hne

theorem words_dropWhile (s : List α) : words ws (s.dropWhile ws) = words ws s := by
  induction s with
  | nil => rfl
  | cons c s ih =>
      rw [List.dropWhile_cons]
      split
      · rename_i hc
        rw [ih, words_cons hc]
      · rfl

theorem words_rdropWhile (s : List α) : words ws (s.rdropWhile ws) = words ws s := by
  induction s using List.reverseRecOn with
  | nil => rfl
  | append_singleton s c ih =>
      by_cases hc : ws c = true
      · rw [List.rdropWhile_concat_pos _ _ _ hc, ih, words_concat hc]
      · rw [List.rdropWhile_concat_neg _ _ _ hc]

/-- What is left after trimming was there before. -/
theorem mem_of_mem_trim (h : c ∈ trim ws s) : c ∈ s :=
  (List.dropWhile_suffix ws).subset ((List.rdropWhile_prefix ws _).subset h)

/-- **Trimming keeps the words.** -/
theorem words_trim (s : List α) : words ws (trim ws s) = words ws s := by
  unfold trim
  rw [words_rdropWhile, words_dropWhile]

/-- A list that starts with no white space has a word. -/
theorem words_ne_nil (hc : ws c = false) (s : List α) : words ws (c :: s) ≠ [] := by
  unfold words
  rw [List.splitOnP_cons_eq_if_modifyHead, if_neg (Bool.eq_false_iff.mp hc)]
  obtain ⟨first, rest, heq⟩ := List.exists_cons_of_ne_nil (List.splitOnP_ne_nil ws s)
  rw [heq, List.modifyHead_cons, List.filter_cons_of_pos rfl]
  exact List.cons_ne_nil _ _

/-- **The first word of a list that starts with no white space.** -/
theorem words_cons_of_not (hc : ws c = false) (s : List α) :
    words ws (c :: s) = (c :: s).takeWhile (fun c => !ws c) ::
      words ws ((c :: s).dropWhile fun c => !ws c) := by
  have hrun : ∀ d ∈ (c :: s).takeWhile fun c => !ws c, ws d = false := by
    intro d hd
    simpa using List.mem_takeWhile_imp hd
  have hne : (c :: s).takeWhile (fun c => !ws c) ≠ [] := by
    rw [List.takeWhile_cons_of_pos (by simp [hc])]
    exact List.cons_ne_nil _ _
  have hsplit := List.takeWhile_append_dropWhile (p := fun c => !ws c) (l := c :: s)
  cases hrest : (c :: s).dropWhile fun c => !ws c with
  | nil =>
      rw [hrest, List.append_nil] at hsplit
      rw [words_nil, hsplit, ← hsplit, words_of_forall (s := List.takeWhile _ _) hrun, if_neg hne]
  | cons d rest =>
      have hd : ws d = true := by
        have hnot := not_of_dropWhile_eq hrest
        simpa using hnot
      rw [hrest] at hsplit
      rw [words_cons hd]
      conv_lhs => rw [← hsplit]
      rw [words_append_cons hd, words_of_forall hrun, if_neg hne]
      rfl

/-! ## The rest from a word on -/

/-- White space at the start does not matter. -/
theorem fromWord_congr {s' : List α} (h : s.dropWhile ws = s'.dropWhile ws) (k : ℕ) :
    fromWord ws k s = fromWord ws k s' := by
  cases k with
  | zero => exact h
  | succ k =>
      unfold fromWord
      rw [h]

/-- **From a word on that comes after a space.** -/
theorem fromWord_append_cons (hc : ws c = true) (a b : List α) (k : ℕ) :
    fromWord ws ((words ws a).length + k) (a ++ c :: b) = fromWord ws k b := by
  induction hn : a.length using Nat.strong_induction_on generalizing a with
  | _ n ih =>
      rw [← words_dropWhile]
      cases ha : a.dropWhile ws with
      | nil =>
          rw [words_nil, List.length_nil, Nat.zero_add]
          refine fromWord_congr ?_ k
          rw [List.dropWhile_append, ha]
          exact List.dropWhile_cons_of_pos hc
      | cons d rest =>
          have hd := not_of_dropWhile_eq ha
          have hlen := (List.dropWhile_suffix ws (l := a)).length_le
          have hlen' := (List.dropWhile_suffix (fun c => !ws c) (l := rest)).length_le
          rw [ha, List.length_cons] at hlen
          have hrun : (d :: rest).dropWhile (fun c => !ws c) = rest.dropWhile fun c => !ws c :=
            List.dropWhile_cons_of_pos (by simp [hd])
          have hnext : ((a ++ c :: b).dropWhile ws).dropWhile (fun c => !ws c) =
              rest.dropWhile (fun c => !ws c) ++ c :: b := by
            rw [List.dropWhile_append, ha]
            simp only [List.isEmpty_cons, Bool.false_eq_true, if_false]
            rw [List.dropWhile_append, hrun]
            split
            · rename_i hnil
              rw [List.isEmpty_iff.mp hnil, List.dropWhile_cons_of_neg (by simp [hc])]
              rfl
            · rfl
          rw [words_cons_of_not hd, hrun, List.length_cons, Nat.add_right_comm, fromWord, hnext]
          exact ih _ (by omega) _ rfl

theorem words_fromWord (k : ℕ) (s : List α) :
    words ws (fromWord ws k s) = (words ws s).drop k := by
  induction k generalizing s with
  | zero => exact words_dropWhile s
  | succ k ih =>
      rw [fromWord, ih, ← words_dropWhile s]
      cases hs : s.dropWhile ws with
      | nil => rw [List.dropWhile_nil, words_nil, List.drop_nil, List.drop_nil]
      | cons c rest =>
          rw [words_cons_of_not (not_of_dropWhile_eq hs), List.drop_succ_cons]

theorem dropWhile_fromWord (k : ℕ) (s : List α) :
    (fromWord ws k s).dropWhile ws = fromWord ws k s := by
  induction k generalizing s with
  | zero => exact List.dropWhile_idempotent ..
  | succ k ih => exact ih _

/-- **The rest from a word on starts with this word.** -/
theorem fromWord_eq_cons {k : ℕ} (hk : k < (words ws s).length) :
    ∃ c rest, fromWord ws k s = c :: rest ∧ ws c = false := by
  cases hs : fromWord ws k s with
  | nil =>
      have hwords : words ws (fromWord ws k s) = (words ws s).drop k := words_fromWord k s
      rw [hs, words_nil, eq_comm, List.drop_eq_nil_iff] at hwords
      omega
  | cons c rest =>
      refine ⟨c, rest, rfl, ?_⟩
      have hdrop : (fromWord ws k s).dropWhile ws = fromWord ws k s := dropWhile_fromWord k s
      rw [hs] at hdrop
      by_contra hc
      rw [List.dropWhile_cons_of_pos (Bool.not_eq_false _ ▸ hc)] at hdrop
      have hlen := (List.dropWhile_suffix ws (l := rest)).length_le
      rw [hdrop, List.length_cons] at hlen
      omega

/-! ## Cutting a list at spaces -/

section Cutting

variable {p : α → Bool}

/-- A list is cut at its first element with the property. -/
theorem cutFirst_succ {rest : List α} (h : s.dropWhile (fun c => !p c) = c :: rest) (n : ℕ) :
    cutFirst p (n + 1) s =
      (s.takeWhile (fun c => !p c) :: (cutFirst p n rest).1, (cutFirst p n rest).2) := by
  rw [cutFirst, h]

/-- A list without such an element is not cut. -/
theorem cutFirst_nil (h : s.dropWhile (fun c => !p c) = []) (n : ℕ) :
    cutFirst p n s = ([], s) := by
  cases n with
  | zero => rfl
  | succ n => rw [cutFirst, h]

/-- Where a list is cut. -/
theorem split_first {rest : List α} (h : s.dropWhile (fun c => !p c) = c :: rest) :
    s = s.takeWhile (fun c => !p c) ++ c :: rest ∧ p c = true := by
  constructor
  · rw [← h, List.takeWhile_append_dropWhile]
  · have hnot := not_of_dropWhile_eq h
    simpa using hnot

theorem length_cutFirst_le (n : ℕ) (s : List α) : (cutFirst p n s).1.length ≤ n := by
  induction n generalizing s with
  | zero => exact le_rfl
  | succ n ih =>
      cases h : s.dropWhile fun c => !p c with
      | nil =>
          rw [cutFirst_nil h]
          exact Nat.zero_le _
      | cons c rest =>
          rw [cutFirst_succ h]
          exact Nat.succ_le_succ (ih rest)

/-- The parts do not have elements with the property. -/
theorem cutFirst_heads (n : ℕ) (s : List α) :
    ∀ head ∈ (cutFirst p n s).1, ∀ c ∈ head, p c = false := by
  induction n generalizing s with
  | zero => exact fun head hmem => absurd hmem List.not_mem_nil
  | succ n ih =>
      cases h : s.dropWhile fun c => !p c with
      | nil =>
          rw [cutFirst_nil h]
          exact fun head hmem => absurd hmem List.not_mem_nil
      | cons c rest =>
          rw [cutFirst_succ h]
          refine List.forall_mem_cons.mpr ⟨fun d hd => ?_, ih rest⟩
          simpa using List.mem_takeWhile_imp hd

/-- When the list is cut often enough, what is left has no element with the property. -/
theorem cutFirst_rest {n : ℕ} {s : List α} (hn : s.length ≤ n) :
    ∀ c ∈ (cutFirst p n s).2, p c = false := by
  induction n generalizing s with
  | zero =>
      rw [List.length_eq_zero_iff.mp (Nat.le_zero.mp hn)]
      exact fun c hc => absurd hc List.not_mem_nil
  | succ n ih =>
      cases h : s.dropWhile fun c => !p c with
      | nil =>
          rw [cutFirst_nil h]
          intro c hc
          simpa using List.dropWhile_eq_nil_iff.mp h c hc
      | cons c rest =>
          rw [cutFirst_succ h]
          obtain ⟨hsplit, -⟩ := split_first h
          have hlen := congrArg List.length hsplit
          rw [List.length_append, List.length_cons] at hlen
          exact ih (by omega)

variable (hp : ∀ c, p c = true → ws c = true)
include hp

/-- **The words of a list are those of its parts.** -/
theorem words_cutFirst (n : ℕ) (s : List α) :
    words ws s = (cutFirst p n s).1.flatMap (words ws) ++ words ws (cutFirst p n s).2 := by
  induction n generalizing s with
  | zero => rfl
  | succ n ih =>
      cases h : s.dropWhile fun c => !p c with
      | nil => rw [cutFirst_nil h, List.flatMap_nil, List.nil_append]
      | cons c rest =>
          obtain ⟨hsplit, hc⟩ := split_first h
          rw [cutFirst_succ h, List.flatMap_cons, List.append_assoc, ← ih rest,
            ← words_append_cons (hp c hc), ← hsplit]

/-- **The rest from a word on that comes after the parts.** -/
theorem fromWord_cutFirst (n k : ℕ) (s : List α) :
    fromWord ws (((cutFirst p n s).1.flatMap (words ws)).length + k) s =
      fromWord ws k (cutFirst p n s).2 := by
  induction n generalizing s with
  | zero => rw [cutFirst, List.flatMap_nil, List.length_nil, Nat.zero_add]
  | succ n ih =>
      cases h : s.dropWhile fun c => !p c with
      | nil => rw [cutFirst_nil h, List.flatMap_nil, List.length_nil, Nat.zero_add]
      | cons c rest =>
          obtain ⟨hsplit, hc⟩ := split_first h
          have hfirst := fromWord_append_cons (hp c hc) (s.takeWhile fun c => !p c) rest
            (((cutFirst p n rest).1.flatMap (words ws)).length + k)
          rw [← hsplit] at hfirst
          rw [cutFirst_succ h, List.flatMap_cons, List.length_append, Nat.add_assoc, ← ih rest]
          exact hfirst

end Cutting

end Words
