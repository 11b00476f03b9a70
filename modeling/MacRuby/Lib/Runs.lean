import Mathlib.Data.List.SplitBy
import Mathlib.Tactic.Common

/-!
# Replacing runs

A list is cut into runs: the longest parts whose elements have a property, and, if runs are to be of
one element, are equal.  Every run is replaced, and the other elements stay.

## Main definitions

* `IsRun p same run` — a list that may be a run.
* `replaceRuns p same f s` — the list with a replacement for every run.
* `foldRuns p same g s k` — what is computed run by run.
* `actRuns p same act out s k` — both at once, with replacements that may fail.
* `collapse r s` — the list without the elements that are related to their next one.

## Main results

* `replaceRuns_run`, `foldRuns_run`, `actRuns_run` — the first run of a list.
* `run_induction` — a list is made of runs and of elements between them.
* `replaceRuns_eq_filter`, `replaceRuns_eq_map`, `replaceRuns_eq_collapse` — runs that are removed,
  mapped, or replaced by one element.
* `length_collapse_eq_iff` — when two relations leave as many elements.
-/

namespace Runs

universe u v w

variable {α : Type u} {κ : Type v} {ε : Type w}

/-- The list may be a run. -/
structure IsRun (p : α → Bool) (same : Bool) (run : List α) : Prop where
  ne_nil : run ≠ []
  all : ∀ a ∈ run, p a = true
  same : same = true → ∀ a ∈ run, ∀ b ∈ run, a = b

/-- The list without the elements that are related to their next one. -/
def collapse (r : α → α → Bool) : List α → List α
  | [] => []
  | [a] => [a]
  | a :: b :: s => if r a b then collapse r (b :: s) else a :: collapse r (b :: s)

section Extend

variable {p : α → Bool} {same : Bool} {a b : α} {run : List α}

theorem IsRun.singleton (ha : p a = true) : IsRun p same [a] := by
  refine ⟨by simp, by simpa using ha, fun _ => by simp⟩

/-- A run goes on with an element that joins its last one. -/
theorem IsRun.concat (h : IsRun p same run) (hb : p b = true)
    (hsame : same = true → ∃ a ∈ run, a = b) : IsRun p same (run ++ [b]) := by
  refine ⟨by simp, fun c hc => ?_, fun htrue => ?_⟩
  · obtain hc | hc := List.mem_append.mp hc
    · exact h.all c hc
    · rwa [List.mem_singleton.mp hc]
  · obtain ⟨a, ha, rfl⟩ := hsame htrue
    have hall : ∀ c ∈ run ++ [a], c = a := by
      intro c hc
      obtain hc | hc := List.mem_append.mp hc
      · exact h.same htrue c hc a ha
      · exact List.mem_singleton.mp hc
    intro c hc d hd
    rw [hall c hc, hall d hd]

end Extend

variable [DecidableEq α]

/-- Two neighbours are in one run. -/
def joins (p : α → Bool) (same : Bool) (a b : α) : Bool := p a && p b && (!same || a == b)

/-- The last element of a run and one after it are in no run together. -/
def Apart (p : α → Bool) (same : Bool) (run rest : List α) : Prop :=
  ∀ a ∈ run.getLast?, ∀ b ∈ rest.head?, joins p same a b = false

section Definitions

variable (p : α → Bool) (same : Bool)

/-- The list with a replacement for every run. -/
def replaceRuns (f : List α → List α) (s : List α) : List α :=
  (s.splitBy (joins p same)).flatMap fun run => if run.all p then f run else run

/-- What is computed run by run. -/
def foldRuns (g : List α → κ → κ) (s : List α) (k : κ) : κ :=
  (s.splitBy (joins p same)).foldl (fun k run => if run.all p then g run k else k) k

/-- The list behind another one, with a replacement for every run that depends on what has been
computed and may fail. -/
def actRuns (act : List α → κ → Except ε (List α × κ)) (out s : List α) (k : κ) :
    Except ε (List α × κ) :=
  (s.splitBy (joins p same)).foldlM (fun r run =>
    if run.all p then (fun r' => (r.1 ++ r'.1, r'.2)) <$> act run r.2 else .ok (r.1 ++ run, r.2))
    (out, k)

end Definitions

variable {p : α → Bool} {same : Bool} {f : List α → List α} {g : List α → κ → κ}
  {act : List α → κ → Except ε (List α × κ)} {a b : α} {run gap rest s out : List α} {k : κ}

@[simp] theorem replaceRuns_nil : replaceRuns p same f [] = [] := rfl

@[simp] theorem foldRuns_nil : foldRuns p same g [] k = k := rfl

@[simp] theorem actRuns_nil : actRuns p same act out [] k = .ok (out, k) := rfl

theorem IsRun.isChain (h : IsRun p same run) : run.IsChain fun a b => joins p same a b = true := by
  have hpair : run.Pairwise fun a b => joins p same a b = true := by
    refine List.pairwise_of_forall_mem_list fun a ha b hb => ?_
    cases same with
    | false => simp [joins, h.all a ha, h.all b hb]
    | true => simp [joins, h.all b hb, h.same rfl a ha b hb]
  exact hpair.isChain

theorem splitBy_run (h : IsRun p same run) (hapart : Apart p same run rest) :
    (run ++ rest).splitBy (joins p same) = run :: rest.splitBy (joins p same) := by
  rw [List.splitBy_append hapart, List.splitBy_of_isChain h.ne_nil h.isChain]
  rfl

/-- **The first run of a list** is replaced. -/
theorem replaceRuns_run (h : IsRun p same run) (hapart : Apart p same run rest) :
    replaceRuns p same f (run ++ rest) = f run ++ replaceRuns p same f rest := by
  have hall : run.all p = true := List.all_eq_true.mpr h.all
  rw [replaceRuns, splitBy_run h hapart, List.flatMap_cons, if_pos hall, replaceRuns]

/-- **The first run of a list** is computed with first. -/
theorem foldRuns_run (h : IsRun p same run) (hapart : Apart p same run rest) :
    foldRuns p same g (run ++ rest) k = foldRuns p same g rest (g run k) := by
  have hall : run.all p = true := List.all_eq_true.mpr h.all
  rw [foldRuns, splitBy_run h hapart, List.foldl_cons, if_pos hall, foldRuns]

/-- **The first run of a list** is acted on first. -/
theorem actRuns_run (h : IsRun p same run) (hapart : Apart p same run rest) :
    actRuns p same act out (run ++ rest) k =
      act run k >>= fun r => actRuns p same act (out ++ r.1) rest r.2 := by
  have hall : run.all p = true := List.all_eq_true.mpr h.all
  rw [actRuns, splitBy_run h hapart, List.foldlM_cons, if_pos hall]
  cases act run k <;> rfl

theorem splitBy_other (ha : p a = false) :
    (a :: rest).splitBy (joins p same) = [a] :: rest.splitBy (joins p same) := by
  have hsingle : [a].splitBy (joins p same) = [[a]] := rfl
  have happend : ([a] ++ rest).splitBy (joins p same) = _ :=
    List.splitBy_append (by simp [joins, ha])
  rw [hsingle] at happend
  exact happend

/-- An element that is in no run stays. -/
theorem replaceRuns_other (ha : p a = false) :
    replaceRuns p same f (a :: rest) = a :: replaceRuns p same f rest := by
  rw [replaceRuns, splitBy_other ha, List.flatMap_cons, if_neg (by simp [ha])]
  rfl

theorem foldRuns_other (ha : p a = false) :
    foldRuns p same g (a :: rest) k = foldRuns p same g rest k := by
  rw [foldRuns, splitBy_other ha, List.foldl_cons, if_neg (by simp [ha]), foldRuns]

theorem actRuns_other (ha : p a = false) :
    actRuns p same act out (a :: rest) k = actRuns p same act (out ++ [a]) rest k := by
  rw [actRuns, splitBy_other ha, List.foldlM_cons, if_neg (by simp [ha])]
  rfl

theorem actRuns_gap (hgap : ∀ a ∈ gap, p a = false) :
    actRuns p same act out (gap ++ rest) k = actRuns p same act (out ++ gap) rest k := by
  induction gap generalizing out with
  | nil => rw [List.nil_append, List.append_nil]
  | cons a gap ih =>
      rw [List.cons_append, actRuns_other (hgap a List.mem_cons_self),
        ih fun b hb => hgap b (List.mem_cons_of_mem a hb), List.append_assoc, List.singleton_append]

/-- A run begins at an element with the property. -/
theorem exists_run (same : Bool) (ha : p a = true) (s : List α) :
    ∃ run rest, a :: s = run ++ rest ∧ IsRun p same run ∧ Apart p same run rest := by
  induction s generalizing a with
  | nil => exact ⟨[a], [], rfl, .singleton ha, by simp [Apart]⟩
  | cons b s ih =>
      by_cases hjoin : joins p same a b = true
      · obtain ⟨⟨hpa, hpb⟩, hsame⟩ : (p a = true ∧ p b = true) ∧ (same = false ∨ a = b) := by
          simpa [joins] using hjoin
        obtain ⟨run, rest, heq, hrun, hapart⟩ := ih hpb
        obtain ⟨c, run, rfl⟩ := List.exists_cons_of_ne_nil hrun.ne_nil
        obtain ⟨rfl, -⟩ := List.cons.inj heq
        refine ⟨a :: b :: run, rest, by rw [heq]; rfl, ⟨by simp, ?_, ?_⟩, ?_⟩
        · simpa [hpa] using hrun.all
        · intro htrue
          obtain hfalse | rfl := hsame
          · simp [htrue] at hfalse
          · simpa using hrun.same htrue
        · simpa [Apart] using hapart
      · exact ⟨[a], b :: s, rfl, .singleton ha, by simpa [Apart] using hjoin⟩

/-- **A list is made of runs and of elements between them.** -/
theorem run_induction (p : α → Bool) (same : Bool) {P : List α → Prop} (nil : P [])
    (other : ∀ a rest, p a = false → P rest → P (a :: rest))
    (run : ∀ run rest, IsRun p same run → Apart p same run rest → P rest → P (run ++ rest))
    (s : List α) : P s := by
  induction hn : s.length using Nat.strong_induction_on generalizing s with
  | _ n ih =>
      cases s with
      | nil => exact nil
      | cons a s =>
          cases ha : p a with
          | false => exact other a s ha (ih _ (by simp [← hn]) s rfl)
          | true =>
              obtain ⟨r, rest, heq, hrun, hapart⟩ := exists_run same ha s
              have hlen := congrArg List.length heq
              have hpos := List.length_pos_of_ne_nil hrun.ne_nil
              rw [List.length_append] at hlen
              rw [heq]
              exact run r rest hrun hapart (ih _ (by omega) rest rfl)

/-- **Replacements that do not fail.** -/
theorem actRuns_ok (out s : List α) (k : κ) :
    actRuns p same (fun run k => (.ok (f run, g run k) : Except ε (List α × κ))) out s k =
      .ok (out ++ replaceRuns p same f s, foldRuns p same g s k) := by
  induction s using run_induction p same generalizing out k with
  | nil => simp
  | other a rest ha ih => rw [actRuns_other ha, ih, replaceRuns_other ha, foldRuns_other ha]; simp
  | run run rest hrun hapart ih =>
      rw [actRuns_run hrun hapart, replaceRuns_run hrun hapart, foldRuns_run hrun hapart]
      exact (ih _ _).trans (by rw [List.append_assoc])

/-- **Runs that are removed.** -/
theorem replaceRuns_eq_filter (s : List α) :
    replaceRuns p same (fun _ => []) s = s.filter fun a => !p a := by
  induction s using run_induction p same with
  | nil => rfl
  | other a rest ha ih => rw [replaceRuns_other ha, ih, List.filter_cons_of_pos (by simp [ha])]
  | run run rest hrun hapart ih =>
      have hnone : run.filter (fun a => !p a) = [] := by simpa using hrun.all
      rw [replaceRuns_run hrun hapart, ih, List.filter_append, hnone]

/-- **Runs that are mapped.** -/
theorem replaceRuns_eq_map (h : α → α) (s : List α) :
    replaceRuns p same (List.map h) s = s.map fun a => if p a then h a else a := by
  induction s using run_induction p same with
  | nil => rfl
  | other a rest ha ih => rw [replaceRuns_other ha, ih, List.map_cons, if_neg (by simp [ha])]
  | run run rest hrun hapart ih =>
      have hmap : run.map (fun a => if p a then h a else a) = run.map h :=
        List.map_congr_left fun a ha => if_pos (hrun.all a ha)
      rw [replaceRuns_run hrun hapart, ih, List.map_append, hmap]

end Runs

namespace Runs

universe u

variable {α : Type u} {r r' : α → α → Bool} {a b : α} {run rest s : List α}

@[simp] theorem collapse_nil : collapse r [] = [] := rfl

@[simp] theorem collapse_singleton : collapse r [a] = [a] := rfl

theorem collapse_cons_cons :
    collapse r (a :: b :: s) = if r a b then collapse r (b :: s) else a :: collapse r (b :: s) :=
  rfl

/-- An element stays that is not related to the next one. -/
theorem collapse_cons (h : ∀ b ∈ s.head?, r a b = false) :
    collapse r (a :: s) = a :: collapse r s := by
  cases s with
  | nil => rfl
  | cons b s => rw [collapse_cons_cons, if_neg (by simp [h b rfl])]

/-- Of related elements the last one stays. -/
theorem collapse_run (hrun : (run ++ [a]).IsChain fun a b => r a b = true)
    (h : ∀ b ∈ rest.head?, r a b = false) :
    collapse r (run ++ a :: rest) = a :: collapse r rest := by
  induction run with
  | nil => exact collapse_cons h
  | cons b run ih =>
      cases run with
      | nil =>
          have hba : r b a = true := by simpa using hrun
          rw [List.cons_append, List.nil_append, collapse_cons_cons, if_pos hba]
          exact collapse_cons h
      | cons c run =>
          have hrun' := List.isChain_cons_cons.mp hrun
          rw [List.cons_append, List.cons_append, collapse_cons_cons, if_pos hrun'.1]
          exact ih hrun'.2

theorem collapse_sublist (r : α → α → Bool) (s : List α) : (collapse r s).Sublist s := by
  induction s with
  | nil => exact .slnil
  | cons a s ih =>
      cases s with
      | nil => exact .refl _
      | cons b s =>
          rw [collapse_cons_cons]
          split_ifs
          · exact ih.cons a
          · exact ih.cons_cons a

/-- A list none of whose elements is related to the next one stays. -/
theorem collapse_eq_self (h : s.IsChain fun a b => r a b = false) : collapse r s = s := by
  induction s with
  | nil => rfl
  | cons a s ih =>
      cases s with
      | nil => rfl
      | cons b s =>
          rw [List.isChain_cons_cons] at h
          rw [collapse_cons_cons, if_neg (by simp [h.1]), ih h.2]

theorem length_collapse_le (h : ∀ a b, r a b = true → r' a b = true) (s : List α) :
    (collapse r' s).length ≤ (collapse r s).length := by
  induction s with
  | nil => exact le_rfl
  | cons a s ih =>
      cases s with
      | nil => exact le_rfl
      | cons b s =>
          rw [collapse_cons_cons, collapse_cons_cons]
          split_ifs with h' hr
          · exact ih
          · exact Nat.le_succ_of_le ih
          · rename_i hr
            exact absurd (h a b hr) h'
          · exact Nat.succ_le_succ ih

/-- **A greater relation leaves as many elements when it relates no other neighbours.** -/
theorem length_collapse_eq_iff (h : ∀ a b, r a b = true → r' a b = true) (s : List α) :
    (collapse r' s).length = (collapse r s).length ↔
      s.IsChain fun a b => r' a b = true → r a b = true := by
  induction s with
  | nil => simp
  | cons a s ih =>
      cases s with
      | nil => simp
      | cons b s =>
          have hle := length_collapse_le h (b :: s)
          rw [collapse_cons_cons, collapse_cons_cons, List.isChain_cons_cons, ← ih]
          by_cases hr' : r' a b = true
          · by_cases hr : r a b = true
            · simp [hr, hr']
            · simp [hr', hr]
              omega
          · have hr : r a b ≠ true := fun hr => hr' (h a b hr)
            simp [hr, hr']

theorem collapse_congr (h : s.IsChain fun a b => r a b = r' a b) :
    collapse r s = collapse r' s := by
  induction s with
  | nil => rfl
  | cons a s ih =>
      cases s with
      | nil => rfl
      | cons b s =>
          rw [List.isChain_cons_cons] at h
          rw [collapse_cons_cons, collapse_cons_cons, h.1, ih h.2]

/-- **Runs that are replaced by one element.** -/
theorem replaceRuns_eq_collapse [DecidableEq α] {p : α → Bool} {same : Bool}
    {f : List α → List α} (h : α → α)
    (hf : ∀ run a, IsRun p same (run ++ [a]) → f (run ++ [a]) = [h a]) (s : List α) :
    replaceRuns p same f s = (collapse (joins p same) s).map fun a => if p a then h a else a := by
  induction s using run_induction p same with
  | nil => rfl
  | other a rest ha ih =>
      rw [replaceRuns_other ha, ih, collapse_cons (by simp [joins, ha]), List.map_cons,
        if_neg (by simp [ha])]
  | run run rest hrun hapart ih =>
      obtain ⟨front, a, rfl⟩ := List.eq_nil_or_concat' run |>.resolve_left hrun.ne_nil
      have hlast : ∀ b ∈ rest.head?, joins p same a b = false := by simpa [Apart] using hapart
      have hcollapse : collapse (joins p same) (front ++ [a] ++ rest) =
          a :: collapse (joins p same) rest := by
        rw [List.append_assoc]
        exact collapse_run hrun.isChain hlast
      rw [replaceRuns_run hrun hapart, hf front a hrun, ih, hcollapse, List.map_cons,
        if_pos (hrun.all a (by simp))]
      rfl

end Runs
