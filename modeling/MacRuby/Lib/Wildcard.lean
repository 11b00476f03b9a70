import Mathlib.Data.List.Forall2
import Mathlib.Tactic.Common

/-!
# Patterns with gaps, and retrying the last gap only

A pattern is a list of items; each takes one element that it accepts, or, if it is a gap, any run
of elements that may be skipped. A matcher walks along the pattern and remembers one place to go
back to, the last gap with what stood after it. When it fails it lets that gap take one element
more. That the gaps before the last need no second try is `retry_gap`.

## Main definitions

* `Wildcard.Item` — one element, or a gap.
* `Wildcard.Matches skip ps xs` — the elements `xs` match the pattern `ps`.
* `Wildcard.Later` — they match when a nonempty run is skipped first.
* `Wildcard.Aligned` — the way from the place to go back to.

## Main results

* `Wildcard.retry_gap` — a match after a later start goes through the next gap all the same.
* `Wildcard.not_later_of_aligned` — there is no later start when the elements are used up.
-/

namespace Wildcard

universe u

/-- An item of a pattern. -/
inductive Item (α : Type u)
  | one (accepts : α → Prop)
  | gap

variable {α : Type u} {skip : α → Prop} {ps : List (Item α)} {xs : List α}

/-- The elements match the pattern. -/
inductive Matches (skip : α → Prop) : List (Item α) → List α → Prop
  | nil : Matches skip [] []
  | one {accepts ps x xs} : accepts x → Matches skip ps xs →
      Matches skip (.one accepts :: ps) (x :: xs)
  | gap {ps ys xs} : (∀ y ∈ ys, skip y) → Matches skip ps xs → Matches skip (.gap :: ps) (ys ++ xs)

@[simp] theorem matches_nil : Matches skip [] xs ↔ xs = [] := by
  constructor
  · intro h
    cases h
    rfl
  · rintro rfl
    exact .nil

theorem matches_one {accepts : α → Prop} :
    Matches skip (.one accepts :: ps) xs ↔ ∃ x ys, xs = x :: ys ∧ accepts x ∧
      Matches skip ps ys := by
  constructor
  · intro h
    cases h with
    | one ha hm => exact ⟨_, _, rfl, ha, hm⟩
  · rintro ⟨x, ys, rfl, ha, hm⟩
    exact .one ha hm

@[simp] theorem matches_one_cons {accepts : α → Prop} {x : α} :
    Matches skip (.one accepts :: ps) (x :: xs) ↔ accepts x ∧ Matches skip ps xs := by
  constructor
  · intro h
    cases h with
    | one ha hm => exact ⟨ha, hm⟩
  · rintro ⟨ha, hm⟩
    exact .one ha hm

@[simp] theorem not_matches_one_nil {accepts : α → Prop} :
    ¬ Matches skip (.one accepts :: ps) [] := by
  intro h
  cases h

theorem matches_gap :
    Matches skip (.gap :: ps) xs ↔ ∃ ys zs, xs = ys ++ zs ∧ (∀ y ∈ ys, skip y) ∧
      Matches skip ps zs := by
  constructor
  · intro h
    cases h with
    | gap hs hm => exact ⟨_, _, rfl, hs, hm⟩
  · rintro ⟨ys, zs, rfl, hs, hm⟩
    exact .gap hs hm

/-- A run may be put before what a gap matches. -/
theorem Matches.gap_append {ys : List α} (hs : ∀ y ∈ ys, skip y)
    (h : Matches skip (.gap :: ps) xs) :
    Matches skip (.gap :: ps) (ys ++ xs) := by
  obtain ⟨as, bs, rfl, ha, hm⟩ := matches_gap.mp h
  rw [← List.append_assoc]
  refine .gap ?_ hm
  intro y hy
  rcases List.mem_append.mp hy with hy | hy
  · exact hs y hy
  · exact ha y hy

/-- Two gaps are as good as one. -/
theorem matches_gap_gap : Matches skip (.gap :: .gap :: ps) xs ↔ Matches skip (.gap :: ps) xs := by
  constructor
  · intro h
    obtain ⟨ys, zs, rfl, hs, hm⟩ := matches_gap.mp h
    exact hm.gap_append hs
  · intro h
    exact matches_gap.mpr ⟨[], xs, rfl, by simp, h⟩

/-- Items of one element take as many elements. -/
theorem matches_map_one_append {qs : List (α → Prop)} :
    Matches skip (qs.map .one ++ ps) xs ↔
      ∃ ys zs, xs = ys ++ zs ∧ List.Forall₂ (fun q y => q y) qs ys ∧ Matches skip ps zs := by
  induction qs generalizing xs with
  | nil => simp
  | cons q qs ih =>
      rw [List.map_cons, List.cons_append, matches_one]
      constructor
      · rintro ⟨x, xs', rfl, hq, hm⟩
        obtain ⟨ys, zs, rfl, hqs, hm⟩ := ih.mp hm
        exact ⟨x :: ys, zs, rfl, .cons hq hqs, hm⟩
      · rintro ⟨ys, zs, rfl, hqs, hm⟩
        cases hqs with
        | cons hq hqs => exact ⟨_, _, rfl, hq, ih.mpr ⟨_, _, rfl, hqs, hm⟩⟩

/-- Two patterns in a row. -/
theorem matches_append {qs : List (Item α)} :
    Matches skip (ps ++ qs) xs ↔ ∃ ys zs, xs = ys ++ zs ∧ Matches skip ps ys ∧
      Matches skip qs zs := by
  induction ps generalizing xs with
  | nil => simp
  | cons p ps ih =>
      rw [List.cons_append]
      cases p with
      | one accepts =>
          rw [matches_one]
          constructor
          · rintro ⟨x, xs', rfl, hx, hm⟩
            obtain ⟨ys, zs, rfl, hps, hqs⟩ := ih.mp hm
            exact ⟨x :: ys, zs, rfl, .one hx hps, hqs⟩
          · rintro ⟨ys, zs, rfl, hps, hqs⟩
            obtain ⟨x, ys', rfl, hx, hm⟩ := matches_one.mp hps
            exact ⟨x, ys' ++ zs, rfl, hx, ih.mpr ⟨ys', zs, rfl, hm, hqs⟩⟩
      | gap =>
          rw [matches_gap]
          constructor
          · rintro ⟨as, xs', rfl, has, hm⟩
            obtain ⟨ys, zs, rfl, hps, hqs⟩ := ih.mp hm
            exact ⟨as ++ ys, zs, by simp, .gap has hps, hqs⟩
          · rintro ⟨ys, zs, rfl, hps, hqs⟩
            obtain ⟨as, ys', rfl, has, hm⟩ := matches_gap.mp hps
            exact ⟨as, ys' ++ zs, by simp, has, ih.mpr ⟨ys', zs, rfl, hm, hqs⟩⟩

/-! ## The place to go back to -/

/-- The elements match once a nonempty run of them is skipped. -/
def Later (skip : α → Prop) (ps : List (Item α)) (xs : List α) : Prop :=
  ∃ ys zs, xs = ys ++ zs ∧ ys ≠ [] ∧ (∀ y ∈ ys, skip y) ∧ Matches skip ps zs

/-- A gap takes nothing, or something. -/
theorem matches_gap_iff_later :
    Matches skip (.gap :: ps) xs ↔ Matches skip ps xs ∨ Later skip ps xs := by
  rw [matches_gap]
  constructor
  · rintro ⟨ys, zs, rfl, hs, hm⟩
    cases ys with
    | nil => exact .inl hm
    | cons y ys => exact .inr ⟨y :: ys, zs, rfl, by simp, hs, hm⟩
  · rintro (hm | ⟨ys, zs, rfl, -, hs, hm⟩)
    · exact ⟨[], xs, rfl, by simp, hm⟩
    · exact ⟨ys, zs, rfl, hs, hm⟩

@[simp] theorem not_later_nil : ¬ Later skip ps [] := by
  rintro ⟨ys, zs, h, hne, -⟩
  exact hne (List.append_eq_nil_iff.mp h.symm).1

/-- A later start skips the first element. -/
theorem later_cons {x : α} :
    Later skip ps (x :: xs) ↔ skip x ∧ (Matches skip ps xs ∨ Later skip ps xs) := by
  rw [← matches_gap_iff_later, matches_gap]
  constructor
  · rintro ⟨ys, zs, h, hne, hs, hm⟩
    cases ys with
    | nil => exact absurd rfl hne
    | cons y ys =>
        rw [List.cons_append, List.cons.injEq] at h
        obtain ⟨rfl, rfl⟩ := h
        exact ⟨hs _ (by simp), ys, zs, rfl, fun y hy => hs y (by simp [hy]), hm⟩
  · rintro ⟨hx, ys, zs, rfl, hs, hm⟩
    refine ⟨x :: ys, zs, rfl, by simp, ?_, hm⟩
    intro y hy
    rcases List.mem_cons.mp hy with rfl | hy
    · exact hx
    · exact hs y hy

/-- From the place `(bs, ys)` to go back to, items of one element lead to `(ps, xs)`. -/
def Aligned (bs : List (Item α)) (ys : List α) (ps : List (Item α)) (xs : List α) : Prop :=
  ∃ qs zs, bs = qs.map .one ++ ps ∧ ys = zs ++ xs ∧ List.Forall₂ (fun q z => q z) qs zs

theorem Aligned.refl (ps : List (Item α)) (xs : List α) : Aligned ps xs ps xs :=
  ⟨[], [], rfl, rfl, .nil⟩

theorem Aligned.one {bs : List (Item α)} {ys : List α} {accepts : α → Prop} {x : α}
    (h : Aligned bs ys (.one accepts :: ps) (x :: xs)) (hx : accepts x) : Aligned bs ys ps xs := by
  obtain ⟨qs, zs, rfl, rfl, hqs⟩ := h
  refine ⟨qs ++ [accepts], zs ++ [x], by simp, by simp, ?_⟩
  exact List.rel_append hqs (.cons hx .nil)

/-- The elements do not grow on the way. -/
theorem Aligned.length_le {bs : List (Item α)} {ys : List α} (h : Aligned bs ys ps xs) :
    xs.length ≤ ys.length := by
  obtain ⟨qs, zs, rfl, rfl, -⟩ := h
  simp

/-- Elements at one place are accepted by one item. -/
theorem exists_accepts {qs : List (α → Prop)} {as bs : List α} {i : ℕ} {a b : α}
    (has : List.Forall₂ (fun q a => q a) qs as) (hbs : List.Forall₂ (fun q b => q b) qs bs)
    (ha : as[i]? = some a) (hb : bs[i]? = some b) : ∃ q ∈ qs, q a ∧ q b := by
  induction has generalizing bs i with
  | nil => simp at ha
  | cons hq _ ih =>
      cases hbs with
      | cons hq' hbs =>
          cases i with
          | zero =>
              simp only [List.getElem?_cons_zero, Option.some.injEq] at ha hb
              exact ⟨_, by simp, ha ▸ hq, hb ▸ hq'⟩
          | succ i =>
              obtain ⟨q, hmem, h⟩ := ih hbs ha hb
              exact ⟨q, by simp [hmem], h⟩

/-- If an item tells whether the elements that it accepts may be skipped, then the elements that
were accepted after a skipped run may be skipped too: each has the item of an earlier one. -/
theorem skip_of_overlap {qs : List (α → Prop)} {ys as bs cs ds : List α}
    (hsame : ∀ q ∈ qs, ∀ a b, q a → q b → (skip a ↔ skip b)) (hys : ∀ y ∈ ys, skip y)
    (hne : ys ≠ []) (has : List.Forall₂ (fun q a => q a) qs as)
    (hbs : List.Forall₂ (fun q b => q b) qs bs) (h : as ++ cs = ys ++ (bs ++ ds)) :
    ∀ b ∈ ys ++ bs, skip b := by
  have hlen : as.length = bs.length := has.length_eq.symm.trans hbs.length_eq
  have hpos : 0 < ys.length := List.length_pos_of_ne_nil hne
  have hget : ∀ (i : ℕ) (b : α), (ys ++ bs)[i]? = some b → skip b := by
    intro i
    induction i using Nat.strongRecOn with
    | _ i ih =>
        intro b hb
        rcases Nat.lt_or_ge i ys.length with hlt | hge
        · rw [List.getElem?_append_left hlt] at hb
          exact hys b (List.mem_of_getElem? hb)
        · -- the element stands in `bs`, and its item accepted an earlier element, which is in `as`
          rw [List.getElem?_append_right hge] at hb
          have hj : i - ys.length < as.length := by
            rw [hlen]
            exact (List.getElem?_eq_some_iff.mp hb).1
          obtain ⟨a, ha⟩ : ∃ a, as[i - ys.length]? = some a := ⟨_, List.getElem?_eq_getElem hj⟩
          have ha' : (ys ++ bs)[i - ys.length]? = some a := by
            rw [← ha, ← List.getElem?_append_left (by rw [List.length_append]; omega),
              List.append_assoc, ← h, List.getElem?_append_left hj]
          obtain ⟨q, hq, hqa, hqb⟩ := exists_accepts has hbs ha hb
          exact (hsame q hq a b hqa hqb).mp (ih _ (by omega) a ha')
  intro b hb
  obtain ⟨i, hi⟩ := List.getElem?_of_mem hb
  exact hget i b hi

/-- **Only the last gap needs to be retried.** A match after a later start goes through the next
gap, and what it skipped before could as well be skipped there. -/
theorem retry_gap {bs : List (Item α)} {ys : List α} (hal : Aligned bs ys (.gap :: ps) xs)
    (hsame : ∀ q, .one q ∈ bs → ∀ a b, q a → q b → (skip a ↔ skip b)) (h : Later skip bs ys) :
    Matches skip (.gap :: ps) xs := by
  obtain ⟨qs, zs, rfl, rfl, hqs⟩ := hal
  obtain ⟨as, bs, hab, hne, has, hm⟩ := h
  obtain ⟨cs, ds, rfl, hcs, hm⟩ := matches_map_one_append.mp hm
  have hskip := skip_of_overlap (fun q hq => hsame q (by simp [hq])) has hne hqs hcs hab
  have hlen : zs.length = cs.length := hqs.length_eq.symm.trans hcs.length_eq
  -- what is left of the elements is a part of the run, and then the elements of the later match
  have hxs : xs = (as ++ cs).drop zs.length ++ ds := by
    have hle : zs.length ≤ (as ++ cs).length := by
      rw [List.length_append]
      omega
    rw [← List.drop_append_of_le_length hle, List.append_assoc, ← hab, List.drop_left]
  rw [hxs]
  exact hm.gap_append fun y hy => hskip y (List.mem_of_mem_drop hy)

/-- **There is no later start when the elements are used up** before the pattern. -/
theorem not_later_of_aligned {bs : List (Item α)} {ys : List α} (hal : Aligned bs ys ps []) :
    ¬ Later skip bs ys := by
  obtain ⟨qs, zs, rfl, rfl, hqs⟩ := hal
  rintro ⟨as, bs, hab, hne, -, hm⟩
  obtain ⟨cs, ds, rfl, hcs, -⟩ := matches_map_one_append.mp hm
  have hlen : zs.length = cs.length := hqs.length_eq.symm.trans hcs.length_eq
  have hpos : 0 < as.length := List.length_pos_of_ne_nil hne
  have := congrArg List.length hab
  simp only [List.length_append, List.length_nil] at this
  omega

end Wildcard
