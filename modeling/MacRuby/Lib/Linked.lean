import Mathlib.Data.List.Chain

/-!
# Linked lists and rings in memory

The shapes that pointer programs build, as predicates on the functions that give the links of a
node: a list that ends with a null pointer, and a doubly linked ring. The nodes are named in the
order of the links, and what a program does to the links is stated as what it does to that list.

## Main definitions

* `Linked.Path next p xs` — from `p` the links `next` pass the nodes `xs` and end.
* `Linked.Ring fore back xs` — the nodes `xs` are linked both ways, the last one with the first.

## Main results

* `Linked.Path.unlink` — taking a node out of a list.
* `Linked.Ring.append`, `Linked.Ring.remove` — putting a node into a ring and taking one out.
* `Linked.Ring.rotate` — a ring starts anywhere.
* `Linked.Ring.fore_eq`, `Linked.Ring.back_eq` — the neighbours of a node.
-/

namespace Linked

universe u
variable {α : Type u}

/-! ## Lists -/

/-- From `p` the links pass the nodes of the list and end. -/
def Path (next : α → Option α) : Option α → List α → Prop
  | p, [] => p = none
  | p, x :: xs => p = some x ∧ Path next (next x) xs

section Path

variable {next next' : α → Option α} {p : Option α} {xs : List α}

theorem Path.congr (h : Path next p xs) (heq : ∀ x ∈ xs, next' x = next x) : Path next' p xs := by
  induction xs generalizing p with
  | nil => exact h
  | cons x xs ih =>
      refine ⟨h.1, ?_⟩
      rw [heq x List.mem_cons_self]
      exact ih h.2 fun y hy => heq y (List.mem_cons_of_mem _ hy)

/-- The links from the middle of a list. -/
theorem Path.suffix {pre post : List α} {x : α} (h : Path next p (pre ++ x :: post)) :
    Path next (next x) post := by
  induction pre generalizing p with
  | nil => exact h.2
  | cons y pre ih => exact ih h.2

/-- A list starts with its first node. -/
theorem Path.head_eq (h : Path next p xs) : p = xs.head? := by
  cases xs with
  | nil => exact h
  | cons x xs => exact h.1

/-- A node is taken out of a list by giving its link to the node before it. -/
theorem Path.unlink {pre post : List α} {x y : α} (h : Path next p (pre ++ y :: x :: post))
    (hnodup : (pre ++ y :: x :: post).Nodup) (hy : next' y = next x)
    (hother : ∀ z, z ≠ y → next' z = next z) : Path next' p (pre ++ y :: post) := by
  induction pre generalizing p with
  | nil =>
      refine ⟨h.1, ?_⟩
      rw [hy]
      refine h.2.2.congr fun z hz => hother z ?_
      rintro rfl
      simp [hz] at hnodup
  | cons w pre ih =>
      rw [List.cons_append, List.nodup_cons] at hnodup
      refine ⟨h.1, ?_⟩
      rw [hother w fun heq => hnodup.1 (by simp [heq])]
      exact ih h.2 hnodup.2

end Path

/-! ## Rings -/

/-- `x` is followed by `y`. -/
def Link (fore back : α → Option α) (x y : α) : Prop := fore x = some y ∧ back y = some x

/-- The nodes are linked both ways in their order, and the last with the first. -/
structure Ring (fore back : α → Option α) (xs : List α) : Prop where
  chain : xs.IsChain (Link fore back)
  close : ∀ z ∈ xs.getLast?, ∀ a ∈ xs.head?, Link fore back z a

section Ring

variable {fore back fore' back' : α → Option α} {xs ys : List α}

theorem Ring.nil : Ring fore back ([] : List α) := ⟨.nil, by simp⟩

/-- Links change only out of the last and into the first node of a chain. -/
theorem isChain_congr (hnodup : xs.Nodup) (h : xs.IsChain (Link fore back))
    (hfore : ∀ x ∈ xs, x ∉ xs.getLast? → fore' x = fore x)
    (hback : ∀ y ∈ xs, y ∉ xs.head? → back' y = back y) : xs.IsChain (Link fore' back') := by
  induction xs with
  | nil => exact .nil
  | cons x xs ih =>
      cases xs with
      | nil => exact .singleton x
      | cons y xs =>
          rw [List.isChain_cons_cons] at h ⊢
          have hx := (List.nodup_cons.mp hnodup).1
          have hlast : x ∉ (x :: y :: xs).getLast? := by
            intro hmem
            rw [List.getLast?_cons_cons] at hmem
            exact hx (List.mem_of_getLast? hmem)
          refine ⟨⟨?_, ?_⟩, ih (List.nodup_cons.mp hnodup).2 h.2 ?_ ?_⟩
          · rw [hfore x List.mem_cons_self hlast, h.1.1]
          · rw [hback y (by simp) (by simpa using fun heq => hx (by simp [heq])), h.1.2]
          · intro z hz hzl
            exact hfore z (List.mem_cons_of_mem _ hz) (by rwa [List.getLast?_cons_cons])
          · intro z hz hzh
            refine hback z (List.mem_cons_of_mem _ hz) ?_
            intro heq
            obtain rfl : x = z := by simpa using heq
            exact hx hz

theorem Ring.congr (h : Ring fore back xs) (hfore : ∀ x ∈ xs, fore' x = fore x)
    (hback : ∀ y ∈ xs, back' y = back y) : Ring fore' back' xs := by
  refine ⟨h.chain.imp_of_mem_imp ?_, ?_⟩
  · intro x y hx hy hlink
    exact ⟨by rw [hfore x hx, hlink.1], by rw [hback y hy, hlink.2]⟩
  · intro z hz a ha
    have hlink := h.close z hz a ha
    exact ⟨by rw [hfore z (List.mem_of_getLast? hz), hlink.1],
      by rw [hback a (List.mem_of_head? ha), hlink.2]⟩

/-- **A ring starts anywhere.** -/
theorem Ring.rotate (h : Ring fore back (xs ++ ys)) : Ring fore back (ys ++ xs) := by
  by_cases hxs : xs = []
  · subst hxs
    simpa using h
  by_cases hys : ys = []
  · subst hys
    simpa using h
  obtain ⟨hxs', hys', hmid⟩ := List.isChain_append.mp h.chain
  have hclose := h.close
  rw [List.getLast?_append_of_ne_nil _ hys, List.head?_append_of_ne_nil _ hxs] at hclose
  refine ⟨List.isChain_append.mpr ⟨hys', hxs', hclose⟩, ?_⟩
  rw [List.getLast?_append_of_ne_nil _ hxs, List.head?_append_of_ne_nil _ hys]
  exact hmid

/-- A chain is closed to a ring by linking its last node with its first. -/
theorem Ring.of_isChain {a z : α} (h : xs.IsChain (Link fore back)) (hnodup : xs.Nodup)
    (ha : xs.head? = some a) (hz : xs.getLast? = some z)
    (hfore : ∀ x, x ≠ z → fore' x = fore x) (hback : ∀ y, y ≠ a → back' y = back y)
    (hza : Link fore' back' z a) : Ring fore' back' xs := by
  constructor
  · apply isChain_congr hnodup h
    · intro x _ hlast
      exact hfore x fun heq => hlast (heq ▸ hz)
    · intro y _ hhead
      exact hback y fun heq => hhead (heq ▸ ha)
  · intro x hx y hy
    obtain rfl : z = x := Option.some.inj (hz.symm.trans hx)
    obtain rfl : a = y := Option.some.inj (ha.symm.trans hy)
    exact hza

/-- **A node put into a ring before its first one** comes last. -/
theorem Ring.append {a z e : α} (h : Ring fore back xs) (hnodup : xs.Nodup) (ha : xs.head? = some a)
    (hz : xs.getLast? = some z) (hfore : ∀ x ∈ xs, x ≠ z → fore' x = fore x)
    (hback : ∀ y ∈ xs, y ≠ a → back' y = back y) (hze : Link fore' back' z e)
    (hea : Link fore' back' e a) : Ring fore' back' (xs ++ [e]) := by
  have hne : xs ≠ [] := by
    rintro rfl
    cases ha
  constructor
  · refine List.isChain_append.mpr ⟨?_, .singleton e, ?_⟩
    · apply isChain_congr hnodup h.chain
      · intro x hx hlast
        exact hfore x hx fun heq => hlast (heq ▸ hz)
      · intro y hy hhead
        exact hback y hy fun heq => hhead (heq ▸ ha)
    · intro x hx y hy
      obtain rfl : z = x := Option.some.inj (hz.symm.trans hx)
      obtain rfl : e = y := by simpa using hy
      exact hze
  · intro x hx y hy
    obtain rfl : e = x := by simpa using hx
    rw [List.head?_append_of_ne_nil _ hne] at hy
    obtain rfl : a = y := Option.some.inj (ha.symm.trans hy)
    exact hea

/-- The first node is taken out of a ring by linking its neighbours. -/
theorem Ring.tail {c f b : α} (h : Ring fore back (c :: xs)) (hnodup : (c :: xs).Nodup)
    (hne : xs ≠ []) (hf : fore c = some f) (hb : back c = some b)
    (hfore : ∀ x ∈ xs, x ≠ b → fore' x = fore x) (hback : ∀ y ∈ xs, y ≠ f → back' y = back y)
    (hbf : Link fore' back' b f) : Ring fore' back' xs := by
  obtain ⟨y, ys, rfl⟩ := List.exists_cons_of_ne_nil hne
  have hchain := List.isChain_cons_cons.mp h.chain
  obtain rfl : f = y := Option.some.inj (hf.symm.trans hchain.1.1)
  obtain ⟨z, hz⟩ := Option.isSome_iff_exists.mp (List.getLast?_isSome.mpr hne)
  have hclose := h.close z (by simpa using hz) c rfl
  obtain rfl : b = z := Option.some.inj (hb.symm.trans hclose.2)
  constructor
  · apply isChain_congr (List.nodup_cons.mp hnodup).2 hchain.2
    · intro x hx hlast
      exact hfore x hx fun heq => hlast (heq ▸ hz)
    · intro x hx hhead
      exact hback x hx fun heq => hhead (by simp [heq])
  · intro x hx y hy
    obtain rfl : b = x := Option.some.inj (hz.symm.trans hx)
    obtain rfl : f = y := by simpa using hy
    exact hbf

/-- **A node is taken out of a ring** by linking its neighbours. -/
theorem Ring.remove {c f b : α} (h : Ring fore back (xs ++ c :: ys))
    (hnodup : (xs ++ c :: ys).Nodup)
    (hne : xs ++ ys ≠ []) (hf : fore c = some f) (hb : back c = some b)
    (hfore : ∀ x ∈ xs ++ ys, x ≠ b → fore' x = fore x)
    (hback : ∀ y ∈ xs ++ ys, y ≠ f → back' y = back y) (hbf : Link fore' back' b f) :
    Ring fore' back' (xs ++ ys) := by
  have hperm : (xs ++ c :: ys).Perm (c :: (ys ++ xs)) := List.perm_append_comm
  apply Ring.rotate
  apply Ring.tail (Ring.rotate h) (hperm.nodup_iff.mp hnodup) _ hf hb _ _ hbf
  · simpa [and_comm] using hne
  · intro x hx
    exact hfore x (by simpa [or_comm] using hx)
  · intro y hy
    exact hback y (by simpa [or_comm] using hy)

/-- What follows the first node of a ring. -/
theorem Ring.fore_eq {c : α} (h : Ring fore back (c :: xs)) : fore c = (xs ++ [c]).head? := by
  cases xs with
  | nil => exact (h.close c rfl c rfl).1
  | cons y ys => exact (List.isChain_cons_cons.mp h.chain).1.1

/-- What precedes the first node of a ring. -/
theorem Ring.back_eq {c : α} (h : Ring fore back (c :: xs)) : back c = (c :: xs).getLast? := by
  obtain ⟨z, hz⟩ := Option.isSome_iff_exists.mp
    (List.getLast?_isSome.mpr (List.cons_ne_nil c xs))
  rw [hz]
  exact (h.close z hz c rfl).2

end Ring

end Linked
