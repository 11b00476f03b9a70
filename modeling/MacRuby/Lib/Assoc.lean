import Mathlib.Data.List.Basic

/-!
# Association lists

A finite map as the list of its entries, in the order in which the keys were first stored. Keys
are compared by a test `eq` that need not be equality: a store under a key that is already there
keeps the key and its place and replaces the value.

## Main definitions

* `lookup`, `entry`, `store`, `remove` — the operations.

## Main results

* `lookup_store` — what a store changes for later lookups.
* `keys_store` — a store keeps the keys in their order.
* `lookup_split`, `store_split`, `entry_split`, `remove_split` — the operations on a list that is
  split at the entry found.
-/

namespace Assoc

variable {κ β : Type*} (eq : κ → κ → Bool)

/-- The value stored under `k`. -/
def lookup : List (κ × β) → κ → Option β
  | [], _ => none
  | p :: m, k => if eq p.1 k then some p.2 else lookup m k

attribute [grind =] lookup

/-- The entry under `k`. -/
def entry (m : List (κ × β)) (k : κ) : Option (κ × β) := m.find? fun p => eq p.1 k

/-- Store `v` under `k`: in place of the value there, or as a new last entry. -/
def store : List (κ × β) → κ → β → List (κ × β)
  | [], k, v => [(k, v)]
  | p :: m, k, v => if eq p.1 k then (p.1, v) :: m else p :: store m k v

attribute [grind =] store

/-- Remove the entry under `k`. -/
def remove (m : List (κ × β)) (k : κ) : List (κ × β) := m.eraseP fun p => eq p.1 k

/-- An entry after a store is an old one, or holds the new value. -/
theorem mem_store {m : List (κ × β)} {k : κ} {v : β} {p : κ × β} (h : p ∈ store eq m k v) :
    p ∈ m ∨ p.2 = v ∧ (p.1 = k ∨ eq p.1 k = true) := by
  induction m with
  | nil =>
      rw [store, List.mem_singleton] at h
      exact Or.inr (by simp [h])
  | cons q m ih =>
      by_cases hq : eq q.1 k = true
      · rw [store, if_pos hq, List.mem_cons] at h
        rcases h with h | h
        · exact Or.inr (by simp [h, hq])
        · exact Or.inl (List.mem_cons_of_mem _ h)
      · rw [store, if_neg hq, List.mem_cons] at h
        rcases h with h | h
        · exact Or.inl (by simp [h])
        · exact (ih h).imp_left (List.mem_cons_of_mem _)

/-- The key of an entry after a store is an old one, or the one that was stored. -/
theorem key_of_mem_store {m : List (κ × β)} {k : κ} {v : β} {p : κ × β} (h : p ∈ store eq m k v) :
    p.1 = k ∨ p.1 ∈ m.map Prod.fst := by
  induction m with
  | nil =>
      rw [store, List.mem_singleton] at h
      exact .inl (by rw [h])
  | cons q m ih =>
      by_cases hq : eq q.1 k = true
      · rw [store, if_pos hq, List.mem_cons] at h
        rcases h with h | h
        · exact .inr (by simp [h])
        · exact .inr (List.mem_cons_of_mem _ (List.mem_map_of_mem h))
      · rw [store, if_neg hq, List.mem_cons] at h
        rcases h with h | h
        · exact .inr (by simp [h])
        · exact (ih h).imp_right (List.mem_cons_of_mem _)

/-- **What a store changes for later lookups**, where the keys that match `v` are those that match
each other. -/
theorem lookup_store {m : List (κ × β)} {k v : κ} {x : β}
    (h : ∀ p ∈ m, eq k v = true → (eq p.1 k = true ↔ eq p.1 v = true))
    (h' : ∀ p ∈ m, eq k v = false → eq p.1 k = true → eq p.1 v = false) :
    lookup eq (store eq m k x) v = if eq k v then some x else lookup eq m v := by
  induction m with
  | nil => rfl
  | cons p m ih =>
      have ihm := ih (fun q hq => h q (List.mem_cons_of_mem _ hq))
        (fun q hq => h' q (List.mem_cons_of_mem _ hq))
      by_cases hp : eq p.1 k = true
      · rw [store, if_pos hp, lookup, lookup]
        by_cases hk : eq k v = true
        · rw [if_pos hk, if_pos ((h p List.mem_cons_self hk).mp hp)]
        · have hpv := h' p List.mem_cons_self (by simpa using hk) hp
          simp [hk, hpv]
      · rw [store, if_neg hp, lookup, lookup, ihm]
        by_cases hk : eq k v = true
        · have hpv : ¬ eq p.1 v = true := fun hpv => hp ((h p List.mem_cons_self hk).mpr hpv)
          rw [if_neg hpv, if_pos hk, if_pos hk]
        · simp [hk]

/-- **A store keeps the keys there, in their order.** -/
theorem keys_store (m : List (κ × β)) (k : κ) (v : β) :
    m.map Prod.fst <+: (store eq m k v).map Prod.fst := by
  induction m with
  | nil => exact List.nil_prefix
  | cons p m ih =>
      by_cases hp : eq p.1 k = true
      · rw [store, if_pos hp]
        exact List.prefix_rfl
      · rw [store, if_neg hp, List.map_cons, List.map_cons]
        exact (List.prefix_cons_inj p.1).mpr ih

section Absent

variable {eq} {m : List (κ × β)} {k : κ}

theorem lookup_absent (h : ∀ p ∈ m, eq p.1 k = false) : lookup eq m k = none := by
  induction m with
  | nil => rfl
  | cons p m ih =>
      rw [List.forall_mem_cons] at h
      rw [lookup, h.1, ih h.2]
      rfl

/-- What is not found is not there. -/
theorem absent_of_lookup (h : lookup eq m k = none) : ∀ p ∈ m, eq p.1 k = false := by
  induction m with
  | nil => simp
  | cons p m ih =>
      by_cases hp : eq p.1 k = true
      · simp [lookup, hp] at h
      · rw [lookup, if_neg hp] at h
        exact List.forall_mem_cons.mpr ⟨by simpa using hp, ih h⟩

theorem store_absent (h : ∀ p ∈ m, eq p.1 k = false) (v : β) : store eq m k v = m ++ [(k, v)] := by
  induction m with
  | nil => rfl
  | cons p m ih =>
      rw [List.forall_mem_cons] at h
      rw [store, h.1, ih h.2]
      rfl

theorem entry_absent (h : ∀ p ∈ m, eq p.1 k = false) : entry eq m k = none :=
  List.find?_eq_none.mpr fun p hp => by simp [h p hp]

/-- Where there is no entry, the key is not there. -/
theorem absent_of_entry (h : entry eq m k = none) : ∀ p ∈ m, eq p.1 k = false := fun p hp => by
  simpa using List.find?_eq_none.mp h p hp

theorem remove_absent (h : ∀ p ∈ m, eq p.1 k = false) : remove eq m k = m :=
  List.eraseP_of_forall_not fun p hp => by simp [h p hp]

end Absent

section Split

variable {eq} {pre post : List (κ × β)} {p : κ × β} {k : κ}

theorem lookup_split (hpre : ∀ q ∈ pre, eq q.1 k = false) (hp : eq p.1 k = true) :
    lookup eq (pre ++ p :: post) k = some p.2 := by
  induction pre with
  | nil => rw [List.nil_append, lookup, if_pos hp]
  | cons q pre ih =>
      rw [List.forall_mem_cons] at hpre
      rw [List.cons_append, lookup, hpre.1, ih hpre.2]
      rfl

/-- An entry of another key is passed by. -/
theorem lookup_skip (pre : List (κ × β)) {post : List (κ × β)} {p : κ × β} {k : κ}
    (hp : eq p.1 k = false) : lookup eq (pre ++ p :: post) k = lookup eq (pre ++ post) k := by
  induction pre with
  | nil =>
      rw [List.nil_append, lookup, hp]
      rfl
  | cons q pre ih => rw [List.cons_append, List.cons_append, lookup, lookup, ih]

theorem store_split (hpre : ∀ q ∈ pre, eq q.1 k = false) (hp : eq p.1 k = true) (v : β) :
    store eq (pre ++ p :: post) k v = pre ++ (p.1, v) :: post := by
  induction pre with
  | nil => rw [List.nil_append, store, if_pos hp, List.nil_append]
  | cons q pre ih =>
      rw [List.forall_mem_cons] at hpre
      rw [List.cons_append, store, hpre.1, ih hpre.2]
      rfl

theorem entry_split (hpre : ∀ q ∈ pre, eq q.1 k = false) (hp : eq p.1 k = true) :
    entry eq (pre ++ p :: post) k = some p := by
  rw [entry, List.find?_eq_some_iff_append]
  exact ⟨hp, pre, post, rfl, fun q hq => by simp [hpre q hq]⟩

theorem remove_split (hpre : ∀ q ∈ pre, eq q.1 k = false) (hp : eq p.1 k = true) :
    remove eq (pre ++ p :: post) k = pre ++ post := by
  rw [remove, List.eraseP_append_right _ fun q hq => by simp [hpre q hq]]
  simp [hp]

end Split

end Assoc
