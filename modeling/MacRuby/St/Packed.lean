import MacRuby.St.OrderedMap

/-!
# Packed entries

Small tables of numbers keep their pairs in the array of bins. The pairs are read off the array by
`packedPairs`, and each operation on the array is the operation on that list of pairs.

## Main definitions

* `IsPacked` — a table with packed entries that holds the given pairs.

## Main results

* `IsPacked.lookup`, `IsPacked.update`, `IsPacked.append`, `IsPacked.remove` — the operations.
* `foreachPacked_spec` — the loop of `st_foreach` walks over the pairs.
-/

namespace MacRuby

variable {D : Type} {cells : ℕ → D} {i n : ℕ}

/-! ## The array of pairs -/

theorem packedPairs_add (cells : ℕ → D) (i n : ℕ) :
    packedPairs cells (i + n) =
      packedPairs cells i ++ packedPairs (fun j => cells (i * 2 + j)) n := by
  rw [packedPairs, List.range_add, List.map_append, List.map_map, packedPairs, packedPairs]
  refine congrArg _ (List.map_congr_left fun j _ => ?_)
  simp only [Function.comp_apply, Nat.add_mul, Nat.add_assoc]

theorem packedPairs_succ (cells : ℕ → D) (n : ℕ) :
    packedPairs cells (n + 1) =
      (cells 0, cells 1) :: packedPairs (fun j => cells (j + 2)) n := by
  rw [Nat.add_comm, packedPairs_add]
  simp [packedPairs, List.range_succ, Nat.add_comm]

/-- The pairs, split at the pair of a number. -/
theorem packedPairs_split (cells : ℕ → D) (hi : i < n) :
    packedPairs cells n = packedPairs cells i ++ (cells (i * 2), cells (i * 2 + 1)) ::
      packedPairs (fun j => cells (i * 2 + (j + 2))) (n - 1 - i) := by
  have hn : n = i + (n - 1 - i + 1) := by omega
  conv_lhs => rw [hn, packedPairs_add, packedPairs_succ]
  rfl

theorem length_packedPairs (cells : ℕ → D) (n : ℕ) : (packedPairs cells n).length = n := by
  simp [packedPairs]

theorem packedPairs_congr {cells' : ℕ → D} (h : ∀ j < n * 2, cells' j = cells j) :
    packedPairs cells' n = packedPairs cells n := by
  refine List.map_congr_left fun j hj => ?_
  rw [List.mem_range] at hj
  rw [h (j * 2) (by omega), h (j * 2 + 1) (by omega)]

variable [DecidableEq D]

/-- The loop over packed entries finds the first pair with the key, and all pairs before it have
other keys. -/
theorem packedIndex_some {key : D} (h : packedIndex cells n key = some i) :
    i < n ∧ cells (i * 2) = key ∧ ∀ p ∈ packedPairs cells i, p.1 ≠ key := by
  rw [packedIndex, List.find?_range_eq_some] at h
  obtain ⟨hkey, hi, hbefore⟩ := h
  refine ⟨List.mem_range.mp hi, by simpa using hkey, ?_⟩
  intro p hp
  obtain ⟨j, hj, rfl⟩ := List.mem_map.mp hp
  simpa using hbefore j (List.mem_range.mp hj)

/-- Where the loop finds nothing, no pair has the key. -/
theorem packedIndex_none {key : D} (h : packedIndex cells n key = none) :
    ∀ p ∈ packedPairs cells n, p.1 ≠ key := by
  intro p hp
  obtain ⟨j, hj, rfl⟩ := List.mem_map.mp hp
  simpa using List.find?_eq_none.mp h j hj

/-! ## Tables -/

/-- On numbers the comparison is equality. -/
theorem StHashType.equal_eq_false {type : StHashType D} (hnum : type.isNumhash = true) {x y : D} :
    type.equal x y = false ↔ x ≠ y := by
  rw [← Bool.not_eq_true, not_iff_not, StHashType.equal, Bool.or_eq_true, decide_eq_true_eq]
  exact ⟨fun h => h.elim id (type.numhash x y hnum), Or.inl⟩

/-- The table has packed entries, which are the given pairs. -/
structure IsPacked (type : StHashType D) (t : StTable D) (cells : ℕ → D) (pairs : List (D × D)) :
    Prop where
  bins : t.bins = .packed cells
  numhash : type.isNumhash = true
  head : t.head = none
  pairs_eq : packedPairs cells t.numEntries = pairs
  distinct : pairs.Pairwise fun p q => type.equal p.1 q.1 = false
  small : t.numEntries ≤ maxPackedNumhash
  few : t.numBins / 2 ≤ maxPackedNumhash

namespace IsPacked

variable {type : StHashType D} {t : StTable D} {pairs pre post : List (D × D)} {p : D × D}

theorem length_eq (hp : IsPacked type t cells pairs) : t.numEntries = pairs.length := by
  rw [← hp.pairs_eq, length_packedPairs]

/-- The search for a key, and the pairs around what it finds. -/
theorem index_cases (hp : IsPacked type t cells pairs) (key : D) :
    (packedIndex cells t.numEntries key = none ∧ ∀ p ∈ pairs, type.equal p.1 key = false) ∨
    ∃ pre value post, pairs = pre ++ (key, value) :: post ∧
      packedIndex cells t.numEntries key = some pre.length ∧ cells (pre.length * 2 + 1) = value ∧
      ∀ p ∈ pre, type.equal p.1 key = false := by
  cases hindex : packedIndex cells t.numEntries key with
  | none =>
      refine .inl ⟨rfl, fun p hin => (StHashType.equal_eq_false hp.numhash).mpr ?_⟩
      exact packedIndex_none hindex p (hp.pairs_eq ▸ hin)
  | some i =>
      obtain ⟨hi, hkey, hbefore⟩ := packedIndex_some hindex
      have hsplit := packedPairs_split cells hi
      rw [hp.pairs_eq, hkey] at hsplit
      refine .inr ⟨packedPairs cells i, cells (i * 2 + 1), _, hsplit, ?_, ?_, ?_⟩
      · rw [length_packedPairs]
      · rw [length_packedPairs]
      · exact fun p hin => (StHashType.equal_eq_false hp.numhash).mpr (hbefore p hin)

/-- The parts of the array before, at and after a pair. -/
theorem split (hp : IsPacked type t cells (pre ++ p :: post)) :
    packedPairs cells pre.length = pre ∧
      (cells (pre.length * 2), cells (pre.length * 2 + 1)) = p ∧
      packedPairs (fun j => cells (pre.length * 2 + (j + 2))) post.length = post ∧
      t.numEntries = pre.length + 1 + post.length := by
  have hlen := hp.length_eq
  rw [List.length_append, List.length_cons] at hlen
  have hsplit := hp.pairs_eq
  have hpost : t.numEntries - 1 - pre.length = post.length := by omega
  rw [packedPairs_split cells (i := pre.length) (by omega), hpost] at hsplit
  obtain ⟨hpre, hrest⟩ := List.append_inj hsplit (length_packedPairs _ _)
  rw [List.cons.injEq] at hrest
  exact ⟨hpre, hrest.1, hrest.2, by omega⟩

/-- A new record for a key. -/
theorem update (hp : IsPacked type t cells (pre ++ p :: post)) (value : D) :
    IsPacked type
      { t with bins := .packed (Function.update cells (pre.length * 2 + 1) value) }
      (Function.update cells (pre.length * 2 + 1) value) (pre ++ (p.1, value) :: post) := by
  obtain ⟨hpre, hpair, hpost, hlen⟩ := hp.split
  refine ⟨rfl, hp.numhash, hp.head, ?_, ?_, hp.small, hp.few⟩
  · have hpost' : t.numEntries - 1 - pre.length = post.length := by omega
    rw [packedPairs_split _ (show pre.length < t.numEntries by omega), hpost']
    congr 1
    · conv_rhs => rw [← hpre]
      refine packedPairs_congr fun j hj => ?_
      rw [Function.update_of_ne (by omega)]
    · rw [Function.update_self, Function.update_of_ne (by omega), ← hpair]
      congr 1
      conv_rhs => rw [← hpost]
      refine packedPairs_congr fun j _ => ?_
      rw [Function.update_of_ne (by omega)]
  · have hkeys : ((pre ++ p :: post).map Prod.fst).Pairwise fun x y => type.equal x y = false :=
      List.pairwise_map.mpr hp.distinct
    have hkeys' : ((pre ++ (p.1, value) :: post).map Prod.fst).Pairwise
        fun x y => type.equal x y = false := by
      simpa using hkeys
    exact List.pairwise_map.mp hkeys'

/-- A new pair at the end. -/
theorem append (hp : IsPacked type t cells pairs) {key value : D}
    (hkey : ∀ p ∈ pairs, type.equal p.1 key = false) (hroom : t.hasRoom = true) :
    IsPacked type (packedAppend t cells key value)
      (Function.update (Function.update cells (t.numEntries * 2) key)
        (t.numEntries * 2 + 1) value) (pairs ++ [(key, value)]) := by
  simp only [StTable.hasRoom, Bool.and_eq_true, decide_eq_true_eq] at hroom
  refine ⟨rfl, hp.numhash, hp.head, ?_, ?_, hroom.2, hp.few⟩
  · rw [packedAppend, packedPairs_add]
    congr 1
    · conv_rhs => rw [← hp.pairs_eq]
      refine packedPairs_congr fun j hj => ?_
      rw [Function.update_of_ne (by omega), Function.update_of_ne (by omega)]
    · simp [packedPairs]
  · refine List.pairwise_append.mpr ⟨hp.distinct, List.pairwise_singleton _ _, ?_⟩
    intro p hin q hq
    obtain rfl := List.mem_singleton.mp hq
    exact hkey p hin

/-- A pair is moved over. -/
theorem remove (hp : IsPacked type t cells (pre ++ p :: post)) :
    ∃ cells', IsPacked type (packedRemove t cells pre.length) cells' (pre ++ post) := by
  obtain ⟨hpre, -, hpost, hlen⟩ := hp.split
  refine ⟨_, rfl, hp.numhash, hp.head, ?_, ?_, ?_, hp.few⟩
  · have hcount : (packedRemove t cells pre.length).numEntries = pre.length + post.length := by
      simp only [packedRemove]
      omega
    rw [hcount, packedPairs_add]
    congr 1
    · conv_rhs => rw [← hpre]
      refine packedPairs_congr fun j hj => ?_
      rw [if_neg (by omega)]
    · conv_rhs => rw [← hpost]
      refine packedPairs_congr fun j hj => ?_
      rw [if_pos (by omega)]
      rfl
  · exact hp.distinct.sublist ((List.sublist_cons_self p post).append_left pre)
  · exact Nat.le_trans (Nat.sub_le _ _) hp.small

end IsPacked

section Foreach

variable {type : StHashType D} {pre : List (D × D)}

/-- **The loop of `st_foreach` over packed entries walks over the pairs.** -/
theorem foreachPacked_spec (func : StCallback D) (visited : List (D × D)) {rest : List (D × D)}
    {t : StTable D} {fuel : ℕ} (hp : IsPacked type t cells (pre ++ rest))
    (hfuel : rest.length < fuel) :
    ∃ t' cells', foreachPacked func fuel pre.length visited t =
        .ok ((walk func visited rest).1, t') ∧ t'.numBins = t.numBins ∧
      IsPacked type t' cells' (pre ++ (walk func visited rest).2) := by
  induction rest generalizing pre visited t cells fuel with
  | nil =>
      obtain ⟨fuel, rfl⟩ : ∃ n, fuel = n + 1 := ⟨fuel - 1, by simp at hfuel; omega⟩
      have hend : ¬ pre.length < t.numEntries := by simp [hp.length_eq]
      refine ⟨t, cells, ?_, rfl, by simpa [walk] using hp⟩
      simp only [foreachPacked, hp.bins, if_neg hend, walk]
  | cons p rest ih =>
      obtain ⟨fuel, rfl⟩ : ∃ n, fuel = n + 1 := ⟨fuel - 1, by simp at hfuel; omega⟩
      have hfuel' : rest.length < fuel := by simpa using hfuel
      obtain ⟨-, hpair, -, hlen⟩ := hp.split
      have hlt : pre.length < t.numEntries := by omega
      simp only [foreachPacked, hp.bins, if_pos hlt, hpair]
      cases hf : func visited p with
      | «continue» =>
          have hp' : IsPacked type t cells (pre ++ [p] ++ rest) := by simpa using hp
          obtain ⟨t', cells', heq, hbins, hp''⟩ := ih (visited ++ [p]) hp' hfuel'
          rw [List.length_append, List.length_singleton] at heq
          rw [walk_continue hf]
          exact ⟨t', cells', heq, hbins, by simpa using hp''⟩
      | stop =>
          rw [walk_stop hf]
          exact ⟨t, cells, rfl, rfl, hp⟩
      | delete =>
          obtain ⟨cells₁, hp₁⟩ := hp.remove
          rw [walk_delete hf]
          exact ih (visited ++ [p]) hp₁ hfuel'

end Foreach

end MacRuby
