import MacRuby.St.Refines
import Mathlib.Data.UInt

/-!
# Runs of hash tables

The tables of one memory, each with entries of its own, against the list of ordered maps they
stand for. An operation on one table leaves the others alone, so a run on a table and the copies
made of it answers what the run on the maps answers.

## Main definitions

* `Represents` — the tables hold the pairs of the maps, in entries that no two of them share.
* `StAdmits` — the calls that a table can take: a key added directly is a new one, and a new key
  comes while there are fewer than `maxEntries` entries.

## Main results

* `Represents.step` — one operation keeps the tables those of the maps.
* `st_conforms` — every run on a new table and its copies conforms to the ordered maps.
-/

namespace MacRuby

variable {D : Type} [DecidableEq D]

/-! ## Tables and maps -/

/-- The tables hold the pairs of the maps, and the table of number `i` has the entries `own i`. -/
structure Represents (type : StHashType D) (ms : List (List (D × D))) (s : StState D)
    (own : ℕ → List ℕ) : Prop where
  length : ms.length = s.tables.length
  table : ∀ i t, s.tables[i]? = some t → ∃ m, ms[i]? = some m ∧ IsTable type s.heap t (own i) m
  disjoint : ∀ i j, i < s.tables.length → j < s.tables.length → i ≠ j → ∀ p ∈ own i, p ∉ own j

namespace Represents

variable {type : StHashType D} {ms : List (List (D × D))} {h h' : StHeap D}
  {tables : List (StTable D)} {own : ℕ → List ℕ} {own' : List ℕ} {t t' : StTable D}
  {m : List (D × D)}

/-- The entries of another table are not touched. -/
theorem frame (hr : Represents type ms ⟨h, tables⟩ own) {i j : ℕ} (hj : j < tables.length)
    (hout : ∀ p ∈ own j, p ∉ own i) (hc : Changes h h' (own i) own') :
    ∀ p ∈ own j, h'.mem p = h.mem p := by
  intro p hp
  obtain ⟨m, -, ht⟩ := hr.table j tables[j] (List.getElem?_eq_getElem hj)
  exact hc.frame p (hout p hp) (ht.alloc p hp)

/-- New entries are not those of another table. -/
theorem notMem (hr : Represents type ms ⟨h, tables⟩ own) {i j : ℕ} (hj : j < tables.length)
    (hout : ∀ p ∈ own j, p ∉ own i) (hc : Changes h h' (own i) own') :
    ∀ p ∈ own', p ∉ own j := by
  intro p hp hpj
  obtain ⟨m, -, ht⟩ := hr.table j tables[j] (List.getElem?_eq_getElem hj)
  rcases hc.fresh p hp with hin | hfree
  · exact hout p hpj hin
  · exact ht.alloc p hpj hfree

/-- One table changes. -/
theorem set (hr : Represents type ms ⟨h, tables⟩ own) {i : ℕ} (hi : i < tables.length)
    (ht : IsTable type h' t' own' m) (hc : Changes h h' (own i) own') :
    Represents type (ms.set i m) ⟨h', tables.set i t'⟩ (Function.update own i own') := by
  have hout : ∀ j, j < tables.length → j ≠ i → ∀ p ∈ own j, p ∉ own i := fun j hj hne =>
    hr.disjoint j i hj hi hne
  refine ⟨by simpa using hr.length, ?_, ?_⟩
  · intro j t hj
    by_cases hji : j = i
    · subst hji
      have hms : j < ms.length := hr.length ▸ hi
      obtain rfl : t' = t := by simpa [hi] using hj
      exact ⟨m, by simp [hms], by simpa using ht⟩
    · rw [List.getElem?_set_ne (Ne.symm hji)] at hj
      obtain ⟨hlt, -⟩ := List.getElem?_eq_some_iff.mp hj
      obtain ⟨m', hm', ht'⟩ := hr.table j t hj
      refine ⟨m', by rw [List.getElem?_set_ne (Ne.symm hji), hm'], ?_⟩
      rw [Function.update_of_ne hji]
      exact ht'.of_mem_eq (hr.frame hlt (hout j hlt hji) hc)
  · intro j k hj hk hjk p hp
    rw [List.length_set] at hj hk
    by_cases hji : j = i
    · subst hji
      rw [Function.update_self] at hp
      rw [Function.update_of_ne (Ne.symm hjk)]
      exact hr.notMem hk (hout k hk (Ne.symm hjk)) hc p hp
    · rw [Function.update_of_ne hji] at hp
      by_cases hki : k = i
      · subst hki
        rw [Function.update_self]
        exact fun hp' => hr.notMem hj (hout j hj hji) hc p hp' hp
      · rw [Function.update_of_ne hki]
        exact hr.disjoint j k hj hk hjk p hp

/-- One more table. -/
theorem push (hr : Represents type ms ⟨h, tables⟩ own) (ht : IsTable type h' t' own' m)
    (hc : Changes h h' [] own') :
    Represents type (ms ++ [m]) ⟨h', tables ++ [t']⟩
      (Function.update own tables.length own') := by
  have hkeep : ∀ j, j < tables.length → Function.update own tables.length own' j = own j :=
    fun j hj => Function.update_of_ne (by omega) _ _
  have hold : ∀ j (hj : j < tables.length), ∀ p ∈ own j, h.mem p ≠ none := by
    intro j hj
    obtain ⟨m, -, ht⟩ := hr.table j tables[j] (List.getElem?_eq_getElem hj)
    exact ht.alloc
  have hnew : ∀ j, j < tables.length → ∀ p ∈ own', p ∉ own j := by
    intro j hj p hp hpj
    exact (hc.fresh p hp).elim (by simp) (hold j hj p hpj)
  refine ⟨by simp [hr.length], ?_, ?_⟩
  · intro j t hj
    by_cases hlt : j < tables.length
    · rw [List.getElem?_append_left hlt] at hj
      obtain ⟨m', hm', ht'⟩ := hr.table j t hj
      refine ⟨m', by rw [List.getElem?_append_left (hr.length ▸ hlt), hm'], ?_⟩
      rw [hkeep j hlt]
      exact ht'.of_mem_eq fun p hp => hc.frame p (by simp) (hold j hlt p hp)
    · obtain ⟨hlen, -⟩ := List.getElem?_eq_some_iff.mp hj
      rw [List.length_append, List.length_singleton] at hlen
      obtain rfl : j = tables.length := by omega
      obtain rfl : t' = t := by simpa using hj
      exact ⟨m, by simp [← hr.length], by simpa using ht⟩
  · intro j k hj hk hjk p hp
    rw [List.length_append, List.length_singleton] at hj hk
    by_cases hjl : j = tables.length
    · subst hjl
      rw [Function.update_self] at hp
      rw [hkeep k (by omega)]
      exact hnew k (by omega) p hp
    · rw [hkeep j (by omega)] at hp
      by_cases hkl : k = tables.length
      · subst hkl
        rw [Function.update_self]
        exact fun hp' => hnew j (by omega) p hp' hp
      · rw [hkeep k (by omega)]
        exact hr.disjoint j k (show j < tables.length by omega) (show k < tables.length by omega)
          hjk
          p hp

end Represents

/-! ## Runs -/

/-- The calls of an operation that a table can take. -/
def StCalled (type : StHashType D) (h : StHeap D) (t : StTable D) : StOp D → Prop
  | .insert key _ => t.numEntries < maxEntries ∨ stLookup type h t key ≠ .ok none
  | .addDirect key _ => t.numEntries < maxEntries ∧ stLookup type h t key = .ok none
  | _ => True

instance StCalled.instDecidable (type : StHashType D) (h : StHeap D) (t : StTable D) :
    ∀ op, Decidable (StCalled type h t op)
  | .insert key _ => inferInstanceAs
      (Decidable (t.numEntries < maxEntries ∨ stLookup type h t key ≠ .ok none))
  | .addDirect key _ => inferInstanceAs
      (Decidable (t.numEntries < maxEntries ∧ stLookup type h t key = .ok none))
  | .delete _ | .lookup _ | .numEntries | .clear | .copy | .foreach _ =>
      inferInstanceAs (Decidable True)

/-- The calls that the tables can take. -/
def StAdmits (type : StHashType D) (s : StState D) (op : ℕ × StOp D) : Prop :=
  ∀ t ∈ s.tables[op.1]?, StCalled type s.heap t op.2

instance StAdmits.instDecidable (type : StHashType D) (s : StState D) (op : ℕ × StOp D) :
    Decidable (StAdmits type s op) :=
  inferInstanceAs (Decidable (∀ t ∈ s.tables[op.1]?, StCalled type s.heap t op.2))

variable [Zero D]

section Step

variable {type : StHashType D} {h : StHeap D} {t : StTable D} {own : List ℕ} {m : List (D × D)}

/-- **An operation other than a copy does on the table what it does on the map.** -/
theorem stOp_spec (ht : IsTable type h t own m) {op : StOp D} (hcall : StCalled type h t op)
    (hop : op ≠ .copy) :
    ∃ h' t' own', stOp type h t op = .ok ((mapOp type m op).1, h', t', []) ∧
      (mapOp type m op).2.2 = [] ∧ IsTable type h' t' own' (mapOp type m op).2.1 ∧
      Changes h h' own own' := by
  cases op with
  | insert key value =>
      have hmax : t.numEntries < maxEntries ∨ Assoc.lookup type.equal m key ≠ none := by
        refine hcall.imp_right fun hne hnone => hne ?_
        rw [stLookup_spec ht, hnone]
      obtain ⟨h', t', own', heq, ht', hc⟩ := stInsert_spec ht hmax value
      refine ⟨h', t', own', ?_, rfl, ht', hc⟩
      simp only [stOp, heq, Result.ok_bind]
      rfl
  | addDirect key value =>
      have hnone : Assoc.lookup type.equal m key = none := by
        have hfound := hcall.2
        rw [stLookup_spec ht] at hfound
        exact Except.ok.inj hfound
      obtain ⟨h', t', own', heq, ht', hc⟩ :=
        stAddDirect_spec ht hcall.1 (Assoc.absent_of_lookup hnone) value
      refine ⟨h', t', own', ?_, rfl, ht', hc⟩
      simp only [stOp, heq, Result.ok_bind]
      rfl
  | delete key =>
      obtain ⟨h', t', own', heq, ht', hc⟩ := stDelete_spec ht key
      simp only [stOp, heq, Result.ok_bind]
      cases hentry : Assoc.entry type.equal m key with
      | none =>
          rw [Assoc.remove_absent (Assoc.absent_of_entry hentry)] at ht'
          simp only [mapOp, hentry]
          exact ⟨h', t', own', rfl, trivial, ht', hc⟩
      | some p =>
          simp only [mapOp, hentry]
          exact ⟨h', t', own', rfl, trivial, ht', hc⟩
  | lookup key =>
      refine ⟨h, t, own, ?_, rfl, ht, .refl fun _ hp => hp⟩
      simp only [stOp, stLookup_spec ht, Result.ok_bind]
      rfl
  | numEntries =>
      refine ⟨h, t, own, ?_, rfl, ht, .refl fun _ hp => hp⟩
      simp only [stOp, ht.length_eq]
      rfl
  | clear =>
      obtain ⟨h', t', own', heq, ht', hc⟩ := stClear_spec ht
      refine ⟨h', t', own', ?_, rfl, ht', hc⟩
      simp only [stOp, heq, Result.ok_bind]
      rfl
  | copy => exact absurd rfl hop
  | «foreach» func =>
      obtain ⟨h', t', own', heq, ht', hc⟩ := stForeach_spec func ht
      refine ⟨h', t', own', ?_, rfl, ht', hc⟩
      simp only [stOp, heq, Result.ok_bind]
      rfl

/-- **One operation keeps the tables those of the maps.** -/
theorem Represents.step {ms : List (List (D × D))} {s : StState D} {own : ℕ → List ℕ}
    (hr : Represents type ms s own) {op : ℕ × StOp D} (hcall : StAdmits type s op) :
    (mapStep type ms op).1 = (stStep type s op).1 ∧
      ∃ own', Represents type (mapStep type ms op).2 (stStep type s op).2 own' := by
  obtain ⟨h, tables⟩ := s
  obtain ⟨i, op⟩ := op
  cases htable : tables[i]? with
  | none =>
      have hmap : ms[i]? = none := by
        rw [List.getElem?_eq_none_iff] at htable ⊢
        exact hr.length ▸ htable
      simp only [mapStep, hmap, stStep, htable]
      exact ⟨trivial, own, hr⟩
  | some t =>
      obtain ⟨hi, hget⟩ := List.getElem?_eq_some_iff.mp htable
      obtain ⟨m, hmap, ht⟩ := hr.table i t htable
      by_cases hop : op = .copy
      · subst hop
        obtain ⟨h', t', own', heq, ht', hc⟩ := stCopy_spec ht
        have hop : stOp type h t .copy = .ok (.void, h', t, [t']) := by
          simp only [stOp, heq, Result.ok_bind]
          rfl
        simp only [mapStep, hmap, mapOp, stStep, htable, hop]
        have hset : tables.set i t = tables := by rw [← hget, List.set_getElem_self]
        have hset' : ms.set i m = ms := by
          obtain ⟨hi', hget'⟩ := List.getElem?_eq_some_iff.mp hmap
          rw [← hget', List.set_getElem_self]
        rw [hset, hset']
        exact ⟨trivial, _, hr.push ht' hc⟩
      · obtain ⟨h', t', own', heq, hcopies, ht', hc⟩ := stOp_spec ht (hcall t htable) hop
        simp only [mapStep, hmap, stStep, htable, heq, hcopies, List.append_nil]
        exact ⟨trivial, _, hr.set hi ht' hc⟩

end Step

/-- A new table holds nothing. -/
theorem stInitTableWithSize_spec (type : StHashType D) (h : StHeap D) {size : ℤ}
    (hsize : size < 2 ^ 30) :
    ∃ t, stInitTableWithSize type size = .ok t ∧ IsTable type h t [] [] := by
  obtain ⟨n, hn, hprime⟩ := exists_newSize hsize
  by_cases hpacked : (type.isNumhash && n / 2 ≤ maxPackedNumhash) = true
  · have hnum : type.isNumhash = true := (Bool.and_eq_true _ _ ▸ hpacked).1
    have hfew : n / 2 ≤ maxPackedNumhash := of_decide_eq_true (Bool.and_eq_true _ _ ▸ hpacked).2
    have hp : IsPacked type ⟨n, 0, .packed fun _ => 0, none⟩ (fun _ => 0) [] :=
      ⟨rfl, hnum, rfl, rfl, .nil, Nat.zero_le _, hfew⟩
    refine ⟨_, ?_, .packed hp hprime⟩
    simp only [stInitTableWithSize, hn, if_pos hpacked]
  · have hh : IsHashed type h ⟨n, 0, .hashed fun _ => none, none⟩ [] :=
      ⟨⟨fun _ => none, rfl, fun _ => rfl⟩, ⟨.nil, .nil, by simp, .nil⟩, rfl, rfl, hprime⟩
    refine ⟨_, ?_, .hashed hh⟩
    simp only [stInitTableWithSize, hn, if_neg hpacked]

/-- **Every run of the operations on a new table and its copies conforms to the ordered maps**, for
every initial size below 2^30. -/
theorem st_conforms (type : StHashType D) (h : StHeap D) {size : ℤ} (hsize : size < 2 ^ 30) :
    ∃ t, stInitTableWithSize type size = .ok t ∧
      ∀ ops, Refinement.Throughout (stStep type) (StAdmits type) ⟨h, [t]⟩ ops →
        Refinement.Conforms (stStep type) (fun ms op ans ms' => mapStep type ms op = (ans, ms'))
          [[]] ⟨h, [t]⟩ ops := by
  obtain ⟨t, heq, ht⟩ := stInitTableWithSize_spec type h hsize
  refine ⟨t, heq, fun ops hops => ?_⟩
  refine Refinement.conforms_of_step (fun ms s => ∃ own, Represents type ms s own) ?_ ?_ hops
  · intro ms s op hrep hcall
    obtain ⟨own, hr⟩ := hrep
    obtain ⟨hans, hr'⟩ := hr.step hcall
    exact ⟨_, Prod.ext hans rfl, hr'⟩
  · refine ⟨fun _ => [], rfl, ?_, by simp⟩
    intro i t' hi
    cases i with
    | zero =>
        obtain rfl : t = t' := by simpa using hi
        exact ⟨[], rfl, ht⟩
    | succ i => simp at hi

/-- `type_numhash`. -/
def typeNumhash : StHashType UInt64 :=
  { isNumhash := true
    compare := fun x y => x = y
    hash := UInt64.toUInt32
    compare_symm := fun x y h => by simpa using (decide_eq_true_iff.mp h).symm
    compare_trans := fun x y z h h' => by
      simpa using (decide_eq_true_iff.mp h).trans (decide_eq_true_iff.mp h')
    hash_congr := fun x y h => by rw [decide_eq_true_iff.mp h]
    numhash := fun x y _ h => decide_eq_true_iff.mp h }

/-- No entry is allocated. -/
def emptyHeap : StHeap UInt64 := ⟨fun _ => none, 0, fun _ _ => rfl⟩

/-- Numbers inserted until they are unpacked, a copy, and deletions in it. -/
def sampleRun : List (ℕ × StOp UInt64) :=
  [(0, .insert 1 10), (0, .insert 2 20), (0, .insert 13 30), (0, .insert 4 40), (0, .insert 5 50),
    (0, .delete 2), (0, .insert 2 21), (0, .addDirect 24 60), (0, .copy), (1, .insert 13 31),
    (1, .foreach fun _ p => if p.1 = 1 ∨ p.1 = 2 then .delete else .continue), (1, .numEntries),
    (0, .foreach fun _ p => if p.1 = 5 then .stop else .continue), (0, .clear), (1, .lookup 13)]

theorem st_conforms_sampleRun :
    ∃ t, stInitTableWithSize typeNumhash 0 = .ok t ∧
      Refinement.Throughout (stStep typeNumhash) (StAdmits typeNumhash) ⟨emptyHeap, [t]⟩
        sampleRun ∧
      Refinement.Conforms (stStep typeNumhash)
        (fun ms op ans ms' => mapStep typeNumhash ms op = (ans, ms')) [[]] ⟨emptyHeap, [t]⟩
        sampleRun := by
  obtain ⟨t, heq, hconforms⟩ := st_conforms typeNumhash emptyHeap (show (0 : ℤ) < 2 ^ 30 by decide)
  obtain rfl : StTable.mk 11 0 (.packed fun _ => 0) none = t := Except.ok.inj heq
  have hops : Refinement.Throughout (stStep typeNumhash) (StAdmits typeNumhash)
      ⟨emptyHeap, [⟨11, 0, .packed fun _ => 0, none⟩]⟩ sampleRun := by
    decide +kernel
  exact ⟨_, heq, hops, hconforms sampleRun hops⟩

/-- With an initial size of 2^30 there is no table. -/
theorem not_exists_stInitTableWithSize :
    ¬ ∃ t, stInitTableWithSize typeNumhash (2 ^ 30) = .ok t := by
  intro h
  obtain ⟨t, ht⟩ := h
  have hnone : newSize (2 ^ 30) = none := by decide
  rw [stInitTableWithSize, hnone] at ht
  cases ht

/-- Three pairs of numbers. -/
def threePairs : List (UInt64 × UInt64) := [(1, 10), (2, 20), (3, 30)]

theorem distinct_threePairs :
    threePairs.Pairwise fun p q => typeNumhash.equal p.1 q.1 = false := by
  decide

/-- Three entries in memory. -/
def hashedThree : Except StFault (StHeap UInt64 × StTable UInt64) := do
  let t ← stInitTableWithSize typeNumhash 16
  insertAll typeNumhash threePairs emptyHeap t

theorem exists_hashedThree :
    ∃ h t own, hashedThree = .ok (h, t) ∧ IsTable typeNumhash h t own threePairs ∧
      t.entriesPacked = false := by
  have hempty : IsHashed typeNumhash emptyHeap ⟨37, 0, .hashed fun _ => none, none⟩ [] :=
    ⟨⟨_, rfl, fun _ => rfl⟩, ⟨.nil, .nil, by simp, .nil⟩, rfl, rfl, by decide⟩
  obtain ⟨h, t, cells, heq, hh, hpairs, -⟩ :=
    insertAll_spec hempty distinct_threePairs (by decide)
  obtain ⟨bins, hbins, -⟩ := hh.bins
  refine ⟨h, t, ptrs cells, heq, ?_, by rw [StTable.entriesPacked, hbins]⟩
  exact (show cells.map StCell.pair = threePairs from hpairs) ▸ .hashed hh

end MacRuby
