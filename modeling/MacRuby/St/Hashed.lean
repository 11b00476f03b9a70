import Mathlib.Data.List.Nodup
import Mathlib.Data.List.Perm.Subperm
import MacRuby.Lib.Linked
import MacRuby.St.Table

/-!
# Tables whose entries are not packed

The memory of a table is described by the cells of its ring: where each entry is, its key and its
record. The links of the ring follow the cells, and the chain of a bin has the cells of that bin,
the newest first. Each loop over a chain or the ring is described by what it does to the cells.

## Main definitions

* `StHeap.next`, `StHeap.fore`, `StHeap.back`, `StHeap.datum` — memory, field by field.
* `StCell` — an entry and where it is.
* `IsRing`, `IsChains` — the ring and the chains of a table.

## Main results

* `findEntryFrom_spec`, `linkEntry_spec`, `rehashFrom_spec`, `unlinkFrom_spec`,
  `removeEntry_spec`, `freeChains_spec`, `copyFrom_spec` — one for each loop and procedure.
-/

namespace MacRuby

open Linked

variable {D : Type}

/-! ## Memory, field by field -/

namespace StHeap

/-- The `next` fields. -/
def next (h : StHeap D) (p : ℕ) : Option ℕ := (h.mem p).bind StEntry.next

/-- The `fore` fields. -/
def fore (h : StHeap D) (p : ℕ) : Option ℕ := (h.mem p).bind StEntry.fore

/-- The `back` fields. -/
def back (h : StHeap D) (p : ℕ) : Option ℕ := (h.mem p).bind StEntry.back

/-- What is stored in an entry. -/
def datum (h : StHeap D) (p : ℕ) : Option (UInt32 × D × D) :=
  (h.mem p).map fun e => (e.hash, e.key, e.record)

theorem exists_of_datum {h : StHeap D} {p : ℕ} {hash : UInt32} {key record : D}
    (hd : h.datum p = some (hash, key, record)) :
    ∃ e, h.mem p = some e ∧ e.hash = hash ∧ e.key = key ∧ e.record = record := by
  obtain ⟨e, he, heq⟩ := Option.map_eq_some_iff.mp hd
  simp only [Prod.mk.injEq] at heq
  exact ⟨e, he, heq⟩

variable {h h' : StHeap D} {p : ℕ} {e : StEntry D}

theorem load_eq (hp : h.mem p = some e) : h.load (some p) = .ok e := by
  simp [load, hp]

/-- The two memories differ at most at `p`. -/
structure SameBut (h h' : StHeap D) (p : ℕ) : Prop where
  mem : ∀ q ≠ p, h'.mem q = h.mem q
  brk : h'.brk = h.brk

/-- What an assignment to the entry at `p` does. -/
theorem store_eq (hp : h.mem p = some e) (e' : StEntry D) :
    ∃ h', h.store (some p) e' = .ok h' ∧ h'.mem = Function.update h.mem p (some e') ∧
      SameBut h h' p := by
  have hne : h.mem p ≠ none := by simp [hp]
  exact ⟨_, dif_neg hne, rfl, fun q hq => Function.update_of_ne hq _ _, rfl⟩

theorem free_eq (hp : h.mem p = some e) :
    ∃ h', h.free p = .ok h' ∧ h'.mem = Function.update h.mem p none ∧ SameBut h h' p := by
  have hne : h.mem p ≠ none := by simp [hp]
  exact ⟨_, if_neg hne, rfl, fun q hq => Function.update_of_ne hq _ _, rfl⟩

/-- What is freed is gone. -/
theorem mem_of_free (hf : h.free p = .ok h') : h'.mem = Function.update h.mem p none := by
  rw [free] at hf
  split at hf
  · cases hf
  · rw [← Except.ok.inj hf]

/-- Assigning `next`. -/
theorem store_next (hp : h.mem p = some e) (x : Option ℕ) :
    ∃ h', h.store (some p) { e with next := x } = .ok h' ∧ h'.next = Function.update h.next p x ∧
      h'.fore = h.fore ∧ h'.back = h.back ∧ h'.datum = h.datum ∧ SameBut h h' p := by
  obtain ⟨h', hs, hm, hb⟩ := store_eq hp { e with next := x }
  refine ⟨h', hs, ?_, ?_, ?_, ?_, hb⟩ <;> funext q <;> by_cases hq : q = p <;>
    simp [next, fore, back, datum, hm, hq, hp]

/-- Assigning `fore`. -/
theorem store_fore (hp : h.mem p = some e) (x : Option ℕ) :
    ∃ h', h.store (some p) { e with fore := x } = .ok h' ∧ h'.next = h.next ∧
      h'.fore = Function.update h.fore p x ∧ h'.back = h.back ∧ h'.datum = h.datum ∧
      SameBut h h' p := by
  obtain ⟨h', hs, hm, hb⟩ := store_eq hp { e with fore := x }
  refine ⟨h', hs, ?_, ?_, ?_, ?_, hb⟩ <;> funext q <;> by_cases hq : q = p <;>
    simp [next, fore, back, datum, hm, hq, hp]

/-- Assigning `back`. -/
theorem store_back (hp : h.mem p = some e) (x : Option ℕ) :
    ∃ h', h.store (some p) { e with back := x } = .ok h' ∧ h'.next = h.next ∧
      h'.fore = h.fore ∧ h'.back = Function.update h.back p x ∧ h'.datum = h.datum ∧
      SameBut h h' p := by
  obtain ⟨h', hs, hm, hb⟩ := store_eq hp { e with back := x }
  refine ⟨h', hs, ?_, ?_, ?_, ?_, hb⟩ <;> funext q <;> by_cases hq : q = p <;>
    simp [next, fore, back, datum, hm, hq, hp]

/-- Assigning `record`. -/
theorem store_record (hp : h.mem p = some e) (x : D) :
    ∃ h', h.store (some p) { e with record := x } = .ok h' ∧ h'.next = h.next ∧
      h'.fore = h.fore ∧ h'.back = h.back ∧
      h'.datum = Function.update h.datum p (some (e.hash, e.key, x)) ∧ SameBut h h' p := by
  obtain ⟨h', hs, hm, hb⟩ := store_eq hp { e with record := x }
  refine ⟨h', hs, ?_, ?_, ?_, ?_, hb⟩ <;> funext q <;> by_cases hq : q = p <;>
    simp [next, fore, back, datum, hm, hq, hp]

/-- A new entry. -/
theorem alloc_eq (h : StHeap D) (e : StEntry D) :
    (h.alloc e).next = Function.update h.next h.brk e.next ∧
      (h.alloc e).fore = Function.update h.fore h.brk e.fore ∧
      (h.alloc e).back = Function.update h.back h.brk e.back ∧
      (h.alloc e).datum = Function.update h.datum h.brk (some (e.hash, e.key, e.record)) := by
  refine ⟨?_, ?_, ?_, ?_⟩ <;> funext q <;> by_cases hq : q = h.brk <;>
    simp [next, fore, back, datum, alloc, hq]

theorem mem_alloc_of_ne (h : StHeap D) (e : StEntry D) {q : ℕ} (hq : q ≠ h.brk) :
    (h.alloc e).mem q = h.mem q := by
  simp [alloc, hq]

/-- An allocated entry is not the next one to be allocated. -/
theorem ne_brk_of_datum {v : UInt32 × D × D} (hp : h.datum p = some v) : p ≠ h.brk := by
  rintro rfl
  rw [datum, h.fresh _ le_rfl] at hp
  cases hp

end StHeap

/-! ## Cells -/

/-- An entry of the ring: where it is, its key and its record. -/
structure StCell (D : Type) where
  ptr : ℕ
  key : D
  record : D

/-- The pair in a cell. -/
def StCell.pair (c : StCell D) : D × D := (c.key, c.record)

/-- Where the cells are. -/
abbrev ptrs (cells : List (StCell D)) : List ℕ := cells.map StCell.ptr

/-- The cells of one bin. -/
def inBin (type : StHashType D) (numBins b : ℕ) (cells : List (StCell D)) : List (StCell D) :=
  cells.filter fun c => binPos (type.hash c.key) numBins = b

theorem inBin_append (type : StHashType D) (numBins b : ℕ) (cells cells' : List (StCell D)) :
    inBin type numBins b (cells ++ cells') =
      inBin type numBins b cells ++ inBin type numBins b cells' := by
  simp [inBin]

theorem inBin_singleton (type : StHashType D) (numBins b : ℕ) (c : StCell D) :
    inBin type numBins b [c] = if binPos (type.hash c.key) numBins = b then [c] else [] := by
  by_cases hb : binPos (type.hash c.key) numBins = b <;> simp [inBin, hb]

theorem mem_ptrs_of_mem_inBin {type : StHashType D} {numBins b p : ℕ} {cells : List (StCell D)}
    (hp : p ∈ ptrs (inBin type numBins b cells).reverse) : p ∈ ptrs cells := by
  obtain ⟨c, hc, rfl⟩ := List.mem_map.mp hp
  exact List.mem_map_of_mem (List.mem_of_mem_filter (List.mem_reverse.mp hc))

variable [DecidableEq D]

/-- The cells are in memory and linked to a ring, and no two keys are equal. -/
structure IsRing (type : StHashType D) (h : StHeap D) (cells : List (StCell D)) : Prop where
  nodup : (ptrs cells).Nodup
  distinct : cells.Pairwise fun c c' => type.equal c.key c'.key = false
  datum : ∀ c ∈ cells, h.datum c.ptr = some (type.hash c.key, c.key, c.record)
  ring : Ring h.fore h.back (ptrs cells)

/-- The chain of each bin has the cells of that bin, the newest first. -/
def IsChains (type : StHashType D) (h : StHeap D) (numBins : ℕ) (bins : ℕ → Option ℕ)
    (cells : List (StCell D)) : Prop :=
  ∀ b, Path h.next (bins b) (ptrs (inBin type numBins b cells).reverse)

theorem StHashType.equal_refl (type : StHashType D) (x : D) : type.equal x x = true := by
  simp [StHashType.equal]

theorem StHashType.equal_symm (type : StHashType D) {x y : D} (h : type.equal x y = true) :
    type.equal y x = true := by
  simp only [StHashType.equal, Bool.or_eq_true, decide_eq_true_eq] at h ⊢
  exact h.imp Eq.symm (type.compare_symm x y)

theorem StHashType.equal_comm (type : StHashType D) (x y : D) :
    type.equal x y = type.equal y x := by
  rw [Bool.eq_iff_iff]
  exact ⟨type.equal_symm, type.equal_symm⟩

theorem StHashType.equal_trans (type : StHashType D) {x y z : D} (h : type.equal x y = true)
    (h' : type.equal y z = true) : type.equal x z = true := by
  simp only [StHashType.equal, Bool.or_eq_true, decide_eq_true_eq] at h h' ⊢
  rcases h with rfl | h
  · exact h'
  · rcases h' with rfl | h'
    · exact .inr h
    · exact .inr (type.compare_trans x y z h h')

theorem StHashType.hash_eq (type : StHashType D) {x y : D} (h : type.equal x y = true) :
    type.hash x = type.hash y := by
  simp only [StHashType.equal, Bool.or_eq_true, decide_eq_true_eq] at h
  rcases h with rfl | h
  · rfl
  · exact type.hash_congr x y h

section Specs

variable {type : StHashType D} {h : StHeap D} {cells : List (StCell D)} {numBins : ℕ}
  {bins : ℕ → Option ℕ}

/-- A key is equal to that of at most one cell. -/
theorem eq_of_equal (hd : cells.Pairwise fun c c' => type.equal c.key c'.key = false) {key : D}
    {c c' : StCell D} (hc : c ∈ cells) (hc' : c' ∈ cells) (he : type.equal key c.key = true)
    (he' : type.equal key c'.key = true) : c = c' := by
  by_contra hne
  have hsymm : Std.Symm fun c c' : StCell D => type.equal c.key c'.key = false :=
    ⟨fun x y hxy => type.equal_comm x.key y.key ▸ hxy⟩
  have hfalse := hd.forall hc hc' hne
  rw [type.equal_trans (type.equal_symm he) he'] at hfalse
  cases hfalse

/-! ## Searching a chain -/

/-- `FIND_ENTRY` finds the first entry of the chain that has the hash value of the key and an equal
key. -/
theorem findEntryFrom_path {key : D} {chain : List (StCell D)} {p : Option ℕ} {fuel : ℕ}
    {hit : StCell D → Bool} (hpath : Path h.next p (ptrs chain))
    (hentry : ∀ c ∈ chain, ∃ e, h.mem c.ptr = some e ∧
      (hit c = true ↔ e.hash = type.hash key ∧ type.equal key e.key = true))
    (hfuel : chain.length < fuel) :
    findEntryFrom type h key (type.hash key) fuel p = .ok ((chain.find? hit).map StCell.ptr) := by
  induction chain generalizing p fuel with
  | nil =>
      obtain rfl : p = none := hpath
      obtain ⟨fuel, rfl⟩ : ∃ n, fuel = n + 1 := ⟨fuel - 1, by omega⟩
      rfl
  | cons c chain ih =>
      obtain ⟨rfl, hrest⟩ := hpath
      obtain ⟨fuel, rfl⟩ : ∃ n, fuel = n + 1 := ⟨fuel - 1, by omega⟩
      obtain ⟨e, he, hhit⟩ := hentry c List.mem_cons_self
      have hnext : h.next c.ptr = e.next := by simp [StHeap.next, he]
      rw [hnext] at hrest
      have hstep : findEntryFrom type h key (type.hash key) (fuel + 1) (some c.ptr) =
          if e.hash ≠ type.hash key ∨ type.equal key e.key = false then
            findEntryFrom type h key (type.hash key) fuel e.next
          else .ok (some c.ptr) := by
        rw [findEntryFrom, StHeap.load_eq he]
        rfl
      have hmiss : (e.hash ≠ type.hash key ∨ type.equal key e.key = false) ↔ hit c = false := by
        rw [← Bool.not_eq_true, ← Bool.not_eq_true, hhit, not_and_or]
      rw [hstep]
      simp only [hmiss]
      cases hequal : hit c with
      | false =>
          have hrec := ih hrest (fun c' hc' => hentry c' (List.mem_cons_of_mem _ hc'))
            (by simpa using hfuel)
          simpa [hequal] using hrec
      | true => simp [hequal]

/-- `FIND_ENTRY` finds the first entry of the chain with an equal key. -/
theorem findEntryFrom_chain {key : D} {chain : List (StCell D)} {p : Option ℕ} {fuel : ℕ}
    (hpath : Path h.next p (ptrs chain))
    (hdatum : ∀ c ∈ chain, h.datum c.ptr = some (type.hash c.key, c.key, c.record))
    (hfuel : chain.length < fuel) :
    findEntryFrom type h key (type.hash key) fuel p =
      .ok ((chain.find? fun c => type.equal key c.key).map StCell.ptr) := by
  refine findEntryFrom_path hpath ?_ hfuel
  intro c hc
  obtain ⟨e, he, hhash, hkey, -⟩ := StHeap.exists_of_datum (hdatum c hc)
  refine ⟨e, he, ?_⟩
  rw [hhash, hkey]
  exact ⟨fun hequal => ⟨(type.hash_eq hequal).symm, hequal⟩, fun hmatch => hmatch.2⟩

/-- The cell with an equal key is in the chain of the key's bin. -/
theorem find?_inBin (hd : cells.Pairwise fun c c' => type.equal c.key c'.key = false) (key : D) :
    ((inBin type numBins (binPos (type.hash key) numBins) cells).reverse.find?
      fun c => type.equal key c.key) = cells.find? fun c => type.equal key c.key := by
  cases hfind : cells.find? fun c => type.equal key c.key with
  | none =>
      rw [List.find?_eq_none] at hfind ⊢
      intro c hc
      exact hfind c (List.mem_of_mem_filter (List.mem_reverse.mp hc))
  | some c =>
      have hc := List.mem_of_find?_eq_some hfind
      have hequal : type.equal key c.key = true := by simpa using List.find?_some hfind
      have hbin : c ∈ (inBin type numBins (binPos (type.hash key) numBins) cells).reverse := by
        rw [List.mem_reverse, inBin, List.mem_filter]
        exact ⟨hc, by simp [type.hash_eq hequal]⟩
      cases hfind' : (inBin type numBins (binPos (type.hash key) numBins) cells).reverse.find?
          fun c => type.equal key c.key with
      | none => exact absurd hequal (List.find?_eq_none.mp hfind' c hbin)
      | some c' =>
          have hc' := List.mem_of_find?_eq_some hfind'
          rw [List.mem_reverse] at hc'
          exact congrArg some (eq_of_equal hd (List.mem_of_mem_filter hc') hc
            (by simpa using List.find?_some hfind') hequal)

/-- **`FIND_ENTRY` finds the entry with an equal key.** -/
theorem findEntryFrom_spec (hring : IsRing type h cells)
    (hchains : IsChains type h numBins bins cells) (key : D) {fuel : ℕ}
    (hfuel : cells.length < fuel) :
    findEntryFrom type h key (type.hash key) fuel (bins (binPos (type.hash key) numBins)) =
      .ok ((cells.find? fun c => type.equal key c.key).map StCell.ptr) := by
  rw [findEntryFrom_chain (hchains _), find?_inBin hring.distinct]
  · intro c hc
    exact hring.datum c (List.mem_of_mem_filter (List.mem_reverse.mp hc))
  · rw [List.length_reverse]
    exact (List.length_filter_le _ _).trans_lt hfuel

/-! ## A new entry -/

omit [DecidableEq D] in
/-- The chains with one more cell, put in front of its chain. -/
theorem IsChains.append {h' : StHeap D} (hchains : IsChains type h numBins bins cells)
    (c : StCell D) (hnew : h'.next c.ptr = bins (binPos (type.hash c.key) numBins))
    (hold : ∀ p ∈ ptrs cells, h'.next p = h.next p) :
    IsChains type h' numBins
      (Function.update bins (binPos (type.hash c.key) numBins) (some c.ptr)) (cells ++ [c]) := by
  intro b
  have hpath : Path h'.next (bins b) (ptrs (inBin type numBins b cells).reverse) :=
    (hchains b).congr fun p hp => hold p (mem_ptrs_of_mem_inBin hp)
  rw [inBin_append, inBin_singleton]
  by_cases hb : binPos (type.hash c.key) numBins = b
  · subst hb
    simpa [Linked.Path, hnew] using hpath
  · simpa [hb, Function.update_of_ne (Ne.symm hb)] using hpath

/-- Other entries are left alone. -/
def Frame (h h' : StHeap D) (own : List ℕ) : Prop :=
  ∀ p ∉ own, h.mem p ≠ none → h'.mem p = h.mem p

omit [DecidableEq D] in
/-- Other entries are left alone by one change after another, each to entries that were new or
already in question. -/
theorem Frame.trans {h h' h'' : StHeap D} {own own' : List ℕ} (hf : Frame h h' own)
    (hf' : Frame h' h'' own') (hown : ∀ p ∈ own', p ∈ own ∨ h.mem p = none) :
    Frame h h'' own := by
  intro p hp halloc
  have hmem := hf p hp halloc
  have hp' : p ∉ own' := fun hin => (hown p hin).elim hp halloc
  rw [hf' p hp' (hmem ▸ halloc), hmem]

omit [DecidableEq D] in
theorem Frame.of_sameBut {h' : StHeap D} {p : ℕ} {own : List ℕ} (hs : StHeap.SameBut h h' p)
    (hp : p ∈ own) : Frame h h' own :=
  fun q hq _ => hs.mem q fun heq => hq (heq ▸ hp)

theorem IsRing.ne_brk (hring : IsRing type h cells) {p : ℕ} (hp : p ∈ ptrs cells) : p ≠ h.brk := by
  obtain ⟨c, hc, rfl⟩ := List.mem_map.mp hp
  exact StHeap.ne_brk_of_datum (hring.datum c hc)

/-- The entry of a cell. -/
theorem IsRing.exists_entry (hring : IsRing type h cells) {p : ℕ} (hp : p ∈ ptrs cells) :
    ∃ e, h.mem p = some e := by
  obtain ⟨c, hc, rfl⟩ := List.mem_map.mp hp
  obtain ⟨e, he, -⟩ := StHeap.exists_of_datum (hring.datum c hc)
  exact ⟨e, he⟩

omit [DecidableEq D] in
/-- There are no more allocated entries than memory has been taken for. -/
theorem length_le_brk {ps : List ℕ} (hnodup : ps.Nodup) (halloc : ∀ p ∈ ps, h.mem p ≠ none) :
    ps.length ≤ h.brk := by
  have hsub : ps ⊆ List.range h.brk := by
    intro p hp
    rw [List.mem_range]
    by_contra hge
    exact halloc p hp (h.fresh p (not_lt.mp hge))
  have hle := (List.Nodup.subperm hnodup hsub).length_le
  rwa [List.length_range] at hle

theorem IsRing.length_le (hring : IsRing type h cells) : cells.length ≤ h.brk := by
  rw [← List.length_map StCell.ptr]
  refine length_le_brk hring.nodup fun p hp => ?_
  obtain ⟨e, he⟩ := hring.exists_entry hp
  simp [he]

/-- The ring with one more cell. -/
theorem IsRing.append {h' : StHeap D} (hring : IsRing type h cells) (c : StCell D)
    (hne : c.ptr ∉ ptrs cells) (hkey : ∀ c' ∈ cells, type.equal c.key c'.key = false)
    (hdatum : h'.datum = Function.update h.datum c.ptr (some (type.hash c.key, c.key, c.record)))
    (hlinks : Ring h'.fore h'.back (ptrs (cells ++ [c]))) : IsRing type h' (cells ++ [c]) := by
  refine ⟨?_, ?_, ?_, hlinks⟩
  · rw [ptrs, List.map_append]
    refine List.nodup_append.mpr ⟨hring.nodup, by simp, ?_⟩
    rintro p hp q hq rfl
    obtain rfl : p = c.ptr := by simpa using hq
    exact hne hp
  · refine List.pairwise_append.mpr ⟨hring.distinct, List.pairwise_singleton _ _, ?_⟩
    intro c' hc' c'' hc''
    obtain rfl := List.mem_singleton.mp hc''
    rw [type.equal_comm]
    exact hkey c' hc'
  · intro c' hc'
    rcases List.mem_append.mp hc' with hc' | hc'
    · have hne' : c'.ptr ≠ c.ptr := fun heq => hne (heq ▸ List.mem_map_of_mem hc')
      rw [hdatum, Function.update_of_ne hne', hring.datum c' hc']
    · obtain rfl := List.mem_singleton.mp hc'
      rw [hdatum, Function.update_self]

omit [DecidableEq D] in
/-- The first entry of an empty ring. -/
theorem linkEntry_nil {t : StTable D} (hhead : t.head = none) (bins : ℕ → Option ℕ) (key value : D)
    (hashVal : UInt32) :
    ∃ h', linkEntry h t bins key value hashVal = .ok (h',
        { t with
          bins := .hashed (Function.update bins (binPos hashVal t.numBins) (some h.brk))
          numEntries := t.numEntries + 1
          head := some h.brk }) ∧
      h'.next = Function.update h.next h.brk (bins (binPos hashVal t.numBins)) ∧
      h'.datum = Function.update h.datum h.brk (some (hashVal, key, value)) ∧
      Ring h'.fore h'.back [h.brk] ∧ Frame h h' [] := by
  obtain ⟨hnext, hfore, hback, hdatum⟩ := StHeap.alloc_eq h
    ⟨hashVal, key, value, bins (binPos hashVal t.numBins), some h.brk, some h.brk⟩
  refine ⟨_, by rw [linkEntry, hhead]; rfl, hnext, hdatum, ⟨.singleton _, ?_⟩, ?_⟩
  · intro z hz a ha
    obtain rfl : h.brk = z := by simpa using hz
    obtain rfl : h.brk = a := by simpa using ha
    simp [Link, hfore, hback]
  · intro p _ hp
    exact StHeap.mem_alloc_of_ne h _ fun heq => hp (heq ▸ h.fresh _ le_rfl)

/-- An entry put into a ring before its first one. -/
theorem linkEntry_cons {t : StTable D} {a : ℕ} (hring : IsRing type h cells)
    (ha : (ptrs cells).head? = some a) (hhead : t.head = some a) (bins : ℕ → Option ℕ)
    (key value : D) (hashVal : UInt32) :
    ∃ h', linkEntry h t bins key value hashVal = .ok (h',
        { t with
          bins := .hashed (Function.update bins (binPos hashVal t.numBins) (some h.brk))
          numEntries := t.numEntries + 1 }) ∧
      h'.next = Function.update h.next h.brk (bins (binPos hashVal t.numBins)) ∧
      h'.datum = Function.update h.datum h.brk (some (hashVal, key, value)) ∧
      Ring h'.fore h'.back (ptrs cells ++ [h.brk]) ∧ Frame h h' (ptrs cells) := by
  obtain ⟨rest, hps⟩ : ∃ rest, ptrs cells = a :: rest := by
    cases hps : ptrs cells with
    | nil => rw [hps] at ha; cases ha
    | cons b rest => rw [hps] at ha; exact ⟨rest, by rw [Option.some.inj ha]⟩
  obtain ⟨z, hz⟩ := Option.isSome_iff_exists.mp
    (List.getLast?_isSome.mpr (hps ▸ List.cons_ne_nil a rest))
  have hlinks : Ring h.fore h.back (a :: rest) := hps ▸ hring.ring
  have hback : h.back a = some z := by rw [hlinks.back_eq, ← hps, hz]
  have hamem := List.mem_of_head? ha
  have hzmem := List.mem_of_getLast? hz
  obtain ⟨ea, hea⟩ := hring.exists_entry hamem
  obtain ⟨ez, hez⟩ := hring.exists_entry hzmem
  have hab := hring.ne_brk hamem
  have hzb := hring.ne_brk hzmem
  have heback : ea.back = some z := by simpa [StHeap.back, hea] using hback
  obtain ⟨hnext₁, hfore₁, hback₁, hdatum₁⟩ := StHeap.alloc_eq h
    ⟨hashVal, key, value, bins (binPos hashVal t.numBins), some a, some z⟩
  have hez₁ := (StHeap.mem_alloc_of_ne h
    ⟨hashVal, key, value, bins (binPos hashVal t.numBins), some a, some z⟩ hzb).trans hez
  obtain ⟨h₂, hstore₂, hnext₂, hfore₂, hback₂, hdatum₂, hsame₂⟩ :=
    StHeap.store_fore hez₁ (some h.brk)
  obtain ⟨ea₂, hea₂⟩ : ∃ e, h₂.mem a = some e := by
    rw [← Option.isSome_iff_exists, ← Option.isSome_map, ← StHeap.datum, hdatum₂, hdatum₁,
      Function.update_of_ne hab]
    simp [StHeap.datum, hea]
  obtain ⟨h₃, hstore₃, hnext₃, hfore₃, hback₃, hdatum₃, hsame₃⟩ :=
    StHeap.store_back hea₂ (some h.brk)
  refine ⟨h₃, ?_, by rw [hnext₃, hnext₂, hnext₁], by rw [hdatum₃, hdatum₂, hdatum₁], ?_, ?_⟩
  · rw [linkEntry, hhead]
    simp only [StHeap.load_eq hea, Result.ok_bind, heback, StHeap.load_eq hez₁, hstore₂,
      StHeap.load_eq hea₂, hstore₃]
    rfl
  · apply hring.ring.append hring.nodup ha hz
    · intro x hx hxz
      rw [hfore₃, hfore₂, Function.update_of_ne hxz, hfore₁,
        Function.update_of_ne (hring.ne_brk hx)]
    · intro y hy hya
      rw [hback₃, Function.update_of_ne hya, hback₂, hback₁,
        Function.update_of_ne (hring.ne_brk hy)]
    · constructor
      · rw [hfore₃, hfore₂, Function.update_self]
      · rw [hback₃, Function.update_of_ne hab.symm, hback₂, hback₁, Function.update_self]
    · constructor
      · rw [hfore₃, hfore₂, Function.update_of_ne hzb.symm, hfore₁, Function.update_self]
      · rw [hback₃, Function.update_self]
  · intro p hp halloc
    have hpb : p ≠ h.brk := fun heq => halloc (heq ▸ h.fresh _ le_rfl)
    have hpz : p ≠ z := fun heq => hp (heq ▸ hzmem)
    have hpa : p ≠ a := fun heq => hp (heq ▸ hamem)
    rw [hsame₃.mem p hpa, hsame₂.mem p hpz, StHeap.mem_alloc_of_ne h _ hpb]

/-- **A new entry comes at the end of the ring and in front of its chain.** -/
theorem linkEntry_spec {t : StTable D} {key : D} (hring : IsRing type h cells)
    (hchains : IsChains type h t.numBins bins cells) (hhead : t.head = (ptrs cells).head?)
    (hkey : ∀ c ∈ cells, type.equal key c.key = false) (value : D) :
    ∃ h' bins', linkEntry h t bins key value (type.hash key) = .ok (h',
        { t with
          bins := .hashed bins'
          numEntries := t.numEntries + 1
          head := (ptrs (cells ++ [⟨h.brk, key, value⟩])).head? }) ∧
      IsRing type h' (cells ++ [⟨h.brk, key, value⟩]) ∧
      IsChains type h' t.numBins bins' (cells ++ [⟨h.brk, key, value⟩]) ∧
      Frame h h' (ptrs cells) := by
  have hne : h.brk ∉ ptrs cells := fun hmem => hring.ne_brk hmem rfl
  have hold : ∀ h' : StHeap D, h'.next = Function.update h.next h.brk
      (bins (binPos (type.hash key) t.numBins)) →
      IsChains type h' t.numBins
        (Function.update bins (binPos (type.hash key) t.numBins) (some h.brk))
        (cells ++ [⟨h.brk, key, value⟩]) := by
    intro h' hnext
    apply hchains.append ⟨h.brk, key, value⟩
    · rw [hnext, Function.update_self]
    · intro p hp
      rw [hnext, Function.update_of_ne (hring.ne_brk hp)]
  cases hfirst : (ptrs cells).head? with
  | none =>
      obtain ⟨h', heq, hnext, hdatum, hlinks, hframe⟩ := linkEntry_nil (h := h)
        (hhead.trans hfirst) bins key value (type.hash key)
      have hnil : ptrs cells = [] := by simpa using hfirst
      obtain rfl : cells = [] := by simpa using hnil
      exact ⟨h', _, heq, hring.append _ hne hkey hdatum hlinks, hold h' hnext, hframe⟩
  | some a =>
      obtain ⟨h', heq, hnext, hdatum, hlinks, hframe⟩ := linkEntry_cons hring hfirst
        (hhead.trans hfirst) bins key value (type.hash key)
      refine ⟨h', _, ?_, hring.append _ hne hkey hdatum ?_, hold h' hnext, hframe⟩
      · rw [heq]
        simp [hhead, hfirst]
      · simpa using hlinks

/-! ## Walking the ring -/

section Walk

variable {pre post : List (StCell D)} {c : StCell D}

/-- The ring does not depend on the chains. -/
theorem IsRing.congr {h' : StHeap D} (hring : IsRing type h cells) (hfore : h'.fore = h.fore)
    (hback : h'.back = h.back) (hdatum : h'.datum = h.datum) : IsRing type h' cells :=
  ⟨hring.nodup, hring.distinct, hdatum ▸ hring.datum, hfore ▸ hback ▸ hring.ring⟩

theorem IsRing.fore_eq (hring : IsRing type h (pre ++ c :: post)) :
    h.fore c.ptr = (ptrs (post ++ pre ++ [c])).head? := by
  have hlinks := hring.ring
  rw [ptrs, List.map_append, List.map_cons] at hlinks
  have hrot := hlinks.rotate
  rw [List.cons_append] at hrot
  rw [hrot.fore_eq]
  simp

theorem IsRing.back_eq (hring : IsRing type h (pre ++ c :: post)) :
    h.back c.ptr = (ptrs (c :: (post ++ pre))).getLast? := by
  have hlinks := hring.ring
  rw [ptrs, List.map_append, List.map_cons] at hlinks
  have hrot := hlinks.rotate
  rw [List.cons_append] at hrot
  rw [hrot.back_eq]
  simp

/-- The cell before a cell that is not the first one. -/
theorem IsRing.back_concat {b : StCell D} (hring : IsRing type h (pre ++ [b] ++ c :: post)) :
    h.back c.ptr = some b.ptr := by
  rw [hring.back_eq, ← List.append_assoc, ← List.cons_append, ptrs, List.map_append,
    List.map_singleton, List.getLast?_concat]

/-- The walk is over after the last cell. -/
theorem IsRing.fore_last (hring : IsRing type h (pre ++ [c])) :
    h.fore c.ptr = (ptrs (pre ++ [c])).head? := by
  rw [hring.fore_eq, List.nil_append]

/-- The walk goes on to the next cell, which is not the first one. -/
theorem IsRing.fore_cons {d : StCell D} (hring : IsRing type h (pre ++ c :: d :: post)) :
    h.fore c.ptr = some d.ptr ∧ (ptrs (pre ++ c :: d :: post)).head? ≠ some d.ptr := by
  refine ⟨by rw [hring.fore_eq]; rfl, ?_⟩
  intro hhead
  have hnodup := hring.nodup
  cases pre with
  | nil =>
      obtain heq : c.ptr = d.ptr := by simpa using hhead
      simp [heq] at hnodup
  | cons a pre =>
      obtain heq : a.ptr = d.ptr := by simpa using hhead
      simp [heq] at hnodup

theorem IsRing.exists_entry_fore (hring : IsRing type h cells) (hc : c ∈ cells) :
    ∃ e, h.mem c.ptr = some e ∧ e.hash = type.hash c.key ∧ e.key = c.key ∧ e.record = c.record ∧
      e.fore = h.fore c.ptr := by
  obtain ⟨e, he, hhash, hkey, hrecord⟩ := StHeap.exists_of_datum (hring.datum c hc)
  exact ⟨e, he, hhash, hkey, hrecord, by simp [StHeap.fore, he]⟩

/-- A cell of the ring is not among those before it. -/
theorem IsRing.ptr_notMem (hring : IsRing type h (pre ++ c :: post)) : c.ptr ∉ ptrs pre := by
  have hnodup := hring.nodup
  rw [ptrs, List.map_append, List.map_cons, List.nodup_append] at hnodup
  intro hmem
  exact hnodup.2.2 c.ptr hmem c.ptr List.mem_cons_self rfl

/-- One round of `rehash`. -/
theorem rehashFrom_step (hring : IsRing type h (pre ++ c :: post))
    (hchains : IsChains type h numBins bins pre) (head : Option ℕ) (fuel : ℕ) :
    ∃ h' bins', rehashFrom head numBins (fuel + 1) (some c.ptr) h bins =
        (if h.fore c.ptr = head then .ok (h', bins')
          else rehashFrom head numBins fuel (h.fore c.ptr) h' bins') ∧
      IsRing type h' (pre ++ c :: post) ∧ IsChains type h' numBins bins' (pre ++ [c]) ∧
      StHeap.SameBut h h' c.ptr := by
  obtain ⟨e, he, hhash, -, -, hfore⟩ := hring.exists_entry_fore (c := c) (by simp)
  obtain ⟨h', hstore, hnext', hfore', hback', hdatum', hsame⟩ :=
    StHeap.store_next he (bins (binPos e.hash numBins))
  refine ⟨h', Function.update bins (binPos e.hash numBins) (some c.ptr), ?_,
    hring.congr hfore' hback' hdatum', ?_, hsame⟩
  · rw [← hfore]
    simp only [rehashFrom, StHeap.load_eq he, Result.ok_bind, hstore]
    rfl
  · rw [hhash] at hnext' ⊢
    apply hchains.append c
    · rw [hnext', Function.update_self]
    · intro p hp
      have hne : p ≠ c.ptr := fun heq => hring.ptr_notMem (heq ▸ hp)
      rw [hnext', Function.update_of_ne hne]

/-- **`rehash` gives each cell a place in the new chains.** -/
theorem rehashFrom_spec {fuel : ℕ} (hring : IsRing type h (pre ++ c :: post))
    (hchains : IsChains type h numBins bins pre) (hfuel : post.length < fuel) :
    ∃ h' bins', rehashFrom (ptrs (pre ++ c :: post)).head? numBins fuel (some c.ptr) h bins =
        .ok (h', bins') ∧
      IsRing type h' (pre ++ c :: post) ∧ IsChains type h' numBins bins' (pre ++ c :: post) ∧
      Frame h h' (ptrs (pre ++ c :: post)) := by
  induction post generalizing pre c h bins fuel with
  | nil =>
      obtain ⟨fuel, rfl⟩ : ∃ n, fuel = n + 1 := ⟨fuel - 1, by simp at hfuel; omega⟩
      obtain ⟨h', bins', heq, hring', hchains', hsame⟩ :=
        rehashFrom_step hring hchains (ptrs (pre ++ [c])).head? fuel
      rw [if_pos hring.fore_last] at heq
      exact ⟨h', bins', heq, hring', hchains', .of_sameBut hsame (by simp)⟩
  | cons d post ih =>
      obtain ⟨fuel, rfl⟩ : ∃ n, fuel = n + 1 := ⟨fuel - 1, by simp at hfuel; omega⟩
      obtain ⟨h₁, bins₁, heq, hring₁, hchains₁, hsame⟩ :=
        rehashFrom_step hring hchains (ptrs (pre ++ c :: d :: post)).head? fuel
      obtain ⟨hfore, hne⟩ := hring.fore_cons
      rw [hfore, if_neg hne.symm] at heq
      have hassoc : pre ++ c :: d :: post = pre ++ [c] ++ d :: post := by simp
      rw [hassoc] at hring₁ heq ⊢
      obtain ⟨h₂, bins₂, heq₂, hring₂, hchains₂, hframe⟩ := ih hring₁ hchains₁
        (by simpa using hfuel)
      exact ⟨h₂, bins₂, heq.trans heq₂, hring₂, hchains₂,
        (Frame.of_sameBut hsame (by simp)).trans hframe fun p hp => .inl hp⟩

end Walk

/-! ## Taking an entry out -/

theorem head?_append_cons {α : Type} (xs ys : List α) (c : α) :
    (xs ++ c :: ys).head? = (xs ++ [c]).head? := by
  cases xs <;> rfl

section Unlink

variable {found : ℕ → StEntry D → Bool} {b : ℕ}

omit [DecidableEq D] in
/-- The search of a chain in which nothing is found. -/
theorem unlinkFrom_none {todo : List ℕ} {prev p : Option ℕ} {fuel : ℕ}
    (hpath : Path h.next p todo) (halloc : ∀ q ∈ todo, h.mem q ≠ none)
    (hnot : ∀ q ∈ todo, ∀ e, h.mem q = some e → found q e = false) (hfuel : todo.length < fuel) :
    unlinkFrom found b fuel prev p h bins = .ok none := by
  induction todo generalizing prev p fuel with
  | nil =>
      obtain rfl : p = none := hpath
      obtain ⟨fuel, rfl⟩ : ∃ n, fuel = n + 1 := ⟨fuel - 1, by simp at hfuel; omega⟩
      rfl
  | cons q todo ih =>
      obtain ⟨rfl, hrest⟩ := hpath
      obtain ⟨fuel, rfl⟩ : ∃ n, fuel = n + 1 := ⟨fuel - 1, by simp at hfuel; omega⟩
      obtain ⟨e, he⟩ := Option.ne_none_iff_exists'.mp (halloc q List.mem_cons_self)
      have hnext : h.next q = e.next := by simp [StHeap.next, he]
      rw [hnext] at hrest
      rw [unlinkFrom, StHeap.load_eq he, Result.ok_bind, hnot q List.mem_cons_self e he]
      simp only [Bool.false_eq_true, if_false]
      exact ih hrest (fun q' hq' => halloc q' (List.mem_cons_of_mem _ hq'))
        (fun q' hq' => hnot q' (List.mem_cons_of_mem _ hq')) (by simpa using hfuel)

omit [DecidableEq D] in
/-- The search of a chain up to the entry that is found. -/
theorem unlinkFrom_some {todo post : List ℕ} {c : ℕ} {e : StEntry D} {fuel : ℕ} (done : List ℕ)
    (hpath : Path h.next (bins b) (done ++ (todo ++ c :: post)))
    (hnodup : (done ++ (todo ++ c :: post)).Nodup)
    (halloc : ∀ q ∈ done ++ todo, h.mem q ≠ none) (he : h.mem c = some e)
    (hnot : ∀ q ∈ todo, ∀ e, h.mem q = some e → found q e = false) (hfound : found c e = true)
    (hfuel : todo.length < fuel) :
    ∃ h' bins', unlinkFrom found b fuel done.getLast? (todo ++ [c]).head? h bins =
        .ok (some (c, e, h', bins')) ∧
      Path h'.next (bins' b) (done ++ (todo ++ post)) ∧ (∀ b' ≠ b, bins' b' = bins b') ∧
      (∀ p ∉ done ++ todo, h'.mem p = h.mem p) ∧ h'.fore = h.fore ∧ h'.back = h.back ∧
      h'.datum = h.datum := by
  induction todo generalizing done fuel with
  | nil =>
      obtain ⟨fuel, rfl⟩ : ∃ n, fuel = n + 1 := ⟨fuel - 1, by simp at hfuel; omega⟩
      have hnext : h.next c = e.next := by simp [StHeap.next, he]
      have hfirst : unlinkFrom found b (fuel + 1) none (some c) h bins =
          .ok (some (c, e, h, Function.update bins b e.next)) := by
        rw [unlinkFrom, StHeap.load_eq he, Result.ok_bind, if_pos hfound]
        rfl
      have hlater : ∀ q, unlinkFrom found b (fuel + 1) (some q) (some c) h bins = (do
          let eq ← h.load (some q)
          let h ← h.store (some q) { eq with next := e.next }
          return some (c, e, h, bins)) := by
        intro q
        rw [unlinkFrom, StHeap.load_eq he, Result.ok_bind, if_pos hfound]
      rcases done.eq_nil_or_concat' with rfl | ⟨done, y, rfl⟩
      · refine ⟨h, Function.update bins b e.next, hfirst, ?_, ?_, fun _ _ => rfl, rfl, rfl, rfl⟩
        · rw [Function.update_self, ← hnext]
          exact hpath.2
        · intro b' hb'
          rw [Function.update_of_ne hb']
      · obtain ⟨ey, hey⟩ := Option.ne_none_iff_exists'.mp (halloc y (by simp))
        obtain ⟨h', hstore, hnext', hfore', hback', hdatum', hsame⟩ := StHeap.store_next hey e.next
        have hsplit : done ++ [y] ++ ([] ++ c :: post) = done ++ y :: c :: post := by simp
        rw [hsplit] at hpath hnodup
        refine ⟨h', bins, ?_, ?_, fun _ _ => rfl, ?_, hfore', hback', hdatum'⟩
        · rw [List.getLast?_concat, List.nil_append, List.head?_cons, hlater]
          simp only [StHeap.load_eq hey, Result.ok_bind, hstore]
          rfl
        · simp only [List.append_assoc, List.singleton_append, List.nil_append]
          apply hpath.unlink hnodup
          · rw [hnext', Function.update_self, hnext]
          · intro z hz
            rw [hnext', Function.update_of_ne hz]
        · intro p hp
          exact hsame.mem p fun heq => hp (by simp [heq])
  | cons q todo ih =>
      obtain ⟨fuel, rfl⟩ : ∃ n, fuel = n + 1 := ⟨fuel - 1, by simp at hfuel; omega⟩
      obtain ⟨eq, heq⟩ := Option.ne_none_iff_exists'.mp (halloc q (by simp))
      have hsplit : done ++ (q :: todo ++ c :: post) = done ++ [q] ++ (todo ++ c :: post) := by simp
      rw [hsplit] at hpath hnodup
      have hptr : h.next q = (todo ++ [c]).head? := by
        have hsuffix := hpath
        rw [List.append_assoc, List.singleton_append] at hsuffix
        rw [hsuffix.suffix.head_eq, head?_append_cons]
      obtain ⟨h', bins', hrec, hres⟩ := ih (done ++ [q]) hpath hnodup (by simpa using halloc)
        (fun q' hq' => hnot q' (List.mem_cons_of_mem _ hq')) (by simpa using hfuel)
      refine ⟨h', bins', ?_, by simpa using hres⟩
      rw [← hrec, List.cons_append, List.head?_cons, unlinkFrom, StHeap.load_eq heq, Result.ok_bind,
        hnot q List.mem_cons_self eq heq]
      have hnext : eq.next = h.next q := by simp [StHeap.next, heq]
      simp [hnext, hptr]

end Unlink

section Remove

variable {pre post : List (StCell D)} {c : StCell D} {t : StTable D}

/-- The only entry of a ring is taken out. -/
theorem removeEntry_singleton (hring : IsRing type h [c]) :
    removeEntry h t c.ptr = .ok (h, { t with head := none, numEntries := t.numEntries - 1 }) := by
  obtain ⟨e, he, -, -, -, hfore⟩ := hring.exists_entry_fore List.mem_cons_self
  have hring' : IsRing type h ([] ++ [c]) := hring
  have hself : e.fore = some c.ptr := by
    rw [hfore, hring'.fore_last]
    rfl
  rw [removeEntry, StHeap.load_eq he, Result.ok_bind, if_pos hself]
  rfl

/-- **An entry is taken out of the ring.** -/
theorem removeEntry_spec (hring : IsRing type h (pre ++ c :: post))
    (hhead : t.head = (ptrs (pre ++ c :: post)).head?) :
    ∃ h', removeEntry h t c.ptr = .ok (h',
        { t with head := (ptrs (pre ++ post)).head?, numEntries := t.numEntries - 1 }) ∧
      Ring h'.fore h'.back (ptrs (pre ++ post)) ∧ h'.next = h.next ∧ h'.datum = h.datum ∧
      ∀ p ∉ ptrs (pre ++ post), h'.mem p = h.mem p := by
  by_cases hnil : pre ++ post = []
  · obtain ⟨rfl, rfl⟩ := List.append_eq_nil_iff.mp hnil
    exact ⟨h, removeEntry_singleton hring, .nil, rfl, rfl, fun _ _ => rfl⟩
  have hlinks := hring.ring
  rw [ptrs, List.map_append, List.map_cons] at hlinks
  have hrot := hlinks.rotate
  rw [List.cons_append, ← List.map_append] at hrot
  have hnil' : ptrs (post ++ pre) ≠ [] := by simpa [and_comm] using hnil
  obtain ⟨f, hf⟩ : ∃ f, (ptrs (post ++ pre)).head? = some f := by
    cases hps : ptrs (post ++ pre) with
    | nil => exact absurd hps hnil'
    | cons f _ => exact ⟨f, rfl⟩
  obtain ⟨b, hb⟩ := Option.isSome_iff_exists.mp (List.getLast?_isSome.mpr hnil')
  have hmem : ∀ p, p ∈ ptrs (post ++ pre) ↔ p ∈ ptrs (pre ++ post) := by
    intro p
    simp only [ptrs, List.map_append, List.mem_append]
    exact or_comm
  have hin : ∀ p ∈ ptrs (post ++ pre), p ∈ ptrs (pre ++ c :: post) := by
    intro p hp
    rw [hmem] at hp
    simp only [ptrs, List.map_append, List.mem_append, List.map_cons, List.mem_cons] at hp ⊢
    exact hp.imp_right .inr
  have hperm : (ptrs (pre ++ c :: post)).Perm (c.ptr :: ptrs (post ++ pre)) := by
    have hcomm : (ptrs pre ++ ptrs (c :: post)).Perm (ptrs (c :: post) ++ ptrs pre) :=
      List.perm_append_comm
    simpa using hcomm
  have hc : c.ptr ∉ ptrs (post ++ pre) := (List.nodup_cons.mp (hperm.nodup_iff.mp hring.nodup)).1
  have hfmem := List.mem_of_head? hf
  have hbmem := List.mem_of_getLast? hb
  have hforec : h.fore c.ptr = some f := by
    rw [hrot.fore_eq, List.head?_append_of_ne_nil _ hnil', hf]
  have hbackc : h.back c.ptr = some b := by
    rw [hrot.back_eq, List.getLast?_cons, hb]
    rfl
  obtain ⟨e, he⟩ := hring.exists_entry (p := c.ptr) (by simp)
  have hef : e.fore = some f := by simpa [StHeap.fore, he] using hforec
  have heb : e.back = some b := by simpa [StHeap.back, he] using hbackc
  obtain ⟨ef, hload⟩ := hring.exists_entry (hin f hfmem)
  obtain ⟨h₁, hstore₁, hnext₁, hfore₁, hback₁, hdatum₁, hsame₁⟩ := StHeap.store_back hload (some b)
  have hring₁ : ∃ eb, h₁.mem b = some eb := by
    obtain ⟨eb, hmemb⟩ := hring.exists_entry (hin b hbmem)
    rw [← Option.isSome_iff_exists, ← Option.isSome_map, ← StHeap.datum, hdatum₁]
    simp [StHeap.datum, hmemb]
  obtain ⟨eb, hload₁⟩ := hring₁
  obtain ⟨h₂, hstore₂, hnext₂, hfore₂, hback₂, hdatum₂, hsame₂⟩ :=
    StHeap.store_fore hload₁ (some f)
  refine ⟨h₂, ?_, ?_, by rw [hnext₂, hnext₁], by rw [hdatum₂, hdatum₁], ?_⟩
  · have hne : e.fore ≠ some c.ptr := by
      rw [hef]
      rintro ⟨⟩
      exact hc hfmem
    have hhead' : (if t.head = some c.ptr then some f else t.head)
      = (ptrs (pre ++ post)).head? := by
      cases pre with
      | nil => simpa [hhead] using hf.symm
      | cons a pre =>
          have hca : a.ptr ≠ c.ptr := by
            rintro heq
            exact hc (by simp [heq])
          simp [hhead, hca]
    rw [removeEntry, StHeap.load_eq he, Result.ok_bind, if_neg hne]
    simp only [hef, heb, StHeap.load_eq hload, Result.ok_bind, hstore₁, StHeap.load_eq hload₁,
      hstore₂, hhead']
    rfl
  · rw [ptrs, List.map_append]
    apply hlinks.remove (by simpa using hring.nodup) (by simpa using hnil) hforec hbackc
    · intro x _ hx
      rw [hfore₂, Function.update_of_ne hx, hfore₁]
    · intro y _ hy
      rw [hback₂, hback₁, Function.update_of_ne hy]
    · exact ⟨by rw [hfore₂, Function.update_self], by rw [hback₂, hback₁, Function.update_self]⟩
  · intro p hp
    rw [← hmem] at hp
    rw [hsame₂.mem p fun heq => hp (heq ▸ hbmem), hsame₁.mem p fun heq => hp (heq ▸ hfmem)]

omit [DecidableEq D] in
/-- The cells of a chain, split where one of them is. -/
theorem inBin_split (numBins b : ℕ) :
    (inBin type numBins b (pre ++ c :: post)).reverse =
      if binPos (type.hash c.key) numBins = b then
        (inBin type numBins b post).reverse ++ c :: (inBin type numBins b pre).reverse
      else (inBin type numBins b (pre ++ post)).reverse := by
  by_cases hb : binPos (type.hash c.key) numBins = b <;> simp [inBin, hb]

omit [DecidableEq D] in
/-- The bin of a cell can be read off the place where the cell is. -/
theorem bin_eq_of_mem {n b b' p : ℕ} (hnodup : (ptrs cells).Nodup)
    (hp : p ∈ ptrs (inBin type n b cells).reverse)
    (hp' : p ∈ ptrs (inBin type n b' cells).reverse) : b = b' := by
  obtain ⟨c, hc, rfl⟩ := List.mem_map.mp hp
  obtain ⟨c', hc', heq⟩ := List.mem_map.mp hp'
  rw [List.mem_reverse, inBin, List.mem_filter, decide_eq_true_eq] at hc hc'
  obtain rfl : c' = c := List.inj_on_of_nodup_map hnodup hc'.1 hc.1 heq
  rw [← hc.2, hc'.2]

omit [DecidableEq D] in
theorem nodup_chain {n : ℕ} (hnodup : (ptrs cells).Nodup) (b : ℕ) :
    (ptrs (inBin type n b cells).reverse).Nodup := by
  rw [ptrs, List.map_reverse, List.nodup_reverse]
  exact hnodup.sublist (List.filter_sublist.map _)

/-- The ring and the chains without one cell, which is freed. -/
theorem IsRing.remove {h' : StHeap D} (hring : IsRing type h (pre ++ c :: post))
    (hdatum : ∀ p ≠ c.ptr, h'.datum p = h.datum p)
    (hlinks : Ring h'.fore h'.back (ptrs (pre ++ post))) : IsRing type h' (pre ++ post) := by
  have hsub : (pre ++ post).Sublist (pre ++ c :: post) :=
    (List.sublist_cons_self c post).append_left pre
  refine ⟨hring.nodup.sublist (hsub.map _), hring.distinct.sublist hsub, ?_, hlinks⟩
  intro c' hc'
  have hne : c'.ptr ≠ c.ptr := by
    intro heq
    have hnodup := hring.nodup
    rw [ptrs, List.map_append, List.map_cons, List.nodup_middle, List.nodup_cons,
      ← List.map_append] at hnodup
    exact hnodup.1 (heq ▸ List.mem_map_of_mem hc')
  rw [hdatum _ hne, hring.datum c' (hsub.subset hc')]

omit [DecidableEq D] in
/-- The search for a cell takes it out of its chain. -/
theorem unlinkFrom_cell (found : ℕ → StEntry D → Bool) {fuel b : ℕ} {e : StEntry D}
    (hnodup : (ptrs (pre ++ c :: post)).Nodup)
    (halloc : ∀ c' ∈ post, ∃ e, h.mem c'.ptr = some e ∧ found c'.ptr e = false)
    (hchains : IsChains type h numBins bins (pre ++ c :: post))
    (hb : binPos (type.hash c.key) numBins = b) (he : h.mem c.ptr = some e)
    (hfound : found c.ptr e = true) (hfuel : post.length < fuel) :
    ∃ h' bins', unlinkFrom found b fuel none (bins b) h bins = .ok (some (c.ptr, e, h', bins')) ∧
      IsChains type h' numBins bins' (pre ++ post) ∧ h'.fore = h.fore ∧ h'.back = h.back ∧
      h'.datum = h.datum ∧ Frame h h' (ptrs post) := by
  have hpath := hchains b
  have hnodup' : (ptrs (inBin type numBins b (pre ++ c :: post)).reverse).Nodup :=
    nodup_chain hnodup b
  rw [inBin_split, if_pos hb, ptrs, List.map_append, List.map_cons] at hpath hnodup'
  have hentry : ∀ q ∈ ptrs (inBin type numBins b post).reverse,
      ∃ e, h.mem q = some e ∧ found q e = false := by
    intro q hq
    obtain ⟨c', hc', rfl⟩ := List.mem_map.mp (mem_ptrs_of_mem_inBin hq)
    exact halloc c' hc'
  have halloc' : ∀ q ∈ [] ++ ptrs (inBin type numBins b post).reverse, h.mem q ≠ none := by
    intro q hq
    obtain ⟨e, he, -⟩ := hentry q hq
    simp [he]
  have hnot : ∀ q ∈ ptrs (inBin type numBins b post).reverse, ∀ e, h.mem q = some e →
      found q e = false := by
    intro q hq e he
    obtain ⟨e', he', hfound'⟩ := hentry q hq
    obtain rfl : e = e' := Option.some.inj (he.symm.trans he')
    exact hfound'
  have hfuel' : (ptrs (inBin type numBins b post).reverse).length < fuel := by
    rw [ptrs, List.length_map, List.length_reverse]
    exact (List.length_filter_le _ _).trans_lt hfuel
  obtain ⟨h', bins', hunlink, hpath', hbins', hmem', hfore', hback', hdatum'⟩ :=
    unlinkFrom_some [] hpath hnodup' halloc' he hnot hfound hfuel'
  have hnext' : ∀ p ∉ ptrs (inBin type numBins b post).reverse, h'.next p = h.next p := by
    intro p hp
    rw [StHeap.next, hmem' p hp, StHeap.next]
  refine ⟨h', bins', ?_, ?_, hfore', hback', hdatum', ?_⟩
  · rw [← hunlink, hpath.head_eq, head?_append_cons]
    rfl
  · intro b'
    by_cases hb' : b' = b
    · subst hb'
      simpa [inBin_append] using hpath'
    · have hpath'' := hchains b'
      rw [inBin_split, if_neg fun heq => hb' (heq.symm.trans hb)] at hpath''
      rw [hbins' b' hb']
      refine hpath''.congr fun p hp => hnext' p fun hp' => hb' ?_
      apply bin_eq_of_mem (p := p) (n := numBins) hnodup
      · rw [inBin_split, if_neg fun heq => hb' (heq.symm.trans hb)]
        exact hp
      · rw [inBin_split, if_pos hb, ptrs, List.map_append]
        exact List.mem_append_left _ hp'
  · intro p hp _
    exact hmem' p fun hin => hp (mem_ptrs_of_mem_inBin hin)

/-- **Taking a cell out of its chain and the ring and freeing it.** -/
theorem unlink_remove_free {found : ℕ → StEntry D → Bool} {fuel b : ℕ} {e : StEntry D}
    (hring : IsRing type h (pre ++ c :: post))
    (hchains : IsChains type h t.numBins bins (pre ++ c :: post))
    (hhead : t.head = (ptrs (pre ++ c :: post)).head?)
    (hb : binPos (type.hash c.key) t.numBins = b) (he : h.mem c.ptr = some e)
    (hnot : ∀ c' ∈ post, ∀ e, h.mem c'.ptr = some e → e.key = c'.key → found c'.ptr e = false)
    (hfound : found c.ptr e = true) (hfuel : post.length < fuel) :
    ∃ h₁ bins' h₂ h₃,
      unlinkFrom found b fuel none (bins b) h bins = .ok (some (c.ptr, e, h₁, bins')) ∧
      removeEntry h₁ { t with bins := .hashed bins' } c.ptr = .ok (h₂,
        { t with
          bins := .hashed bins'
          head := (ptrs (pre ++ post)).head?
          numEntries := t.numEntries - 1 }) ∧
      h₂.free c.ptr = .ok h₃ ∧ IsRing type h₃ (pre ++ post) ∧
      IsChains type h₃ t.numBins bins' (pre ++ post) ∧ Frame h h₃ (ptrs (pre ++ c :: post)) := by
  have halloc : ∀ c' ∈ post, ∃ e, h.mem c'.ptr = some e ∧ found c'.ptr e = false := by
    intro c' hc'
    obtain ⟨e', he', -, hkey, -⟩ := StHeap.exists_of_datum (hring.datum c' (by simp [hc']))
    exact ⟨e', he', hnot c' hc' e' he' hkey⟩
  obtain ⟨h₁, bins', hunlink, hchains₁, hfore₁, hback₁, hdatum₁, hframe₁⟩ :=
    unlinkFrom_cell found hring.nodup halloc hchains hb he hfound hfuel
  have hring₁ := hring.congr hfore₁ hback₁ hdatum₁
  obtain ⟨h₂, hremove, hlinks, hnext₂, hdatum₂, hmem₂⟩ := removeEntry_spec
    (t := { t with bins := .hashed bins' }) hring₁ hhead
  have hc : c.ptr ∉ ptrs (pre ++ post) := by
    have hnodup := hring.nodup
    rw [ptrs, List.map_append, List.map_cons, List.nodup_middle, List.nodup_cons,
      ← List.map_append] at hnodup
    exact hnodup.1
  obtain ⟨e₁, he₁⟩ := hring₁.exists_entry (p := c.ptr) (by simp)
  obtain ⟨h₃, hfree, hmem₃, hsame⟩ := StHeap.free_eq ((hmem₂ _ hc).trans he₁)
  have hne : ∀ p ∈ ptrs (pre ++ post), p ≠ c.ptr := fun p hp heq => hc (heq ▸ hp)
  refine ⟨h₁, bins', h₂, h₃, hunlink, hremove, hfree, hring₁.remove ?_ ?_, ?_, ?_⟩
  · intro p hp
    rw [StHeap.datum, hsame.mem p hp, ← StHeap.datum, hdatum₂]
  · refine hlinks.congr ?_ ?_
    · intro p hp
      rw [StHeap.fore, hsame.mem p (hne p hp), StHeap.fore]
    · intro p hp
      rw [StHeap.back, hsame.mem p (hne p hp), StHeap.back]
  · intro b'
    refine (hchains₁ b').congr ?_
    intro p hp
    rw [StHeap.next, hsame.mem p (hne p (mem_ptrs_of_mem_inBin hp)), ← StHeap.next, hnext₂]
  · intro p hp halloc
    simp only [ptrs, List.map_append, List.map_cons, List.mem_append, List.mem_cons, not_or] at hp
    have hp' : p ∉ ptrs (pre ++ post) := by
      rw [ptrs, List.map_append, List.mem_append, not_or]
      exact ⟨hp.1, hp.2.2⟩
    rw [hsame.mem p hp.2.1, hmem₂ p hp', hframe₁ p hp.2.2 halloc]

end Remove

/-! ## Clearing a table -/

omit [DecidableEq D] in
/-- The entries of a chain are freed. -/
theorem freeChain_spec {chain : List ℕ} {p : Option ℕ} {fuel : ℕ} (hpath : Path h.next p chain)
    (hnodup : chain.Nodup) (halloc : ∀ q ∈ chain, h.mem q ≠ none) (hfuel : chain.length < fuel) :
    ∃ h', freeChain fuel p h = .ok h' ∧ ∀ q ∉ chain, h'.mem q = h.mem q := by
  induction chain generalizing h p fuel with
  | nil =>
      obtain rfl : p = none := hpath
      obtain ⟨fuel, rfl⟩ : ∃ n, fuel = n + 1 := ⟨fuel - 1, by simp at hfuel; omega⟩
      exact ⟨h, rfl, fun _ _ => rfl⟩
  | cons c chain ih =>
      obtain ⟨rfl, hrest⟩ := hpath
      obtain ⟨fuel, rfl⟩ : ∃ n, fuel = n + 1 := ⟨fuel - 1, by simp at hfuel; omega⟩
      rw [List.nodup_cons] at hnodup
      obtain ⟨e, he⟩ := Option.ne_none_iff_exists'.mp (halloc c List.mem_cons_self)
      obtain ⟨h₁, hfree, -, hsame⟩ := StHeap.free_eq he
      have hne : ∀ q ∈ chain, q ≠ c := fun q hq heq => hnodup.1 (heq ▸ hq)
      have hnext : e.next = h.next c := by simp [StHeap.next, he]
      have hrest₁ : Path h₁.next e.next chain := by
        rw [hnext]
        refine hrest.congr fun q hq => ?_
        rw [StHeap.next, hsame.mem q (hne q hq), StHeap.next]
      obtain ⟨h₂, hrec, hmem⟩ := ih hrest₁ hnodup.2
        (fun q hq => hsame.mem q (hne q hq) ▸ halloc q (List.mem_cons_of_mem _ hq))
        (by simpa using hfuel)
      refine ⟨h₂, ?_, ?_⟩
      · rw [freeChain, StHeap.load_eq he, Result.ok_bind, hfree, Result.ok_bind, hrec]
      · intro q hq
        rw [List.mem_cons, not_or] at hq
        rw [hmem q hq.2, hsame.mem q hq.1]

/-- **The entries of all chains are freed**, and no others. -/
theorem freeChains_spec {fuel : ℕ} (hring : IsRing type h cells)
    (hchains : IsChains type h numBins bins cells) (hfuel : cells.length < fuel) (n : ℕ) :
    ∃ h', freeChains fuel bins n h = .ok h' ∧
      ∀ q, (∀ b < n, q ∉ ptrs (inBin type numBins b cells).reverse) → h'.mem q = h.mem q := by
  induction n with
  | zero => exact ⟨h, rfl, fun _ _ => rfl⟩
  | succ n ih =>
      obtain ⟨h₁, hrec, hmem⟩ := ih
      have hkeep : ∀ q ∈ ptrs (inBin type numBins n cells).reverse, h₁.mem q = h.mem q := by
        intro q hq
        refine hmem q fun b hb hq' => ?_
        have := bin_eq_of_mem hring.nodup hq hq'
        omega
      obtain ⟨h₂, hchain, hmem₂⟩ := freeChain_spec (h := h₁) (p := bins n)
        ((hchains n).congr fun q hq => by rw [StHeap.next, hkeep q hq, StHeap.next])
        (nodup_chain hring.nodup n)
        (fun q hq => by
          obtain ⟨e, he⟩ := hring.exists_entry (mem_ptrs_of_mem_inBin hq)
          simp [hkeep q hq, he])
        (by
          rw [ptrs, List.length_map, List.length_reverse]
          exact (List.length_filter_le _ _).trans_lt hfuel)
      refine ⟨h₂, ?_, ?_⟩
      · rw [freeChains, hrec, Result.ok_bind, hchain]
      · intro q hq
        rw [hmem₂ q (hq n (by omega)), hmem q fun b hb => hq b (by omega)]

/-! ## Copying a table -/

theorem IsRing.of_mem_eq {h' : StHeap D} (hring : IsRing type h cells)
    (hmem : ∀ p ∈ ptrs cells, h'.mem p = h.mem p) : IsRing type h' cells := by
  refine ⟨hring.nodup, hring.distinct, ?_, hring.ring.congr ?_ ?_⟩
  · intro c hc
    rw [StHeap.datum, hmem _ (List.mem_map_of_mem hc), ← StHeap.datum, hring.datum c hc]
  · intro p hp
    rw [StHeap.fore, hmem p hp, StHeap.fore]
  · intro p hp
    rw [StHeap.back, hmem p hp, StHeap.back]

omit [DecidableEq D] in
theorem IsChains.of_mem_eq {h' : StHeap D} (hchains : IsChains type h numBins bins cells)
    (hmem : ∀ p ∈ ptrs cells, h'.mem p = h.mem p) : IsChains type h' numBins bins cells := by
  intro b
  refine (hchains b).congr fun p hp => ?_
  rw [StHeap.next, hmem p (mem_ptrs_of_mem_inBin hp), StHeap.next]

/-- The copies made so far: all is there but the links that close the ring. -/
structure IsCopy (type : StHashType D) (h : StHeap D) (numBins : ℕ) (bins : ℕ → Option ℕ)
    (copies : List (StCell D)) : Prop where
  nodup : (ptrs copies).Nodup
  datum : ∀ c ∈ copies, h.datum c.ptr = some (type.hash c.key, c.key, c.record)
  links : (ptrs copies).IsChain (Link h.fore h.back)
  chains : IsChains type h numBins bins copies

section Copy

variable {copies : List (StCell D)}

omit [DecidableEq D] in
theorem IsCopy.ne_brk (hcopy : IsCopy type h numBins bins copies) {p : ℕ} (hp : p ∈ ptrs copies) :
    p ≠ h.brk := by
  obtain ⟨c, hc, rfl⟩ := List.mem_map.mp hp
  exact StHeap.ne_brk_of_datum (hcopy.datum c hc)

omit [DecidableEq D] in
/-- One more copy, linked behind the last one. -/
theorem IsCopy.append {h' : StHeap D} (hcopy : IsCopy type h numBins bins copies) (c : StCell D)
    (hptr : c.ptr = h.brk)
    (hnext : h'.next = Function.update h.next c.ptr (bins (binPos (type.hash c.key) numBins)))
    (hdatum : h'.datum = Function.update h.datum c.ptr (some (type.hash c.key, c.key, c.record)))
    (hback : ∀ p ∈ ptrs copies, h'.back p = h.back p)
    (hfore : ∀ p ∈ ptrs copies, p ∉ (ptrs copies).getLast? → h'.fore p = h.fore p)
    (hlink : ∀ z ∈ (ptrs copies).getLast?, Link h'.fore h'.back z c.ptr) :
    IsCopy type h' numBins (Function.update bins (binPos (type.hash c.key) numBins) (some c.ptr))
      (copies ++ [c]) := by
  have hne : ∀ p ∈ ptrs copies, p ≠ c.ptr := fun p hp => hptr ▸ hcopy.ne_brk hp
  refine ⟨?_, ?_, ?_, ?_⟩
  · rw [ptrs, List.map_append]
    refine List.nodup_append.mpr ⟨hcopy.nodup, by simp, ?_⟩
    intro p hp q hq
    obtain rfl : q = c.ptr := by simpa using hq
    exact hne p hp
  · intro c' hc'
    rcases List.mem_append.mp hc' with hc' | hc'
    · rw [hdatum, Function.update_of_ne (hne _ (List.mem_map_of_mem hc')), hcopy.datum c' hc']
    · obtain rfl := List.mem_singleton.mp hc'
      rw [hdatum, Function.update_self]
  · rw [ptrs, List.map_append]
    refine List.isChain_append.mpr ⟨?_, .singleton _, ?_⟩
    · exact isChain_congr hcopy.nodup hcopy.links hfore fun p hp _ => hback p hp
    · intro z hz y hy
      obtain rfl : c.ptr = y := by simpa using hy
      exact hlink z hz
  · apply hcopy.chains.append c
    · rw [hnext, Function.update_self]
    · intro p hp
      rw [hnext, Function.update_of_ne (hne p hp)]

omit [DecidableEq D] in
/-- The links of a new copy. -/
theorem setTail_spec (hcopy : IsCopy type h numBins bins copies) (e : StEntry D)
    (hhash : e.hash = type.hash e.key) :
    ∃ h', setTail (h.alloc { e with
          next := bins (binPos e.hash numBins), back := (ptrs copies).getLast? })
        (ptrs copies).getLast? (ptrs copies).head? (some h.brk) =
          .ok (h', (ptrs (copies ++ [⟨h.brk, e.key, e.record⟩])).head?) ∧
      IsCopy type h' numBins (Function.update bins (binPos e.hash numBins) (some h.brk))
        (copies ++ [⟨h.brk, e.key, e.record⟩]) ∧
      Frame h h' (ptrs copies) := by
  obtain ⟨hashVal, key, record, next, fore, back⟩ := e
  obtain rfl : hashVal = type.hash key := hhash
  generalize hlast : (ptrs copies).getLast? = prev
  obtain ⟨hnext₁, hfore₁, hback₁, hdatum₁⟩ := StHeap.alloc_eq h
    ⟨type.hash key, key, record, bins (binPos (type.hash key) numBins), fore, prev⟩
  have hmem₁ : ∀ p ≠ h.brk, (h.alloc
      ⟨type.hash key, key, record, bins (binPos (type.hash key) numBins), fore, prev⟩).mem p =
      h.mem p := fun p hp => StHeap.mem_alloc_of_ne h _ hp
  have halloc : ∀ p, h.mem p ≠ none → p ≠ h.brk := by
    rintro p hp rfl
    exact hp (h.fresh _ le_rfl)
  cases prev with
  | none =>
      have hnil : ptrs copies = [] := by simpa using hlast
      obtain rfl : copies = [] := by simpa using hnil
      refine ⟨_, rfl, ?_, fun p _ hp => hmem₁ p (halloc p hp)⟩
      exact hcopy.append ⟨h.brk, key, record⟩ rfl hnext₁ hdatum₁ (by simp) (by simp) (by simp)
  | some z =>
      have hz := List.mem_of_getLast? hlast
      have hzb := hcopy.ne_brk hz
      obtain ⟨c, hc, rfl⟩ := List.mem_map.mp hz
      obtain ⟨ez, hez, -⟩ := StHeap.exists_of_datum (hcopy.datum c hc)
      obtain ⟨h₂, hstore, hnext₂, hfore₂, hback₂, hdatum₂, hsame⟩ :=
        StHeap.store_fore ((hmem₁ _ hzb).trans hez) (some h.brk)
      have hhead : (ptrs (copies ++ [⟨h.brk, key, record⟩])).head? = (ptrs copies).head? := by
        rw [ptrs, List.map_append, List.head?_append_of_ne_nil _ (List.ne_nil_of_mem hz)]
      refine ⟨h₂, ?_, ?_, ?_⟩
      · rw [hhead, setTail, StHeap.load_eq ((hmem₁ _ hzb).trans hez), Result.ok_bind, hstore]
        rfl
      · apply hcopy.append ⟨h.brk, key, record⟩ rfl
        · rw [hnext₂, hnext₁]
        · rw [hdatum₂, hdatum₁]
        · intro p hp
          rw [hback₂, hback₁, Function.update_of_ne (hcopy.ne_brk hp)]
        · intro p hp hpl
          rw [hfore₂, Function.update_of_ne, hfore₁, Function.update_of_ne (hcopy.ne_brk hp)]
          rintro rfl
          exact hpl hlast
        · intro z hz
          obtain rfl : c.ptr = z := Option.some.inj (hlast.symm.trans hz)
          constructor
          · rw [hfore₂, Function.update_self]
          · rw [hback₂, hback₁, Function.update_self]
      · intro p hp hpa
        have hpz : p ≠ c.ptr := fun heq => hp (heq ▸ hz)
        rw [hsame.mem p hpz, hmem₁ p (halloc p hpa)]

/-- The copies are linked to a ring. -/
theorem closeRing_spec {a z : ℕ} (hcopy : IsCopy type h numBins bins copies)
    (hdistinct : copies.Pairwise fun c c' => type.equal c.key c'.key = false)
    (ha : (ptrs copies).head? = some a) (hz : (ptrs copies).getLast? = some z) :
    ∃ h', closeRing h (some a) (some z) = .ok h' ∧ IsRing type h' copies ∧
      IsChains type h' numBins bins copies ∧ Frame h h' (ptrs copies) := by
  have hamem := List.mem_of_head? ha
  have hzmem := List.mem_of_getLast? hz
  have hentry : ∀ p ∈ ptrs copies, ∃ v, h.datum p = some v := by
    intro p hp
    obtain ⟨c, hc, rfl⟩ := List.mem_map.mp hp
    exact ⟨_, hcopy.datum c hc⟩
  obtain ⟨_, hda⟩ := hentry a hamem
  obtain ⟨ea, hea, -⟩ := StHeap.exists_of_datum hda
  obtain ⟨h₁, hstore₁, hnext₁, hfore₁, hback₁, hdatum₁, hsame₁⟩ := StHeap.store_back hea (some z)
  obtain ⟨_, hdz⟩ := hentry z hzmem
  obtain ⟨ez, hez, -⟩ := StHeap.exists_of_datum (hdatum₁ ▸ hdz)
  obtain ⟨h₂, hstore₂, hnext₂, hfore₂, hback₂, hdatum₂, hsame₂⟩ := StHeap.store_fore hez (some a)
  refine ⟨h₂, ?_, ⟨hcopy.nodup, hdistinct, ?_, ?_⟩, ?_, ?_⟩
  · simp only [closeRing, StHeap.load_eq hea, Result.ok_bind, hstore₁, StHeap.load_eq hez, hstore₂]
  · rw [hdatum₂, hdatum₁]
    exact hcopy.datum
  · apply Ring.of_isChain hcopy.links hcopy.nodup ha hz
    · intro x hx
      rw [hfore₂, Function.update_of_ne hx, hfore₁]
    · intro y hy
      rw [hback₂, hback₁, Function.update_of_ne hy]
    · exact ⟨by rw [hfore₂, Function.update_self], by rw [hback₂, hback₁, Function.update_self]⟩
  · intro b
    rw [hnext₂, hnext₁]
    exact hcopy.chains b
  · intro p hp _
    rw [hsame₂.mem p fun heq => hp (heq ▸ hzmem), hsame₁.mem p fun heq => hp (heq ▸ hamem)]

/-- One round of `st_copy`. -/
theorem copyFrom_step {pre post : List (StCell D)} {c : StCell D}
    (hring : IsRing type h (pre ++ c :: post)) (hcopy : IsCopy type h numBins bins copies)
    (hdisj : ∀ p ∈ ptrs copies, p ∉ ptrs (pre ++ c :: post)) (head : Option ℕ) (fuel : ℕ) :
    ∃ h' bins', copyFrom head numBins (fuel + 1) (some c.ptr) h bins (ptrs copies).getLast?
        (ptrs copies).head? =
          (if h.fore c.ptr = head then do
            let h'' ← closeRing h' (ptrs (copies ++ [⟨h.brk, c.key, c.record⟩])).head? (some h.brk)
            return (h'', bins', (ptrs (copies ++ [⟨h.brk, c.key, c.record⟩])).head?)
          else copyFrom head numBins fuel (h.fore c.ptr) h' bins' (some h.brk)
            (ptrs (copies ++ [⟨h.brk, c.key, c.record⟩])).head?) ∧
      IsRing type h' (pre ++ c :: post) ∧
      IsCopy type h' numBins bins' (copies ++ [⟨h.brk, c.key, c.record⟩]) ∧
      Frame h h' (ptrs copies) := by
  obtain ⟨e, he, hhash, hkey, hrecord, hfore⟩ := hring.exists_entry_fore (c := c) (by simp)
  obtain ⟨h', htail, hcopy', hframe⟩ := setTail_spec hcopy e (hkey ▸ hhash)
  rw [hkey, hrecord] at htail hcopy'
  refine ⟨h', Function.update bins (binPos e.hash numBins) (some h.brk), ?_, ?_, hcopy', hframe⟩
  · rw [← hfore]
    simp only [copyFrom, StHeap.load_eq he, Result.ok_bind, hkey, hrecord, htail]
  · apply hring.of_mem_eq
    intro p hp
    obtain ⟨e, he⟩ := hring.exists_entry hp
    exact hframe p (fun hin => hdisj p hin hp) (by simp [he])

omit [DecidableEq D] in
theorem getLast?_ptrs_append (copies : List (StCell D)) (c : StCell D) :
    (ptrs (copies ++ [c])).getLast? = some c.ptr := by
  simp

omit [DecidableEq D] in
/-- A new entry was not allocated. -/
theorem mem_ptrs_append_brk (h : StHeap D) (copies : List (StCell D)) (key record : D) :
    ∀ p ∈ ptrs (copies ++ [⟨h.brk, key, record⟩]), p ∈ ptrs copies ∨ h.mem p = none := by
  intro p hp
  rw [ptrs, List.map_append, List.mem_append] at hp
  refine hp.imp_right fun hin => ?_
  obtain rfl : p = h.brk := by simpa using hin
  exact h.fresh _ le_rfl

theorem exists_head?_append {α : Type} (xs : List α) (c : α) : ∃ a, (xs ++ [c]).head? = some a := by
  cases xs with
  | nil => exact ⟨c, rfl⟩
  | cons a xs => exact ⟨a, rfl⟩

/-- Whether keys are equal can be seen from the pairs. -/
theorem pairwise_of_map_pair_eq
    (hd : cells.Pairwise fun c c' => type.equal c.key c'.key = false)
    (heq : copies.map StCell.pair = cells.map StCell.pair) :
    copies.Pairwise fun c c' => type.equal c.key c'.key = false := by
  have hpairs : (cells.map StCell.pair).Pairwise fun x y => type.equal x.1 y.1 = false :=
    List.pairwise_map.mpr hd
  rw [← heq, List.pairwise_map] at hpairs
  exact hpairs

/-- **`st_copy` makes a ring and chains of new entries with the same pairs.** -/
theorem copyFrom_spec {pre post : List (StCell D)} {c : StCell D} {fuel : ℕ}
    (hring : IsRing type h (pre ++ c :: post)) (hcopy : IsCopy type h numBins bins copies)
    (hdisj : ∀ p ∈ ptrs copies, p ∉ ptrs (pre ++ c :: post))
    (hpairs : copies.map StCell.pair = pre.map StCell.pair) (hfuel : post.length < fuel) :
    ∃ h' bins' copies', copyFrom (ptrs (pre ++ c :: post)).head? numBins fuel (some c.ptr) h bins
        (ptrs copies).getLast? (ptrs copies).head? = .ok (h', bins', (ptrs copies').head?) ∧
      copies'.map StCell.pair = (pre ++ c :: post).map StCell.pair ∧ IsRing type h' copies' ∧
      IsChains type h' numBins bins' copies' ∧ Frame h h' (ptrs copies) ∧
      ∀ p ∈ ptrs copies', p ∈ ptrs copies ∨ h.mem p = none := by
  induction post generalizing pre c h bins copies fuel with
  | nil =>
      have hnew := mem_ptrs_append_brk h copies c.key c.record
      obtain ⟨fuel, rfl⟩ : ∃ n, fuel = n + 1 := ⟨fuel - 1, by simp at hfuel; omega⟩
      obtain ⟨h₁, bins₁, heq, hring₁, hcopy₁, hframe₁⟩ :=
        copyFrom_step hring hcopy hdisj (ptrs (pre ++ [c])).head? fuel
      rw [if_pos hring.fore_last] at heq
      have hpairs' : (copies ++ [StCell.mk h.brk c.key c.record]).map StCell.pair =
          (pre ++ [c]).map StCell.pair := by
        simp [hpairs, StCell.pair]
      obtain ⟨a, ha⟩ := exists_head?_append (ptrs copies) h.brk
      obtain ⟨h₂, hclose, hring₂, hchains₂, hframe₂⟩ := closeRing_spec (a := a) (z := h.brk) hcopy₁
        (pairwise_of_map_pair_eq hring.distinct hpairs') (by simpa using ha) (by simp)
      have ha' : (ptrs (copies ++ [StCell.mk h.brk c.key c.record])).head? = some a := by
        simpa using ha
      refine ⟨h₂, bins₁, _, ?_, hpairs', hring₂, hchains₂, hframe₁.trans hframe₂ hnew, hnew⟩
      rw [heq, ha', hclose]
      rfl
  | cons d post ih =>
      have hnew := mem_ptrs_append_brk h copies c.key c.record
      obtain ⟨fuel, rfl⟩ : ∃ n, fuel = n + 1 := ⟨fuel - 1, by simp at hfuel; omega⟩
      obtain ⟨h₁, bins₁, heq, hring₁, hcopy₁, hframe₁⟩ :=
        copyFrom_step hring hcopy hdisj (ptrs (pre ++ c :: d :: post)).head? fuel
      obtain ⟨hfore, hne⟩ := hring.fore_cons
      rw [hfore, if_neg hne.symm, ← getLast?_ptrs_append copies ⟨h.brk, c.key, c.record⟩] at heq
      have hassoc : pre ++ c :: d :: post = pre ++ [c] ++ d :: post := by simp
      have hdisj₁ : ∀ p ∈ ptrs (copies ++ [⟨h.brk, c.key, c.record⟩]),
          p ∉ ptrs (pre ++ c :: d :: post) := by
        intro p hp hold
        rcases hnew p hp with hin | hfree
        · exact hdisj p hin hold
        · obtain ⟨e, he⟩ := hring.exists_entry hold
          simp [he] at hfree
      rw [hassoc] at hring₁ heq hdisj₁ ⊢
      obtain ⟨h₂, bins₂, copies₂, heq₂, hpairs₂, hring₂, hchains₂, hframe₂, hnew₂⟩ :=
        ih hring₁ hcopy₁
        hdisj₁ (by simp [hpairs, StCell.pair]) (by simpa using hfuel)
      refine ⟨h₂, bins₂, copies₂, heq.trans heq₂, hpairs₂, hring₂, hchains₂,
        hframe₁.trans hframe₂ hnew, ?_⟩
      intro p hp
      rcases hnew₂ p hp with hin | hfree
      · exact hnew p hin
      · by_contra hno
        rw [not_or] at hno
        exact hno.2 (hframe₁ p hno.1 hno.2 ▸ hfree)

end Copy

end Specs

end MacRuby
