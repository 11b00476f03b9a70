import MacRuby.Lib.Refinement
import MacRuby.St.Hashed
import MacRuby.St.Packed
import Mathlib.Algebra.Ring.Int.Defs

/-!
# Hash tables are ordered maps

Each operation of `st.c` on a table that holds the pairs of an ordered map answers what the
operation on the map answers, and leaves a table that holds the pairs of the new map. This goes
through the change from packed entries to entries in memory, through `rehash`, and through
deletions on both.

A table is refused memory when the next size is beyond the last of `primes`, which is for an
initial size of 2^30 or more, and when more than `maxEntries` entries are inserted.

## Main definitions

* `IsHashed`, `IsTable` — a table that holds the given pairs.
* `Represents` — tables in one memory that hold the pairs of the given maps.

## Main results

* `stInsert_spec`, `stAddDirect_spec`, `stDelete_spec`, `stLookup_spec`, `stClear_spec`,
  `stCopy_spec`, `stForeach_spec` — the operations.
* `st_conforms` — every run of the operations conforms to the ordered maps.
-/

namespace MacRuby

variable {D : Type} [DecidableEq D]

/-! ## Sizes -/

/-- The last of `primes`. -/
def maxNumBins : ℕ := 1073741824 + 85

/-- The number of entries up to which a table can grow. -/
def maxEntries : ℕ := maxNumBins * (stDefaultMaxDensity + 1)

theorem newSizeFrom_mem {size newsize : ℤ} {ps : List ℕ} {n : ℕ}
    (h : newSizeFrom size ps newsize = some n) : n ∈ ps := by
  induction ps generalizing newsize with
  | nil => cases h
  | cons p ps ih =>
      rw [newSizeFrom] at h
      split_ifs at h
      · rw [Option.some.inj h]
        exact List.mem_cons_self
      · exact List.mem_cons_of_mem _ (ih h)

theorem exists_newSizeFrom {size newsize : ℤ} {p : ℕ} {ps : List ℕ}
    (h : size < newsize * 2 ^ ps.length) : ∃ n, newSizeFrom size (p :: ps) newsize = some n := by
  induction ps generalizing newsize p with
  | nil =>
      have hlt : newsize > size := by simpa using h
      exact ⟨p, if_pos hlt⟩
  | cons q ps ih =>
      by_cases hlt : newsize > size
      · exact ⟨p, if_pos hlt⟩
      · rw [newSizeFrom, if_neg hlt]
        refine ih ?_
        rw [List.length_cons, Int.pow_succ] at h
        rw [Int.mul_comm 2 newsize, Int.mul_assoc, Int.mul_comm 2]
        exact h

/-- Below 2^30 there is a size. -/
theorem exists_newSize {size : ℤ} (h : size < 2 ^ 30) : ∃ n, newSize size = some n ∧
    n ∈ primes := by
  obtain ⟨n, hn⟩ : ∃ n, newSize size = some n := exists_newSizeFrom (by simpa using h)
  exact ⟨n, hn, newSizeFrom_mem hn⟩

/-- There is a next size for every size but the last. -/
theorem exists_newSize_succ {n : ℕ} (hn : n ∈ primes) (hlast : n ≠ maxNumBins) :
    ∃ n', newSize (n + 1) = some n' ∧ n' ∈ primes := by
  have hbound : ∀ n ∈ primes, n ≠ maxNumBins → n + 1 < 2 ^ 30 := by decide
  refine exists_newSize ?_
  have := hbound n hn hlast
  exact_mod_cast this

theorem pos_of_mem_primes {n : ℕ} (hn : n ∈ primes) : 0 < n := by
  have hpos : ∀ n ∈ primes, 0 < n := by decide
  exact hpos n hn

/-- The next size is not much larger. -/
theorem newSize_succ_lt {n n' : ℕ} (hn : n ∈ primes) (hn' : newSize (n + 1) = some n') :
    n' < 12 * n := by
  have hbound : ∀ n ∈ primes, ∀ n' ∈ newSize (n + 1), n' < 12 * n := by decide
  exact hbound n hn n' hn'

/-- There is no size after the last one. -/
theorem newSize_maxNumBins : newSize (maxNumBins + 1) = none := by
  decide

/-! ## What a table holds -/

/-- The table has its entries in memory, as the given cells. -/
structure IsHashed (type : StHashType D) (h : StHeap D) (t : StTable D) (cells : List (StCell D)) :
    Prop where
  bins : ∃ bins, t.bins = .hashed bins ∧ IsChains type h t.numBins bins cells
  ring : IsRing type h cells
  head : t.head = (ptrs cells).head?
  count : t.numEntries = cells.length
  prime : t.numBins ∈ primes

/-- The table holds the given pairs, with the given entries of the memory. -/
inductive IsTable (type : StHashType D) (h : StHeap D) (t : StTable D) :
    List ℕ → List (D × D) → Prop
  | packed {cells : ℕ → D} {pairs : List (D × D)} (hp : IsPacked type t cells pairs)
      (hprime : t.numBins ∈ primes) : IsTable type h t [] pairs
  | hashed {cells : List (StCell D)} (hh : IsHashed type h t cells) :
      IsTable type h t (ptrs cells) (cells.map StCell.pair)

/-- The memory changes in the entries of one table only, which takes no entry of another. -/
structure Changes (h h' : StHeap D) (own own' : List ℕ) : Prop where
  frame : Frame h h' own
  fresh : ∀ p ∈ own', p ∈ own ∨ h.mem p = none

section Changes

variable {h h' h'' : StHeap D} {own own' own'' : List ℕ}

omit [DecidableEq D] in
theorem Changes.refl (hsub : ∀ p ∈ own', p ∈ own) : Changes h h own own' :=
  ⟨fun _ _ _ => rfl, fun p hp => .inl (hsub p hp)⟩

omit [DecidableEq D] in
theorem Changes.trans (hc : Changes h h' own own') (hc' : Changes h' h'' own' own'') :
    Changes h h'' own own'' := by
  refine ⟨hc.frame.trans hc'.frame hc.fresh, ?_⟩
  intro p hp
  rcases hc'.fresh p hp with hin | hfree
  · exact hc.fresh p hin
  · by_contra hno
    rw [not_or] at hno
    exact hno.2 (hc.frame p hno.1 hno.2 ▸ hfree)

end Changes

/-- What insertions do to a table: its entries stay the first ones and stay where they are, and the
array of bins becomes longer only when there are entries for most of it. -/
structure Grows (t t' : StTable D) (own own' : List ℕ) : Prop where
  own : own <+: own'
  count : t.numEntries ≤ t'.numEntries
  bins : t'.numBins = t.numBins ∨ t'.numBins < 2 * t'.numEntries

section Grows

variable {t t' t'' : StTable D} {own own' own'' : List ℕ}

omit [DecidableEq D] in
theorem Grows.refl (t : StTable D) (own : List ℕ) : Grows t t own own :=
  ⟨List.prefix_rfl, le_rfl, .inl rfl⟩

omit [DecidableEq D] in
theorem Grows.trans (hg : Grows t t' own own') (hg' : Grows t' t'' own' own'') :
    Grows t t'' own own'' := by
  refine ⟨hg.own.trans hg'.own, hg.count.trans hg'.count, ?_⟩
  have hcount := hg'.count
  rcases hg'.bins with heq | hlt
  · exact hg.bins.imp heq.trans fun hlt => by omega
  · exact .inr hlt

end Grows

section Specs

variable {type : StHashType D} {h : StHeap D} {t : StTable D} {cells : List (StCell D)}
  {own : List ℕ} {pairs : List (D × D)}

/-- The cells of a ring are allocated. -/
theorem IsRing.alloc (hring : IsRing type h cells) {p : ℕ} (hp : p ∈ ptrs cells) :
    h.mem p ≠ none := by
  obtain ⟨e, he⟩ := hring.exists_entry hp
  simp [he]

theorem IsTable.length_eq (ht : IsTable type h t own pairs) : t.numEntries = pairs.length := by
  cases ht with
  | packed hp _ => exact hp.length_eq
  | hashed hh => rw [hh.count, List.length_map]

theorem IsTable.distinct (ht : IsTable type h t own pairs) :
    pairs.Pairwise fun p q => type.equal p.1 q.1 = false := by
  cases ht with
  | packed hp _ => exact hp.distinct
  | hashed hh => exact List.pairwise_map.mpr hh.ring.distinct

/-- The entries of a table are allocated. -/
theorem IsTable.alloc (ht : IsTable type h t own pairs) : ∀ p ∈ own, h.mem p ≠ none := by
  cases ht with
  | packed _ _ => simp
  | hashed hh => exact fun p hp => hh.ring.alloc hp

/-- A table depends on its own entries only. -/
theorem IsTable.of_mem_eq {h' : StHeap D} (ht : IsTable type h t own pairs)
    (hmem : ∀ p ∈ own, h'.mem p = h.mem p) : IsTable type h' t own pairs := by
  cases ht with
  | packed hp hprime => exact .packed hp hprime
  | hashed hh =>
      obtain ⟨bins, hbins, hchains⟩ := hh.bins
      exact .hashed ⟨⟨bins, hbins, hchains.of_mem_eq hmem⟩, hh.ring.of_mem_eq hmem, hh.head,
        hh.count, hh.prime⟩

/-- The cells around the one with an equal key. -/
theorem cells_cases (type : StHashType D) (cells : List (StCell D)) (key : D) :
    (cells.find? (fun c => type.equal key c.key) = none ∧
      ∀ p ∈ cells.map StCell.pair, type.equal p.1 key = false) ∨
    ∃ pre c post, cells = pre ++ c :: post ∧
      cells.find? (fun c => type.equal key c.key) = some c ∧
      (∀ p ∈ pre.map StCell.pair, type.equal p.1 key = false) ∧ type.equal key c.key = true := by
  cases hfind : cells.find? fun c => type.equal key c.key with
  | none =>
      refine .inl ⟨rfl, ?_⟩
      intro p hp
      obtain ⟨c, hc, rfl⟩ := List.mem_map.mp hp
      rw [StCell.pair, type.equal_comm]
      simpa using List.find?_eq_none.mp hfind c hc
  | some c =>
      obtain ⟨hequal, pre, post, rfl, hpre⟩ := List.find?_eq_some_iff_append.mp hfind
      refine .inr ⟨pre, c, post, rfl, rfl, ?_, hequal⟩
      intro p hp
      obtain ⟨c', hc', rfl⟩ := List.mem_map.mp hp
      rw [StCell.pair, type.equal_comm]
      simpa using hpre c' hc'

/-! ## Lookup -/

/-- What is read from the entry that was found. -/
theorem lookup_found (hdatum : ∀ c ∈ cells, h.datum c.ptr = some (type.hash c.key, c.key, c.record))
    (key : D) :
    (match (cells.find? fun c => type.equal key c.key).map StCell.ptr with
      | none => Except.ok none
      | some p => do
          let e ← h.load (some p)
          return some e.record) = .ok (Assoc.lookup type.equal (cells.map StCell.pair) key) := by
  rcases cells_cases type cells key with ⟨hfind, habsent⟩ | ⟨pre, c, post, rfl, hfind, hpre, hequal⟩
  · rw [hfind, Assoc.lookup_absent habsent]
    rfl
  · obtain ⟨e, he, -, -, hrecord⟩ := StHeap.exists_of_datum (hdatum c (by simp))
    have hload : h.load (some c.ptr) = .ok e := StHeap.load_eq he
    rw [List.map_append, List.map_cons,
      Assoc.lookup_split hpre (p := c.pair) (type.equal_symm hequal)]
    simp only [hfind, Option.map_some, hload, Result.ok_bind]
    rw [hrecord]
    rfl

/-- **`st_lookup` answers what is stored in the map.** -/
theorem stLookup_spec (ht : IsTable type h t own pairs) (key : D) :
    stLookup type h t key = .ok (Assoc.lookup type.equal pairs key) := by
  cases ht with
  | packed hp _ =>
      simp only [stLookup, hp.bins]
      rcases hp.index_cases key with ⟨hindex, habsent⟩ | ⟨pre, value, post, rfl, hindex, hval, hpre⟩
      · rw [hindex, Assoc.lookup_absent habsent]
        rfl
      · rw [hindex, Assoc.lookup_split hpre (type.equal_refl key)]
        exact congrArg (fun v => Except.ok (some v)) hval
  | @hashed cells hh =>
      obtain ⟨bins, hbins, hchains⟩ := hh.bins
      have hfuel : cells.length < h.brk + 1 := Nat.lt_succ_of_le hh.ring.length_le
      simp only [stLookup, hbins, findEntryFrom_spec hh.ring hchains key hfuel, Result.ok_bind]
      exact lookup_found hh.ring.datum key

/-! ## Insertion -/

/-- `rehash` keeps the entries and finds more bins for them. -/
theorem rehash_spec (hh : IsHashed type h t cells) (hlast : t.numBins ≠ maxNumBins) :
    ∃ h' t', rehash h t = .ok (h', t') ∧ IsHashed type h' t' cells ∧ Frame h h' (ptrs cells) ∧
      t'.numBins < 12 * t.numBins := by
  obtain ⟨n, hn, hprime⟩ := exists_newSize_succ hh.prime hlast
  have hlt := newSize_succ_lt hh.prime hn
  have hhead := hh.head
  cases cells with
  | nil =>
      refine ⟨h, { t with numBins := n, bins := .hashed fun _ => none }, ?_, ?_, fun _ _ _ => rfl,
        hlt⟩
      · have hbins : rehashBins h t n = .ok (h, fun _ => none) := by
          simp [rehashBins, hhead]
        simp only [rehash, hn, hbins, Result.ok_bind]
        rfl
      · exact ⟨⟨_, rfl, fun _ => rfl⟩, hh.ring, hhead, hh.count, hprime⟩
  | cons c cells =>
      obtain ⟨h', bins', heq, hring', hchains', hframe⟩ := rehashFrom_spec
        (show IsRing type h ([] ++ c :: cells) from hh.ring)
        (show IsChains type h n (fun _ => none) [] from fun _ => rfl)
        (show cells.length < t.numEntries + 1 by rw [hh.count, List.length_cons]; omega)
      refine ⟨h', { t with numBins := n, bins := .hashed bins' }, ?_, ?_, hframe, hlt⟩
      · have hbins : rehashBins h t n = .ok (h', bins') := by
          simp only [rehashBins, hhead]
          exact heq
        simp only [rehash, hn, hbins, Result.ok_bind]
        rfl
      · exact ⟨⟨_, rfl, hchains'⟩, hring', hhead, hh.count, hprime⟩

/-- The part of `ADD_DIRECT` after `rehash`. -/
theorem IsHashed.link (hh : IsHashed type h t cells) {key : D}
    (habsent : ∀ p ∈ cells.map StCell.pair, type.equal p.1 key = false) (value : D) :
    ∃ h' t', (t.chains >>= fun bins => linkEntry h t bins key value (type.hash key)) =
        .ok (h', t') ∧
      IsHashed type h' t' (cells ++ [⟨h.brk, key, value⟩]) ∧ Frame h h' (ptrs cells) ∧
      t'.numBins = t.numBins := by
  obtain ⟨bins, hbins, hchains⟩ := hh.bins
  have hkey : ∀ c ∈ cells, type.equal key c.key = false := by
    intro c hc
    rw [type.equal_comm]
    exact habsent c.pair (List.mem_map_of_mem hc)
  obtain ⟨h', bins', heq, hring', hchains', hframe⟩ :=
    linkEntry_spec hh.ring hchains hh.head hkey value
  have hchained : t.chains = .ok bins := by rw [StTable.chains, hbins]
  rw [hchained, Result.ok_bind]
  refine ⟨h', _, heq, ⟨⟨bins', rfl, hchains'⟩, hring', rfl, ?_, hh.prime⟩, hframe, rfl⟩
  simp [hh.count]

/-- One more entry, in a table whose bins have become more only where they had to. -/
theorem IsHashed.grows_append {h' : StHeap D} {t' : StTable D} {c : StCell D}
    (hh : IsHashed type h t cells) (hh' : IsHashed type h' t' (cells ++ [c]))
    (hbins : t'.numBins = t.numBins ∨ t'.numBins < 2 * t'.numEntries) :
    Grows t t' (ptrs cells) (ptrs (cells ++ [c])) := by
  refine ⟨?_, ?_, hbins⟩
  · rw [ptrs, ptrs, List.map_append]
    exact List.prefix_append _ _
  · rw [hh.count, hh'.count, List.length_append]
    omega

/-- **`ADD_DIRECT` puts a new entry behind all others**, or is refused memory. -/
theorem addDirect_cases (hh : IsHashed type h t cells) {key : D}
    (habsent : ∀ p ∈ cells.map StCell.pair, type.equal p.1 key = false) (value : D) :
    (addDirect h t key value (type.hash key) = .error .noMemory ∧ maxEntries ≤ t.numEntries) ∨
    ∃ h' t' cells', addDirect h t key value (type.hash key) = .ok (h', t') ∧
      IsHashed type h' t' cells' ∧
      cells'.map StCell.pair = cells.map StCell.pair ++ [(key, value)] ∧
      Changes h h' (ptrs cells) (ptrs cells') ∧ Grows t t' (ptrs cells) (ptrs cells') := by
  by_cases hdensity : t.numEntries / t.numBins > stDefaultMaxDensity
  · have hmany : t.numBins * (stDefaultMaxDensity + 1) ≤ t.numEntries :=
      (Nat.mul_le_mul_left _ hdensity).trans (Nat.mul_div_le _ _)
    by_cases hlast : t.numBins = maxNumBins
    · have hrehash : rehash h t = .error .noMemory := by
        simp only [rehash, hlast, newSize_maxNumBins]
      refine .inl ⟨?_, by rwa [hlast] at hmany⟩
      rw [addDirect, if_pos hdensity, hrehash]
      rfl
    · right
      obtain ⟨h₁, t₁, heq₁, hh₁, hframe₁, hlt₁⟩ := rehash_spec hh hlast
      obtain ⟨h₂, t₂, heq₂, hh₂, hframe₂, hbins₂⟩ := hh₁.link habsent value
      refine ⟨h₂, t₂, _, ?_, hh₂, by simp [StCell.pair], ?_, hh.grows_append hh₂ (.inr ?_)⟩
      · rw [addDirect, if_pos hdensity, heq₁, Result.ok_bind]
        exact heq₂
      · have hrehash : Changes h h₁ (ptrs cells) (ptrs cells) := ⟨hframe₁, fun _ hp => .inl hp⟩
        exact hrehash.trans ⟨hframe₂, mem_ptrs_append_brk h₁ cells key value⟩
      · rw [hbins₂, hh₂.count, List.length_append, ← hh.count]
        rw [stDefaultMaxDensity] at hmany
        omega
  · right
    obtain ⟨h', t', heq, hh', hframe, hbins⟩ := hh.link habsent value
    refine ⟨h', t', _, ?_, hh', by simp [StCell.pair],
      ⟨hframe, mem_ptrs_append_brk h cells key value⟩, hh.grows_append hh' (.inl hbins)⟩
    rw [addDirect, if_neg hdensity]
    exact heq

/-- **`ADD_DIRECT` puts a new entry behind all others.** -/
theorem addDirect_spec (hh : IsHashed type h t cells) (hmax : t.numEntries < maxEntries)
    {key : D} (habsent : ∀ p ∈ cells.map StCell.pair, type.equal p.1 key = false) (value : D) :
    ∃ h' t' cells', addDirect h t key value (type.hash key) = .ok (h', t') ∧
      IsHashed type h' t' cells' ∧
      cells'.map StCell.pair = cells.map StCell.pair ++ [(key, value)] ∧
      Changes h h' (ptrs cells) (ptrs cells') ∧ Grows t t' (ptrs cells) (ptrs cells') :=
  (addDirect_cases hh habsent value).resolve_left fun hrefused =>
    Nat.not_le.mpr hmax hrefused.2

/-- A new record in an entry. -/
theorem IsHashed.setRecord {pre post : List (StCell D)} {c : StCell D} {e : StEntry D}
    (hh : IsHashed type h t (pre ++ c :: post)) (he : h.mem c.ptr = some e) (value : D) :
    ∃ h', h.store (some c.ptr) { e with record := value } = .ok h' ∧
      IsHashed type h' t (pre ++ { c with record := value } :: post) ∧
      Changes h h' (ptrs (pre ++ c :: post))
        (ptrs (pre ++ { c with record := value } :: post)) := by
  obtain ⟨bins, hbins, hchains⟩ := hh.bins
  obtain ⟨h', hstore, hnext, hfore, hback, hdatum, hsame⟩ := StHeap.store_record he value
  have hptrs : ptrs (pre ++ { c with record := value } :: post) = ptrs (pre ++ c :: post) := by
    simp [ptrs]
  have hbin : ∀ b, ptrs (inBin type t.numBins b (pre ++ { c with record := value } ::
    post)).reverse =
      ptrs (inBin type t.numBins b (pre ++ c :: post)).reverse := by
    intro b
    simp only [inBin, List.filter_append, List.filter_cons]
    split_ifs <;> simp [ptrs]
  refine ⟨h', hstore, ⟨⟨bins, hbins, ?_⟩, ⟨?_, ?_, ?_, ?_⟩, ?_, ?_, hh.prime⟩, ?_⟩
  · intro b
    rw [hbin, hnext]
    exact hchains b
  · rw [hptrs]
    exact hh.ring.nodup
  · have hkeys : ((pre ++ c :: post).map StCell.key).Pairwise fun x y => type.equal x y = false :=
      List.pairwise_map.mpr hh.ring.distinct
    have hkeys' : ((pre ++ { c with record := value } :: post).map StCell.key).Pairwise
        fun x y => type.equal x y = false := by
      simpa using hkeys
    exact List.pairwise_map.mp hkeys'
  · have hc := hh.ring.datum c (by simp)
    have hnodup := hh.ring.nodup
    rw [ptrs, List.map_append, List.map_cons, List.nodup_middle, List.nodup_cons,
      ← List.map_append] at hnodup
    have hentry : some (e.hash, e.key, e.record) = some (type.hash c.key, c.key, c.record) := by
      rw [← hc, StHeap.datum, he, Option.map_some]
    simp only [Option.some.injEq, Prod.mk.injEq] at hentry
    rw [hdatum]
    intro c' hc'
    rcases List.mem_append.mp hc' with hin | hin
    · have hne : c'.ptr ≠ c.ptr := fun heq =>
        hnodup.1 (heq ▸ List.mem_map_of_mem (List.mem_append_left _ hin))
      rw [Function.update_of_ne hne, hh.ring.datum c' (by simp [hin])]
    · rcases List.mem_cons.mp hin with rfl | hin
      · rw [Function.update_self, hentry.1, hentry.2.1]
      · have hne : c'.ptr ≠ c.ptr := fun heq =>
          hnodup.1 (heq ▸ List.mem_map_of_mem (List.mem_append_right _ hin))
        rw [Function.update_of_ne hne, hh.ring.datum c' (by simp [hin])]
  · rw [hptrs, hfore, hback]
    exact hh.ring.ring
  · rw [hptrs]
    exact hh.head
  · rw [hh.count]
    simp
  · refine ⟨.of_sameBut hsame (by simp), ?_⟩
    rw [hptrs]
    exact fun p hp => .inl hp

/-- **`st_insert` on entries in memory**, unless it is refused memory for a new one. -/
theorem insertHashed_cases (hh : IsHashed type h t cells) (key value : D) :
    (insertHashed type h t key value = .error .noMemory ∧ maxEntries ≤ t.numEntries ∧
      Assoc.lookup type.equal (cells.map StCell.pair) key = none) ∨
    ∃ h' t' cells', insertHashed type h t key value =
        .ok ((Assoc.lookup type.equal (cells.map StCell.pair) key).isSome, h', t') ∧
      IsHashed type h' t' cells' ∧
      cells'.map StCell.pair = Assoc.store type.equal (cells.map StCell.pair) key value ∧
      Changes h h' (ptrs cells) (ptrs cells') ∧ Grows t t' (ptrs cells) (ptrs cells') := by
  obtain ⟨bins, hbins, hchains⟩ := hh.bins
  have hchained : t.chains = .ok bins := by rw [StTable.chains, hbins]
  have hfuel : cells.length < h.brk + 1 := Nat.lt_succ_of_le hh.ring.length_le
  simp only [insertHashed, hchained, Result.ok_bind, findEntryFrom_spec hh.ring hchains key hfuel]
  rcases cells_cases type cells key with ⟨hfind, habsent⟩ | ⟨pre, c, post, rfl, hfind, hpre, hequal⟩
  · have hlookup := Assoc.lookup_absent habsent
    rcases addDirect_cases hh habsent value with ⟨hrefused, hmax⟩ |
      ⟨h', t', cells', heq, hh', hpairs, hchange, hgrows⟩
    · left
      refine ⟨?_, hmax, hlookup⟩
      simp only [hfind, Option.map_none, hrefused]
      rfl
    · right
      refine ⟨h', t', cells', ?_, hh', ?_, hchange, hgrows⟩
      · simp only [hfind, Option.map_none, heq, Result.ok_bind, hlookup]
        rfl
      · rw [hpairs, Assoc.store_absent habsent]
  · right
    obtain ⟨e, he, -⟩ := hh.ring.exists_entry_fore (c := c) (by simp)
    obtain ⟨h', hstore, hh', hchange⟩ := hh.setRecord he value
    have hp : type.equal c.pair.1 key = true := type.equal_symm hequal
    have hptrs : ptrs (pre ++ { c with record := value } :: post) = ptrs (pre ++ c :: post) := by
      simp [ptrs]
    rw [List.map_append, List.map_cons, Assoc.lookup_split hpre hp, Assoc.store_split hpre hp]
    refine ⟨h', t, _, ?_, hh', by simp [StCell.pair], hchange, hptrs ▸ .refl t _⟩
    simp only [hfind, Option.map_some, StHeap.load_eq he, Result.ok_bind, hstore]
    rfl

/-- **`st_insert` on entries in memory.** -/
theorem insertHashed_spec (hh : IsHashed type h t cells) (key : D)
    (hmax : t.numEntries < maxEntries ∨
      Assoc.lookup type.equal (cells.map StCell.pair) key ≠ none) (value : D) :
    ∃ h' t' cells', insertHashed type h t key value =
        .ok ((Assoc.lookup type.equal (cells.map StCell.pair) key).isSome, h', t') ∧
      IsHashed type h' t' cells' ∧
      cells'.map StCell.pair = Assoc.store type.equal (cells.map StCell.pair) key value ∧
      Changes h h' (ptrs cells) (ptrs cells') ∧ Grows t t' (ptrs cells) (ptrs cells') := by
  refine (insertHashed_cases hh key value).resolve_left fun hrefused => ?_
  exact hmax.elim (Nat.not_lt.mpr hrefused.2.1) fun hne => hne hrefused.2.2

/-- The loop of `unpack_entries` inserts pairs behind those there. -/
theorem insertAll_spec (hh : IsHashed type h t cells)
    (hdistinct : (cells.map StCell.pair ++ pairs).Pairwise fun p q => type.equal p.1 q.1 = false)
    (hmax : t.numEntries + pairs.length ≤ maxEntries) :
    ∃ h' t' cells', insertAll type pairs h t = .ok (h', t') ∧ IsHashed type h' t' cells' ∧
      cells'.map StCell.pair = cells.map StCell.pair ++ pairs ∧
      Changes h h' (ptrs cells) (ptrs cells') ∧ Grows t t' (ptrs cells) (ptrs cells') := by
  induction pairs generalizing h t cells with
  | nil => exact ⟨h, t, cells, rfl, hh, by simp, .refl fun _ hp => hp, .refl t _⟩
  | cons p pairs ih =>
      obtain ⟨key, value⟩ := p
      rw [List.length_cons] at hmax
      have habsent : ∀ q ∈ cells.map StCell.pair, type.equal q.1 key = false := fun q hq =>
        (List.pairwise_append.mp hdistinct).2.2 q hq (key, value) List.mem_cons_self
      obtain ⟨h₁, t₁, cells₁, heq₁, hh₁, hpairs₁, hchange₁, hgrows₁⟩ :=
        insertHashed_spec hh key (.inl (by omega)) value
      rw [Assoc.store_absent habsent] at hpairs₁
      have hcount : t₁.numEntries = t.numEntries + 1 := by
        have hlen := congrArg List.length hpairs₁
        simp only [List.length_map, List.length_append, List.length_singleton] at hlen
        rw [hh₁.count, hlen, hh.count]
      obtain ⟨h₂, t₂, cells₂, heq₂, hh₂, hpairs₂, hchange₂, hgrows₂⟩ := ih hh₁
        (by simpa [hpairs₁] using hdistinct) (by omega)
      refine ⟨h₂, t₂, cells₂, ?_, hh₂, by simp [hpairs₂, hpairs₁], hchange₁.trans hchange₂,
        hgrows₁.trans hgrows₂⟩
      simp only [insertAll, heq₁, Result.ok_bind]
      exact heq₂

/-- **`unpack_entries` keeps the pairs in their order.** -/
theorem unpackEntries_spec {arr : ℕ → D} (hp : IsPacked type t arr pairs)
    (hprime : t.numBins ∈ primes) :
    ∃ h' t' cells, unpackEntries type h t arr = .ok (h', t') ∧ IsHashed type h' t' cells ∧
      cells.map StCell.pair = pairs ∧ Changes h h' [] (ptrs cells) ∧
      Grows t t' [] (ptrs cells) := by
  have hempty : IsHashed type h { t with numEntries := 0, bins := .hashed fun _ => none } [] :=
    ⟨⟨_, rfl, fun _ => rfl⟩, ⟨.nil, .nil, by simp, .nil⟩, hp.head, rfl, hprime⟩
  have hmax : 0 + pairs.length ≤ maxEntries := by
    rw [Nat.zero_add, ← hp.length_eq]
    exact Nat.le_trans hp.small (by decide)
  obtain ⟨h', t', cells, heq, hh, hpairs, hchange, hgrows⟩ :=
    insertAll_spec hempty hp.distinct hmax
  refine ⟨h', t', cells, ?_, hh, hpairs, hchange, hgrows.own, ?_, hgrows.bins⟩
  · rw [unpackEntries, hp.pairs_eq]
    exact heq
  · have hlen := congrArg List.length hpairs
    rw [List.length_map] at hlen
    rw [hh.count, hlen, hp.length_eq]
    simp

/-- A packed table is far from the largest one. -/
theorem IsPacked.lt_maxEntries {arr : ℕ → D} (hp : IsPacked type t arr pairs) :
    pairs.length < maxEntries := by
  rw [← hp.length_eq]
  exact Nat.lt_of_le_of_lt hp.small (by decide)

/-- `st_insert` on packed entries with room for a new one. -/
theorem IsPacked.insert {arr : ℕ → D} (hp : IsPacked type t arr pairs) (key value : D)
    (hroom : t.hasRoom = true ∨ Assoc.lookup type.equal pairs key ≠ none) :
    ∃ t' arr', stInsert type h t key value =
        .ok ((Assoc.lookup type.equal pairs key).isSome, h, t') ∧
      IsPacked type t' arr' (Assoc.store type.equal pairs key value) ∧ t'.numBins = t.numBins ∧
      t.numEntries ≤ t'.numEntries := by
  rcases hp.index_cases key with ⟨hindex, habsent⟩ | ⟨pre, v, post, rfl, hindex, hval, hpre⟩
  · have hroom' : t.hasRoom = true := hroom.resolve_right (by simp [Assoc.lookup_absent habsent])
    rw [Assoc.lookup_absent habsent, Assoc.store_absent habsent]
    refine ⟨packedAppend t _ key value, _, ?_, hp.append habsent hroom', rfl, Nat.le_succ _⟩
    simp only [stInsert, hp.bins, hindex, if_pos hroom']
    rfl
  · have hequal := type.equal_refl key
    rw [Assoc.lookup_split hpre hequal, Assoc.store_split hpre hequal]
    refine ⟨_, _, ?_, hp.update value, rfl, le_rfl⟩
    simp only [stInsert, hp.bins, hindex]
    rfl

/-- `st_insert` of a key for which packed entries have no room. -/
theorem IsPacked.unpack {arr : ℕ → D} (hp : IsPacked type t arr pairs)
    (hprime : t.numBins ∈ primes) {key : D} (hroom : t.hasRoom = false)
    (hnew : Assoc.lookup type.equal pairs key = none) (value : D) :
    ∃ h' t' cells, stInsert type h t key value =
        .ok ((Assoc.lookup type.equal pairs key).isSome, h', t') ∧ IsHashed type h' t' cells ∧
      cells.map StCell.pair = Assoc.store type.equal pairs key value ∧
      Changes h h' [] (ptrs cells) ∧ Grows t t' [] (ptrs cells) := by
  have hindex : packedIndex arr t.numEntries key = none := by
    rcases hp.index_cases key with ⟨hindex, -⟩ | ⟨pre, v, post, rfl, -, -, hpre⟩
    · exact hindex
    · rw [Assoc.lookup_split hpre (show type.equal (key, v).1 key = true from type.equal_refl key)]
        at hnew
      cases hnew
  obtain ⟨h₁, t₁, cells, hunpack, hh₁, rfl, hchange₁, hgrows₁⟩ :=
    unpackEntries_spec (h := h) hp hprime
  have hmax₁ : t₁.numEntries < maxEntries := by
    rw [hh₁.count, ← List.length_map StCell.pair]
    exact hp.lt_maxEntries
  obtain ⟨h₂, t₂, cells₂, heq, hh₂, hpairs, hchange₂, hgrows₂⟩ :=
    insertHashed_spec hh₁ key (.inl hmax₁) value
  refine ⟨h₂, t₂, cells₂, ?_, hh₂, hpairs, hchange₁.trans hchange₂, hgrows₁.trans hgrows₂⟩
  simp only [stInsert, hp.bins, hindex, hroom, hunpack, Result.ok_bind]
  exact heq

/-- **`st_insert` stores the value in the map**, unless it is refused memory for a new key. -/
theorem stInsert_cases (ht : IsTable type h t own pairs) (key value : D) :
    (stInsert type h t key value = .error .noMemory ∧ maxEntries ≤ t.numEntries ∧
      Assoc.lookup type.equal pairs key = none) ∨
    ∃ h' t' own', stInsert type h t key value =
        .ok ((Assoc.lookup type.equal pairs key).isSome, h', t') ∧
      IsTable type h' t' own' (Assoc.store type.equal pairs key value) ∧ Changes h h' own own' ∧
      Grows t t' own own' := by
  cases ht with
  | packed hp hprime =>
      right
      by_cases hroom : t.hasRoom = true ∨ Assoc.lookup type.equal pairs key ≠ none
      · obtain ⟨t', arr', heq, hp', hbins, hcount⟩ := hp.insert key value hroom
        exact ⟨h, t', [], heq, .packed hp' (hbins ▸ hprime), .refl fun _ hp => hp,
          List.prefix_rfl, hcount, .inl hbins⟩
      · rw [not_or, not_not, Bool.not_eq_true] at hroom
        obtain ⟨h', t', cells, heq, hh', hpairs, hchange, hgrows⟩ :=
          hp.unpack hprime hroom.1 hroom.2 value
        exact ⟨h', t', ptrs cells, heq, hpairs ▸ .hashed hh', hchange, hgrows⟩
  | @hashed cells hh =>
      obtain ⟨bins, hbins, -⟩ := hh.bins
      simp only [stInsert, hbins]
      refine (insertHashed_cases hh key value).imp_right fun hstored => ?_
      obtain ⟨h', t', cells', heq, hh', hpairs, hchange, hgrows⟩ := hstored
      exact ⟨h', t', ptrs cells', heq, hpairs ▸ .hashed hh', hchange, hgrows⟩

/-- **`st_insert` stores the value in the map.** -/
theorem stInsert_spec (ht : IsTable type h t own pairs) {key : D}
    (hmax : t.numEntries < maxEntries ∨ Assoc.lookup type.equal pairs key ≠ none) (value : D) :
    ∃ h' t' own', stInsert type h t key value =
        .ok ((Assoc.lookup type.equal pairs key).isSome, h', t') ∧
      IsTable type h' t' own' (Assoc.store type.equal pairs key value) ∧ Changes h h' own own' := by
  rcases stInsert_cases ht key value with ⟨-, hfull, hnew⟩ | ⟨h', t', own', heq, ht', hchange, -⟩
  · exact absurd hnew (hmax.resolve_left (Nat.not_lt.mpr hfull))
  · exact ⟨h', t', own', heq, ht', hchange⟩

/-- **`st_add_direct` puts a new key at the end of the map.** -/
theorem stAddDirect_spec (ht : IsTable type h t own pairs) (hmax : t.numEntries < maxEntries)
    {key : D} (habsent : ∀ p ∈ pairs, type.equal p.1 key = false) (value : D) :
    ∃ h' t' own', stAddDirect type h t key value = .ok (h', t') ∧
      IsTable type h' t' own' (pairs ++ [(key, value)]) ∧ Changes h h' own own' := by
  cases ht with
  | packed hp hprime =>
      by_cases hroom : t.hasRoom = true
      · refine ⟨h, packedAppend t _ key value, [], ?_,
          .packed (hp.append habsent hroom) hprime, .refl fun _ hp => hp⟩
        simp only [stAddDirect, hp.bins, if_pos hroom]
      · obtain ⟨h₁, t₁, cells, hunpack, hh₁, rfl, hchange₁, -⟩ :=
          unpackEntries_spec (h := h) hp hprime
        have hmax₁ : t₁.numEntries < maxEntries := by
          rw [hh₁.count, ← List.length_map StCell.pair]
          exact hp.lt_maxEntries
        obtain ⟨h₂, t₂, cells₂, heq, hh₂, hpairs, hchange₂, -⟩ :=
          addDirect_spec hh₁ hmax₁ habsent value
        refine ⟨h₂, t₂, ptrs cells₂, ?_, hpairs ▸ .hashed hh₂, hchange₁.trans hchange₂⟩
        simp only [stAddDirect, hp.bins, if_neg hroom, hunpack, Result.ok_bind]
        exact heq
  | hashed hh =>
      obtain ⟨bins, hbins, -⟩ := hh.bins
      obtain ⟨h', t', cells', heq, hh', hpairs, hchange, -⟩ :=
        addDirect_spec hh hmax habsent value
      refine ⟨h', t', ptrs cells', ?_, hpairs ▸ .hashed hh', hchange⟩
      simp only [stAddDirect, hbins]
      exact heq

/-! ## Deletion -/

/-- An entry is taken out of a table. -/
theorem IsHashed.unlink {pre post : List (StCell D)} {c : StCell D}
    {bins : ℕ → Option ℕ} {e : StEntry D} (found : ℕ → StEntry D → Bool)
    (hh : IsHashed type h t (pre ++ c :: post)) (hbins : t.bins = .hashed bins)
    (he : h.mem c.ptr = some e)
    (hnot : ∀ c' ∈ post, ∀ e, h.mem c'.ptr = some e → e.key = c'.key → found c'.ptr e = false)
    (hfound : found c.ptr e = true) :
    ∃ h₁ bins' h₂ h₃ t',
      unlinkFrom found (binPos (type.hash c.key) t.numBins) (t.numEntries + 1) none
        (bins (binPos (type.hash c.key) t.numBins)) h bins = .ok (some (c.ptr, e, h₁, bins')) ∧
      removeEntry h₁ { t with bins := .hashed bins' } c.ptr = .ok (h₂, t') ∧
      h₂.free c.ptr = .ok h₃ ∧ IsHashed type h₃ t' (pre ++ post) ∧
      Changes h h₃ (ptrs (pre ++ c :: post)) (ptrs (pre ++ post)) := by
  obtain ⟨bins₀, hbins₀, hchains⟩ := hh.bins
  obtain rfl : bins = bins₀ := by
    rw [hbins] at hbins₀
    exact StBins.hashed.inj hbins₀
  have hcount := hh.count
  rw [List.length_append, List.length_cons] at hcount
  obtain ⟨h₁, bins', h₂, h₃, hunlink, hremove, hfree, hring, hchains', hframe⟩ :=
    unlink_remove_free hh.ring hchains hh.head rfl he hnot hfound
      (show post.length < t.numEntries + 1 by omega)
  refine ⟨h₁, bins', h₂, h₃, _, hunlink, hremove, hfree,
    ⟨⟨bins', rfl, hchains'⟩, hring, rfl, ?_, hh.prime⟩, hframe, ?_⟩
  · rw [List.length_append]
    simp only
    omega
  · intro p hp
    left
    rw [ptrs, List.map_append, List.mem_append] at hp
    rw [ptrs, List.map_append, List.map_cons, List.mem_append, List.mem_cons]
    exact hp.imp_right .inr

/-- An entry that is looked for by its address is taken out of a table. -/
theorem IsHashed.unlink_ptr {pre post : List (StCell D)} {c : StCell D} {bins : ℕ → Option ℕ}
    {e : StEntry D} (hh : IsHashed type h t (pre ++ c :: post)) (hbins : t.bins = .hashed bins)
    (he : h.mem c.ptr = some e) :
    ∃ h₁ bins' h₂ h₃ t',
      unlinkFrom (fun p _ => decide (some p = some c.ptr)) (binPos (type.hash c.key) t.numBins)
        (t.numEntries + 1) none (bins (binPos (type.hash c.key) t.numBins)) h bins =
          .ok (some (c.ptr, e, h₁, bins')) ∧
      removeEntry h₁ { t with bins := .hashed bins' } c.ptr = .ok (h₂, t') ∧
      h₂.free c.ptr = .ok h₃ ∧ IsHashed type h₃ t' (pre ++ post) ∧
      Changes h h₃ (ptrs (pre ++ c :: post)) (ptrs (pre ++ post)) := by
  apply hh.unlink (fun p _ => decide (some p = some c.ptr)) hbins he
  · intro c' hc' _ _ _
    have hnodup := hh.ring.nodup
    rw [ptrs, List.map_append, List.map_cons, List.nodup_middle, List.nodup_cons] at hnodup
    have hne : c'.ptr ≠ c.ptr := fun heq =>
      hnodup.1 (heq ▸ List.mem_append_right _ (List.mem_map_of_mem hc'))
    simpa using hne
  · simp

/-- **`st_delete` removes the pair of the key from the map.** -/
theorem stDelete_spec [Zero D] (ht : IsTable type h t own pairs) (key : D) :
    ∃ h' t' own', stDelete type h t key =
        .ok (((Assoc.entry type.equal pairs key).isSome,
          (Assoc.entry type.equal pairs key).getD (key, 0)), h', t') ∧
      IsTable type h' t' own' (Assoc.remove type.equal pairs key) ∧ Changes h h' own own' := by
  cases ht with
  | packed hp hprime =>
      rcases hp.index_cases key with ⟨hindex, habsent⟩ | ⟨pre, v, post, rfl, hindex, hval, hpre⟩
      · rw [Assoc.entry_absent habsent, Assoc.remove_absent habsent]
        refine ⟨h, t, [], ?_, .packed hp hprime, .refl fun _ hp => hp⟩
        simp only [stDelete, hp.bins, hindex]
        rfl
      · have hequal := type.equal_refl key
        rw [Assoc.entry_split hpre hequal, Assoc.remove_split hpre hequal]
        obtain ⟨cells', hp'⟩ := hp.remove
        refine ⟨h, _, [], ?_, .packed hp' hprime, .refl fun _ hp => hp⟩
        simp only [stDelete, hp.bins, hindex, hval]
        rfl
  | @hashed cells hh =>
      obtain ⟨bins, hbins, hchains⟩ := hh.bins
      rcases cells_cases type cells key with ⟨-, habsent⟩ | ⟨pre, c, post, rfl, -, hpre, hequal⟩
      · rw [Assoc.entry_absent habsent, Assoc.remove_absent habsent]
        refine ⟨h, t, _, ?_, .hashed hh, .refl fun _ hp => hp⟩
        have hnone : unlinkFrom (fun _ e => type.equal key e.key) (binPos (type.hash key) t.numBins)
            (t.numEntries + 1) none (bins (binPos (type.hash key) t.numBins)) h bins
              = .ok none := by
          refine unlinkFrom_none (hchains (binPos (type.hash key) t.numBins))
            (fun q hq => hh.ring.alloc (mem_ptrs_of_mem_inBin hq)) ?_ ?_
          · intro q hq e he
            obtain ⟨c, hc, rfl⟩ := List.mem_map.mp (mem_ptrs_of_mem_inBin hq)
            obtain ⟨e', he', -, hkey, -⟩ := hh.ring.exists_entry_fore hc
            obtain rfl : e' = e := Option.some.inj (he'.symm.trans he)
            rw [hkey, type.equal_comm]
            exact habsent c.pair (List.mem_map_of_mem hc)
          · rw [List.length_map, List.length_reverse, hh.count]
            exact Nat.lt_succ_of_le (List.length_filter_le _ _)
        simp only [stDelete, hbins, hnone, Result.ok_bind]
        rfl
      · obtain ⟨e, he, -, hkey, hrecord, -⟩ := hh.ring.exists_entry_fore (c := c) (by simp)
        have hequal' : type.equal c.pair.1 key = true := type.equal_symm hequal
        rw [List.map_append, List.map_cons, Assoc.entry_split hpre hequal',
          Assoc.remove_split hpre hequal', ← List.map_append]
        have hnot : ∀ c' ∈ post, ∀ e, h.mem c'.ptr = some e → e.key = c'.key →
            type.equal key e.key = false := by
          intro c' hc' e' _ hkey'
          rw [hkey']
          by_contra heq
          have hd := (List.pairwise_append.mp hh.ring.distinct).2.1
          have hfalse := (List.pairwise_cons.mp hd).1 c' hc'
          rw [type.equal_trans (type.equal_symm hequal) (by simpa using heq)] at hfalse
          cases hfalse
        obtain ⟨h₁, bins', h₂, h₃, t', hunlink, hremove, hfree, hh', hchange⟩ :=
          hh.unlink (fun _ e => type.equal key e.key) hbins he hnot (hkey ▸ hequal)
        refine ⟨h₃, t', _, ?_, .hashed hh', hchange⟩
        have hbin : binPos (type.hash key) t.numBins = binPos (type.hash c.key) t.numBins := by
          rw [type.hash_eq hequal]
        simp only [stDelete, hbins, hbin, hunlink, Result.ok_bind, hremove, hfree, hkey, hrecord]
        rfl

/-! ## Clearing and copying -/

/-- **`st_clear` leaves the empty map.** -/
theorem stClear_spec (ht : IsTable type h t own pairs) :
    ∃ h' t' own', stClear h t = .ok (h', t') ∧ IsTable type h' t' own' [] ∧
      Changes h h' own own' := by
  cases ht with
  | packed hp hprime =>
      refine ⟨h, { t with numEntries := 0 }, [], by simp only [stClear, hp.bins], ?_,
        .refl fun _ hp => hp⟩
      exact .packed ⟨hp.bins, hp.numhash, hp.head, rfl, .nil, Nat.zero_le _, hp.few⟩ hprime
  | @hashed cells hh =>
      obtain ⟨bins, hbins, hchains⟩ := hh.bins
      obtain ⟨h', hfree, hmem⟩ := freeChains_spec hh.ring hchains
        (show cells.length < t.numEntries + 1 by simp [hh.count]) t.numBins
      have hempty : IsHashed type h'
          { t with bins := .hashed fun _ => none, numEntries := 0, head := none } [] :=
        ⟨⟨_, rfl, fun _ => rfl⟩, ⟨.nil, .nil, by simp, .nil⟩, rfl, rfl, hh.prime⟩
      refine ⟨h', _, [], ?_, .hashed hempty, ?_, by simp⟩
      · simp only [stClear, hbins, hfree, Result.ok_bind]
        rfl
      · intro p hp _
        exact hmem p fun b _ hin => hp (mem_ptrs_of_mem_inBin hin)

/-- **`st_copy` makes a table that holds the same pairs in entries of its own.** -/
theorem stCopy_spec (ht : IsTable type h t own pairs) :
    ∃ h' t' own', stCopy h t = .ok (h', t') ∧ IsTable type h' t' own' pairs ∧
      Changes h h' [] own' := by
  cases ht with
  | packed hp hprime =>
      exact ⟨h, t, [], by simp only [stCopy, hp.bins], .packed hp hprime, .refl fun _ hp => hp⟩
  | @hashed cells hh =>
      obtain ⟨bins, hbins, -⟩ := hh.bins
      have hhead := hh.head
      cases cells with
      | nil =>
          refine ⟨h, { t with bins := .hashed fun _ => none }, ptrs [], ?_,
            .hashed ⟨⟨_, rfl, fun _ => rfl⟩, hh.ring, hhead, hh.count, hh.prime⟩,
            .refl fun _ hp => hp⟩
          simp only [stCopy, hbins, hhead]
          rfl
      | cons c cells =>
          have hnone : IsCopy type h t.numBins (fun _ => none) [] :=
            ⟨.nil, by simp, .nil, fun _ => rfl⟩
          obtain ⟨h', bins', copies, hcopy, hpairs, hring, hchains, hframe, hfresh⟩ :=
            copyFrom_spec (show IsRing type h ([] ++ c :: cells) from hh.ring) hnone (by simp) rfl
              (show cells.length < t.numEntries + 1 by rw [hh.count, List.length_cons]; omega)
          have hlen : copies.length = (c :: cells).length := by
            simpa using congrArg List.length hpairs
          rw [List.nil_append] at hpairs
          rw [← hpairs]
          refine ⟨h', { t with bins := .hashed bins', head := (ptrs copies).head? },
            ptrs copies, ?_,
            .hashed ⟨⟨bins', rfl, hchains⟩, hring, rfl, hh.count.trans hlen.symm, hh.prime⟩,
            hframe, hfresh⟩
          simp only [stCopy, hbins, hhead, ptrs, List.map_cons, List.head?_cons]
          exact congrArg (· >>= _) hcopy

/-! ## Iteration -/

section Foreach

variable {func : StCallback D} {pre post : List (StCell D)} {c : StCell D} {visited : List (D × D)}

/-- One round of `st_foreach` whose callback goes on. -/
theorem foreachRing_continue (hh : IsHashed type h t (pre ++ c :: post))
    (hf : func visited c.pair = .continue) (fuel : ℕ) :
    foreachRing func (fuel + 1) (some c.ptr) visited h t =
      if h.fore c.ptr = t.head ∨ t.head = none then .ok (visited ++ [c.pair], h, t)
      else foreachRing func fuel (h.fore c.ptr) (visited ++ [c.pair]) h t := by
  obtain ⟨e, he, -, hkey, hrecord, hfore⟩ := hh.ring.exists_entry_fore (c := c) (by simp)
  have hf' : func visited (c.key, c.record) = .continue := hf
  simp only [foreachRing, StHeap.load_eq he, Result.ok_bind, hkey, hrecord, hf', hfore]
  rfl

/-- One round of `st_foreach` whose callback stops. -/
theorem foreachRing_stop (hh : IsHashed type h t (pre ++ c :: post))
    (hf : func visited c.pair = .stop) (fuel : ℕ) :
    foreachRing func (fuel + 1) (some c.ptr) visited h t = .ok (visited ++ [c.pair], h, t) := by
  obtain ⟨e, he, -, hkey, hrecord, -⟩ := hh.ring.exists_entry_fore (c := c) (by simp)
  have hf' : func visited (c.key, c.record) = .stop := hf
  simp only [foreachRing, StHeap.load_eq he, Result.ok_bind, hkey, hrecord, hf']
  rfl

/-- One round of `st_foreach` whose callback has the entry deleted. -/
theorem foreachRing_delete (hh : IsHashed type h t (pre ++ c :: post))
    (hf : func visited c.pair = .delete) (fuel : ℕ) :
    ∃ h' t', foreachRing func (fuel + 1) (some c.ptr) visited h t =
        (if h.fore c.ptr = some c.ptr then .ok (visited ++ [c.pair], h', t')
          else if h.fore c.ptr = t.head ∨ t'.head = none then .ok (visited ++ [c.pair], h', t')
          else foreachRing func fuel (h.fore c.ptr) (visited ++ [c.pair]) h' t') ∧
      IsHashed type h' t' (pre ++ post) ∧
      Changes h h' (ptrs (pre ++ c :: post)) (ptrs (pre ++ post)) := by
  obtain ⟨e, he, hhash, hkey, hrecord, hfore⟩ := hh.ring.exists_entry_fore (c := c) (by simp)
  obtain ⟨bins, hbins, -⟩ := hh.bins
  have hchained : t.chains = .ok bins := by rw [StTable.chains, hbins]
  have hf' : func visited (c.key, c.record) = .delete := hf
  obtain ⟨h₁, bins', h₂, h₃, t', hunlink, hremove, hfree, hh', hchange⟩ := hh.unlink_ptr hbins he
  refine ⟨h₃, t', ?_, hh', hchange⟩
  simp only [foreachRing, StHeap.load_eq he, Result.ok_bind, hkey, hrecord, hf', hchained, hhash,
    hunlink, hremove, hfree, hfore]
  rfl

/-- **The loop of `st_foreach` over the ring walks over the pairs.** -/
theorem foreachRing_spec (func : StCallback D) (visited : List (D × D)) {fuel : ℕ}
    (hh : IsHashed type h t (pre ++ c :: post)) (hfuel : post.length < fuel) :
    ∃ h' t' cells', foreachRing func fuel (some c.ptr) visited h t =
        .ok ((walk func visited ((c :: post).map StCell.pair)).1, h', t') ∧
      IsHashed type h' t' cells' ∧
      cells'.map StCell.pair =
        pre.map StCell.pair ++ (walk func visited ((c :: post).map StCell.pair)).2 ∧
      Changes h h' (ptrs (pre ++ c :: post)) (ptrs cells') := by
  induction post generalizing pre c h t visited fuel with
  | nil =>
      obtain ⟨fuel, rfl⟩ : ∃ n, fuel = n + 1 := ⟨fuel - 1, by simp at hfuel; omega⟩
      have hdone : h.fore c.ptr = t.head := by rw [hh.ring.fore_last, hh.head]
      rw [List.map_cons, List.map_nil]
      cases hf : func visited c.pair with
      | «continue» =>
          rw [walk_continue hf, foreachRing_continue hh hf, if_pos (.inl hdone)]
          exact ⟨h, t, _, rfl, hh, by simp [walk], .refl fun _ hp => hp⟩
      | stop =>
          rw [walk_stop hf, foreachRing_stop hh hf]
          exact ⟨h, t, _, rfl, hh, by simp, .refl fun _ hp => hp⟩
      | delete =>
          obtain ⟨h', t', heq, hh', hchange⟩ := foreachRing_delete hh hf fuel
          rw [walk_delete hf]
          refine ⟨h', t', _, ?_, hh', by simp [walk], hchange⟩
          rw [heq, if_pos (.inl hdone : h.fore c.ptr = t.head ∨ t'.head = none), ite_self]
          rfl
  | cons d post ih =>
      obtain ⟨fuel, rfl⟩ : ∃ n, fuel = n + 1 := ⟨fuel - 1, by simp at hfuel; omega⟩
      have hfuel' : post.length < fuel := by simpa using hfuel
      obtain ⟨hfore, hne⟩ := hh.ring.fore_cons
      have hnotdone : h.fore c.ptr ≠ t.head := by
        rw [hfore, hh.head]
        exact hne.symm
      rw [List.map_cons]
      cases hf : func visited c.pair with
      | «continue» =>
          have hhead : t.head ≠ none := by simp [hh.head]
          have hh' : IsHashed type h t (pre ++ [c] ++ d :: post) := by simpa using hh
          obtain ⟨h', t', cells', heq, hh'', hpairs, hchange⟩ :=
            ih (visited ++ [c.pair]) hh' hfuel'
          rw [walk_continue hf, foreachRing_continue hh hf, if_neg (not_or.mpr ⟨hnotdone, hhead⟩),
            hfore]
          refine ⟨h', t', cells', heq, hh'', by simp [hpairs], ?_⟩
          simpa using hchange
      | stop =>
          rw [walk_stop hf, foreachRing_stop hh hf]
          exact ⟨h, t, _, rfl, hh, by simp, .refl fun _ hp => hp⟩
      | delete =>
          obtain ⟨h₁, t₁, heq₁, hh₁, hchange₁⟩ := foreachRing_delete hh hf fuel
          have hhead : t₁.head ≠ none := by simp [hh₁.head]
          have hself : h.fore c.ptr ≠ some c.ptr := by
            rw [hfore]
            intro heq
            have hnodup := hh.ring.nodup
            simp [Option.some.inj heq, List.nodup_append] at hnodup
          obtain ⟨h', t', cells', heq, hh', hpairs, hchange⟩ :=
            ih (visited ++ [c.pair]) hh₁ hfuel'
          rw [walk_delete hf]
          refine ⟨h', t', cells', ?_, hh', hpairs, hchange₁.trans hchange⟩
          rw [heq₁, if_neg hself, if_neg (not_or.mpr ⟨hnotdone, hhead⟩), hfore]
          exact heq

end Foreach

/-- **`st_foreach` visits the pairs of the map in their order.** -/
theorem stForeach_spec (func : StCallback D) (ht : IsTable type h t own pairs) :
    ∃ h' t' own', stForeach func h t = .ok ((walk func [] pairs).1, h', t') ∧
      IsTable type h' t' own' (walk func [] pairs).2 ∧ Changes h h' own own' := by
  cases ht with
  | packed hp hprime =>
      obtain ⟨t', cells', heq, hnum, hp'⟩ := foreachPacked_spec func []
        (show IsPacked type t _ ([] ++ pairs) from hp)
        (show pairs.length < t.numEntries + 1 by simp [hp.length_eq])
      refine ⟨h, t', [], ?_, .packed hp' (hnum ▸ hprime), .refl fun _ hp => hp⟩
      simp only [stForeach, hp.bins]
      exact congrArg (· >>= _) heq
  | @hashed cells hh =>
      obtain ⟨bins, hbins, -⟩ := hh.bins
      have hhead := hh.head
      cases cells with
      | nil =>
          refine ⟨h, t, ptrs [], ?_, .hashed hh, .refl fun _ hp => hp⟩
          simp only [stForeach, hbins, hhead]
          rfl
      | cons c cells =>
          obtain ⟨h', t', cells', heq, hh', hpairs, hchange⟩ := foreachRing_spec func []
            (show IsHashed type h t ([] ++ c :: cells) from hh)
            (show cells.length < t.numEntries + 1 by rw [hh.count, List.length_cons]; omega)
          rw [List.map_nil, List.nil_append] at hpairs
          refine ⟨h', t', ptrs cells', ?_, hpairs ▸ .hashed hh', hchange⟩
          simp only [stForeach, hbins, hhead]
          exact heq

end Specs

end MacRuby
