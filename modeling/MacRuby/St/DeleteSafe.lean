import MacRuby.St.ReverseForeach
import Mathlib.Data.List.Find

/-!
# Deferred deletion

`st_delete_safe` takes an entry out of the ring but leaves it in the chain of its bin, with a
marker for its key and its record, and `st_cleanup_safe` takes the marked entries out of the chains
and frees them. The two are for a deletion while a chain is walked along.

Neither looks at `entries_packed`. The words of packed entries are followed as if they were chains.

## Main definitions

* `StPointers` — the words of the array of bins as pointers, and back.
* `stDeleteSafe`, `stCleanupSafe` — the functions.
* `IsTombed` — a table between the two.
* `DeferredRight` — the two functions do what `st_delete` does.

## Main results

* `stDeleteSafe_tombs`, `stLookup_tombed`, `stCleanupSafe_tombed` — for entries in memory.
* `deferredRight_of`, `deferredRight_iff` — when deferred deletion is right.
-/

namespace MacRuby

open Linked

variable {D : Type} [DecidableEq D]

/-! ## The functions -/

/-- A word as a pointer to an entry, and a pointer as a word. -/
structure StPointers (D : Type) where
  cast : D → Option ℕ
  word : Option ℕ → D

/-- `bins[i]`, as a chain. -/
def StBins.first (ptr : StPointers D) (bins : StBins D) (i : ℕ) : Option ℕ :=
  match bins with
  | .packed cells => ptr.cast (cells i)
  | .hashed bins => bins i

/-- `bins[i] = p`. -/
def StBins.setFirst (ptr : StPointers D) (bins : StBins D) (i : ℕ) (p : Option ℕ) : StBins D :=
  match bins with
  | .packed cells => .packed (Function.update cells i (ptr.word p))
  | .hashed bins => .hashed (Function.update bins i p)

/-- The loop of `st_delete_safe`. -/
def deleteSafeFrom (type : StHashType D) (h : StHeap D) (key never : D) :
    ℕ → Option ℕ → Except StFault (Option ℕ)
  | 0, _ => .error .undefined
  | _ + 1, none => .ok none
  | fuel + 1, some p => do
      let e ← h.load (some p)
      if e.key ≠ never ∧ type.equal e.key key then return some p
      else deleteSafeFrom type h key never fuel e.next

/-- `st_delete_safe`: whether there was an entry, its key and its record. -/
def stDeleteSafe [Zero D] (ptr : StPointers D) (type : StHashType D) (h : StHeap D) (t : StTable D)
    (key never : D) : Except StFault ((Bool × D × D) × StHeap D × StTable D) := do
  let b := binPos (type.hash key) t.numBins
  match ← deleteSafeFrom type h key never (h.brk + 1) (t.bins.first ptr b) with
  | none => return ((false, key, 0), h, t)
  | some p => do
      let (h, t) ← removeEntry h t p
      let e ← h.load (some p)
      let h ← h.store (some p) { e with key := never, record := never }
      return ((true, e.key, e.record), h, t)

/-- The inner loop of `st_cleanup_safe`, along the chain of bin `b`. `prev` is the entry whose
`next` leads to `p`, or none when it is the bin itself. -/
def cleanupChain (ptr : StPointers D) (never : D) (b : ℕ) :
    ℕ → Option ℕ → Option ℕ → StHeap D → StBins D → Except StFault (StHeap D × StBins D)
  | 0, _, _, _, _ => .error .undefined
  | _ + 1, _, none, h, bins => .ok (h, bins)
  | fuel + 1, prev, some p, h, bins => do
      let e ← h.load (some p)
      if e.key = never then
        match prev with
        | none => do
            let h ← h.free p
            cleanupChain ptr never b fuel none e.next h (bins.setFirst ptr b e.next)
        | some q => do
            let eq ← h.load (some q)
            let h ← h.store (some q) { eq with next := e.next }
            let h ← h.free p
            cleanupChain ptr never b fuel (some q) e.next h bins
      else cleanupChain ptr never b fuel (some p) e.next h bins

/-- The outer loop of `st_cleanup_safe`, over the bins that are left. -/
def cleanupBins (ptr : StPointers D) (never : D) (fuel : ℕ) :
    List ℕ → StHeap D → StBins D → Except StFault (StHeap D × StBins D)
  | [], h, bins => .ok (h, bins)
  | b :: bs, h, bins => do
      let (h, bins) ← cleanupChain ptr never b fuel none (bins.first ptr b) h bins
      cleanupBins ptr never fuel bs h bins

attribute [grind =] cleanupBins

/-- `st_cleanup_safe`. -/
def stCleanupSafe (ptr : StPointers D) (h : StHeap D) (t : StTable D) (never : D) :
    Except StFault (StHeap D × StTable D) := do
  let (h, bins) ← cleanupBins ptr never (h.brk + 1) (List.range t.numBins) h t.bins
  return (h, { t with bins := bins })

/-! ## What deferred deletion is for -/

/-- **`st_delete_safe` and then `st_cleanup_safe` are `st_delete`**: the answer and the pairs that
are left are the same, and between the two the key is not found and every other key is found as
before. -/
structure DeferredRight [Zero D] (ptr : StPointers D) (type : StHashType D) (h : StHeap D)
    (t : StTable D) (key never : D) : Prop where
  same : ∃ ans h₁ t₁ h₂ t₂ h' t' own₂ own' m,
    stDeleteSafe ptr type h t key never = .ok (ans, h₁, t₁) ∧
    stCleanupSafe ptr h₁ t₁ never = .ok (h₂, t₂) ∧
    stDelete type h t key = .ok (ans, h', t') ∧
    IsTable type h₂ t₂ own₂ m ∧ IsTable type h' t' own' m ∧ t₂.numEntries = t'.numEntries
  lookup : ∀ ans h₁ t₁, stDeleteSafe ptr type h t key never = .ok (ans, h₁, t₁) →
    ∀ k, type.equal k never = false →
      stLookup type h₁ t₁ k = if type.equal k key then .ok none else stLookup type h t k

/-! ## Between the two -/

/-- The table has the cell `c` in its chain only, marked by `never`, and all other cells in their
chains and in the ring. -/
structure IsTombed (type : StHashType D) (h : StHeap D) (t : StTable D) (never : D)
    (pre : List (StCell D)) (c : StCell D) (post : List (StCell D)) : Prop where
  bins : ∃ bins, t.bins = .hashed bins ∧ IsChains type h t.numBins bins (pre ++ c :: post)
  nodup : (ptrs (pre ++ c :: post)).Nodup
  distinct : (pre ++ post).Pairwise fun c c' => type.equal c.key c'.key = false
  datum : ∀ c' ∈ pre ++ post, h.datum c'.ptr = some (type.hash c'.key, c'.key, c'.record)
  marked : ∃ e, h.mem c.ptr = some e ∧ e.key = never
  ring : Ring h.fore h.back (ptrs (pre ++ post))
  head : t.head = (ptrs (pre ++ post)).head?
  count : t.numEntries = (pre ++ post).length
  prime : t.numBins ∈ primes

section Tombed

variable {type : StHashType D} {h : StHeap D} {t : StTable D} {cells pre post : List (StCell D)}
  {c : StCell D} {key never : D} {ptr : StPointers D} {own : List ℕ} {pairs : List (D × D)}

/-- The loop of `st_delete_safe` finds the first entry of the chain with an equal key. -/
theorem deleteSafeFrom_chain {chain : List (StCell D)} {p : Option ℕ} {fuel : ℕ}
    (hpath : Path h.next p (ptrs chain))
    (hdatum : ∀ c ∈ chain, h.datum c.ptr = some (type.hash c.key, c.key, c.record))
    (hnever : ∀ c ∈ chain, c.key ≠ never) (hfuel : chain.length < fuel) :
    deleteSafeFrom type h key never fuel p =
      .ok ((chain.find? fun c => type.equal key c.key).map StCell.ptr) := by
  induction chain generalizing p fuel with
  | nil =>
      obtain rfl : p = none := hpath
      obtain ⟨fuel, rfl⟩ : ∃ n, fuel = n + 1 := ⟨fuel - 1, by omega⟩
      rfl
  | cons c chain ih =>
      obtain ⟨rfl, hrest⟩ := hpath
      obtain ⟨fuel, rfl⟩ : ∃ n, fuel = n + 1 := ⟨fuel - 1, by omega⟩
      obtain ⟨e, he, -, hkey, -⟩ := StHeap.exists_of_datum (hdatum c List.mem_cons_self)
      have hnext : h.next c.ptr = e.next := by simp [StHeap.next, he]
      have hne := hnever c List.mem_cons_self
      rw [hnext] at hrest
      rw [deleteSafeFrom, StHeap.load_eq he, Result.ok_bind, hkey, type.equal_comm]
      by_cases hequal : type.equal key c.key = true
      · rw [if_pos ⟨hne, hequal⟩]
        simp [hequal]
        rfl
      · have hrec := ih hrest (fun c' hc' => hdatum c' (List.mem_cons_of_mem _ hc'))
          (fun c' hc' => hnever c' (List.mem_cons_of_mem _ hc')) (by simpa using hfuel)
        rw [if_neg fun hboth => hequal hboth.2, hrec]
        simp [hequal]

omit [DecidableEq D] in
/-- Assigning the key and the record. -/
theorem StHeap.store_pair {p : ℕ} {e : StEntry D} (hp : h.mem p = some e) (x y : D) :
    ∃ h', h.store (some p) { e with key := x, record := y } = .ok h' ∧ h'.next = h.next ∧
      h'.fore = h.fore ∧ h'.back = h.back ∧
      h'.mem p = some { e with key := x, record := y } ∧ StHeap.SameBut h h' p := by
  obtain ⟨h', hs, hm, hb⟩ := StHeap.store_eq hp { e with key := x, record := y }
  refine ⟨h', hs, ?_, ?_, ?_, ?_, hb⟩
  · funext q
    by_cases hq : q = p <;> simp [StHeap.next, hm, hq, hp]
  · funext q
    by_cases hq : q = p <;> simp [StHeap.fore, hm, hq, hp]
  · funext q
    by_cases hq : q = p <;> simp [StHeap.back, hm, hq, hp]
  · rw [hm, Function.update_self]

/-- The search of `st_delete_safe` finds the entry with an equal key. -/
theorem deleteSafeFrom_spec (ptr : StPointers D) (hh : IsHashed type h t cells)
    (hnever : ∀ c ∈ cells, c.key ≠ never) :
    deleteSafeFrom type h key never (h.brk + 1)
        (t.bins.first ptr (binPos (type.hash key) t.numBins)) =
      .ok ((cells.find? fun c => type.equal key c.key).map StCell.ptr) := by
  obtain ⟨bins, hbins, hchains⟩ := hh.bins
  have hle := hh.ring.length_le
  rw [hbins, StBins.first, deleteSafeFrom_chain (hchains _), find?_inBin hh.ring.distinct]
  · intro c hc
    exact hh.ring.datum c (List.mem_of_mem_filter (List.mem_reverse.mp hc))
  · intro c hc
    exact hnever c (List.mem_of_mem_filter (List.mem_reverse.mp hc))
  · rw [List.length_reverse]
    exact (List.length_filter_le _ _).trans_lt (Nat.lt_succ_of_le hle)

/-- **`st_delete_safe` marks the entry with an equal key and takes it out of the ring.** -/
theorem stDeleteSafe_tombs [Zero D] (ptr : StPointers D) (hh : IsHashed type h t (pre ++ c :: post))
    (hnever : ∀ c' ∈ pre ++ c :: post, c'.key ≠ never)
    (hfind : (pre ++ c :: post).find? (fun c => type.equal key c.key) = some c) :
    ∃ h' t', stDeleteSafe ptr type h t key never = .ok ((true, c.key, c.record), h', t') ∧
      IsTombed type h' t' never pre c post := by
  obtain ⟨bins, hbins, hchains⟩ := hh.bins
  obtain ⟨h₁, hremove, hring₁, hnext₁, hdatum₁, hmem₁⟩ := removeEntry_spec (t := t) hh.ring hh.head
  have hmid := hh.ring.nodup
  rw [ptrs, List.map_append, List.map_cons, List.nodup_middle, List.nodup_cons,
    ← List.map_append] at hmid
  obtain ⟨e, he, hhash, hkey, hrecord⟩ := StHeap.exists_of_datum
    ((congrFun hdatum₁ c.ptr).trans (hh.ring.datum c (by simp)))
  obtain ⟨h₂, hstore, hnext₂, hfore₂, hback₂, hmem₂, hsame⟩ :=
    StHeap.store_pair he never never
  have hne : ∀ p ∈ ptrs (pre ++ post), p ≠ c.ptr := fun p hp heq => hmid.1 (heq ▸ hp)
  have hsub : (pre ++ post).Sublist (pre ++ c :: post) :=
    (List.sublist_cons_self c post).append_left pre
  refine ⟨h₂, { t with head := (ptrs (pre ++ post)).head?, numEntries := t.numEntries - 1 }, ?_, ?_⟩
  · rw [stDeleteSafe, deleteSafeFrom_spec ptr hh hnever, hfind]
    simp only [Option.map_some, Result.ok_bind, hremove, StHeap.load_eq he, hstore, hkey, hrecord]
    rfl
  · refine
      { bins := ⟨bins, hbins, fun b => (hchains b).congr fun p _ => ?_⟩
        nodup := hh.ring.nodup
        distinct := hh.ring.distinct.sublist hsub
        datum := ?_
        marked := ⟨_, hmem₂, rfl⟩
        ring := hring₁.congr (fun p _ => by rw [hfore₂]) (fun p _ => by rw [hback₂])
        head := rfl
        count := ?_
        prime := hh.prime }
    · rw [hnext₂, hnext₁]
    · intro c' hc'
      rw [StHeap.datum, hsame.mem _ (hne _ (List.mem_map_of_mem hc')), ← StHeap.datum, hdatum₁]
      exact hh.ring.datum c' (hsub.subset hc')
    · have hcount := hh.count
      simp only [List.length_append, List.length_cons] at hcount ⊢
      omega

/-- A table between the two functions has its entries in memory. -/
theorem IsTombed.length_le (hb : IsTombed type h t never pre c post) :
    (pre ++ c :: post).length ≤ h.brk := by
  rw [← List.length_map StCell.ptr]
  refine length_le_brk hb.nodup fun p hp => ?_
  obtain ⟨c', hc', rfl⟩ := List.mem_map.mp hp
  by_cases heq : c' = c
  · obtain ⟨e, he, -⟩ := hb.marked
    simp [heq, he]
  · have hin : c' ∈ pre ++ post := by
      simp only [List.mem_append, List.mem_cons] at hc' ⊢
      exact hc'.imp_right fun h => h.resolve_left heq
    obtain ⟨e, he, -⟩ := StHeap.exists_of_datum (hb.datum c' hin)
    simp [he]

omit [DecidableEq D] in
/-- A cell that does not match is passed by in its chain. -/
theorem find?_inBin_skip {numBins b : ℕ} {hit : StCell D → Bool} (hc : hit c = false) :
    (inBin type numBins b (pre ++ c :: post)).reverse.find? hit =
      (inBin type numBins b (pre ++ post)).reverse.find? hit := by
  rw [inBin_split]
  by_cases hb : binPos (type.hash c.key) numBins = b
  · rw [if_pos hb, inBin_append, List.reverse_append, List.find?_append, List.find?_append,
      List.find?_cons_of_neg (by simp [hc])]
  · rw [if_neg hb]

/-- **Between the two functions every key but that of the marked entry is found as before.** -/
theorem stLookup_tombed (hb : IsTombed type h t never pre c post) {k : D}
    (hk : type.equal k never = false) :
    stLookup type h t k = .ok (Assoc.lookup type.equal ((pre ++ post).map StCell.pair) k) := by
  obtain ⟨bins, hbins, hchains⟩ := hb.bins
  have hmid := hb.nodup
  rw [ptrs, List.map_append, List.map_cons, List.nodup_middle, List.nodup_cons,
    ← List.map_append] at hmid
  have hne : ∀ c' ∈ pre ++ post, c'.ptr ≠ c.ptr := fun c' hc' heq =>
    hmid.1 (heq ▸ List.mem_map_of_mem hc')
  -- the marked entry is equal to no key that is looked up
  have hentry : ∀ c' ∈ (inBin type t.numBins (binPos (type.hash k) t.numBins)
      (pre ++ c :: post)).reverse, ∃ e, h.mem c'.ptr = some e ∧
        ((decide (c'.ptr ≠ c.ptr) && type.equal k c'.key) = true ↔
          e.hash = type.hash k ∧ type.equal k e.key = true) := by
    intro c' hc'
    have hin := List.mem_of_mem_filter (List.mem_reverse.mp hc')
    by_cases heq : c' = c
    · obtain ⟨e, he, hkey⟩ := hb.marked
      refine ⟨e, heq ▸ he, ?_⟩
      simp [heq, hkey, hk]
    · have hin' : c' ∈ pre ++ post := by
        simp only [List.mem_append, List.mem_cons] at hin ⊢
        exact hin.imp_right fun h => h.resolve_left heq
      obtain ⟨e, he, hhash, hkey, -⟩ := StHeap.exists_of_datum (hb.datum c' hin')
      refine ⟨e, he, ?_⟩
      rw [hhash, hkey, decide_eq_true (hne c' hin'), Bool.true_and]
      exact ⟨fun hequal => ⟨(type.hash_eq hequal).symm, hequal⟩, fun hmatch => hmatch.2⟩
  have hfuel : (inBin type t.numBins (binPos (type.hash k) t.numBins)
      (pre ++ c :: post)).reverse.length < h.brk + 1 := by
    rw [List.length_reverse]
    exact (List.length_filter_le _ _).trans_lt (Nat.lt_succ_of_le hb.length_le)
  have hfind : (inBin type t.numBins (binPos (type.hash k) t.numBins)
      (pre ++ c :: post)).reverse.find? (fun c' => decide (c'.ptr ≠ c.ptr) && type.equal k c'.key) =
        (pre ++ post).find? fun c' => type.equal k c'.key := by
    rw [find?_inBin_skip (by simp)]
    refine Eq.trans (List.find?_congr fun c' hc' => ?_) (find?_inBin hb.distinct k)
    have hin := List.mem_of_mem_filter (List.mem_reverse.mp hc')
    rw [decide_eq_true (hne c' hin), Bool.true_and]
  simp only [stLookup, hbins, findEntryFrom_path (hchains _) hentry hfuel, hfind, Result.ok_bind]
  exact lookup_found hb.datum k

/-! ## Cleaning up -/

/-- A chain without marked entries stays. -/
theorem cleanupChain_none {todo : List ℕ} {b fuel : ℕ} {prev p : Option ℕ} {bins : StBins D}
    (hpath : Path h.next p todo)
    (hkey : ∀ q ∈ todo, ∃ e, h.mem q = some e ∧ e.key ≠ never) (hfuel : todo.length < fuel) :
    cleanupChain ptr never b fuel prev p h bins = .ok (h, bins) := by
  induction todo generalizing prev p fuel with
  | nil =>
      obtain rfl : p = none := hpath
      obtain ⟨fuel, rfl⟩ : ∃ n, fuel = n + 1 := ⟨fuel - 1, by simp at hfuel; omega⟩
      rfl
  | cons q todo ih =>
      obtain ⟨rfl, hrest⟩ := hpath
      obtain ⟨fuel, rfl⟩ : ∃ n, fuel = n + 1 := ⟨fuel - 1, by simp at hfuel; omega⟩
      obtain ⟨e, he, hne⟩ := hkey q List.mem_cons_self
      have hnext : h.next q = e.next := by simp [StHeap.next, he]
      rw [hnext] at hrest
      rw [cleanupChain, StHeap.load_eq he, Result.ok_bind, if_neg hne]
      exact ih hrest (fun q' hq' => hkey q' (List.mem_cons_of_mem _ hq')) (by simpa using hfuel)

/-- Up to a marked entry the chain is walked along as in a deletion. -/
theorem cleanupChain_unlink (ptr : StPointers D) {b fuel : ℕ} (spare : ℕ) {prev p : Option ℕ}
    {bins bins' : ℕ → Option ℕ}
    {q : ℕ} {e : StEntry D} {h₁ h₂ : StHeap D}
    (hunlink : unlinkFrom (fun _ e => decide (e.key = never)) b fuel prev p h bins =
      .ok (some (q, e, h₁, bins'))) (hfree : h₁.free q = .ok h₂) :
    ∃ prev' fuel', cleanupChain ptr never b (fuel + spare) prev p h (.hashed bins) =
      cleanupChain ptr never b (fuel' + spare) prev' e.next h₂ (.hashed bins') := by
  induction fuel generalizing prev p with
  | zero => cases hunlink
  | succ fuel ih =>
      rw [Nat.add_right_comm]
      cases p with
      | none => cases hunlink
      | some r =>
          rw [unlinkFrom] at hunlink
          obtain ⟨e', he', hstep⟩ := Result.bind_eq_ok.mp hunlink
          rw [cleanupChain, he', Result.ok_bind]
          by_cases hkey : e'.key = never
          · rw [if_pos (decide_eq_true hkey)] at hstep
            rw [if_pos hkey]
            cases prev with
            | none =>
                simp only [pure, Except.pure, Except.ok.injEq, Option.some.injEq,
                  Prod.mk.injEq] at hstep
                obtain ⟨rfl, rfl, rfl, rfl⟩ := hstep
                refine ⟨none, fuel, ?_⟩
                simp only [hfree, Result.ok_bind]
                rfl
            | some s =>
                obtain ⟨es, hes, hstep⟩ := Result.bind_eq_ok.mp hstep
                obtain ⟨h', hstore, hstep⟩ := Result.bind_eq_ok.mp hstep
                simp only [pure, Except.pure, Except.ok.injEq, Option.some.injEq,
                  Prod.mk.injEq] at hstep
                obtain ⟨rfl, rfl, rfl, rfl⟩ := hstep
                refine ⟨some s, fuel, ?_⟩
                simp only [hes, Result.ok_bind, hstore, hfree]
          · rw [if_neg (by simpa using hkey)] at hstep
            rw [if_neg hkey]
            exact ih hstep

/-- A chain without marked entries, of fewer than `fuel` entries. -/
def CleanChain (h : StHeap D) (never : D) (fuel : ℕ) (p : Option ℕ) : Prop :=
  ∃ todo, Path h.next p todo ∧ (∀ q ∈ todo, ∃ e, h.mem q = some e ∧ e.key ≠ never) ∧
    todo.length < fuel

omit [DecidableEq D] in
theorem CleanChain.of_cells {numBins b fuel : ℕ} {p : Option ℕ}
    (hpath : Path h.next p (ptrs (inBin type numBins b cells).reverse))
    (hkey : ∀ c ∈ cells, ∃ e, h.mem c.ptr = some e ∧ e.key ≠ never) (hfuel : cells.length < fuel) :
    CleanChain h never fuel p := by
  refine ⟨_, hpath, fun q hq => ?_, ?_⟩
  · obtain ⟨c, hc, rfl⟩ := List.mem_map.mp (mem_ptrs_of_mem_inBin hq)
    exact hkey c hc
  · rw [ptrs, List.length_map, List.length_reverse]
    exact (List.length_filter_le _ _).trans_lt hfuel

/-- Bins of chains without marked entries stay. -/
theorem cleanupBins_none {fuel : ℕ} {bs : List ℕ} {bins : StBins D}
    (hclean : ∀ b ∈ bs, CleanChain h never fuel (bins.first ptr b)) :
    cleanupBins ptr never fuel bs h bins = .ok (h, bins) := by
  induction bs with
  | nil => rfl
  | cons b bs ih =>
      obtain ⟨todo, hpath, hkey, hfuel⟩ := hclean b List.mem_cons_self
      rw [cleanupBins, cleanupChain_none hpath hkey hfuel, Result.ok_bind]
      exact ih fun b' hb' => hclean b' (List.mem_cons_of_mem _ hb')

/-- The bins before and behind one bin stay. -/
theorem cleanupBins_one {fuel b : ℕ} {as bs : List ℕ} {bins bins' : StBins D} {h' : StHeap D}
    (hbefore : ∀ a ∈ as, CleanChain h never fuel (bins.first ptr a))
    (hone : cleanupChain ptr never b fuel none (bins.first ptr b) h bins = .ok (h', bins'))
    (hbehind : ∀ a ∈ bs, CleanChain h' never fuel (bins'.first ptr a)) :
    cleanupBins ptr never fuel (as ++ b :: bs) h bins = .ok (h', bins') := by
  induction as with
  | nil =>
      rw [List.nil_append, cleanupBins, hone, Result.ok_bind]
      exact cleanupBins_none hbehind
  | cons a as ih =>
      obtain ⟨todo, hpath, hkey, hfuel⟩ := hbefore a List.mem_cons_self
      rw [List.cons_append, cleanupBins, cleanupChain_none hpath hkey hfuel, Result.ok_bind]
      exact ih fun a' ha' => hbefore a' (List.mem_cons_of_mem _ ha')

/-- The key of another cell is not the marker. -/
theorem IsTombed.key_ne (hb : IsTombed type h t never pre c post)
    (hnever : ∀ c' ∈ pre ++ post, c'.key ≠ never) :
    ∀ c' ∈ pre ++ post, ∃ e, h.mem c'.ptr = some e ∧ e.key ≠ never := by
  intro c' hc'
  obtain ⟨e', he', -, hkey', -⟩ := StHeap.exists_of_datum (hb.datum c' hc')
  exact ⟨e', he', hkey' ▸ hnever c' hc'⟩

theorem IsTombed.ptr_notMem (hb : IsTombed type h t never pre c post) :
    c.ptr ∉ ptrs (pre ++ post) := by
  have hmid := hb.nodup
  rw [ptrs, List.map_append, List.map_cons, List.nodup_middle, List.nodup_cons,
    ← List.map_append] at hmid
  exact hmid.1

/-- **The chain of the marked entry loses it**, and nothing else changes. -/
theorem cleanupChain_tombed (ptr : StPointers D) {bins : ℕ → Option ℕ}
    (hb : IsTombed type h t never pre c post)
    (hchains : IsChains type h t.numBins bins (pre ++ c :: post))
    (hnever : ∀ c' ∈ pre ++ post, c'.key ≠ never) :
    ∃ h' bins', cleanupChain ptr never (binPos (type.hash c.key) t.numBins) (h.brk + 1) none
        (bins (binPos (type.hash c.key) t.numBins)) h (.hashed bins) = .ok (h', .hashed bins') ∧
      IsChains type h' t.numBins bins' (pre ++ post) ∧
      (∀ p ≠ c.ptr, h'.fore p = h.fore p ∧ h'.back p = h.back p ∧ h'.datum p = h.datum p) := by
  obtain ⟨e, he, hmarked⟩ := hb.marked
  have hlen := hb.length_le
  rw [List.length_append, List.length_cons] at hlen
  have hkey := hb.key_ne hnever
  have hc := hb.ptr_notMem
  have halloc : ∀ c' ∈ post, ∃ e, h.mem c'.ptr = some e ∧ decide (e.key = never) = false := by
    intro c' hc'
    obtain ⟨e', he', hne⟩ := hkey c' (List.mem_append_right _ hc')
    exact ⟨e', he', decide_eq_false hne⟩
  obtain ⟨h₁, bins', hunlink, hchains₁, hfore₁, hback₁, hdatum₁, hframe₁⟩ :=
    unlinkFrom_cell (fun _ e => decide (e.key = never)) hb.nodup halloc hchains rfl he
      (decide_eq_true hmarked) (Nat.lt_succ_self post.length)
  have hpost : ∀ p, p ∉ ptrs post → h.mem p ≠ none → h₁.mem p = h.mem p := hframe₁
  have hcpost : c.ptr ∉ ptrs post := fun hin =>
    hc (by rw [ptrs, List.map_append]; exact List.mem_append_right _ hin)
  obtain ⟨h₂, hfree, -, hsame⟩ :=
    StHeap.free_eq ((hpost c.ptr hcpost (by simp [he])).trans he)
  obtain ⟨prev', fuel', hwalk⟩ := cleanupChain_unlink ptr (h.brk - post.length) hunlink hfree
  have hnext₂ : ∀ p ≠ c.ptr, h₂.next p = h₁.next p := fun p hp => by
    rw [StHeap.next, hsame.mem p hp, StHeap.next]
  -- the rest of the chain has older cells, which neither step touches
  have hrest : CleanChain h₂ never (h.brk - post.length) e.next := by
    have hpath := hchains (binPos (type.hash c.key) t.numBins)
    rw [inBin_split, if_pos rfl, ptrs, List.map_append, List.map_cons] at hpath
    have hsuffix := hpath.suffix
    have hnext : h.next c.ptr = e.next := by simp [StHeap.next, he]
    rw [hnext] at hsuffix
    have hmem₂ : ∀ c' ∈ pre, h₂.mem c'.ptr = h.mem c'.ptr := by
      intro c' hc'
      have hne : c'.ptr ≠ c.ptr := fun heq => hc (heq ▸ List.mem_map_of_mem (by simp [hc']))
      obtain ⟨e', he', -⟩ := hkey c' (List.mem_append_left _ hc')
      rw [hsame.mem _ hne]
      refine hpost _ (fun hin => ?_) (by simp [he'])
      have hnodup := hb.nodup
      rw [ptrs, List.map_append] at hnodup
      exact (List.nodup_append.mp hnodup).2.2 _ (List.mem_map_of_mem hc') _
        (List.mem_cons_of_mem _ hin) rfl
    have hpath₂ : Path h₂.next e.next
        (ptrs (inBin type t.numBins (binPos (type.hash c.key) t.numBins) pre).reverse) := by
      refine hsuffix.congr fun p hp => ?_
      obtain ⟨c', hc', rfl⟩ := List.mem_map.mp (mem_ptrs_of_mem_inBin hp)
      rw [StHeap.next, hmem₂ c' hc', StHeap.next]
    refine CleanChain.of_cells hpath₂ ?_ (by omega)
    intro c' hc'
    rw [hmem₂ c' hc']
    exact hkey c' (List.mem_append_left _ hc')
  obtain ⟨todo, hpath, hclean, hfuel⟩ := hrest
  refine ⟨h₂, bins', ?_, ?_, ?_⟩
  · have hbrk : h.brk + 1 = post.length + 1 + (h.brk - post.length) := by omega
    rw [hbrk, hwalk]
    exact cleanupChain_none hpath hclean (by omega)
  · intro b
    refine (hchains₁ b).congr fun p hp => hnext₂ p ?_
    rintro rfl
    exact hc (mem_ptrs_of_mem_inBin hp)
  · intro p hp
    refine ⟨?_, ?_, ?_⟩
    · rw [← hfore₁, StHeap.fore, hsame.mem p hp, StHeap.fore]
    · rw [← hback₁, StHeap.back, hsame.mem p hp, StHeap.back]
    · rw [← hdatum₁, StHeap.datum, hsame.mem p hp, StHeap.datum]

/-- **`st_cleanup_safe` takes the marked entry out of its chain.** -/
theorem stCleanupSafe_tombed (ptr : StPointers D) (hb : IsTombed type h t never pre c post)
    (hnever : ∀ c' ∈ pre ++ post, c'.key ≠ never) :
    ∃ h' t', stCleanupSafe ptr h t never = .ok (h', t') ∧ IsHashed type h' t' (pre ++ post) := by
  obtain ⟨bins, hbins, hchains⟩ := hb.bins
  obtain ⟨h', bins', hchain, hchains', hmem⟩ := cleanupChain_tombed ptr hb hchains hnever
  have hc := hb.ptr_notMem
  have hlen := hb.length_le
  have hne : ∀ p ∈ ptrs (pre ++ post), p ≠ c.ptr := fun p hp heq => hc (heq ▸ hp)
  have hlen' : (pre ++ post).length < h.brk + 1 := by
    simp only [List.length_append, List.length_cons] at hlen ⊢
    omega
  have hdatum' : ∀ c' ∈ pre ++ post, h'.datum c'.ptr = some (type.hash c'.key, c'.key, c'.record) :=
    fun c' hc' => (hmem _ (hne _ (List.mem_map_of_mem hc'))).2.2.trans (hb.datum c' hc')
  have hkey' : ∀ c' ∈ pre ++ post, ∃ e, h'.mem c'.ptr = some e ∧ e.key ≠ never := by
    intro c' hc'
    obtain ⟨e', he', -, hkey, -⟩ := StHeap.exists_of_datum (hdatum' c' hc')
    exact ⟨e', he', hkey ▸ hnever c' hc'⟩
  have hbin : binPos (type.hash c.key) t.numBins ∈ List.range t.numBins :=
    List.mem_range.mpr (Nat.mod_lt _ (pos_of_mem_primes hb.prime))
  obtain ⟨as, bs, hrange⟩ := List.append_of_mem hbin
  have hnodup : (as ++ binPos (type.hash c.key) t.numBins :: bs).Nodup := hrange ▸ List.nodup_range
  have hall : cleanupBins ptr never (h.brk + 1) (List.range t.numBins) h t.bins =
      .ok (h', .hashed bins') := by
    rw [hrange, hbins]
    refine cleanupBins_one ?_ hchain ?_
    · intro a ha
      have hother : binPos (type.hash c.key) t.numBins ≠ a := fun heq =>
        (List.nodup_middle.mp hnodup).notMem (List.mem_append_left _ (heq ▸ ha))
      have hpath := hchains a
      rw [inBin_split, if_neg hother] at hpath
      exact CleanChain.of_cells hpath (hb.key_ne hnever) hlen'
    · intro a _
      exact CleanChain.of_cells (hchains' a) hkey' hlen'
  refine ⟨h', { t with bins := .hashed bins' }, ?_, ?_⟩
  · rw [stCleanupSafe, hall]
    rfl
  · refine ⟨⟨bins', rfl, hchains'⟩, ⟨?_, hb.distinct, hdatum', ?_⟩, hb.head, hb.count, hb.prime⟩
    · refine hb.nodup.sublist (List.Sublist.map _ ?_)
      exact (List.sublist_cons_self c post).append_left pre
    · refine hb.ring.congr (fun p hp => (hmem p (hne p hp)).1) fun p hp => (hmem p (hne p hp)).2.1

/-! ## When deferred deletion is right -/

/-- A key that is equal to one that is not there is not there either. -/
theorem lookup_of_equal {k : D} (habsent : ∀ p ∈ pairs, type.equal p.1 key = false)
    (hk : type.equal k key = true) : Assoc.lookup type.equal pairs k = none := by
  refine Assoc.lookup_absent fun p hp => ?_
  by_contra hpk
  have hfalse := habsent p hp
  rw [type.equal_trans (by simpa using hpk) hk] at hfalse
  cases hfalse

/-- **For entries in memory deferred deletion is right.** -/
theorem deferredRight_hashed [Zero D] (ptr : StPointers D) (hh : IsHashed type h t cells)
    (hnever : ∀ c ∈ cells, type.equal c.key never = false) :
    DeferredRight ptr type h t key never := by
  have hne : ∀ c ∈ cells, c.key ≠ never := by
    intro c hc heq
    have hfalse := hnever c hc
    rw [heq, type.equal_refl] at hfalse
    cases hfalse
  obtain ⟨bins, hbins, hchains⟩ := hh.bins
  obtain ⟨h', t', own', hdelete, ht', -⟩ := stDelete_spec (.hashed hh) key
  rcases cells_cases type cells key with ⟨hfind, habsent⟩ | ⟨pre, c, post, rfl, hfind, hpre, hequal⟩
  · rw [Assoc.entry_absent habsent] at hdelete
    rw [Assoc.remove_absent habsent] at ht'
    have hsafe : stDeleteSafe ptr type h t key never = .ok ((false, key, 0), h, t) := by
      rw [stDeleteSafe, deleteSafeFrom_spec ptr hh hne, hfind]
      rfl
    have hclean : stCleanupSafe ptr h t never = .ok (h, t) := by
      rw [stCleanupSafe, cleanupBins_none]
      · rfl
      · intro b _
        rw [hbins]
        refine CleanChain.of_cells (hchains b) (fun c hc => ?_)
          (Nat.lt_succ_of_le hh.ring.length_le)
        obtain ⟨e, he, -, hkey, -⟩ := StHeap.exists_of_datum (hh.ring.datum c hc)
        exact ⟨e, he, hkey ▸ hne c hc⟩
    refine ⟨⟨_, h, t, h, t, h', t', _, own', _, hsafe, hclean, hdelete, .hashed hh, ht', ?_⟩, ?_⟩
    · rw [ht'.length_eq, (IsTable.hashed hh).length_eq]
    · intro ans h₁ t₁ hsafe₁ k _
      rw [hsafe] at hsafe₁
      cases hsafe₁
      by_cases hk : type.equal k key = true
      · rw [if_pos hk, stLookup_spec (.hashed hh), lookup_of_equal habsent hk]
      · rw [if_neg hk]
  · have hequal' : type.equal c.pair.1 key = true := type.equal_symm hequal
    rw [List.map_append, List.map_cons, Assoc.entry_split hpre hequal'] at hdelete
    rw [List.map_append, List.map_cons, Assoc.remove_split hpre hequal', ← List.map_append] at ht'
    obtain ⟨h₁, t₁, hsafe, hb⟩ := stDeleteSafe_tombs ptr hh hne hfind
    have hne' : ∀ c' ∈ pre ++ post, c'.key ≠ never := fun c' hc' =>
      hne c' (((List.sublist_cons_self c post).append_left pre).subset hc')
    obtain ⟨h₂, t₂, hclean, hh₂⟩ := stCleanupSafe_tombed ptr hb hne'
    refine ⟨⟨_, h₁, t₁, h₂, t₂, h', t', _, own', _, hsafe, hclean, hdelete, .hashed hh₂, ht',
      ?_⟩, ?_⟩
    · rw [ht'.length_eq, (IsTable.hashed hh₂).length_eq]
    · intro ans h₁' t₁' hsafe₁ k hk
      rw [hsafe] at hsafe₁
      cases hsafe₁
      rw [stLookup_tombed hb hk, stLookup_spec (.hashed hh)]
      have hothers : ∀ p ∈ (pre ++ post).map StCell.pair, type.equal p.1 key = false := by
        intro p hp
        obtain ⟨c', hc', rfl⟩ := List.mem_map.mp hp
        rw [StCell.pair, type.equal_comm]
        by_contra hck
        have hsub : c' ∈ pre ++ c :: post :=
          ((List.sublist_cons_self c post).append_left pre).subset hc'
        obtain rfl := eq_of_equal hh.ring.distinct hsub (by simp) (by simpa using hck) hequal
        exact hb.ptr_notMem (List.mem_map_of_mem hc')
      by_cases hkey : type.equal k key = true
      · rw [if_pos hkey, lookup_of_equal hothers hkey]
      · have hskip : type.equal c.pair.1 k = false := by
          by_contra hck
          have hck' : type.equal c.pair.1 k = true := by simpa using hck
          exact hkey (type.equal_trans (type.equal_symm hck') hequal')
        rw [if_neg hkey, List.map_append, List.map_append, List.map_cons,
          Assoc.lookup_skip _ hskip]

/-- The array of packed entries has no word that is not null. -/
def NullWords [Zero D] (t : StTable D) : Prop :=
  ∀ cells, t.bins = .packed cells → ∀ j < t.numBins, cells j = 0

/-- **The entries are in memory, or all words of packed entries are null and the key is not
there.** -/
def Deferrable [Zero D] (type : StHashType D) (t : StTable D) (pairs : List (D × D)) (key : D) :
    Prop :=
  t.entriesPacked = false ∨ NullWords t ∧ Assoc.lookup type.equal pairs key = none

/-- No word of packed entries happens to be the address of an entry. -/
def NoAddresses (ptr : StPointers D) (h : StHeap D) (t : StTable D) : Prop :=
  ∀ cells, t.bins = .packed cells → ∀ j < t.numBins, ∀ p, ptr.cast (cells j) = some p →
    h.mem p = none

/-- Where packed words are null, nothing is found and nothing is cleaned up. -/
theorem deferredRight_packed [Zero D] {words : ℕ → D} (hnull : ptr.cast 0 = none)
    (hp : IsPacked type t words pairs) (hprime : t.numBins ∈ primes) (hwords : NullWords t)
    (habsent : Assoc.lookup type.equal pairs key = none) :
    DeferredRight ptr type h t key never := by
  have hnot := Assoc.absent_of_lookup habsent
  have hfirst : ∀ b < t.numBins, t.bins.first ptr b = none := by
    intro b hb
    rw [hp.bins, StBins.first, hwords words hp.bins b hb, hnull]
  have hsafe : stDeleteSafe ptr type h t key never = .ok ((false, key, 0), h, t) := by
    have hbin : binPos (type.hash key) t.numBins < t.numBins :=
      Nat.mod_lt _ (pos_of_mem_primes hprime)
    rw [stDeleteSafe, hfirst _ hbin]
    rfl
  have hclean : stCleanupSafe ptr h t never = .ok (h, t) := by
    rw [stCleanupSafe, cleanupBins_none]
    · rfl
    · intro b hb
      rw [hfirst b (List.mem_range.mp hb)]
      exact ⟨[], rfl, by simp, Nat.succ_pos _⟩
  have ht : IsTable type h t [] pairs := .packed hp hprime
  obtain ⟨h', t', own', hdelete, ht', -⟩ := stDelete_spec ht key
  rw [Assoc.entry_absent hnot] at hdelete
  rw [Assoc.remove_absent hnot] at ht'
  refine ⟨⟨_, h, t, h, t, h', t', [], own', _, hsafe, hclean, hdelete, ht, ht', ?_⟩, ?_⟩
  · rw [ht'.length_eq, ht.length_eq]
  · intro ans h₁ t₁ hsafe₁ k _
    rw [hsafe] at hsafe₁
    cases hsafe₁
    by_cases hk : type.equal k key = true
    · rw [if_pos hk, stLookup_spec ht, lookup_of_equal hnot hk]
    · rw [if_neg hk]

/-- A word that is no pointer to an entry cannot be followed. -/
theorem cleanupBins_null {fuel : ℕ} {words : ℕ → D} {bs : List ℕ} {r : StHeap D × StBins D}
    (hwild : ∀ b ∈ bs, ∀ p, ptr.cast (words b) = some p → h.mem p = none)
    (hrun : cleanupBins ptr never (fuel + 1) bs h (.packed words) = .ok r) :
    ∀ b ∈ bs, ptr.cast (words b) = none := by
  induction bs with
  | nil => simp
  | cons b bs ih =>
      cases hword : ptr.cast (words b) with
      | none =>
          rw [cleanupBins, StBins.first, hword] at hrun
          refine List.forall_mem_cons.mpr ⟨hword, ih (fun b' hb' => ?_) hrun⟩
          exact hwild b' (List.mem_cons_of_mem _ hb')
      | some p =>
          rw [cleanupBins, StBins.first, hword] at hrun
          simp only [cleanupChain, StHeap.load, hwild b List.mem_cons_self p hword] at hrun
          cases hrun

/-- **For packed entries deferred deletion is right only where no word is followed.** -/
theorem IsPacked.of_deferredRight [Zero D] {words : ℕ → D} (hnull : ∀ w, ptr.cast w = none ↔ w = 0)
    (hp : IsPacked type t words pairs) (hprime : t.numBins ∈ primes) (hwild : NoAddresses ptr h t)
    (hright : DeferredRight ptr type h t key never) :
    NullWords t ∧ Assoc.lookup type.equal pairs key = none := by
  obtain ⟨ans, h₁, t₁, h₂, t₂, h', t', own₂, own', m, hsafe, hclean, hdelete, -⟩ := hright.same
  have hlt := Nat.mod_lt (type.hash key).toNat (pos_of_mem_primes hprime)
  have hwild' := hwild words hp.bins
  have hfirst : t.bins.first ptr (binPos (type.hash key) t.numBins) = none := by
    rw [hp.bins, StBins.first]
    cases hword : ptr.cast (words (binPos (type.hash key) t.numBins)) with
    | none => rfl
    | some p =>
        rw [stDeleteSafe, hp.bins, StBins.first, hword] at hsafe
        simp only [deleteSafeFrom, StHeap.load, hwild' _ hlt p hword] at hsafe
        cases hsafe
  rw [stDeleteSafe, hfirst] at hsafe
  cases hsafe
  refine ⟨?_, ?_⟩
  · intro cells hcells j hj
    obtain rfl : words = cells := StBins.packed.inj (hp.bins.symm.trans hcells)
    rw [stCleanupSafe, hp.bins] at hclean
    obtain ⟨r, hrun, -⟩ := Result.bind_eq_ok.mp hclean
    rw [← hnull]
    exact cleanupBins_null (fun b hb => hwild' b (List.mem_range.mp hb)) hrun j
      (List.mem_range.mpr hj)
  · rcases hp.index_cases key with ⟨-, habsent⟩ | ⟨pre, value, post, -, hindex, -⟩
    · exact Assoc.lookup_absent habsent
    · simp only [stDelete, hp.bins, hindex] at hdelete
      cases hdelete

end Tombed

/-- Words as addresses. -/
def wordAddresses : StPointers UInt64 :=
  { cast := fun w => if w = 0 then none else some w.toNat
    word := fun p => p.elim 0 UInt64.ofNat }

theorem cast_wordAddresses (w : UInt64) : wordAddresses.cast w = none ↔ w = 0 := by
  simp [wordAddresses]

end MacRuby
