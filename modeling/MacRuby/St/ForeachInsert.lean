import MacRuby.St.Conformance

/-!
# Iteration while entries are inserted

`st_foreach` with a callback that answers `ST_CONTINUE` and calls `st_insert` on the table it is
given the entries of. Which of the two loops runs is decided once, before the first call. An
insertion that gives packed entries a place in memory turns the array of bins into one of chains,
and the loop over packed entries goes on to take its pointers for keys and records.

Such an iteration need not come to an end, so it is followed for a number of rounds.

## Main definitions

* `StInserter` — the callback, as the pairs it inserts.
* `stForeachRounds` — a number of rounds of the iteration, with the calls of the callback.
* `IsStable` — the entries there at the start are visited once each, in their order, and every pair
  given to the callback is one of the table.
* `StaysPacked` — the insertions never make too many keys for packed entries.

## Main results

* `foreachRingRounds_stable` — the loop over the ring is stable under insertions.
* `foreachPackedRounds_stable` — so is the loop over packed entries as long as they stay packed.
* `foreachPackedRounds_breaks` — else it comes to read beyond the array of bins.
-/

namespace MacRuby

variable {D : Type} [DecidableEq D]

/-! ## The iteration -/

/-- A callback that answers `ST_CONTINUE`: the keys and values it calls `st_insert` with, which may
depend on all the pairs it was given. -/
abbrev StInserter (D : Type) := List (D × D) → D × D → List (D × D)

/-- The calls of `st_insert` of one call of the callback. -/
def stInsertEach (type : StHashType D) :
    List (D × D) → StHeap D → StTable D → Except StFault (StHeap D × StTable D)
  | [], h, t => .ok (h, t)
  | (key, value) :: rest, h, t => do
      let (_, h, t) ← stInsert type h t key value
      stInsertEach type rest h t

/-- A call of the callback: the key and the record it is given, and the table at that time. -/
structure StVisit (D : Type) where
  pair : D × D
  heap : StHeap D
  table : StTable D

/-- The two words that the loop over packed entries takes for the pair of a number, whatever the
array of bins holds by then. `word` is the cast of a pointer to `st_data_t`. -/
def StTable.packedWords (word : Option ℕ → D) (t : StTable D) (i : ℕ) : Except StFault (D × D) :=
  if i * 2 + 1 < t.numBins then
    match t.bins with
    | .packed cells => .ok (cells (i * 2), cells (i * 2 + 1))
    | .hashed bins => .ok (word (bins (i * 2)), word (bins (i * 2 + 1)))
  else .error .undefined

/-- How far an iteration has come: the calls made, and whether it has returned. -/
structure StProgress (D : Type) where
  visits : List (StVisit D)
  outcome : Except StFault (Bool × StHeap D × StTable D)

/-- Rounds of the loop of `st_foreach` over packed entries, from the entry `i` on. -/
def foreachPackedRounds (type : StHashType D) (word : Option ℕ → D) (func : StInserter D) :
    ℕ → ℕ → List (StVisit D) → StHeap D → StTable D → StProgress D
  | 0, _, visits, h, t => ⟨visits, .ok (false, h, t)⟩
  | rounds + 1, i, visits, h, t =>
      if i < t.numEntries then
        match t.packedWords word i with
        | .error f => ⟨visits, .error f⟩
        | .ok pair =>
            let visits' := visits ++ [⟨pair, h, t⟩]
            match stInsertEach type (func (visits.map StVisit.pair) pair) h t with
            | .error f => ⟨visits', .error f⟩
            | .ok (h, t) => foreachPackedRounds type word func rounds (i + 1) visits' h t
      else ⟨visits, .ok (true, h, t)⟩

attribute [grind =] foreachPackedRounds

/-- Rounds of the loop of `st_foreach` over the ring, from the entry `ptr` on. The entry after it is
looked up when the callback has returned, but whether it is the last one is known before. -/
def foreachRingRounds (type : StHashType D) (func : StInserter D) :
    ℕ → Option ℕ → List (StVisit D) → StHeap D → StTable D → StProgress D
  | 0, _, visits, h, t => ⟨visits, .ok (false, h, t)⟩
  | rounds + 1, ptr, visits, h, t =>
      match h.load ptr with
      | .error f => ⟨visits, .error f⟩
      | .ok e =>
          let done := e.fore = t.head
          let visits' := visits ++ [⟨(e.key, e.record), h, t⟩]
          match stInsertEach type (func (visits.map StVisit.pair) (e.key, e.record)) h t with
          | .error f => ⟨visits', .error f⟩
          | .ok (h, t) =>
              match h.load ptr with
              | .error f => ⟨visits', .error f⟩
              | .ok e =>
                  if done ∨ t.head = none then ⟨visits', .ok (true, h, t)⟩
                  else foreachRingRounds type func rounds e.fore visits' h t

/-- A number of rounds of `st_foreach`. -/
def stForeachRounds (type : StHashType D) (word : Option ℕ → D) (func : StInserter D)
    (rounds : ℕ) (h : StHeap D) (t : StTable D) : StProgress D :=
  match t.bins with
  | .packed _ => foreachPackedRounds type word func rounds 0 [] h t
  | .hashed _ =>
      match t.head with
      | none => ⟨[], .ok (true, h, t)⟩
      | some p => foreachRingRounds type func rounds (some p) [] h t

/-! ## What it is for -/

/-- The stores of one call of the callback, in the map. -/
def storeEach (type : StHashType D) (m ps : List (D × D)) : List (D × D) :=
  ps.foldl (fun m p => Assoc.store type.equal m p.1 p.2) m

/-- The map after a number of rounds that visit its pairs in their order, from the pair `i` on. -/
def mapRounds (type : StHashType D) (func : StInserter D) :
    ℕ → ℕ → List (D × D) → List (D × D) → List (D × D)
  | 0, _, _, m => m
  | rounds + 1, i, visited, m =>
      match m[i]? with
      | none => m
      | some pair =>
          mapRounds type func rounds (i + 1) (visited ++ [pair])
            (storeEach type m (func visited pair))

/-- However long the pairs are visited, there never are more than packed entries can hold. -/
def StaysPacked (type : StHashType D) (func : StInserter D) (pairs : List (D × D)) : Prop :=
  ∀ rounds, (mapRounds type func rounds 0 [] pairs).length ≤ maxPackedNumhash

/-- The key that the callback is given. -/
def StVisit.key (v : StVisit D) : D := v.pair.1

/-- **What an iteration over a table with the given pairs has to do in a number of rounds**: each
round visits an entry, the entries there at the start first and in their order, none of them is
visited twice, and the callback is given keys and records of the table only. It ends before that
only when all entries there at the start were visited, or when an insertion is refused memory. -/
structure IsStable (type : StHashType D) (pairs : List (D × D)) (rounds : ℕ) (run : StProgress D) :
    Prop where
  ofTable : ∀ v ∈ run.visits, ∃ own m, IsTable type v.heap v.table own m ∧ v.pair ∈ m
  order : (run.visits.map StVisit.key).take pairs.length =
    (pairs.map Prod.fst).take run.visits.length
  once : (run.visits.map StVisit.key).Pairwise fun x y => type.equal x y = false
  safe : run.outcome ≠ .error .undefined
  all : ∀ h t, run.outcome = .ok (true, h, t) → pairs.length ≤ run.visits.length
  going : ∀ h t, run.outcome = .ok (false, h, t) → run.visits.length = rounds

/-! ## The insertions of one call -/

section Insert

variable {type : StHashType D} {h h' : StHeap D} {t t' : StTable D} {own own' : List ℕ}
  {m pairs : List (D × D)}

theorem keys_storeEach (type : StHashType D) (m ps : List (D × D)) :
    m.map Prod.fst <+: (storeEach type m ps).map Prod.fst := by
  induction ps generalizing m with
  | nil => exact List.prefix_rfl
  | cons p ps ih => exact (Assoc.keys_store type.equal m p.1 p.2).trans (ih _)

/-- Stores make a map no smaller. -/
theorem length_le_storeEach (type : StHashType D) (m ps : List (D × D)) :
    m.length ≤ (storeEach type m ps).length := by
  simpa using (keys_storeEach type m ps).length_le

/-- **The insertions of one call of the callback store its pairs in the map**, unless one of them is
refused memory. -/
theorem stInsertEach_cases (ht : IsTable type h t own m) (ps : List (D × D)) :
    stInsertEach type ps h t = .error .noMemory ∨
    ∃ h' t' own', stInsertEach type ps h t = .ok (h', t') ∧
      IsTable type h' t' own' (storeEach type m ps) ∧ Grows t t' own own' := by
  induction ps generalizing h t own m with
  | nil => exact .inr ⟨h, t, own, rfl, ht, .refl t own⟩
  | cons p ps ih =>
      obtain ⟨key, value⟩ := p
      rcases stInsert_cases ht key value with ⟨hrefused, -⟩ | ⟨h₁, t₁, own₁, heq, ht₁, -, hgrows₁⟩
      · left
        rw [stInsertEach, hrefused]
        rfl
      · have hstep : stInsertEach type ((key, value) :: ps) h t = stInsertEach type ps h₁ t₁ := by
          rw [stInsertEach, heq]
          rfl
        rw [hstep]
        refine (ih ht₁).imp_right fun hstored => ?_
        obtain ⟨h₂, t₂, own₂, heq₂, ht₂, hgrows₂⟩ := hstored
        exact ⟨h₂, t₂, own₂, heq₂, ht₂, hgrows₁.trans hgrows₂⟩

/-- The sizes of the array of bins are between 11 and the last one. -/
theorem bounds_of_mem_primes {n : ℕ} (hn : n ∈ primes) : 11 ≤ n ∧ n ≤ maxNumBins := by
  have hbounds : ∀ n ∈ primes, 11 ≤ n ∧ n ≤ maxNumBins := by decide
  exact hbounds n hn

theorem IsTable.mem_primes (ht : IsTable type h t own m) : t.numBins ∈ primes := by
  cases ht with
  | packed _ hprime => exact hprime
  | hashed hh => exact hh.prime

/-- Packed entries stay packed as long as they are few. -/
theorem stInsertEach_packed {cells : ℕ → D} (hp : IsPacked type t cells m)
    (hprime : t.numBins ∈ primes) {ps : List (D × D)}
    (hfew : (storeEach type m ps).length ≤ maxPackedNumhash) :
    ∃ t' cells', stInsertEach type ps h t = .ok (h, t') ∧
      IsPacked type t' cells' (storeEach type m ps) ∧ t'.numBins ∈ primes := by
  induction ps generalizing t cells m with
  | nil => exact ⟨t, cells, rfl, hp, hprime⟩
  | cons p ps ih =>
      obtain ⟨key, value⟩ := p
      have hroom : t.hasRoom = true ∨ Assoc.lookup type.equal m key ≠ none := by
        by_cases hnew : Assoc.lookup type.equal m key = none
        · left
          have hlen := (length_le_storeEach type (Assoc.store type.equal m key value) ps).trans hfew
          rw [Assoc.store_absent (Assoc.absent_of_lookup hnew), List.length_append,
            List.length_singleton, ← hp.length_eq] at hlen
          have hbins := (bounds_of_mem_primes hprime).1
          simp only [StTable.hasRoom, Bool.and_eq_true, decide_eq_true_eq]
          rw [maxPackedNumhash] at hlen ⊢
          omega
        · exact .inr hnew
      obtain ⟨t₁, cells₁, heq, hp₁, hbins, -⟩ := hp.insert (h := h) key value hroom
      obtain ⟨t₂, cells₂, heq₂, hp₂, hprime₂⟩ := ih hp₁ (hbins ▸ hprime) hfew
      refine ⟨t₂, cells₂, ?_, hp₂, hprime₂⟩
      rw [stInsertEach, heq]
      exact heq₂

end Insert

/-! ## The calls made so far -/

/-- The calls made while the table came from the pairs `pairs` to the pairs `m`: they were for its
first entries, in their order. -/
structure Visited (type : StHashType D) (pairs m : List (D × D)) (visits : List (StVisit D)) :
    Prop where
  ofTable : ∀ v ∈ visits, ∃ own m, IsTable type v.heap v.table own m ∧ v.pair ∈ m
  keys : visits.map StVisit.key = (m.map Prod.fst).take visits.length
  start : pairs.map Prod.fst <+: m.map Prod.fst

namespace Visited

variable {type : StHashType D} {h : StHeap D} {t : StTable D} {own : List ℕ}
  {m m' pairs : List (D × D)} {visits : List (StVisit D)}

theorem nil (type : StHashType D) (pairs : List (D × D)) : Visited type pairs pairs [] :=
  ⟨by simp, rfl, List.prefix_rfl⟩

theorem length_le (hv : Visited type pairs m visits) : visits.length ≤ m.length := by
  have hlen := congrArg List.length hv.keys
  rw [List.length_map, List.length_take, List.length_map] at hlen
  omega

theorem start_le (hv : Visited type pairs m visits) : pairs.length ≤ m.length := by
  simpa using hv.start.length_le

/-- One more call, for the next entry. -/
theorem snoc (hv : Visited type pairs m visits) (ht : IsTable type h t own m) {pair : D × D}
    (hpair : m[visits.length]? = some pair) :
    Visited type pairs m (visits ++ [⟨pair, h, t⟩]) := by
  refine ⟨?_, ?_, hv.start⟩
  · intro v hin
    rcases List.mem_append.mp hin with hin | hin
    · exact hv.ofTable v hin
    · obtain rfl := List.mem_singleton.mp hin
      exact ⟨own, m, ht, List.mem_of_getElem? hpair⟩
  · rw [List.map_append, hv.keys, List.length_append, List.length_singleton, List.take_add_one,
      List.getElem?_map, hpair]
    rfl

/-- The calls made are for the first entries of the table that the callback leaves. -/
theorem grow (hv : Visited type pairs m visits)
    (hkeys : m.map Prod.fst <+: m'.map Prod.fst) : Visited type pairs m' visits := by
  refine ⟨hv.ofTable, ?_, hv.start.trans hkeys⟩
  obtain ⟨rest, hrest⟩ := hkeys
  rw [← hrest, List.take_append_of_le_length (by simpa using hv.length_le)]
  exact hv.keys

/-- **Calls for the first entries in their order are as they have to be.** -/
theorem isStable (hv : Visited type pairs m visits) (ht : IsTable type h t own m) {rounds : ℕ}
    {outcome : Except StFault (Bool × StHeap D × StTable D)} (hsafe : outcome ≠ .error .undefined)
    (hall : ∀ h t, outcome = .ok (true, h, t) → pairs.length ≤ visits.length)
    (hgoing : ∀ h t, outcome = .ok (false, h, t) → visits.length = rounds) :
    IsStable type pairs rounds ⟨visits, outcome⟩ := by
  refine ⟨hv.ofTable, ?_, ?_, hsafe, hall, hgoing⟩
  · obtain ⟨rest, hrest⟩ := hv.start
    have hfirst : (m.map Prod.fst).take pairs.length = pairs.map Prod.fst := by
      rw [← hrest, List.take_left' (by simp)]
    rw [hv.keys, List.take_take, Nat.min_comm, ← List.take_take, hfirst]
  · rw [hv.keys]
    exact (List.pairwise_map.mpr ht.distinct).sublist (List.take_sublist _ _)

end Visited

/-! ## The ring -/

section Ring

variable {type : StHashType D} {h h' : StHeap D} {t t' : StTable D} {own own' : List ℕ}
  {m m' pairs : List (D × D)}

/-- A table whose entries are not packed has one entry of memory for each. -/
theorem IsTable.length_own (ht : IsTable type h t own m) (hring : t.entriesPacked = false) :
    own.length = m.length := by
  cases ht with
  | packed hp _ =>
      rw [StTable.entriesPacked, hp.bins] at hring
      cases hring
  | hashed hh => simp

/-- Packed entries have none. -/
theorem IsTable.own_nil (ht : IsTable type h t own m) (hpacked : t.entriesPacked = true) :
    own = [] := by
  cases ht with
  | packed _ _ => rfl
  | hashed hh =>
      obtain ⟨bins, hbins, -⟩ := hh.bins
      rw [StTable.entriesPacked, hbins] at hpacked
      cases hpacked

/-- More entries than can be packed are in memory. -/
theorem IsTable.notPacked (ht : IsTable type h t own m) (hmany : maxPackedNumhash < m.length) :
    t.entriesPacked = false := by
  cases ht with
  | packed hp _ => exact absurd (hp.length_eq ▸ hp.small) (Nat.not_le.mpr hmany)
  | hashed hh =>
      obtain ⟨bins, hbins, -⟩ := hh.bins
      rw [StTable.entriesPacked, hbins]

/-- Entries in memory are never packed again. -/
theorem Grows.notPacked (hg : Grows t t' own own') (ht : IsTable type h t own m)
    (ht' : IsTable type h' t' own' m') (hring : t.entriesPacked = false) (hne : 0 < m.length) :
    t'.entriesPacked = false := by
  by_contra hpacked
  have hnil := ht'.own_nil (by simpa using hpacked)
  have hlen := hg.own.length_le
  rw [hnil, ht.length_own hring, List.length_nil] at hlen
  omega

/-- A ring with entries has a first one. -/
theorem IsTable.head_ne_none (ht : IsTable type h t own m) (hring : t.entriesPacked = false)
    (hne : 0 < m.length) : t.head ≠ none := by
  cases ht with
  | packed hp _ =>
      rw [StTable.entriesPacked, hp.bins] at hring
      cases hring
  | hashed hh =>
      rw [List.length_map] at hne
      simpa [hh.head] using List.ne_nil_of_length_pos hne

/-- **The entry of a number in the ring**, what is in it, and where it leads. -/
theorem IsTable.ring_entry (ht : IsTable type h t own m) (hring : t.entriesPacked = false) {i : ℕ}
    (hi : i < m.length) :
    ∃ p e, own[i]? = some p ∧ h.load (some p) = .ok e ∧ m[i]? = some (e.key, e.record) ∧
      (e.fore = t.head ↔ i + 1 = m.length) ∧ (i + 1 < m.length → e.fore = own[i + 1]?) := by
  cases ht with
  | packed hp _ =>
      rw [StTable.entriesPacked, hp.bins] at hring
      cases hring
  | @hashed cells hh =>
      rw [List.length_map] at hi ⊢
      obtain ⟨pre, c, post, rfl, rfl⟩ :
          ∃ pre c post, cells = pre ++ c :: post ∧ pre.length = i := by
        refine ⟨cells.take i, cells[i], cells.drop (i + 1), ?_, by simp; omega⟩
        rw [← List.drop_eq_getElem_cons, List.take_append_drop]
      obtain ⟨e, he, -, hkey, hrecord, hfore⟩ := hh.ring.exists_entry_fore (c := c) (by simp)
      refine ⟨c.ptr, e, by simp [ptrs], StHeap.load_eq he, by simp [hkey, hrecord, StCell.pair], ?_⟩
      rw [hfore, hh.head]
      cases post with
      | nil =>
          rw [hh.ring.fore_last]
          simp
      | cons d post =>
          obtain ⟨hnext, hne⟩ := hh.ring.fore_cons
          rw [hnext]
          refine ⟨⟨fun heq => absurd heq.symm hne, fun hlen => ?_⟩, fun _ => ?_⟩
          · simp at hlen
          · rw [ptrs, List.map_append, List.getElem?_append_right (by simp)]
            simp

/-- **The loop of `st_foreach` over the ring is stable under insertions**, from any entry on. -/
theorem foreachRingRounds_spec (func : StInserter D) (rounds : ℕ) {visits : List (StVisit D)}
    {ptr : Option ℕ} (hv : Visited type pairs m visits) (ht : IsTable type h t own m)
    (hring : t.entriesPacked = false) (hi : visits.length < m.length)
    (hptr : ptr = own[visits.length]?) :
    IsStable type pairs (visits.length + rounds)
      (foreachRingRounds type func rounds ptr visits h t) := by
  induction rounds generalizing ptr visits h t own m with
  | zero =>
      exact hv.isStable ht nofun nofun fun _ _ _ => rfl
  | succ rounds ih =>
      obtain ⟨p, e, hp, hload, hpair, hlast, -⟩ := ht.ring_entry hring hi
      obtain rfl : ptr = some p := hptr.trans hp
      have hv' := hv.snoc ht hpair
      rw [foreachRingRounds, hload]
      rcases stInsertEach_cases ht (func (visits.map StVisit.pair) (e.key, e.record)) with
        hrefused | ⟨h', t', own', heq, ht', hgrows⟩
      · simp only [hrefused]
        exact hv'.isStable ht nofun nofun nofun
      have hkeys := keys_storeEach type m (func (visits.map StVisit.pair) (e.key, e.record))
      have hring' := hgrows.notPacked ht ht' hring (by omega)
      have hlen := length_le_storeEach type m (func (visits.map StVisit.pair) (e.key, e.record))
      -- the entry is still where it was, and the one after it is
      obtain ⟨p', e', hp', hload', -, hlast', hnext'⟩ :=
        ht'.ring_entry hring' (Nat.lt_of_lt_of_le hi hlen)
      obtain rfl : p = p' := by
        obtain ⟨rest, rfl⟩ := hgrows.own
        rw [List.getElem?_append_left (by rw [ht.length_own hring]; exact hi), hp] at hp'
        exact Option.some.inj hp'
      simp only [heq, hload']
      by_cases hdone : e.fore = t.head
      · rw [if_pos (.inl hdone)]
        refine (hv'.grow hkeys).isStable ht' nofun (fun _ _ _ => ?_) nofun
        rw [List.length_append, List.length_singleton, hlast.mp hdone]
        exact hv.start_le
      · have hhead := ht'.head_ne_none hring' (by omega)
        rw [if_neg (not_or.mpr ⟨hdone, hhead⟩)]
        have hmore : visits.length + 1 < m.length := by
          have := mt hlast.mpr hdone
          omega
        have hlen' : (visits ++ [StVisit.mk (e.key, e.record) h t]).length =
            visits.length + 1 := by
          simp
        have hfore := (hnext' (by omega)).trans (congrArg (own'[·]?) hlen'.symm)
        have hrec := ih (hv'.grow hkeys) ht' hring' (by rw [hlen']; omega) hfore
        rwa [hlen', Nat.add_assoc, Nat.add_comm 1] at hrec

end Ring

/-! ## Packed entries -/

section Packed

variable {type : StHashType D} {word : Option ℕ → D} {func : StInserter D} {h : StHeap D}
  {t : StTable D} {m pairs : List (D × D)} {cells : ℕ → D} {visits : List (StVisit D)} {i : ℕ}
  {pair : D × D}

/-- The words of a packed entry are its key and its record. -/
theorem IsPacked.words (hp : IsPacked type t cells m) (hprime : t.numBins ∈ primes)
    (word : Option ℕ → D) (hpair : m[i]? = some pair) :
    i < t.numEntries ∧ t.packedWords word i = .ok pair := by
  obtain ⟨hi, -⟩ := List.getElem?_eq_some_iff.mp hpair
  rw [← hp.length_eq] at hi
  have hsmall := hp.small
  have hbins := (bounds_of_mem_primes hprime).1
  rw [maxPackedNumhash] at hsmall
  have hwords : (cells (i * 2), cells (i * 2 + 1)) = pair := by
    rw [← hp.pairs_eq] at hpair
    simpa [packedPairs, hi] using hpair
  refine ⟨hi, ?_⟩
  rw [StTable.packedWords, if_pos (by omega), hp.bins, ← hwords]

omit [DecidableEq D] in
/-- Packed entries are at an end where there is no pair. -/
theorem IsPacked.not_lt [DecidableEq D] (hp : IsPacked type t cells m) (hend : m[i]? = none) :
    ¬ i < t.numEntries := by
  rw [hp.length_eq]
  exact Nat.not_lt.mpr (List.getElem?_eq_none_iff.mp hend)

theorem mapRounds_succ (rounds : ℕ) (visited : List (D × D)) (hpair : m[i]? = some pair) :
    mapRounds type func (rounds + 1) i visited m =
      mapRounds type func rounds (i + 1) (visited ++ [pair])
        (storeEach type m (func visited pair)) := by
  rw [mapRounds, hpair]

/-- **The loop of `st_foreach` over packed entries is stable under insertions** as long as they stay
packed. -/
theorem foreachPackedRounds_spec (h : StHeap D) (word : Option ℕ → D) (rounds : ℕ)
    (hv : Visited type pairs m visits)
    (hp : IsPacked type t cells m) (hprime : t.numBins ∈ primes)
    (hfew : ∀ n, (mapRounds type func n visits.length (visits.map StVisit.pair) m).length ≤
      maxPackedNumhash) :
    IsStable type pairs (visits.length + rounds)
      (foreachPackedRounds type word func rounds visits.length visits h t) := by
  induction rounds generalizing visits t m cells with
  | zero => exact hv.isStable (.packed (h := h) hp hprime) nofun nofun fun _ _ _ => rfl
  | succ rounds ih =>
      have ht : IsTable type h t [] m := .packed hp hprime
      cases hpair : m[visits.length]? with
      | none =>
          rw [foreachPackedRounds, if_neg (hp.not_lt hpair)]
          refine hv.isStable ht nofun (fun _ _ _ => ?_) nofun
          exact hv.start_le.trans (List.getElem?_eq_none_iff.mp hpair)
      | some pair =>
          obtain ⟨hlt, hwords⟩ := hp.words hprime word hpair
          have hnext := fun n => mapRounds_succ n (visits.map StVisit.pair) hpair ▸ hfew (n + 1)
          obtain ⟨t', cells', heq, hp', hprime'⟩ := stInsertEach_packed (h := h) hp hprime
            (hnext 0)
          rw [foreachPackedRounds, if_pos hlt]
          simp only [hwords, heq]
          have hlen : (visits ++ [StVisit.mk pair h t]).length = visits.length + 1 := by simp
          have hrec := ih ((hv.snoc ht hpair).grow (keys_storeEach type m _)) hp' hprime'
            (by rw [hlen, List.map_append]; exact hnext)
          rwa [hlen, Nat.add_assoc, Nat.add_comm 1] at hrec

/-- Once the entries are no longer packed, the loop over packed entries comes to read beyond the
array of bins: there are more entries than that loop can find room for. -/
theorem foreachPackedRounds_hashed {rounds : ℕ} {own : List ℕ} (ht : IsTable type h t own m)
    (hring : t.entriesPacked = false) (hdense : t.numBins < 2 * t.numEntries)
    (hi : i < t.numEntries) (hin : 2 * i ≤ maxNumBins) (hrounds : maxNumBins < 2 * (i + rounds)) :
    ∃ f, (foreachPackedRounds type word func rounds i visits h t).outcome = .error f := by
  induction rounds generalizing i visits h t m own with
  | zero => omega
  | succ rounds ih =>
      have hbins := (bounds_of_mem_primes ht.mem_primes).2
      rw [foreachPackedRounds, if_pos hi]
      cases hwords : t.packedWords word i with
      | error f => exact ⟨f, rfl⟩
      | ok pair =>
          have hread : i * 2 + 1 < t.numBins := by
            by_contra hbeyond
            rw [StTable.packedWords, if_neg hbeyond] at hwords
            cases hwords
          rcases stInsertEach_cases ht (func (visits.map StVisit.pair) pair) with
            hrefused | ⟨h', t', own', heq, ht', hgrows⟩
          · simp only [hrefused]
            exact ⟨.noMemory, rfl⟩
          · have hcount := hgrows.count
            have hlen := ht.length_eq
            simp only [heq]
            apply ih ht' (hgrows.notPacked ht ht' hring (by omega)) _ (by omega) (by omega)
              (by omega)
            rcases hgrows.bins with hsame | hlt
            · omega
            · exact hlt

/-- **When insertions make too many keys for packed entries**, the loop over them breaks. -/
theorem foreachPackedRounds_breaks (h : StHeap D) (word : Option ℕ → D)
    (visits : List (StVisit D)) {n rounds : ℕ} (hp : IsPacked type t cells m)
    (hprime : t.numBins ∈ primes) (hi : i = visits.length)
    (hmany : maxPackedNumhash < (mapRounds type func n i (visits.map StVisit.pair) m).length)
    (hrounds : n + maxNumBins ≤ rounds) :
    ∃ f, (foreachPackedRounds type word func rounds i visits h t).outcome = .error f := by
  induction n generalizing i visits t m cells rounds with
  | zero =>
      have hsmall := hp.small
      rw [mapRounds, ← hp.length_eq] at hmany
      omega
  | succ n ih =>
      have ht : IsTable type h t [] m := .packed hp hprime
      have hsmall := hp.small
      cases hpair : m[i]? with
      | none =>
          rw [mapRounds, hpair, ← hp.length_eq] at hmany
          omega
      | some pair =>
          obtain ⟨hlt, hwords⟩ := hp.words hprime word hpair
          rw [mapRounds_succ n _ hpair] at hmany
          obtain ⟨rounds, rfl⟩ : ∃ k, rounds = k + 1 := ⟨rounds - 1, by omega⟩
          rw [foreachPackedRounds, if_pos hlt]
          simp only [hwords]
          by_cases hfew :
              (storeEach type m (func (visits.map StVisit.pair) pair)).length ≤ maxPackedNumhash
          · obtain ⟨t', cells', heq, hp', hprime'⟩ := stInsertEach_packed (h := h) hp hprime hfew
            simp only [heq]
            apply ih _ hp' hprime' (by simp [hi]) _ (by omega)
            rwa [List.map_append]
          · rcases stInsertEach_cases ht (func (visits.map StVisit.pair) pair) with
              hrefused | ⟨h', t', own', heq, ht', hgrows⟩
            · simp only [hrefused]
              exact ⟨.noMemory, rfl⟩
            -- there are six entries now, so they are in memory, and there still are eleven bins
            · have hcount := ht'.length_eq
              have hring := ht'.notPacked (Nat.not_le.mp hfew)
              have hbins := hgrows.bins
              have heleven := hp.few
              have hmax : 11 ≤ maxNumBins := by decide
              rw [maxPackedNumhash] at hfew hsmall heleven
              simp only [heq]
              exact foreachPackedRounds_hashed ht' hring (by omega) (by omega) (by omega) (by omega)

end Packed

/-! ## The iteration and what it is for -/

section Stable

variable {type : StHashType D} {h : StHeap D} {t : StTable D} {own : List ℕ}
  {pairs : List (D × D)}

/-- Entries in memory are visited as they have to be. -/
theorem stForeachRounds_ring (ht : IsTable type h t own pairs) (hring : t.entriesPacked = false)
    (word : Option ℕ → D) (func : StInserter D) (rounds : ℕ) :
    IsStable type pairs rounds (stForeachRounds type word func rounds h t) := by
  have hv := Visited.nil type pairs
  cases ht with
  | packed hp _ =>
      rw [StTable.entriesPacked, hp.bins] at hring
      cases hring
  | @hashed cells hh =>
      obtain ⟨bins, hbins, -⟩ := hh.bins
      have hhead := hh.head
      cases cells with
      | nil =>
          simp only [stForeachRounds, hbins, hhead]
          refine hv.isStable (.hashed hh) ?_ (fun _ _ _ => le_rfl) ?_
          · intro h
            cases h
          · intro h t heq
            cases heq
      | cons c cells =>
          have hrun := foreachRingRounds_spec func rounds hv (.hashed hh) hring
            (Nat.zero_lt_succ _) rfl
          simp only [stForeachRounds, hbins, hhead]
          simpa using hrun

/-- Packed entries are visited as they have to be when they stay packed. -/
theorem stForeachRounds_packed {cells : ℕ → D} (hp : IsPacked type t cells pairs)
    (hprime : t.numBins ∈ primes) (word : Option ℕ → D) {func : StInserter D}
    (hfew : StaysPacked type func pairs) (rounds : ℕ) :
    IsStable type pairs rounds (stForeachRounds type word func rounds h t) := by
  have hrun := foreachPackedRounds_spec h word rounds (Visited.nil type pairs) hp hprime hfew
  simp only [stForeachRounds, hp.bins]
  simpa using hrun

/-- **`st_foreach` is stable under insertions when the entries are in memory or stay packed**, and
only then, unless an insertion is refused memory. -/
theorem isStable_iff (ht : IsTable type h t own pairs) (word : Option ℕ → D)
    (func : StInserter D) :
    (t.entriesPacked = false ∨ StaysPacked type func pairs →
      ∀ rounds, IsStable type pairs rounds (stForeachRounds type word func rounds h t)) ∧
    ((∀ rounds, (stForeachRounds type word func rounds h t).outcome ≠ .error .noMemory) →
      (∀ rounds, IsStable type pairs rounds (stForeachRounds type word func rounds h t)) →
      t.entriesPacked = false ∨ StaysPacked type func pairs) := by
  cases ht with
  | packed hp hprime =>
      have hpacked : t.entriesPacked = true := by rw [StTable.entriesPacked, hp.bins]
      refine ⟨fun hcond => ?_, fun hmemory hstable => .inr fun n => ?_⟩
      · exact stForeachRounds_packed hp hprime word (hcond.resolve_left (by simp [hpacked]))
      · by_contra hmany
        have hbreak := foreachPackedRounds_breaks h word [] hp hprime rfl (Nat.not_le.mp hmany)
          le_rfl
        obtain ⟨f, hf⟩ := hbreak
        have hsafe := (hstable (n + maxNumBins)).safe
        have hrefused := hmemory (n + maxNumBins)
        simp only [stForeachRounds, hp.bins] at hsafe hrefused
        cases f with
        | undefined => exact hsafe hf
        | noMemory => exact hrefused hf
  | hashed hh =>
      obtain ⟨bins, hbins, -⟩ := hh.bins
      have hring : t.entriesPacked = false := by rw [StTable.entriesPacked, hbins]
      exact ⟨fun _ => stForeachRounds_ring (.hashed hh) hring word func, fun _ _ => .inl hring⟩

end Stable

/-- A callback that inserts a new key for every entry it is given. -/
def insertNext : StInserter UInt64 := fun _ pair => [(pair.1 + 3, pair.2)]

theorem isStable_hashedThree :
    ∃ h t, hashedThree = .ok (h, t) ∧ ∀ word rounds,
      IsStable typeNumhash threePairs rounds
        (stForeachRounds typeNumhash word insertNext rounds h t) := by
  obtain ⟨h, t, own, heq, ht, hring⟩ := exists_hashedThree
  exact ⟨h, t, heq, fun word => (isStable_iff ht word insertNext).1 (.inl hring)⟩

/-- Five pairs of numbers. -/
def fivePairs : List (UInt64 × UInt64) := [(1, 10), (2, 20), (3, 30), (4, 40), (5, 50)]

/-- As many packed entries as there can be. -/
def packedFive : StTable UInt64 :=
  { numBins := 11
    numEntries := 5
    bins := .packed fun j => [1, 10, 2, 20, 3, 30, 4, 40, 5, 50].getD j 0
    head := none }

/-- A callback that inserts a sixth key when it is given the first one. -/
def insertSixth : StInserter UInt64 := fun _ pair => if pair.1 = 1 then [(6, 60)] else []

/-- Addresses of entries. -/
def entryAddress : Option ℕ → UInt64
  | none => 0
  | some p => UInt64.ofNat (4096 + 48 * p)

/-- When the callback inserts a sixth key, the next pair it is given is that of the addresses of two
entries, and in the end the loop reads beyond the array of bins. -/
theorem not_isStable_packedFive :
    IsTable typeNumhash emptyHeap packedFive [] fivePairs ∧
      (stForeachRounds typeNumhash entryAddress insertSixth 2 emptyHeap packedFive).visits.map
        StVisit.pair = [(1, 10), (4144, 4192)] ∧
      (stForeachRounds typeNumhash entryAddress insertSixth 6 emptyHeap packedFive).outcome.map
        (fun _ => ()) = .error .undefined ∧
      ¬ ∀ rounds, IsStable typeNumhash fivePairs rounds
        (stForeachRounds typeNumhash entryAddress insertSixth rounds emptyHeap packedFive) := by
  have hvisits : (stForeachRounds typeNumhash entryAddress insertSixth 2 emptyHeap
      packedFive).visits.map StVisit.pair = [(1, 10), (4144, 4192)] := by
    decide +kernel
  refine ⟨.packed ⟨rfl, rfl, rfl, rfl, by decide, by decide, by decide⟩ (by decide),
    hvisits, ?_, ?_⟩
  · decide +kernel
  · intro hstable
    have horder := (hstable 2).order
    have hlen := congrArg List.length hvisits
    have hkeys : (stForeachRounds typeNumhash entryAddress insertSixth 2 emptyHeap
        packedFive).visits.map StVisit.key = [1, 4144] := by
      have hpairs := congrArg (List.map Prod.fst) hvisits
      rw [List.map_map] at hpairs
      exact hpairs
    rw [List.length_map] at hlen
    rw [hkeys, hlen] at horder
    exact absurd horder (by decide)

end MacRuby
