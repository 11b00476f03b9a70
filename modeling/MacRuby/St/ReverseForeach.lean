import MacRuby.St.Conformance

/-!
# Iteration in reverse

`st_reverse_foreach` goes over the entries of a table from the last to the first. Over packed
entries it is the mirror image of `st_foreach`. Over the ring it is not: when the callback has an
entry deleted, the entry before it is freed as well, and the count is taken down twice.

## Main definitions

* `stReverseForeach` — the iteration.
* `KeepsAll` — the callback has none of the entries it is given deleted.
* `ReverseCorrect` — the entries are visited in reverse order, and the table keeps the others.

## Main results

* `reversePacked_spec` — the loop over packed entries walks over the reversed pairs.
* `reverseRing_spec` — so does the loop over the ring as long as nothing is deleted.
* `reverseRing_wrong` — with the first deletion it goes astray.
-/

namespace MacRuby

variable {D : Type} [DecidableEq D]

/-! ## The iteration -/

/-- `free`, which does nothing to a null pointer. -/
def StHeap.freePtr (h : StHeap D) : Option ℕ → Except StFault (StHeap D)
  | none => .ok h
  | some p => h.free p

/-- The loop of `st_reverse_foreach` over the packed entries below a number, with the pairs visited
so far. -/
def reversePacked (func : StCallback D) :
    ℕ → List (D × D) → StTable D → Except StFault (List (D × D) × StTable D)
  | 0, visited, t => .ok (visited, t)
  | i + 1, visited, t =>
      match t.bins with
      | .hashed _ => .error .undefined
      | .packed cells =>
          let pair := (cells (i * 2), cells (i * 2 + 1))
          match func visited pair with
          | .continue => reversePacked func i (visited ++ [pair]) t
          | .stop => .ok (visited ++ [pair], t)
          | .delete => reversePacked func i (visited ++ [pair]) (packedRemove t cells i)

/-- The search in the loop over the ring for the entry to delete, with `ptr` and `tmp` after it. -/
def reverseUnlink (h : StHeap D) (t : StTable D) (ptr : Option ℕ) (e : StEntry D) :
    Except StFault (Option ℕ × Option ℕ × StHeap D × StTable D) := do
  let bins ← t.chains
  let b := binPos e.hash t.numBins
  match ← unlinkFrom (fun p _ => some p = ptr) b (t.numEntries + 1) none (bins b) h bins with
  | none => return (ptr, none, h, t)
  | some (p, _, h, bins) => do
      let (h, t) ← removeEntry h { t with bins := .hashed bins } p
      let h ← h.free p
      return (e.back, e.back, h, t)

/-- The loop of `st_reverse_foreach` over the ring, from the entry `ptr` back. -/
def reverseRing (func : StCallback D) :
    ℕ → Option ℕ → List (D × D) → StHeap D → StTable D →
      Except StFault (List (D × D) × StHeap D × StTable D)
  | 0, _, _, _, _ => .error .undefined
  | fuel + 1, ptr, visited, h, t => do
      let e ← h.load ptr
      let done := ptr = t.head
      let visited' := visited ++ [(e.key, e.record)]
      match func visited (e.key, e.record) with
      | .continue =>
          if done ∨ t.head = none then return (visited', h, t)
          else reverseRing func fuel e.back visited' h t
      | .stop => return (visited', h, t)
      | .delete => do
          let (ptr, tmp, h, t) ← reverseUnlink h t ptr e
          -- `tmp` is not the entry deleted, which is freed already, but the one before it
          let e ← h.load ptr
          let h ← h.freePtr tmp
          let t := { t with numEntries := t.numEntries - 1 }
          if done ∨ t.head = none then return (visited', h, t)
          else reverseRing func fuel e.next visited' h t

/-- `st_reverse_foreach`: the pairs the callback is given, in order. -/
def stReverseForeach (func : StCallback D) (h : StHeap D) (t : StTable D) :
    Except StFault (List (D × D) × StHeap D × StTable D) :=
  match t.bins with
  | .packed _ => do
      let (visited, t) ← reversePacked func t.numEntries [] t
      return (visited, h, t)
  | .hashed _ =>
      match t.head with
      | none => .ok ([], h, t)
      | some p => do
          let e ← h.load (some p)
          reverseRing func (t.numEntries + 1) e.back [] h t

/-! ## What it is for -/

/-- The callback has none of the pairs it is given deleted. -/
def KeepsAll (func : StCallback D) : List (D × D) → List (D × D) → Prop
  | _, [] => True
  | visited, pair :: m =>
      match func visited pair with
      | .continue => KeepsAll func (visited ++ [pair]) m
      | .stop => True
      | .delete => False

attribute [grind =] KeepsAll

/-- The pairs are visited in reverse order, and afterwards the table holds those that were not
deleted, in entries that are linked as they have to be. No access is undefined. -/
def ReverseCorrect (type : StHashType D) (func : StCallback D) (h : StHeap D) (t : StTable D)
    (own : List ℕ) (pairs : List (D × D)) : Prop :=
  ∃ h' t' own', stReverseForeach func h t = .ok ((walk func [] pairs.reverse).1, h', t') ∧
    IsTable type h' t' own' (walk func [] pairs.reverse).2.reverse ∧ Changes h h' own own'

section Walk

variable {func : StCallback D} {visited : List (D × D)} {pair : D × D} {m : List (D × D)}

omit [DecidableEq D] in
theorem KeepsAll.of_continue (hk : KeepsAll func visited (pair :: m))
    (hf : func visited pair = .continue) : KeepsAll func (visited ++ [pair]) m := by
  simpa only [KeepsAll, hf] using hk

omit [DecidableEq D] in
theorem KeepsAll.ne_delete (hk : KeepsAll func visited (pair :: m)) :
    func visited pair ≠ .delete := by
  intro hf
  simp only [KeepsAll, hf] at hk

omit [DecidableEq D] in
/-- Where nothing is deleted, all pairs stay. -/
theorem KeepsAll.walk_snd (hk : KeepsAll func visited m) : (walk func visited m).2 = m := by
  induction m generalizing visited with
  | nil => rfl
  | cons pair m ih =>
      cases hf : func visited pair with
      | «continue» => rw [walk_continue hf, ih (hk.of_continue hf)]
      | stop => rw [walk_stop hf]
      | delete => exact absurd hf hk.ne_delete

omit [DecidableEq D] in
/-- The first pair is visited next. -/
theorem prefix_walk_cons (hm : visited ++ [pair] <+: (walk func (visited ++ [pair]) m).1) :
    visited ++ [pair] <+: (walk func visited (pair :: m)).1 := by
  cases hf : func visited pair with
  | «continue» => rwa [walk_continue hf]
  | stop => simp [walk_stop hf]
  | delete => rwa [walk_delete hf]

omit [DecidableEq D] in
/-- What was visited stays so. -/
theorem prefix_walk (func : StCallback D) (visited m : List (D × D)) :
    visited <+: (walk func visited m).1 := by
  induction m generalizing visited with
  | nil => exact List.prefix_rfl
  | cons pair m ih => exact (List.prefix_append _ _).trans (prefix_walk_cons (ih _))

end Walk

/-! ## Packed entries -/

section Packed

variable {type : StHashType D} {func : StCallback D}

/-- **The loop of `st_reverse_foreach` over packed entries walks over the reversed pairs.** -/
theorem reversePacked_spec (func : StCallback D) (visited : List (D × D))
    {todo post : List (D × D)} {t : StTable D} {cells : ℕ → D}
    (hp : IsPacked type t cells (todo ++ post)) :
    ∃ t' cells', reversePacked func todo.length visited t =
        .ok ((walk func visited todo.reverse).1, t') ∧ t'.numBins = t.numBins ∧
      IsPacked type t' cells' ((walk func visited todo.reverse).2.reverse ++ post) := by
  induction todo using List.reverseRecOn generalizing visited post t cells with
  | nil => exact ⟨t, cells, rfl, rfl, hp⟩
  | append_singleton todo p ih =>
      rw [List.append_assoc, List.singleton_append] at hp
      obtain ⟨-, hpair, -, -⟩ := hp.split
      rw [List.length_append, List.length_singleton, List.reverse_concat']
      simp only [reversePacked, hp.bins, hpair]
      cases hf : func visited p with
      | «continue» =>
          obtain ⟨t', cells', heq, hbins, hp'⟩ := ih (visited ++ [p]) hp
          rw [walk_continue hf]
          exact ⟨t', cells', heq, hbins, by simpa using hp'⟩
      | stop =>
          rw [walk_stop hf]
          exact ⟨t, cells, rfl, rfl, by simpa using hp⟩
      | delete =>
          obtain ⟨cells₁, hp₁⟩ := hp.remove
          rw [walk_delete hf]
          exact ih (visited ++ [p]) hp₁

end Packed

/-! ## The ring -/

section Ring

variable {type : StHashType D} {func : StCallback D} {h : StHeap D} {t : StTable D}
  {pre post : List (StCell D)} {c : StCell D} {visited : List (D × D)}

/-- The walk back is over at the first cell, and goes on to the cell before any other. -/
theorem IsHashed.head_eq_iff (hh : IsHashed type h t (pre ++ c :: post)) :
    some c.ptr = t.head ↔ pre = [] := by
  rw [hh.head]
  cases pre with
  | nil => simp
  | cons a pre =>
      have hnodup := hh.ring.nodup
      have hne : c.ptr ≠ a.ptr := by
        intro heq
        simp [heq] at hnodup
      simpa using hne

/-- One round of `st_reverse_foreach` whose callback goes on. -/
theorem reverseRing_continue (hh : IsHashed type h t (pre ++ c :: post))
    (hf : func visited c.pair = .continue) (fuel : ℕ) :
    reverseRing func (fuel + 1) (some c.ptr) visited h t =
      if pre = [] then .ok (visited ++ [c.pair], h, t)
      else reverseRing func fuel (h.back c.ptr) (visited ++ [c.pair]) h t := by
  obtain ⟨e, he, -, hkey, hrecord, -⟩ := hh.ring.exists_entry_fore (c := c) (by simp)
  have hf' : func visited (c.key, c.record) = .continue := hf
  have hback : e.back = h.back c.ptr := by simp [StHeap.back, he]
  have hhead : t.head ≠ none := by simp [hh.head]
  simp only [reverseRing, StHeap.load_eq he, Result.ok_bind, hkey, hrecord, hf', hback,
    hh.head_eq_iff, hhead, or_false]
  rfl

/-- One round of `st_reverse_foreach` whose callback stops. -/
theorem reverseRing_stop (hh : IsHashed type h t (pre ++ c :: post))
    (hf : func visited c.pair = .stop) (fuel : ℕ) :
    reverseRing func (fuel + 1) (some c.ptr) visited h t = .ok (visited ++ [c.pair], h, t) := by
  obtain ⟨e, he, -, hkey, hrecord, -⟩ := hh.ring.exists_entry_fore (c := c) (by simp)
  have hf' : func visited (c.key, c.record) = .stop := hf
  simp only [reverseRing, StHeap.load_eq he, Result.ok_bind, hkey, hrecord, hf']
  rfl

/-- **As long as nothing is deleted, the loop of `st_reverse_foreach` over the ring walks over the
reversed pairs.** -/
theorem reverseRing_spec (visited : List (D × D)) {fuel : ℕ}
    (hh : IsHashed type h t (pre ++ c :: post))
    (hk : KeepsAll func visited ((pre ++ [c]).map StCell.pair).reverse)
    (hfuel : pre.length < fuel) :
    reverseRing func fuel (some c.ptr) visited h t =
      .ok ((walk func visited ((pre ++ [c]).map StCell.pair).reverse).1, h, t) := by
  induction pre using List.reverseRecOn generalizing c post visited fuel with
  | nil =>
      obtain ⟨fuel, rfl⟩ : ∃ n, fuel = n + 1 := ⟨fuel - 1, by simp at hfuel; omega⟩
      rw [List.nil_append, List.map_singleton, List.reverse_singleton] at hk ⊢
      cases hf : func visited c.pair with
      | «continue» =>
          rw [walk_continue hf, reverseRing_continue hh hf, if_pos rfl]
          rfl
      | stop => rw [walk_stop hf, reverseRing_stop hh hf]
      | delete => exact absurd hf hk.ne_delete
  | append_singleton pre b ih =>
      obtain ⟨fuel, rfl⟩ : ∃ n, fuel = n + 1 := ⟨fuel - 1, by simp at hfuel; omega⟩
      have hrev : ((pre ++ [b] ++ [c]).map StCell.pair).reverse =
          c.pair :: ((pre ++ [b]).map StCell.pair).reverse := by
        simp
      rw [hrev] at hk ⊢
      cases hf : func visited c.pair with
      | «continue» =>
          have hh' : IsHashed type h t (pre ++ b :: c :: post) := by simpa using hh
          rw [walk_continue hf, reverseRing_continue hh hf, if_neg (by simp),
            hh.ring.back_concat]
          exact ih (visited ++ [c.pair]) hh' (hk.of_continue hf) (by simpa using hfuel)
      | stop => rw [walk_stop hf, reverseRing_stop hh hf]
      | delete => exact absurd hf hk.ne_delete

/-- The entry to delete is taken out of the table and freed. -/
theorem reverseUnlink_spec (hh : IsHashed type h t (pre ++ c :: post)) {e : StEntry D}
    (he : h.mem c.ptr = some e) :
    ∃ h' t', reverseUnlink h t (some c.ptr) e = .ok (e.back, e.back, h', t') ∧
      IsHashed type h' t' (pre ++ post) ∧ h'.mem c.ptr = none := by
  obtain ⟨e', he', hhash, -⟩ := hh.ring.exists_entry_fore (c := c) (by simp)
  obtain rfl : e' = e := Option.some.inj (he'.symm.trans he)
  obtain ⟨bins, hbins, -⟩ := hh.bins
  have hchained : t.chains = .ok bins := by rw [StTable.chains, hbins]
  obtain ⟨h₁, bins', h₂, h₃, t', hunlink, hremove, hfree, hh', -⟩ := hh.unlink_ptr hbins he
  refine ⟨h₃, t', ?_, hh', ?_⟩
  · simp only [reverseUnlink, hchained, Result.ok_bind, hhash, hunlink, hremove, hfree]
    rfl
  · rw [StHeap.mem_of_free hfree, Function.update_self]

/-- One round of `st_reverse_foreach` whose callback has the entry deleted: what is freed then is
the entry before it. -/
theorem reverseRing_delete (hh : IsHashed type h t (pre ++ c :: post))
    (hf : func visited c.pair = .delete) (fuel : ℕ) :
    ∃ h' t', IsHashed type h' t' (pre ++ post) ∧ h'.mem c.ptr = none ∧
      reverseRing func (fuel + 1) (some c.ptr) visited h t = (do
        let e ← h'.load (h.back c.ptr)
        let h' ← h'.freePtr (h.back c.ptr)
        let t'' := { t' with numEntries := t'.numEntries - 1 }
        if pre = [] ∨ t'.head = none then return (visited ++ [c.pair], h', t'')
        else reverseRing func fuel e.next (visited ++ [c.pair]) h' t'') := by
  obtain ⟨e, he, -, hkey, hrecord, -⟩ := hh.ring.exists_entry_fore (c := c) (by simp)
  have hf' : func visited (c.key, c.record) = .delete := hf
  have hback : e.back = h.back c.ptr := by simp [StHeap.back, he]
  obtain ⟨h', t', hunlink, hh', hfreed⟩ := reverseUnlink_spec hh he
  refine ⟨h', t', hh', hfreed, ?_⟩
  rw [← hback]
  simp only [reverseRing, StHeap.load_eq he, Result.ok_bind, hkey, hrecord, hf', hunlink,
    hh.head_eq_iff]
  rfl

omit [DecidableEq D] in
/-- The chain of an entry goes on to an entry before it. -/
theorem next_cell {type : StHashType D} {numBins : ℕ} {bins : ℕ → Option ℕ}
    (hchains : IsChains type h numBins bins (pre ++ c :: post)) :
    h.next c.ptr = none ∨ ∃ d ∈ pre, h.next c.ptr = some d.ptr := by
  have hpath := hchains (binPos (type.hash c.key) numBins)
  rw [inBin_split, if_pos rfl, ptrs, List.map_append, List.map_cons] at hpath
  rw [hpath.suffix.head_eq]
  cases hhead : ((inBin type numBins (binPos (type.hash c.key) numBins) pre).reverse.map
      StCell.ptr).head? with
  | none => exact .inl rfl
  | some p =>
      obtain ⟨d, hd, rfl⟩ := List.mem_map.mp (List.mem_of_head? hhead)
      exact .inr ⟨d, List.mem_of_mem_filter (List.mem_reverse.mp hd), rfl⟩

omit [DecidableEq D] in
/-- A loop that ends has visited the entry it started at, after those visited before. -/
theorem reverseRing_visited {fuel : ℕ} {ptr : Option ℕ} {h' : StHeap D} {t' : StTable D}
    {visited' : List (D × D)}
    (heq : reverseRing func fuel ptr visited h t = .ok (visited', h', t')) :
    ∃ e, h.load ptr = .ok e ∧ visited ++ [(e.key, e.record)] <+: visited' := by
  induction fuel generalizing ptr visited h t with
  | zero => cases heq
  | succ fuel ih =>
      rw [reverseRing] at heq
      obtain ⟨e, hload, heq⟩ := Result.bind_eq_ok.mp heq
      refine ⟨e, hload, ?_⟩
      -- whatever comes next, it comes after this entry
      have hrec : ∀ {ptr h t}, reverseRing func fuel ptr (visited ++ [(e.key, e.record)]) h t =
          .ok (visited', h', t') → visited ++ [(e.key, e.record)] <+: visited' := by
        intro ptr h t heq
        obtain ⟨e', -, hpre⟩ := ih heq
        exact (List.prefix_append _ _).trans hpre
      have hend : ∀ {h t}, (Except.ok (visited ++ [(e.key, e.record)], h, t) :
          Except StFault _) = .ok (visited', h', t') →
            visited ++ [(e.key, e.record)] <+: visited' := by
        intro h t heq
        have hvisited := (Prod.mk.inj (Except.ok.inj heq)).1
        exact hvisited ▸ List.prefix_rfl
      cases hf : func visited (e.key, e.record) with
      | «continue» =>
          simp only [hf] at heq
          split at heq
          · exact hend heq
          · exact hrec heq
      | stop =>
          simp only [hf] at heq
          exact hend heq
      | delete =>
          simp only [hf] at heq
          obtain ⟨⟨ptr₁, tmp, h₁, t₁⟩, -, heq⟩ := Result.bind_eq_ok.mp heq
          obtain ⟨e₁, -, heq⟩ := Result.bind_eq_ok.mp heq
          obtain ⟨h₂, -, heq⟩ := Result.bind_eq_ok.mp heq
          split at heq
          · exact hend heq
          · exact hrec heq

/-- From the chain of an entry that was freed the loop does not visit that entry. -/
theorem reverseRing_astray {b : StCell D} {fuel : ℕ} {h' h'' : StHeap D} {t' t'' : StTable D}
    {visited' : List (D × D)} (hh : IsHashed type h t (pre ++ b :: post))
    (hfree : h.free b.ptr = .ok h')
    (heq : reverseRing func fuel (h.next b.ptr) visited h' t' = .ok (visited', h'', t'')) :
    ¬ visited ++ [b.pair] <+: visited' := by
  obtain ⟨bins, -, hchains⟩ := hh.bins
  obtain ⟨e, hload, hvisited⟩ := reverseRing_visited heq
  intro hturn
  rcases next_cell hchains with hnone | ⟨d, hd, hsome⟩
  · rw [hnone] at hload
    cases hload
  · have hkey : e.key = d.key := by
      obtain ⟨ed, hed, -, hkey, -⟩ := hh.ring.exists_entry_fore (c := d) (by simp [hd])
      have hnodup := hh.ring.nodup
      rw [ptrs, List.map_append, List.map_cons, List.nodup_append] at hnodup
      have hne : d.ptr ≠ b.ptr := hnodup.2.2 _ (List.mem_map_of_mem hd) _ List.mem_cons_self
      have hed' : h'.mem d.ptr = some ed := by
        rw [StHeap.mem_of_free hfree, Function.update_of_ne hne, hed]
      rw [hsome, StHeap.load_eq hed'] at hload
      rw [← Except.ok.inj hload, hkey]
    have hpair := (List.prefix_of_prefix_length_le hvisited hturn (by simp)).eq_of_length (by simp)
    have hequal : d.key = b.key := by
      rw [List.append_cancel_left_eq, List.singleton_inj] at hpair
      rw [← hkey]
      exact congrArg Prod.fst hpair
    have hdistinct := (List.pairwise_append.mp hh.ring.distinct).2.2 d hd b List.mem_cons_self
    rw [hequal, type.equal_refl] at hdistinct
    cases hdistinct

/-- **With the first deletion the loop of `st_reverse_foreach` over the ring goes astray**: it
visits an entry out of turn, or it leaves a wrong count. -/
theorem reverseRing_wrong (visited : List (D × D)) {fuel : ℕ}
    (hh : IsHashed type h t (pre ++ c :: post))
    (hk : ¬ KeepsAll func visited ((pre ++ [c]).map StCell.pair).reverse)
    {h' : StHeap D} {t' : StTable D} {visited' : List (D × D)}
    (heq : reverseRing func fuel (some c.ptr) visited h t = .ok (visited', h', t')) :
    visited' ≠ (walk func visited ((pre ++ [c]).map StCell.pair).reverse).1 ∨
      t'.numEntries ≠
        (walk func visited ((pre ++ [c]).map StCell.pair).reverse).2.length + post.length := by
  induction pre using List.reverseRecOn generalizing c post visited fuel with
  | nil =>
      obtain ⟨fuel, rfl⟩ : ∃ n, fuel = n + 1 := by
        cases fuel with
        | zero => cases heq
        | succ n => exact ⟨n, rfl⟩
      rw [List.nil_append, List.map_singleton, List.reverse_singleton] at hk ⊢
      cases hf : func visited c.pair with
      | «continue» => simp [KeepsAll, hf] at hk
      | stop => simp [KeepsAll, hf] at hk
      | delete =>
          obtain ⟨h₁, t₁, hh₁, hfreed, hstep⟩ := reverseRing_delete hh hf fuel
          rw [hstep] at heq
          obtain ⟨e, hload, heq⟩ := Result.bind_eq_ok.mp heq
          obtain ⟨h₂, -, heq⟩ := Result.bind_eq_ok.mp heq
          rw [if_pos (.inl rfl)] at heq
          have ht' : t'.numEntries = t₁.numEntries - 1 := by
            rw [← (Prod.mk.inj (Prod.mk.inj (Except.ok.inj heq)).2).2]
          -- the entry is not alone, for it is not its own neighbour
          have hpost : post ≠ [] := by
            rintro rfl
            rw [hh.ring.back_eq] at hload
            simp [StHeap.load, hfreed] at hload
          have hlen := List.length_pos_of_ne_nil hpost
          have hcount := hh₁.count
          rw [List.nil_append] at hcount
          right
          rw [walk_delete hf, ht', hcount, walk, List.length_nil]
          omega
  | append_singleton pre b ih =>
      obtain ⟨fuel, rfl⟩ : ∃ n, fuel = n + 1 := by
        cases fuel with
        | zero => cases heq
        | succ n => exact ⟨n, rfl⟩
      have hrev : ((pre ++ [b] ++ [c]).map StCell.pair).reverse =
          c.pair :: ((pre ++ [b]).map StCell.pair).reverse := by
        simp
      rw [hrev] at hk ⊢
      cases hf : func visited c.pair with
      | «continue» =>
          rw [reverseRing_continue hh hf, if_neg (by simp), hh.ring.back_concat] at heq
          have hh' : IsHashed type h t (pre ++ b :: c :: post) := by simpa using hh
          rw [KeepsAll, hf] at hk
          rw [walk_continue hf]
          refine (ih (visited ++ [c.pair]) hh' hk heq).imp_right fun hne => ?_
          simp only [List.length_cons] at hne ⊢
          omega
      | stop => simp [KeepsAll, hf] at hk
      | delete =>
          left
          obtain ⟨h₁, t₁, hh₁, -, hstep⟩ := reverseRing_delete hh hf fuel
          rw [hstep, hh.ring.back_concat] at heq
          obtain ⟨e, hload, heq⟩ := Result.bind_eq_ok.mp heq
          obtain ⟨h₂, hfree, heq⟩ := Result.bind_eq_ok.mp heq
          have hhead : t₁.head ≠ none := by simp [hh₁.head]
          rw [if_neg (by simp [hhead])] at heq
          rw [List.append_assoc, List.singleton_append] at hh₁
          have hnext : e.next = h₁.next b.ptr := by
            obtain ⟨eb, heb, -⟩ := hh₁.ring.exists_entry_fore (c := b) (by simp)
            rw [StHeap.load_eq heb] at hload
            simp [StHeap.next, heb, Except.ok.inj hload]
          rw [hnext] at heq
          intro hwalk
          apply reverseRing_astray hh₁ hfree heq
          rw [hwalk, walk_delete hf, List.map_append, List.map_singleton, List.reverse_concat']
          exact prefix_walk_cons (prefix_walk func _ _)

end Ring

/-! ## The iteration and what it is for -/

section Correct

variable {type : StHashType D} {h : StHeap D} {t : StTable D} {own : List ℕ}
  {pairs : List (D × D)}

/-- Packed entries are visited and deleted as they have to be. -/
theorem IsPacked.reverseCorrect {cells : ℕ → D} (hp : IsPacked type t cells pairs)
    (hprime : t.numBins ∈ primes) (func : StCallback D) :
    ReverseCorrect type func h t [] pairs := by
  obtain ⟨t', cells', heq, hnum, hp'⟩ := reversePacked_spec func []
    (show IsPacked type t cells (pairs ++ []) by simpa using hp)
  rw [List.append_nil] at hp'
  refine ⟨h, t', [], ?_, .packed hp' (hnum ▸ hprime), .refl fun _ hp => hp⟩
  rw [← hp.length_eq] at heq
  simp only [stReverseForeach, hp.bins]
  exact congrArg (· >>= _) heq

/-- The iteration over the ring starts at the last entry. -/
theorem IsHashed.stReverseForeach_eq {pre : List (StCell D)} {c : StCell D}
    (hh : IsHashed type h t (pre ++ [c])) (func : StCallback D) :
    stReverseForeach func h t = reverseRing func (t.numEntries + 1) (some c.ptr) [] h t := by
  obtain ⟨bins, hbins, -⟩ := hh.bins
  obtain ⟨a, cells, hcells⟩ : ∃ a cells, pre ++ [c] = a :: cells :=
    List.exists_cons_of_ne_nil (by simp)
  have hhead : t.head = some a.ptr := by
    rw [hh.head, hcells]
    rfl
  obtain ⟨e, he⟩ := hh.ring.exists_entry (p := a.ptr) (by simp [hcells])
  have hring : IsRing type h ([] ++ a :: cells) := hcells ▸ hh.ring
  have hback : e.back = some c.ptr := by
    have hlast := hring.back_eq
    rw [List.append_nil, ← hcells, ptrs, List.map_append, List.map_singleton,
      List.getLast?_concat] at hlast
    simpa [StHeap.back, he] using hlast
  simp only [stReverseForeach, hbins, hhead, StHeap.load_eq he, Result.ok_bind, hback]

/-- Entries in memory are visited as they have to be exactly when none is deleted. -/
theorem IsHashed.reverseCorrect_iff_keepsAll {cells : List (StCell D)}
    (hh : IsHashed type h t cells)
    (func : StCallback D) :
    ReverseCorrect type func h t (ptrs cells) (cells.map StCell.pair) ↔
      KeepsAll func [] (cells.map StCell.pair).reverse := by
  rcases cells.eq_nil_or_concat' with rfl | ⟨pre, c, rfl⟩
  · obtain ⟨bins, hbins, -⟩ := hh.bins
    have hhead : t.head = none := hh.head
    refine ⟨fun _ => trivial, fun _ => ⟨h, t, _, ?_, .hashed hh, .refl fun _ hp => hp⟩⟩
    simp only [stReverseForeach, hbins, hhead]
    rfl
  rw [ReverseCorrect, hh.stReverseForeach_eq func]
  constructor
  · intro hcorrect
    obtain ⟨h', t', own', heq, ht', -⟩ := hcorrect
    by_contra hk
    rcases reverseRing_wrong [] hh hk heq with hne | hne
    · exact hne rfl
    · exact hne (by simpa using ht'.length_eq)
  · intro hk
    refine ⟨h, t, _, ?_, ?_, .refl fun _ hp => hp⟩
    · apply reverseRing_spec [] hh hk
      rw [hh.count, List.length_append]
      omega
    · rw [hk.walk_snd, List.reverse_reverse]
      exact .hashed hh

/-- **`st_reverse_foreach` does what it is for exactly when the entries are packed or none is
deleted.** -/
theorem reverseCorrect_iff (ht : IsTable type h t own pairs) (func : StCallback D) :
    ReverseCorrect type func h t own pairs ↔
      t.entriesPacked = true ∨ KeepsAll func [] pairs.reverse := by
  cases ht with
  | packed hp hprime =>
      refine ⟨fun _ => .inl ?_, fun _ => hp.reverseCorrect hprime func⟩
      rw [StTable.entriesPacked, hp.bins]
  | hashed hh =>
      obtain ⟨bins, hbins, -⟩ := hh.bins
      rw [hh.reverseCorrect_iff_keepsAll func, StTable.entriesPacked, hbins]
      simp

end Correct

/-- A callback that has the entry of the key 1 deleted. -/
def deleteOne : StCallback UInt64 := fun _ pair => if pair.1 = 1 then .delete else .continue

/-- Three packed entries. -/
def packedThree : StTable UInt64 :=
  { numBins := 11
    numEntries := 3
    bins := .packed fun j => [1, 10, 2, 20, 3, 30].getD j 0
    head := none }

theorem reverseCorrect_iff_packedThree :
    ReverseCorrect typeNumhash deleteOne emptyHeap packedThree [] threePairs ↔
      packedThree.entriesPacked = true ∨ KeepsAll deleteOne [] threePairs.reverse := by
  have hp : IsPacked typeNumhash packedThree (fun j => [1, 10, 2, 20, 3, 30].getD j 0)
      threePairs :=
    ⟨rfl, rfl, rfl, rfl, distinct_threePairs, by decide, by decide⟩
  exact reverseCorrect_iff (.packed hp (by decide)) deleteOne

/-- When the first of three entries is deleted, which is the last one visited, one entry is left of
the two that were to stay. -/
theorem not_reverseCorrect_hashedThree :
    ∃ h t own, hashedThree = .ok (h, t) ∧ IsTable typeNumhash h t own threePairs ∧
      (stReverseForeach deleteOne h t).map (fun r => (r.1, r.2.2.numEntries)) =
        .ok (threePairs.reverse, 1) ∧
      ¬ ReverseCorrect typeNumhash deleteOne h t own threePairs := by
  obtain ⟨h, t, own, hthree, ht, -⟩ := exists_hashedThree
  have hrun : (hashedThree >>= fun s =>
      (stReverseForeach deleteOne s.1 s.2).map fun r => (r.1, r.2.2.numEntries)) =
        .ok (threePairs.reverse, 1) := by
    decide +kernel
  rw [hthree, Result.ok_bind] at hrun
  refine ⟨h, t, own, hthree, ht, hrun, ?_⟩
  intro hcorrect
  obtain ⟨h', t', own', heq', ht', -⟩ := hcorrect
  simp only [heq'] at hrun
  have hcount : t'.numEntries = 1 := (Prod.mk.inj (Except.ok.inj hrun)).2
  have hlength : t'.numEntries = 2 := ht'.length_eq
  omega

end MacRuby
