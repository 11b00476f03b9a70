import MacRuby.Util.QsortSplit

/-!
# What `ruby_qsort` does

The elements outside of the region in work and of those on the stack are where they belong.  Each
label has its own assumptions about the median and the elements at the ends of the region; a step
leads from a state that meets those of its label to another one, and comes down an order.

## Main definitions

* `QsAt`, `QsInv` — the assumptions at a label, and in all.
* `QsState.Lower` — what gets smaller.
* `QsortRight` — the array is sorted.

## Main results

* `qsStep_advances` — a step.
* `qsRun_sorts` — a run.
* `qsortRight_iff` — when the array is sorted.
-/

namespace MacRuby

open Regions

/-! ## The invariant -/

/-- The region in work. -/
def QsState.region (s : QsState) : ℤ × ℤ := (s.L, s.R)

/-- All regions that are to be sorted. -/
def QsState.regions (s : QsState) : List (ℤ × ℤ) :=
  match s.label with
  | .nxt => s.stack
  | .done => []
  | _ => s.region :: s.stack

/-- At most labels the region in work is one of them. -/
theorem QsState.regions_eq {s : QsState} (hnxt : s.label ≠ .nxt) (hdone : s.label ≠ .done) :
    s.regions = s.region :: s.stack := by
  unfold QsState.regions
  split
  · rename_i h
    exact absurd h hnxt
  · rename_i h
    exact absurd h hdone
  · rfl

section Invariant

variable {E : Type} (cmp : E → E → ℤ) (mem : ℤ → E) (reg : ℤ × ℤ)

/-- The median lies inside of the region. -/
def Inside (m : ℤ) : Prop := reg.1 < m ∧ m < reg.2

/-- The order has been checked up to `p`, and the median lies between the ends. -/
structure Checking (m p : ℤ) : Prop where
  inside : Inside reg m
  first_lt : cmp (mem reg.1) (mem m) < 0
  lt_last : cmp (mem m) (mem reg.2) < 0
  le_p : reg.1 ≤ p
  p_le : p ≤ reg.2
  ordered : ∀ i, reg.1 ≤ i → i < p → cmp (mem i) (mem (i + 1)) ≤ 0

/-- A region in descending order has been reversed up to `l`, and from `r` on. -/
structure Reversing (l r : ℤ) : Prop where
  sum : l + r = reg.1 + reg.2
  le_l : reg.1 ≤ l
  l_le : l ≤ r + 1
  reversed : ∃ v : ℤ → E, SortedOn (fun a b => QsLe cmp b a) v reg ∧
    ∀ i, reg.1 ≤ i → i ≤ reg.2 →
      mem i = if i < l ∨ r < i then v (reg.1 + reg.2 - i) else v i

/-- The elements up to `l`, and the last one, are equal to the median. -/
structure AllEqual (m l : ℤ) : Prop where
  inside : Inside reg m
  le_l : reg.1 ≤ l
  l_lt : l < reg.2
  equal : ∀ i, reg.1 ≤ i → i ≤ l → cmp (mem i) (mem m) = 0
  last : cmp (mem reg.2) (mem m) = 0

/-- **What is assumed at a label.** -/
def QsAt : QsLabel → Prop
  | .nxt => True
  | .start => True
  | .ascending m p => Checking cmp mem reg m p
  | .descending m p => Checking (fun a b => -cmp a b) mem reg m p
  | .reverse l r => Reversing cmp mem reg l r
  | .equal m l => AllEqual cmp mem reg m l
  | .first side sp => AtFirst cmp mem reg side sp
  | .second side sp => AtSecond cmp mem reg side sp
  | .fin l r eqL eqR => Splitted cmp mem reg l r eqL eqR
  | .done => True

/-- **What is assumed at all labels**: the array is in order except within the regions. -/
structure QsInv (nel : ℕ) (s : QsState) : Prop where
  pending : Pending (QsLe cmp) mem nel s.regions
  label : QsAt cmp mem s.region s.label

end Invariant

/-! ## What gets smaller -/

/-- The labels in the order in which they are reached. -/
def QsLabel.rank : QsLabel → ℕ
  | nxt => 6
  | start => 5
  | ascending _ _ => 4
  | descending _ _ => 4
  | equal _ _ => 3
  | first _ _ => 2
  | second _ _ => 2
  | reverse _ _ => 1
  | fin _ _ _ _ => 0
  | done => 0

/-- How many turns are left of a loop. -/
def QsState.turns (s : QsState) : ℕ :=
  match s.label with
  | .ascending _ p => (s.R - p).toNat
  | .descending _ p => (s.R - p).toNat
  | .reverse l r => (r - l + 1).toNat
  | .equal _ l => (s.R - l).toNat
  | .first side sp => (side.sign * sp.y - side.sign * sp.x).toNat
  | .second side sp => (side.sign * sp.y - side.sign * sp.x).toNat
  | _ => 0

/-- Less is to be sorted, or a later label is reached, or a loop is closer to its end. -/
def QsState.Lower (s' s : QsState) : Prop :=
  Prod.Lex (· < ·) (Prod.Lex (· < ·) (· < ·)) (total s'.regions, s'.label.rank, s'.turns)
    (total s.regions, s.label.rank, s.turns)

theorem QsState.Lower.wellFounded : WellFounded QsState.Lower :=
  InvImage.wf (fun s : QsState => (total s.regions, s.label.rank, s.turns))
    (WellFounded.prod_lex wellFounded_lt (WellFounded.prod_lex wellFounded_lt wellFounded_lt))

section Lower

variable {s s' : QsState}

theorem QsState.Lower.of_total (h : total s'.regions < total s.regions) : s'.Lower s :=
  Prod.Lex.left _ _ h

theorem QsState.Lower.of_rank (h : s'.regions = s.regions) (hrank : s'.label.rank < s.label.rank) :
    s'.Lower s := by
  unfold QsState.Lower
  rw [h]
  exact Prod.Lex.right _ (Prod.Lex.left _ _ hrank)

theorem QsState.Lower.of_turns (h : s'.regions = s.regions)
    (hrank : s'.label.rank = s.label.rank) (hturns : s'.turns < s.turns) : s'.Lower s := by
  unfold QsState.Lower
  rw [h, hrank]
  exact Prod.Lex.right _ (Prod.Lex.right _ hturns)

end Lower

/-! ## Steps -/

section Steps

variable {base size nel : ℕ} {cmp : QsItem size → QsItem size → ℤ} {mem : ℤ → QsItem size}
  {s : QsState}

/-- **A jump leads to a state that meets its assumptions**, after a rearrangement of the array. -/
def Advances (base nel : ℕ) (cmp : QsItem size → QsItem size → ℤ) (mem : ℤ → QsItem size)
    (s : QsState) (jump : QsJump) : Prop :=
  ∃ move s', ∃ σ : Equiv.Perm ℤ, jump = .ok (move, s') ∧
    move.apply nel (mmprepare base size) mem = .ok (mem ∘ σ) ∧ Confined (0, (nel : ℤ) - 1) σ ∧
    QsInv cmp (mem ∘ σ) nel s' ∧ s'.Lower s

/-- A move within a region. -/
structure Moves (base nel : ℕ) (mem : ℤ → QsItem size) (reg : ℤ × ℤ) (move : QsMove)
    (σ : Equiv.Perm ℤ) : Prop where
  apply_eq : move.apply nel (mmprepare base size) mem = .ok (mem ∘ σ)
  within : Confined reg σ

theorem Moves.keep (reg : ℤ × ℤ) : Moves base nel mem reg .keep 1 := ⟨rfl, Confined.one⟩

section Jumps

variable (hp : Pending (QsLe cmp) mem nel (s.region :: s.stack)) {move : QsMove}
  {σ : Equiv.Perm ℤ} (hmove : Moves base nel mem s.region move σ)
include hp hmove

/-- **A jump within the region.** -/
theorem Moves.stay {s' : QsState} (hregion : s'.region = s.region) (hstack : s'.stack = s.stack)
    (hregions : s'.regions = s'.region :: s'.stack)
    (hat : QsAt cmp (mem ∘ σ) s.region s'.label) (hlow : s'.Lower s) :
    Advances base nel cmp mem s (.ok (move, s')) := by
  have hbounds := hp.bounds _ List.mem_cons_self
  refine ⟨move, s', σ, rfl, hmove.apply_eq, hmove.within.mono hbounds.1 ?_, ⟨?_, ?_⟩, hlow⟩
  · exact Int.le_sub_one_of_lt hbounds.2.2
  · rw [hregions, hregion, hstack]
    exact hp.rearrange hmove.within
  · rw [hregion]
    exact hat

/-- **The region is in order.** -/
theorem Moves.leave (hregions : s.regions = s.region :: s.stack)
    (hsorted : SortedOn (QsLe cmp) (mem ∘ σ) s.region) :
    Advances base nel cmp mem s (s.goto .nxt move) := by
  have hbounds := hp.bounds _ List.mem_cons_self
  refine ⟨move, _, σ, rfl, hmove.apply_eq, hmove.within.mono hbounds.1 ?_, ⟨?_, trivial⟩, ?_⟩
  · exact Int.le_sub_one_of_lt hbounds.2.2
  · exact (hp.rearrange hmove.within).drop hsorted
  · apply QsState.Lower.of_total
    rw [hregions, total_cons]
    refine Nat.lt_add_of_pos_left ?_
    rw [width]
    omega

/-- `goto loopA`, with what it assumes. -/
theorem Moves.toA (hregions : s.regions = s.region :: s.stack) (hrank : 2 < s.label.rank) {m : ℤ}
    (hm : Inside s.region m) (hfirst : cmp ((mem ∘ σ) s.L) ((mem ∘ σ) m) ≤ 0)
    (hlast : 0 < cmp ((mem ∘ σ) s.R) ((mem ∘ σ) m)) :
    Advances base nel cmp mem s (loopA s m move) := by
  refine hmove.stay hp rfl rfl rfl ?_ (.of_rank hregions.symm hrank)
  exact @AtFirst.init _ cmp _ s.region .A m hm (by rwa [QsSide.sign, one_mul])
    (by rwa [QsSide.sign, one_mul])

/-- `goto loopB`, with what it assumes. -/
theorem Moves.toB (hregions : s.regions = s.region :: s.stack) (hrank : 2 < s.label.rank) {m : ℤ}
    (hm : Inside s.region m) (hfirst : cmp ((mem ∘ σ) s.L) ((mem ∘ σ) m) < 0)
    (hlast : 0 ≤ cmp ((mem ∘ σ) s.R) ((mem ∘ σ) m)) :
    Advances base nel cmp mem s (loopB s m move) := by
  refine hmove.stay hp rfl rfl rfl ?_ (.of_rank hregions.symm hrank)
  exact @AtFirst.init _ cmp _ s.region .B m hm
    (by rw [QsSide.sign, neg_one_mul]; exact neg_nonpos.mpr hlast)
    (by rw [QsSide.sign, neg_one_mul]; exact neg_pos.mpr hfirst)

end Jumps

/-! ### Elements of the region -/

section Rotate

variable {a b c : ℤ}

theorem rot_first (hab : a ≠ b) (hac : a ≠ c) :
    (mem ∘ (Equiv.swap a b * Equiv.swap b c)) a = mem b := by
  rw [Function.comp_apply, Equiv.Perm.mul_apply, Equiv.swap_apply_of_ne_of_ne hab hac,
    Equiv.swap_apply_left]

theorem rot_second (hac : a ≠ c) (hbc : b ≠ c) :
    (mem ∘ (Equiv.swap a b * Equiv.swap b c)) b = mem c := by
  rw [Function.comp_apply, Equiv.Perm.mul_apply, Equiv.swap_apply_left,
    Equiv.swap_apply_of_ne_of_ne hac.symm hbc.symm]

theorem rot_third : (mem ∘ (Equiv.swap a b * Equiv.swap b c)) c = mem a := by
  rw [Function.comp_apply, Equiv.Perm.mul_apply, Equiv.swap_apply_right, Equiv.swap_apply_right]

end Rotate

section Elements

variable (hp : Pending (QsLe cmp) mem nel (s.region :: s.stack))
include hp

/-- The region lies in the array. -/
theorem inArray_of_region {i : ℤ} (hi : s.L ≤ i) (hi' : i ≤ s.R) : InArray nel i := by
  obtain ⟨h0, -, hn⟩ := hp.bounds _ List.mem_cons_self
  exact ⟨h0.trans hi, hi'.trans_lt hn⟩

theorem qsCmp_eq {a b : ℤ} (ha : s.L ≤ a ∧ a ≤ s.R) (hb : s.L ≤ b ∧ b ≤ s.R) :
    qsCmp nel cmp mem a b = .ok (cmp (mem a) (mem b)) :=
  if_pos ⟨inArray_of_region hp ha.1 ha.2, inArray_of_region hp hb.1 hb.2⟩

/-- One of the three elements is the median of them. -/
theorem med3_eq {a b c : ℤ} (ha : s.L ≤ a ∧ a ≤ s.R) (hb : s.L ≤ b ∧ b ≤ s.R)
    (hc : s.L ≤ c ∧ c ≤ s.R) :
    ∃ m, med3 nel cmp mem a b c = .ok m ∧ (m = a ∨ m = b ∨ m = c) := by
  unfold med3
  rw [qsCmp_eq hp ha hb, qsCmp_eq hp hb hc, qsCmp_eq hp ha hc]
  simp only [Result.ok_bind]
  split_ifs
  · exact ⟨b, rfl, .inr (.inl rfl)⟩
  · exact ⟨c, rfl, .inr (.inr rfl)⟩
  · exact ⟨a, rfl, .inl rfl⟩
  · exact ⟨b, rfl, .inr (.inl rfl)⟩
  · exact ⟨a, rfl, .inl rfl⟩
  · exact ⟨c, rfl, .inr (.inr rfl)⟩

/-- **The median that is chosen lies inside of the region.** -/
theorem qsMedian_eq (hmore : s.L + 1 < s.R) :
    ∃ m, qsMedian nel cmp mem s.L (s.R - s.L + 1) = .ok m ∧ Inside s.region m := by
  unfold qsMedian
  dsimp only
  split_ifs with h60 h200
  · obtain ⟨m1, heq1, h1⟩ := med3_eq hp (a := s.L + (s.R - s.L + 1) / 8)
      (b := s.L + (s.R - s.L + 1) / 8 + (s.R - s.L + 1) / 8)
      (c := s.L + (s.R - s.L + 1) / 8 + (s.R - s.L + 1) / 8 + (s.R - s.L + 1) / 8)
      (by omega) (by omega) (by omega)
    obtain ⟨m3, heq3, h3⟩ := med3_eq hp (a := s.L + (s.R - s.L + 1) / 2 + (s.R - s.L + 1) / 8)
      (b := s.L + (s.R - s.L + 1) / 2 + (s.R - s.L + 1) / 8 + (s.R - s.L + 1) / 8)
      (c := s.L + (s.R - s.L + 1) / 2 + (s.R - s.L + 1) / 8 + (s.R - s.L + 1) / 8 +
        (s.R - s.L + 1) / 8)
      (by omega) (by omega) (by omega)
    obtain ⟨m, heq, hm⟩ := med3_eq hp (a := m1) (b := s.L + (s.R - s.L + 1) / 2) (c := m3)
      (by omega) (by omega) (by omega)
    refine ⟨m, ?_, ?_⟩
    · rw [heq1, Result.ok_bind, heq3, Result.ok_bind, heq]
    · unfold Inside QsState.region
      dsimp only
      omega
  · obtain ⟨m, heq, hm⟩ := med3_eq hp (a := s.L + (s.R - s.L + 1) / 4)
      (b := s.L + (s.R - s.L + 1) / 2) (c := s.L + (s.R - s.L + 1) / 2 + (s.R - s.L + 1) / 4)
      (by omega) (by omega) (by omega)
    refine ⟨m, heq, ?_⟩
    unfold Inside QsState.region
    dsimp only
    omega
  · refine ⟨_, rfl, ?_⟩
    unfold Inside QsState.region
    dsimp only
    omega

section Whole

variable (hsize : 0 < size) (hwhole : mmMoved base size = size)
include hsize hwhole

/-- A swap of two elements of the region. -/
theorem Moves.swap {a b : ℤ} (ha : s.L ≤ a ∧ a ≤ s.R) (hb : s.L ≤ b ∧ b ≤ s.R) :
    Moves base nel mem s.region (.swap a b) (Equiv.swap a b) := by
  refine ⟨?_, Confined.swap ha hb⟩
  rw [QsMove.apply, if_pos ⟨inArray_of_region hp ha.1 ha.2, inArray_of_region hp hb.1 hb.2⟩,
    mmswap_whole hsize mem hwhole]

/-- A rotation of three of them. -/
theorem Moves.rot3 {a b c : ℤ} (ha : s.L ≤ a ∧ a ≤ s.R) (hb : s.L ≤ b ∧ b ≤ s.R)
    (hc : s.L ≤ c ∧ c ≤ s.R) (hac : a ≠ c) (hbc : b ≠ c) :
    Moves base nel mem s.region (.rot3 a b c) (Equiv.swap a b * Equiv.swap b c) := by
  refine ⟨?_, (Confined.swap ha hb).mul (Confined.swap hb hc)⟩
  rw [QsMove.apply, if_pos ⟨inArray_of_region hp ha.1 ha.2, inArray_of_region hp hb.1 hb.2,
    inArray_of_region hp hc.1 hc.2⟩, mmrot3_whole hsize mem hwhole hac hbc]

/-- A swap in one of the splitting loops. -/
theorem Moves.side_swap (side : QsSide) {x y : ℤ} (hx : s.L ≤ x ∧ x ≤ s.R)
    (hy : s.L ≤ y ∧ y ≤ s.R) :
    Moves base nel mem s.region (side.swap x y) (Equiv.swap x y) := by
  cases side with
  | A => exact Moves.swap hp hsize hwhole hx hy
  | B =>
      rw [Equiv.swap_comm]
      exact Moves.swap hp hsize hwhole hy hx

/-- The median is brought to its place. -/
theorem Moves.place (side : QsSide) {m last : ℤ} (hm : s.L ≤ m ∧ m ≤ s.R)
    (hlast : s.L ≤ last ∧ last ≤ s.R) :
    Moves base nel mem s.region (if last ≠ m then side.swap m last else .keep)
      (Equiv.swap m last) := by
  by_cases h : last = m
  · rw [if_neg (not_not.mpr h), h, Equiv.swap_self]
    exact Moves.keep _
  · rw [if_pos h]
    exact Moves.side_swap hp hsize hwhole side hm hlast

end Whole

end Elements

/-! ### From a label to the next one -/

section Labels

variable (hcmp : TotalPreorder cmp) (hsize : 0 < size) (hwhole : mmMoved base size = size)
  (hp : Pending (QsLe cmp) mem nel (s.region :: s.stack))
  (hregions : s.regions = s.region :: s.stack)

section Start

variable (hrank : 4 < s.label.rank) {m : ℤ} (hm : Inside s.region m)
include hcmp hsize hwhole hp hregions hrank hm

/-- **Case 3-5-?.** -/
theorem qsRising_advances (hlt : cmp (mem s.L) (mem m) < 0) :
    Advances base nel cmp mem s (qsRising nel cmp mem s m) := by
  have hmL : s.L < m := hm.1
  have hmR : m < s.R := hm.2
  have hL : s.L ≤ s.L ∧ s.L ≤ s.R := by omega
  have hR : s.L ≤ s.R ∧ s.R ≤ s.R := by omega
  have hm' : s.L ≤ m ∧ m ≤ s.R := by omega
  have hkeep : Moves base nel mem s.region .keep 1 := .keep _
  have hsplit : 2 < s.label.rank := by omega
  unfold qsRising
  rw [qsCmp_eq hp hm' hR, Result.ok_bind]
  split_ifs with hmr hcheck hmr
  · refine hkeep.stay hp rfl rfl rfl ?_ (.of_rank hregions.symm hrank)
    exact ⟨hm, hlt, hmr, le_rfl, hL.2, fun i hi hi' => absurd hi' (not_lt.mpr hi)⟩
  · exact hkeep.toA hp hregions hsplit hm hlt.le ((hcmp.swap _ _).mp hmr)
  · rw [qsCmp_eq hp hL hR, Result.ok_bind]
    split_ifs with hlr
    · refine (Moves.swap hp hsize hwhole hm' hR).toA hp hregions hsplit hm ?_ ?_
      · rw [swap_left, swap_other hmL.ne (hmL.trans hmR).ne]
        exact hlr
      · rw [swap_left, swap_right]
        exact hmr
    · have hrot := Moves.rot3 hp hsize hwhole hR hm' hL (hmL.trans hmR).ne' hmL.ne'
      refine hrot.toA hp hregions hsplit hm ?_ ?_
      · rw [rot_third, rot_second (hmL.trans hmR).ne' hmL.ne']
        exact ((hcmp.swap _ _).mpr (not_le.mp hlr)).le
      · rw [rot_first hmR.ne' (hmL.trans hmR).ne', rot_second (hmL.trans hmR).ne' hmL.ne']
        exact (hcmp.swap _ _).mp hlt
  · refine hkeep.toB hp hregions hsplit hm hlt ?_
    have hequal : cmp (mem m) (mem s.R) = 0 := by omega
    exact (hcmp.comm hequal).ge

/-- **Case 7-5-?.** -/
theorem qsFalling_advances (hgt : 0 < cmp (mem s.L) (mem m)) :
    Advances base nel cmp mem s (qsFalling nel cmp mem s m) := by
  have hmL : s.L < m := hm.1
  have hmR : m < s.R := hm.2
  have hLR := hmL.trans hmR
  have hL : s.L ≤ s.L ∧ s.L ≤ s.R := by omega
  have hR : s.L ≤ s.R ∧ s.R ≤ s.R := by omega
  have hm' : s.L ≤ m ∧ m ≤ s.R := by omega
  have hsplit : 2 < s.label.rank := by omega
  have hends := Moves.swap hp hsize hwhole hL hR
  unfold qsFalling
  rw [qsCmp_eq hp hm' hR, Result.ok_bind]
  split_ifs with hmr hcheck hmr
  · have hkeep : Moves base nel mem s.region .keep 1 := .keep _
    refine hkeep.stay hp rfl rfl rfl ?_ (.of_rank hregions.symm hrank)
    exact ⟨hm, neg_neg_of_pos hgt, neg_neg_of_pos hmr, le_rfl, hL.2,
      fun i hi hi' => absurd hi' (not_lt.mpr hi)⟩
  · refine hends.toA hp hregions hsplit hm ?_ ?_
    · rw [swap_left, swap_other hmL.ne' hmR.ne]
      exact ((hcmp.swap _ _).mpr hmr).le
    · rw [swap_right, swap_other hmL.ne' hmR.ne]
      exact hgt
  · rw [qsCmp_eq hp hL hR, Result.ok_bind]
    split_ifs with hlr
    · refine (Moves.swap hp hsize hwhole hL hm').toB hp hregions hsplit hm ?_ ?_
      · rw [swap_left, swap_right]
        exact (hcmp.swap _ _).mpr hgt
      · rw [swap_right, swap_other hLR.ne' hmR.ne']
        exact hcmp.ge_of_le hlr
    · have hrot := Moves.rot3 hp hsize hwhole hL hm' hR hLR.ne hmR.ne
      refine hrot.toA hp hregions hsplit hm ?_ ?_
      · rw [rot_first hmL.ne hLR.ne, rot_second hLR.ne hmR.ne]
        exact hmr.le
      · rw [rot_third, rot_second hLR.ne hmR.ne]
        exact not_le.mp hlr
  · have hequal : cmp (mem m) (mem s.R) = 0 := by omega
    refine hends.toA hp hregions hsplit hm ?_ ?_
    · rw [swap_left, swap_other hmL.ne' hmR.ne]
      exact (hcmp.comm hequal).le
    · rw [swap_right, swap_other hmL.ne' hmR.ne]
      exact hgt

/-- **Case 5-5-?.** -/
theorem qsLevel_advances (heq : cmp (mem s.L) (mem m) = 0) :
    Advances base nel cmp mem s (qsLevel nel cmp mem s m) := by
  have hmL : s.L < m := hm.1
  have hmR : m < s.R := hm.2
  have hL : s.L ≤ s.L ∧ s.L ≤ s.R := by omega
  have hR : s.L ≤ s.R ∧ s.R ≤ s.R := by omega
  have hm' : s.L ≤ m ∧ m ≤ s.R := by omega
  have hkeep : Moves base nel mem s.region .keep 1 := .keep _
  have hsplit : 2 < s.label.rank := by omega
  unfold qsLevel
  rw [qsCmp_eq hp hm' hR, Result.ok_bind]
  split_ifs with hmr hmr
  · exact hkeep.toA hp hregions hsplit hm heq.le ((hcmp.swap _ _).mp hmr)
  · refine (Moves.swap hp hsize hwhole hL hR).toB hp hregions hsplit hm ?_ ?_
    · rw [swap_left, swap_other hmL.ne' hmR.ne]
      exact (hcmp.swap _ _).mpr hmr
    · rw [swap_right, swap_other hmL.ne' hmR.ne]
      exact heq.ge
  · have hequal : cmp (mem m) (mem s.R) = 0 := by omega
    have hrank' : 3 < s.label.rank := by omega
    refine hkeep.stay hp rfl rfl rfl ?_ (.of_rank hregions.symm hrank')
    refine ⟨hm, le_rfl, hmL.trans hmR, fun i hi hi' => ?_, hcmp.comm hequal⟩
    rw [le_antisymm hi' hi]
    exact heq

end Start

section Loops

include hcmp hsize hwhole hp hregions

/-- **`start`.** -/
theorem qsStart_advances (hlabel : s.label = .start) :
    Advances base nel cmp mem s (qsStart nel cmp mem s) := by
  obtain ⟨-, hLR, -⟩ := hp.bounds _ List.mem_cons_self
  have hLR : s.L < s.R := hLR
  have hL : s.L ≤ s.L ∧ s.L ≤ s.R := by omega
  have hR : s.L ≤ s.R ∧ s.R ≤ s.R := by omega
  have hrank : 4 < s.label.rank := by
    rw [hlabel]
    decide
  unfold qsStart
  split_ifs with htwo
  · -- a region with two elements is in order if they are
    have hpair : ∀ v : ℤ → QsItem size, cmp (v s.L) (v s.R) ≤ 0 →
        SortedOn (QsLe cmp) v s.region := by
      intro v hle i j hi hij hj
      have hi : s.L ≤ i := hi
      have hj : j ≤ s.R := hj
      obtain rfl : i = s.L := by omega
      obtain rfl : j = s.R := by omega
      exact hle
    rw [qsCmp_eq hp hL hR, Result.ok_bind]
    split_ifs with hgt
    · refine (Moves.swap hp hsize hwhole hL hR).leave hp hregions (hpair _ ?_)
      rw [swap_left, swap_right]
      exact ((hcmp.swap _ _).mpr hgt).le
    · exact (Moves.keep _).leave hp hregions (hpair _ (not_lt.mp hgt))
  · obtain ⟨m, heq, hm⟩ := qsMedian_eq hp (by omega)
    have hm' : s.L ≤ m ∧ m ≤ s.R := ⟨hm.1.le, hm.2.le⟩
    rw [heq, Result.ok_bind, qsCmp_eq hp hL hm', Result.ok_bind]
    split_ifs with hlt hgt
    · exact qsRising_advances hcmp hsize hwhole hp hregions hrank hm hlt
    · exact qsFalling_advances hcmp hsize hwhole hp hregions hrank hm hgt
    · exact qsLevel_advances hcmp hsize hwhole hp hregions hrank hm (by omega)

omit hsize hwhole in
/-- **The check of the ascending order.** -/
theorem qsAscending_advances {m p : ℤ} (hlabel : s.label = .ascending m p)
    (hat : Checking cmp mem s.region m p) :
    Advances base nel cmp mem s (qsAscending nel cmp mem s m p) := by
  have hmL : s.L < m := hat.inside.1
  have hmR : m < s.R := hat.inside.2
  have hpL : s.L ≤ p := hat.le_p
  have hpR : p ≤ s.R := hat.p_le
  have hkeep : Moves base nel mem s.region .keep 1 := .keep _
  have hrank : s.label.rank = 4 := by
    rw [hlabel]
    rfl
  have hsplit : 2 < s.label.rank := by omega
  unfold qsAscending
  split_ifs with hmore
  · rw [qsCmp_eq hp (by omega) (by omega), Result.ok_bind]
    split_ifs with hgt
    · exact hkeep.toA hp hregions hsplit hat.inside hat.first_lt.le
        ((hcmp.swap _ _).mp hat.lt_last)
    · refine hkeep.stay hp rfl rfl rfl ?_ (.of_turns hregions.symm ?_ ?_)
      · refine ⟨hat.inside, hat.first_lt, hat.lt_last, hpL.trans (by omega), hmore,
          fun i hi hi' => ?_⟩
        rcases (Int.lt_add_one_iff.mp hi').lt_or_eq with hi' | rfl
        · exact hat.ordered i hi hi'
        · exact not_lt.mp hgt
      · exact hrank.symm
      · unfold QsState.turns
        rw [hlabel]
        dsimp only
        omega
  · refine hkeep.leave hp hregions (sortedOn_of_adjacent (fun _ _ _ => hcmp.trans _ _ _) ?_)
    intro i hi hi'
    exact hat.ordered i hi (hi'.trans_le (not_lt.mp hmore))

/-- **The check of the descending order.** -/
theorem qsDescending_advances {m p : ℤ} (hlabel : s.label = .descending m p)
    (hat : Checking (fun a b => -cmp a b) mem s.region m p) :
    Advances base nel cmp mem s (qsDescending nel cmp mem s m p) := by
  have hmL : s.L < m := hat.inside.1
  have hmR : m < s.R := hat.inside.2
  have hpL : s.L ≤ p := hat.le_p
  have hpR : p ≤ s.R := hat.p_le
  have hkeep : Moves base nel mem s.region .keep 1 := .keep _
  have hrank : s.label.rank = 4 := by
    rw [hlabel]
    rfl
  have hsplit : 2 < s.label.rank := by omega
  unfold qsDescending
  split_ifs with hmore
  · rw [qsCmp_eq hp (by omega) (by omega), Result.ok_bind]
    split_ifs with hlt
    · have hends := Moves.swap hp hsize hwhole (a := s.L) (b := s.R) (by omega) (by omega)
      refine hends.toA hp hregions hsplit hat.inside ?_ ?_
      · rw [swap_left, swap_other hmL.ne' hmR.ne]
        exact ((hcmp.swap _ _).mpr (neg_neg_iff_pos.mp hat.lt_last)).le
      · rw [swap_right, swap_other hmL.ne' hmR.ne]
        exact neg_neg_iff_pos.mp hat.first_lt
    · refine hkeep.stay hp rfl rfl rfl ?_ (.of_turns hregions.symm ?_ ?_)
      · refine ⟨hat.inside, hat.first_lt, hat.lt_last, hpL.trans (by omega), hmore,
          fun i hi hi' => ?_⟩
        rcases (Int.lt_add_one_iff.mp hi').lt_or_eq with hi' | rfl
        · exact hat.ordered i hi hi'
        · exact neg_nonpos.mpr (not_lt.mp hlt)
      · exact hrank.symm
      · unfold QsState.turns
        rw [hlabel]
        dsimp only
        omega
  · have hrank' : 1 < s.label.rank := by omega
    have htrans : ∀ a b c, QsLe cmp b a → QsLe cmp c b → QsLe cmp c a :=
      fun a b c hab hbc => hcmp.trans c b a hbc hab
    refine hkeep.stay hp rfl rfl rfl ?_ (.of_rank hregions.symm hrank')
    refine ⟨rfl, le_rfl, by omega, mem, sortedOn_of_adjacent htrans fun i hi hi' => ?_,
      fun i hi hi' => ?_⟩
    · have hge := hat.ordered i hi (hi'.trans_le (not_lt.mp hmore))
      exact hcmp.le_of_ge (neg_nonpos.mp hge)
    · exact (if_neg fun h => h.elim (not_lt.mpr hi) (not_lt.mpr hi')).symm

omit hcmp in
/-- **The loop that reverses the region.** -/
theorem qsReverse_advances {l r : ℤ} (hlabel : s.label = .reverse l r)
    (hat : Reversing cmp mem s.region l r) :
    Advances base nel cmp mem s (qsReverse s l r) := by
  obtain ⟨hsum, hl, hlr, v, hsorted, hrev⟩ := hat
  have hsum : l + r = s.L + s.R := hsum
  have hl : s.L ≤ l := hl
  unfold qsReverse
  split_ifs with hmore
  · have hswap := Moves.swap hp hsize hwhole (a := l) (b := r) (by omega) (by omega)
    have hsum' : l + 1 + (r - 1) = s.L + s.R := by omega
    refine hswap.stay hp rfl rfl rfl ?_ (.of_turns hregions.symm ?_ ?_)
    · refine ⟨hsum', by omega, by omega, v, hsorted, fun i hi hi' => ?_⟩
      change _ = if i < l + 1 ∨ r - 1 < i then v (s.L + s.R - i) else v i
      by_cases hil : i = l
      · have hopposite : s.L + s.R - i = r := by omega
        have hinner : ¬ (r < l ∨ r < r) := by omega
        rw [hil, swap_left, hrev r (by omega) (by omega), if_neg hinner, if_pos (by omega), ← hil,
          hopposite]
      by_cases hir : i = r
      · have hopposite : s.L + s.R - i = l := by omega
        have hinner : ¬ (l < l ∨ r < l) := by omega
        rw [hir, swap_right, hrev l (by omega) (by omega), if_neg hinner, if_pos (by omega), ← hir,
          hopposite]
      have hsame : (i < l ∨ r < i) ↔ (i < l + 1 ∨ r - 1 < i) := by omega
      rw [swap_other hil hir, hrev i hi hi']
      exact if_congr hsame rfl rfl
    · rw [hlabel]
      rfl
    · unfold QsState.turns
      rw [hlabel]
      dsimp only
      omega
  · refine (Moves.keep _).leave hp hregions (hsorted.reverse fun i hi hi' => ?_)
    -- an element in the middle stays where it is
    change mem i = v (s.L + s.R - i)
    rw [hrev i hi hi']
    split_ifs with hout
    · rfl
    · have hmiddle : s.L + s.R - i = i := by omega
      rw [hmiddle]

/-- **The loop for case 5-5-5.** -/
theorem qsEqual_advances {m l : ℤ} (hlabel : s.label = .equal m l)
    (hat : AllEqual cmp mem s.region m l) :
    Advances base nel cmp mem s (qsEqual nel cmp mem s m l) := by
  have hmL : s.L < m := hat.inside.1
  have hmR : m < s.R := hat.inside.2
  have hl : s.L ≤ l := hat.le_l
  have hlR : l < s.R := hat.l_lt
  have hlast : cmp (mem s.R) (mem m) = 0 := hat.last
  have hkeep : Moves base nel mem s.region .keep 1 := .keep _
  have hrank : s.label.rank = 3 := by
    rw [hlabel]
    rfl
  have hsplit : 2 < s.label.rank := by omega
  -- one more equal element
  have hnext : l + 1 < s.R → cmp (mem (l + 1)) (mem m) = 0 →
      Advances base nel cmp mem s (s.goto (.equal m (l + 1)) .keep) := by
    intro hlt hequal
    refine hkeep.stay hp rfl rfl rfl ?_ (.of_turns hregions.symm hrank.symm ?_)
    · refine ⟨hat.inside, hl.trans (by omega), hlt, fun i hi hi' => ?_, hlast⟩
      rcases (show i ≤ l ∨ i = l + 1 by omega) with hi' | rfl
      · exact hat.equal i hi hi'
      · exact hequal
    · unfold QsState.turns
      rw [hlabel]
      dsimp only
      omega
  unfold qsEqual
  dsimp only
  split_ifs with hend hm
  · refine hkeep.leave hp hregions fun i j hi hij hj => ?_
    have hi : s.L ≤ i := hi
    have hj : j ≤ s.R := hj
    have hfirst := hat.equal i hi (by omega)
    rcases (show j ≤ l ∨ j = s.R by omega) with hj' | rfl
    · exact hcmp.trans _ _ _ hfirst.le (hcmp.comm (hat.equal j (hi.trans hij.le) hj')).le
    · exact hcmp.trans _ _ _ hfirst.le (hcmp.comm hlast).le
  · refine hnext (by omega) ?_
    rw [hm, hcmp.self]
  rw [qsCmp_eq hp (by omega) (by omega), Result.ok_bind]
  split_ifs with hgt hlt
  · have hswap := Moves.swap hp hsize hwhole (a := l + 1) (b := s.R) (by omega) (by omega)
    refine hswap.toA hp hregions hsplit hat.inside ?_ ?_
    · rw [swap_other (by omega) (by omega), swap_other (Ne.symm hm) hmR.ne]
      exact (hat.equal s.L le_rfl hl).le
    · rw [swap_right, swap_other (Ne.symm hm) hmR.ne]
      exact hgt
  · have hswap := Moves.swap hp hsize hwhole (a := s.L) (b := l + 1) (by omega) (by omega)
    refine hswap.toB hp hregions hsplit hat.inside ?_ ?_
    · rw [swap_left, swap_other hmL.ne' (Ne.symm hm)]
      exact hlt
    · rw [swap_other (by omega) (by omega), swap_other hmL.ne' (Ne.symm hm)]
      exact hlast.ge
  · exact hnext (by omega) (by omega)

/-- **A splitting loop ends.** -/
theorem qsLeave_advances {side : QsSide} {sp : QsSplit} (hrank : s.label.rank = 2) {last : ℤ}
    (hat : Splitting cmp mem s.region side sp last) (hx : sp.x = last + side.sign)
    (hy : sp.y = last + side.sign) (heq : sp.eqY = true → sp.y = side.far s.region)
    (hne : sp.eqY = false → sp.y ≠ side.far s.region) :
    Advances base nel cmp mem s (qsLeave s side sp) := by
  have hplaced := hat.placed hy
  have hprev : sp.x - side.sign = last := by omega
  have hfin : 0 < s.label.rank := by omega
  obtain ⟨hm, hlast, -⟩ := hat.mem_region
  have hmove := Moves.place hp hsize hwhole side hm hlast
  unfold qsLeave
  dsimp only
  rw [hprev]
  cases side with
  | A =>
      have hy : sp.y = last + 1 := hy
      have hsplitted := hplaced.splittedA hcmp (fun h => hy.symm.trans (heq h))
        fun h => hy ▸ hne h
      rw [← hy] at hsplitted
      exact hmove.stay hp rfl rfl rfl hsplitted (.of_rank hregions.symm hfin)
  | B =>
      have hy : sp.y = last - 1 := hy
      have hsplitted := hplaced.splittedB hcmp (fun h => hy.symm.trans (heq h))
        fun h => hy ▸ hne h
      rw [← hy] at hsplitted
      refine hmove.stay hp rfl rfl rfl ?_ (.of_rank hregions.symm hfin)
      have hend : last - QsSide.B.sign = last + 1 := sub_neg_eq_add last 1
      rw [hend]
      exact hsplitted

/-- **The first inner loop.** -/
theorem qsFirst_advances {side : QsSide} {sp : QsSplit} (hlabel : s.label = .first side sp)
    (hat : AtFirst cmp mem s.region side sp) :
    Advances base nel cmp mem s (qsFirst nel cmp mem s side sp) := by
  obtain ⟨hs, heqY, hneY⟩ := hat
  have hkeep : Moves base nel mem s.region .keep 1 := .keep _
  have hrank : s.label.rank = 2 := by
    rw [hlabel]
    rfl
  have hturns : s.turns = (side.sign * sp.y - side.sign * sp.x).toNat := by
    unfold QsState.turns
    rw [hlabel]
  have hcloser := (side.sub_lt hs.lt_y).1
  rw [← hturns] at hcloser
  obtain ⟨hm', hx', -⟩ := hs.mem_region
  unfold qsFirst
  dsimp only
  split_ifs with hend hm
  · exact qsLeave_advances hcmp hsize hwhole hp hregions hrank hs.congr rfl hend.symm heqY hneY
  · refine hkeep.stay hp rfl rfl rfl ?_ (.of_turns hregions.symm hrank.symm hcloser)
    have hequal : cmp (mem (sp.x + side.sign)) (mem sp.m) = 0 := by rw [hm, hcmp.self]
    refine ⟨hs.grow ?_ ?_ (fun h => ⟨h, hequal⟩) .inl, heqY, hneY⟩
    · rw [hm]
      exact hs.m_lt
    · rw [hequal, mul_zero]
  have hlt := (side.add_lt hs.lt_y hend).1
  have hnext : s.L ≤ sp.x + side.sign ∧ sp.x + side.sign ≤ s.R := hs.next_mem hend
  rw [qsCmp_eq hp hnext hm', Result.ok_bind]
  split_ifs with hgt hless
  · refine hkeep.stay hp rfl rfl rfl ?_ (.of_turns hregions.symm hrank.symm hcloser)
    refine ⟨?_, hlt, hm, hgt, rfl⟩
    rw [add_sub_cancel_right]
    exact hs.congr
  · refine hkeep.stay hp rfl rfl rfl ?_ (.of_turns hregions.symm hrank.symm hcloser)
    exact ⟨hs.grow hlt hless.le (fun h => by cases h) fun _ => .inr hm, heqY, hneY⟩
  · refine hkeep.stay hp rfl rfl rfl ?_ (.of_turns hregions.symm hrank.symm hcloser)
    have hzero : side.sign * cmp (mem (sp.x + side.sign)) (mem sp.m) = 0 := by omega
    have hequal : cmp (mem (sp.x + side.sign)) (mem sp.m) = 0 :=
      (mul_eq_zero.mp hzero).resolve_left side.sign_ne_zero
    exact ⟨hs.grow hlt hzero.le (fun h => ⟨h, hequal⟩) .inl, heqY, hneY⟩

/-- **The second one.** -/
theorem qsSecond_advances {side : QsSide} {sp : QsSplit} (hlabel : s.label = .second side sp)
    (hat : AtSecond cmp mem s.region side sp) :
    Advances base nel cmp mem s (qsSecond nel cmp mem s side sp) := by
  have hs := hat.splitting
  have hrank : s.label.rank = 2 := by
    rw [hlabel]
    rfl
  have hturns : s.turns = (side.sign * sp.y - side.sign * sp.x).toNat := by
    unfold QsState.turns
    rw [hlabel]
  have hcloser := (side.sub_lt hat.x_lt).2
  rw [← hturns] at hcloser
  obtain ⟨hm', -, -⟩ := hs.mem_region
  have hy' : s.L ≤ sp.y - side.sign ∧ sp.y - side.sign ≤ s.R := hs.prev_mem
  have hne : sp.eqY = false → sp.y - side.sign ≠ side.far s.region :=
    fun _ => side.prev_ne_far hs.le_far
  have heq : sp.eqY = true → sp.y - side.sign = side.far s.region := fun h => by
    rw [hat.ne_second] at h
    cases h
  have hback : sp.x - side.sign + side.sign = sp.x := sub_add_cancel _ _
  have hxy : sp.x - side.sign + side.sign ≠ sp.y := by
    rw [hback]
    rintro h
    exact absurd hat.x_lt (h ▸ lt_irrefl _)
  have hx' : s.L ≤ sp.x ∧ sp.x ≤ s.R := by
    have hnext := hs.next_mem hxy
    rwa [hback] at hnext
  have hswap := Moves.side_swap hp hsize hwhole side hx' hy'
  unfold qsSecond
  dsimp only
  split_ifs with hend hm
  · refine qsLeave_advances hcmp hsize hwhole hp hregions hrank (hs.retreat ?_ ?_ ?_) hback.symm
      (hend.symm.trans hback.symm) heq hne
    · exact (side.add_lt hs.lt_y hxy).2
    · rw [← hend]
      exact hat.ne_m
    · rw [← hend]
      exact hat.greater
  · refine hswap.stay hp rfl rfl rfl ?_ (.of_turns hregions.symm hrank.symm hcloser)
    have hmedian := hat.exchange_median hcmp hm
    rw [← hm] at hmedian
    exact ⟨hmedian, heq, hne⟩
  have hlt : side.sign * sp.x < side.sign * (sp.y - side.sign) :=
    (side.add_lt hat.x_lt fun h => hend (eq_sub_of_add_eq h)).2
  have hexchange := hat.exchange hlt hm
  have hnew : cmp ((mem ∘ Equiv.swap sp.x (sp.y - side.sign)) (sp.x - side.sign + side.sign))
      ((mem ∘ Equiv.swap sp.x (sp.y - side.sign)) sp.m) =
        cmp (mem (sp.y - side.sign)) (mem sp.m) := by
    rw [hback, swap_left, swap_other hat.ne_m.symm (Ne.symm hm)]
  have hmore : side.sign * (sp.x - side.sign + side.sign) < side.sign * (sp.y - side.sign) := by
    rwa [hback]
  rw [qsCmp_eq hp hy' hm', Result.ok_bind]
  split_ifs with hless hequal
  · refine hswap.stay hp rfl rfl rfl ?_ (.of_turns hregions.symm hrank.symm hcloser)
    have hne_m : sp.x - side.sign + side.sign ≠ sp.m := by
      rw [hback]
      exact hat.ne_m
    have hgrow : Splitting cmp (mem ∘ Equiv.swap sp.x (sp.y - side.sign)) s.region side
        ⟨sp.x, sp.y - side.sign, sp.m, false, sp.eqY⟩ (sp.x - side.sign + side.sign) :=
      hexchange.grow hmore (hnew ▸ hless.le) (fun h => by cases h) fun _ => .inr hne_m
    rw [hback] at hgrow
    exact ⟨hgrow, heq, hne⟩
  · refine hswap.stay hp rfl rfl rfl ?_ (.of_turns hregions.symm hrank.symm hcloser)
    have hgrow : Splitting cmp (mem ∘ Equiv.swap sp.x (sp.y - side.sign)) s.region side
        ⟨sp.x, sp.y - side.sign, sp.m, sp.eqX, sp.eqY⟩ (sp.x - side.sign + side.sign) := by
      refine hexchange.grow hmore ?_ (fun h => ⟨h, hnew.trans hequal⟩) .inl
      rw [hnew, hequal, mul_zero]
    rw [hback] at hgrow
    exact ⟨hgrow, heq, hne⟩
  · have hkeep : Moves base nel mem s.region .keep 1 := .keep _
    refine hkeep.stay hp rfl rfl rfl ?_ (.of_turns hregions.symm hrank.symm hcloser)
    have hgt : 0 < side.sign * cmp (mem (sp.y - side.sign)) (mem sp.m) := by
      refine lt_of_le_of_ne (not_lt.mp hless) (Ne.symm ?_)
      exact mul_ne_zero side.sign_ne_zero hequal
    exact ⟨hs.retreat (side.add_lt hs.lt_y hxy).2 hm hgt, hlt, hat.ne_m, hat.greater,
      hat.ne_second⟩

end Loops

/-! ### Between two regions -/

/-- **The region is replaced by parts of it.** -/
theorem Pending.advances (hp : Pending (QsLe cmp) mem nel (s.region :: s.stack))
    (hregions : s.regions = s.region :: s.stack) {qs : List (ℤ × ℤ)} {s' : QsState}
    (hregions' : s'.regions = qs ++ s.stack) (hat : QsAt cmp mem s'.region s'.label)
    (hin : ∀ q ∈ qs, s.L ≤ q.1 ∧ q.1 < q.2 ∧ q.2 ≤ s.R) (hqs : qs.Pairwise Apart)
    (hhalving : Halving nel (qs ++ s.stack))
    (hsorted : ∀ i j, s.L ≤ i → i < j → j ≤ s.R → ¬ Together qs i j →
      QsLe cmp (mem i) (mem j)) (htotal : total qs < width s.region) :
    Advances base nel cmp mem s (.ok (.keep, s')) := by
  refine ⟨.keep, s', 1, rfl, rfl, Confined.one, ⟨?_, hat⟩, .of_total ?_⟩
  · rw [hregions']
    exact hp.replace hin hqs hhalving hsorted
  · rw [hregions', hregions, total_cons, total, List.map_append, List.sum_append]
    exact Nat.add_lt_add_right htotal _

include hcmp in
/-- **`fin`**, where the greater part of the region is put on the stack. -/
theorem qsFin_advances (hnel : nel < 2 ^ 31) {l r : ℤ} {eqL eqR : Bool}
    (hp : Pending (QsLe cmp) mem nel (s.region :: s.stack))
    (hregions : s.regions = s.region :: s.stack)
    (hat : Splitted cmp mem s.region l r eqL eqR) :
    Advances base nel cmp mem s (qsFin s l r eqL eqR) := by
  obtain ⟨hl, rfl, hR, hparted, hsortedL, hmoreL, hsortedR, hmoreR⟩ := hat
  have hl : s.L ≤ l := hl
  have hR : l + 2 ≤ s.R := hR
  have hmoreL : eqL = false → s.L < l := hmoreL
  have hmoreR : eqR = false → l + 2 < s.R := hmoreR
  -- the rest of the region is in order
  have hrest : ∀ qs : List (ℤ × ℤ), ((s.L, l) ∈ qs ∨ eqL = true) →
      ((l + 2, s.R) ∈ qs ∨ eqR = true) → ∀ i j, s.L ≤ i → i < j → j ≤ s.R →
        ¬ Together qs i j → QsLe cmp (mem i) (mem j) := by
    intro qs hqL hqR i j hi hij hj htog
    have hlast : l + 1 - 1 = l := add_sub_cancel_right _ _
    have hfirst : l + 1 + 1 = l + 2 := by omega
    refine @Parted.sorted _ (QsLe cmp) mem s.region hcmp.trans _ hparted qs ?_ ?_ i j hi hij hj htog
    · rw [hlast]
      exact hqL.imp_right hsortedL
    · rw [hfirst]
      exact hqR.imp_right hsortedR
  have hroom : s.stack.length < 32 := by
    have hdepth := hp.halving.depth (hp.bounds _ List.mem_cons_self).2.1
    by_contra hfull
    have hpow : 2 ^ 31 ≤ 2 ^ (s.stack.length + 1) :=
      Nat.pow_le_pow_right (by decide) (by omega)
    omega
  have hwidth : width s.region = (s.R - s.L + 1).toNat := rfl
  have hwidthL : width (s.L, l) = (l - s.L + 1).toNat := rfl
  have hwidthR : width (l + 2, s.R) = (s.R - (l + 2) + 1).toNat := rfl
  have hone : ∀ q : ℤ × ℤ, total [q] = width q := fun q => by rw [total_cons, total_nil, add_zero]
  have htwo : ∀ p q : ℤ × ℤ, total [p, q] = width p + width q := fun p q => by
    rw [total_cons, hone]
  unfold qsFin
  split_ifs with hX hY hsmall hY
  · have hmoreL := hmoreL hX
    have hmoreR := hmoreR hY
    unfold qsPush
    rw [if_pos hroom]
    have hrest := hrest [(s.L, l), (l + 2, s.R)] (.inl (by simp)) (.inl (by simp))
    refine Pending.advances hp hregions rfl trivial ?_ ?_ ?_ hrest ?_
    · simp only [List.forall_mem_cons, List.not_mem_nil, IsEmpty.forall_iff, implies_true, and_true]
      omega
    · exact List.pairwise_pair.mpr (.inl (by dsimp only; omega))
    · exact hp.halving.push (by omega) (by omega)
    · rw [htwo]
      omega
  · have hmoreL := hmoreL hX
    have hmoreR := hmoreR hY
    unfold qsPush
    rw [if_pos hroom]
    have hrest := hrest [(l + 2, s.R), (s.L, l)] (.inl (by simp)) (.inl (by simp))
    refine Pending.advances hp hregions rfl trivial ?_ ?_ ?_ hrest ?_
    · simp only [List.forall_mem_cons, List.not_mem_nil, IsEmpty.forall_iff, implies_true, and_true]
      omega
    · exact List.pairwise_pair.mpr (.inr (by dsimp only; omega))
    · exact hp.halving.push (by omega) (by omega)
    · rw [htwo]
      omega
  · have hmoreL := hmoreL hX
    have hrest := hrest [(s.L, l)] (.inl (by simp)) (.inr (by simpa using hY))
    refine Pending.advances hp hregions rfl trivial ?_ (List.pairwise_singleton _ _) ?_ hrest ?_
    · simp only [List.forall_mem_cons, List.not_mem_nil, IsEmpty.forall_iff, implies_true, and_true]
      omega
    · exact hp.halving.shrink (by omega)
    · rw [hone]
      omega
  · have hmoreR := hmoreR hY
    have hrest := hrest [(l + 2, s.R)] (.inr (by simpa using hX)) (.inl (by simp))
    refine Pending.advances hp hregions rfl trivial ?_ (List.pairwise_singleton _ _) ?_ hrest ?_
    · simp only [List.forall_mem_cons, List.not_mem_nil, IsEmpty.forall_iff, implies_true, and_true]
      omega
    · exact hp.halving.shrink (by omega)
    · rw [hone]
      omega
  · have hrest := hrest [] (.inr (by simpa using hX)) (.inr (by simpa using hY))
    refine Pending.advances hp hregions rfl trivial (List.forall_mem_nil _) List.Pairwise.nil
      hp.halving.2 hrest ?_
    rw [total_nil]
    omega

/-- **`nxt`.** -/
theorem qsNxt_advances (hlabel : s.label = .nxt) (hp : Pending (QsLe cmp) mem nel s.stack) :
    Advances base nel cmp mem s (qsNxt s) := by
  have hregions : s.regions = s.stack := by
    unfold QsState.regions
    rw [hlabel]
  have hrank : s.label.rank = 6 := by
    rw [hlabel]
    rfl
  have hstart : 5 < s.label.rank := by omega
  have hdone : 0 < s.label.rank := by omega
  unfold qsNxt
  cases hstack : s.stack with
  | nil =>
      rw [hstack] at hp hregions
      exact ⟨.keep, _, 1, rfl, rfl, Confined.one, ⟨hp, trivial⟩, .of_rank hregions.symm hdone⟩
  | cons r stack =>
      rw [hstack] at hp hregions
      exact ⟨.keep, _, 1, rfl, rfl, Confined.one, ⟨hp, trivial⟩, .of_rank hregions.symm hstart⟩

/-- **A step.** -/
theorem qsStep_advances (hcmp : TotalPreorder cmp) (hsize : 0 < size)
    (hwhole : mmMoved base size = size) (hnel : nel < 2 ^ 31) (h : QsInv cmp mem nel s)
    (hdone : s.label ≠ .done) : Advances base nel cmp mem s (qsStep nel cmp mem s) := by
  obtain ⟨hp, hat⟩ := h
  by_cases hnxt : s.label = .nxt
  · unfold qsStep QsState.regions at *
    rw [hnxt] at hp ⊢
    exact qsNxt_advances hnxt hp
  have hregions := QsState.regions_eq hnxt hdone
  rw [hregions] at hp
  unfold qsStep
  cases hlabel : s.label with
  | nxt => exact absurd hlabel hnxt
  | done => exact absurd hlabel hdone
  | start => exact qsStart_advances hcmp hsize hwhole hp hregions hlabel
  | ascending m p =>
      rw [hlabel] at hat
      exact qsAscending_advances hcmp hp hregions hlabel hat
  | descending m p =>
      rw [hlabel] at hat
      exact qsDescending_advances hcmp hsize hwhole hp hregions hlabel hat
  | reverse l r =>
      rw [hlabel] at hat
      exact qsReverse_advances hsize hwhole hp hregions hlabel hat
  | equal m l =>
      rw [hlabel] at hat
      exact qsEqual_advances hcmp hsize hwhole hp hregions hlabel hat
  | first side sp =>
      rw [hlabel] at hat
      exact qsFirst_advances hcmp hsize hwhole hp hregions hlabel hat
  | second side sp =>
      rw [hlabel] at hat
      exact qsSecond_advances hcmp hsize hwhole hp hregions hlabel hat
  | fin l r eqL eqR =>
      rw [hlabel] at hat
      exact qsFin_advances hcmp hnel hp hregions hat

end Labels

end Steps

/-! ## Runs -/

section Runs

variable {base size nel : ℕ} {cmp : QsItem size → QsItem size → ℤ}

/-- What a run has reached: its assumptions hold, and the array has been rearranged. -/
def QsReached (nel : ℕ) (cmp : QsItem size → QsItem size → ℤ) (mem : ℤ → QsItem size)
    (c : QsState × (ℤ → QsItem size)) : Prop :=
  QsInv cmp c.2 nel c.1 ∧ ∃ σ : Equiv.Perm ℤ, Confined (0, (nel : ℤ) - 1) σ ∧ c.2 = mem ∘ σ

/-- **The array is sorted**: its elements are rearranged so that they are in order. -/
def QsSorts (nel : ℕ) (cmp : QsItem size → QsItem size → ℤ) (mem : ℤ → QsItem size)
    (r : Except QsortError (ℤ → QsItem size)) : Prop :=
  ∃ σ : Equiv.Perm ℤ, Confined (0, (nel : ℤ) - 1) σ ∧
    SortedOn (QsLe cmp) (mem ∘ σ) (0, (nel : ℤ) - 1) ∧ r = .ok (mem ∘ σ)

/-- **A run sorts the array.** -/
theorem qsRun_sorts (hcmp : TotalPreorder cmp) (hsize : 0 < size)
    (hwhole : mmMoved base size = size) (hnel : nel < 2 ^ 31) {s : QsState}
    {mem : ℤ → QsItem size} (h : QsInv cmp mem nel s) :
    ∃ r, QsSorts nel cmp mem r ∧
      Fuel.Settles (fun fuel => qsRun nel (mmprepare base size) cmp fuel (s, mem)) r := by
  have hwf : WellFounded fun c' c : QsState × (ℤ → QsItem size) => c'.1.Lower c.1 :=
    InvImage.wf Prod.fst QsState.Lower.wellFounded
  have hreached : QsReached nel cmp mem (s, mem) := ⟨h, 1, Confined.one, rfl⟩
  refine Fuel.Settles.of_wellFounded hwf ?_ hreached
  rintro ⟨s, mem'⟩ ⟨hinv, σ, hσ, hmem⟩
  have hmem : mem' = mem ∘ σ := hmem
  subst hmem
  by_cases hdone : s.label = .done
  · have hnone : s.regions = [] := by
      unfold QsState.regions
      rw [hdone]
    have hpending := hinv.pending
    dsimp only at hpending
    rw [hnone] at hpending
    refine .inl ⟨.ok (mem ∘ σ), ⟨σ, hσ, hpending.sorted_nil, rfl⟩, ?_⟩
    exact (Fuel.Settles.const _).of_succ fun fuel => by rw [qsRun, if_pos hdone]
  · obtain ⟨move, s', τ, hjump, hmove, hτ, hinv', hlow⟩ :=
      qsStep_advances hcmp hsize hwhole hnel hinv hdone
    refine .inr ⟨(s', (mem ∘ σ) ∘ τ), ⟨hinv', σ * τ, hσ.mul hτ, rfl⟩, hlow, fun fuel => ?_⟩
    have hjump : qsStep nel cmp (mem ∘ σ) s = .ok (move, s') := hjump
    rw [qsRun, if_neg hdone, hjump, Result.ok_bind]
    dsimp only
    rw [hmove, Result.ok_bind]

end Runs

/-! ## `ruby_qsort` -/

section Function

/-- **The array is sorted**, whatever its elements and the comparison function are. -/
def QsortRight (base nel size : ℕ) : Prop :=
  ∀ cmp : QsItem size → QsItem size → ℤ, TotalPreorder cmp → ∀ mem : ℤ → QsItem size,
    ∃ r, QsSorts nel cmp mem r ∧ Fuel.Settles (rubyQsort nel cmp mem base) r

variable {base nel size : ℕ}

/-- The offset of the last element is an `int`. -/
theorem offset_fits_iff (hnel : 2 ≤ nel) :
    (size : ℤ) * (nel - 1) < 2 ^ 31 ↔ size * (nel - 1) < 2 ^ 31 := by
  have hcast : ((nel - 1 : ℕ) : ℤ) = nel - 1 := by omega
  rw [← hcast]
  exact_mod_cast Iff.rfl

/-- There is nothing to be done for one element. -/
theorem rubyQsort_small (hnel : nel ≤ 1) : QsortRight base nel size := by
  intro cmp _ mem
  have hfits : (size : ℤ) * (nel - 1) < 2 ^ 31 :=
    (mul_nonpos_of_nonneg_of_nonpos (Int.natCast_nonneg _) (by omega)).trans_lt (by decide)
  refine ⟨.ok mem, ⟨1, Confined.one, fun i j hi hij hj => ?_, rfl⟩, ?_⟩
  · dsimp only at hi hj
    omega
  · refine (Fuel.Settles.const _).congr fun fuel => ?_
    rw [rubyQsort, if_pos hfits, if_pos hnel]

/-- **An array is sorted if whole elements are exchanged**, which is so if it is not aligned, or if
its elements are words. -/
theorem rubyQsort_sorts (hsize : 0 < size) (hmore : 2 ≤ nel) (hnel : nel < 2 ^ 31)
    (hfits : size * (nel - 1) < 2 ^ 31) (hwhole : base % 4 ≠ 0 ∨ size % 4 = 0) :
    QsortRight base nel size := by
  intro cmp hcmp mem
  have hmoved : mmMoved base size = size := by
    unfold mmMoved
    split
    · have hwords := hwhole.resolve_left (not_not.mpr ‹_›)
      rw [hwords, Nat.sub_zero]
    · rfl
  have hinit : QsInv cmp mem nel ⟨.start, 0, (nel : ℤ) - 1, 63, []⟩ := ⟨Pending.init hmore, trivial⟩
  obtain ⟨r, hsorts, hsettles⟩ := qsRun_sorts hcmp hsize hmoved hnel hinit
  refine ⟨r, hsorts, hsettles.congr fun fuel => ?_⟩
  rw [rubyQsort, if_pos ((offset_fits_iff hmore).mpr hfits), if_neg (by omega)]

/-- The last bytes decide. -/
def lastByte (o : Fin size) (x y : QsItem size) : ℤ := (x o).toNat - (y o).toNat

theorem lastByte_preorder (o : Fin size) : TotalPreorder (lastByte o) := by
  unfold lastByte
  exact ⟨fun a b => by omega, fun a b c => by omega⟩

/-- **The bytes behind the last word are not sorted.** -/
theorem not_qsortRight_aligned (hsize : 0 < size) (hnel : 2 ≤ nel) (hbase : base % 4 = 0)
    (hwords : size % 4 ≠ 0) : ¬ QsortRight base nel size := by
  intro h
  have hlast : size - 1 < size := by omega
  obtain ⟨r, ⟨σ, -, hsorted, rfl⟩, fuel, hfuel⟩ :=
    h (lastByte ⟨size - 1, hlast⟩) (lastByte_preorder _) fun i _ => if i = 0 then 1 else 0
  have hmoved : mmMoved base size ≤ size - 1 := by
    rw [mmMoved, if_pos hbase]
    omega
  have hrun := hfuel fuel le_rfl
  unfold rubyQsort at hrun
  split at hrun
  · rw [if_neg (by omega)] at hrun
    -- the last bytes are where they were
    have htail := fun i => qsRun_tail (o := ⟨size - 1, hlast⟩) hsize hmoved fuel hrun i
    have horder : lastByte ⟨size - 1, hlast⟩ _ _ ≤ 0 :=
      hsorted 0 1 le_rfl Int.zero_lt_one (by dsimp only; omega)
    rw [lastByte, htail, htail] at horder
    exact absurd horder (by decide)
  · cases hrun

/-- **An offset that overflows.** -/
theorem not_qsortRight_overflow (hnel : 2 ≤ nel) (hfits : ¬ size * (nel - 1) < 2 ^ 31) :
    ¬ QsortRight base nel size := by
  intro h
  obtain ⟨r, ⟨σ, -, -, rfl⟩, fuel, hfuel⟩ :=
    h (fun _ _ => 0) ⟨fun _ _ => Iff.rfl, fun _ _ _ _ _ => le_rfl⟩ fun _ _ => 0
  have hrun := hfuel fuel le_rfl
  rw [rubyQsort, if_neg (mt (offset_fits_iff hnel).mp hfits)] at hrun
  cases hrun

/-- **Exactly then the array is sorted.** -/
theorem qsortRight_iff (hsize : 0 < size) (hnel : nel < 2 ^ 31) :
    QsortRight base nel size ↔
      nel ≤ 1 ∨ size * (nel - 1) < 2 ^ 31 ∧ (base % 4 ≠ 0 ∨ size % 4 = 0) := by
  constructor
  · intro h
    by_contra hno
    push Not at hno
    obtain ⟨hmore, hno⟩ := hno
    by_cases hfits : size * (nel - 1) < 2 ^ 31
    · exact not_qsortRight_aligned hsize hmore (hno hfits).1 (hno hfits).2 h
    · exact not_qsortRight_overflow hmore hfits h
  · rintro (hsmall | ⟨hfits, hwhole⟩)
    · exact rubyQsort_small hsmall
    · by_cases hsmall : nel ≤ 1
      · exact rubyQsort_small hsmall
      · exact rubyQsort_sorts hsize (by omega) hnel hfits hwhole

/-- Pairs of two words, in an aligned array. -/
theorem qsort_words : QsortRight 0x1000 1000 16 :=
  (qsortRight_iff (by decide) (by decide)).mpr (.inr ⟨by decide, .inr (by decide)⟩)

/-- **Bytes in an aligned array are not sorted.** -/
theorem qsort_bytes : ¬ QsortRight 0x1000 2 1 :=
  not_qsortRight_aligned (by decide) le_rfl (by decide) (by decide)

/-- The bytes `1` and `0` are compared, but they are not exchanged. -/
example : (rubyQsort 2 (lastByte (0 : Fin 1)) (fun i _ => if i = 0 then 1 else 0) 0x1000 3).map
    (fun mem => (mem 0 0, mem 1 0)) = .ok (1, 0) := by
  decide

end Function

end MacRuby
