import MacRuby.Lib.Regions
import MacRuby.Util.Qsort
import Mathlib.Tactic.Linarith

/-!
# The splitting loops of `ruby_qsort`

`loopA` and `loopB` are one loop, seen from either end of the region.  The first group grows over
elements that do not lie on the other side of the median; the second one has only elements that
do.  The flags say whether a group has to be sorted: the first one need not as long as all of its
elements but that at the end of the region are equal to the median, the second one as long as it is
only the element at the end.

## Main definitions

* `TotalPreorder` — what the comparison function is.
* `Splitting` — what the loops keep.
* `Splitted` — what they leave.

## Main results

* `Splitting.grow`, `Splitting.retreat`, `Splitting.exchange`, `Splitting.exchange_median` — the
  turns of the loops.
* `Splitting.splitted` — their end.
-/

namespace MacRuby

open Regions

/-! ## The comparison -/

/-- **A comparison function that is a total preorder**: its sign says which element is less. -/
structure TotalPreorder {E : Type} (cmp : E → E → ℤ) : Prop where
  swap : ∀ a b, cmp a b < 0 ↔ 0 < cmp b a
  trans : ∀ a b c, cmp a b ≤ 0 → cmp b c ≤ 0 → cmp a c ≤ 0

/-- Not greater. -/
def QsLe {E : Type} (cmp : E → E → ℤ) (a b : E) : Prop := cmp a b ≤ 0

section Compare

variable {E : Type} {cmp : E → E → ℤ} (h : TotalPreorder cmp)
include h

theorem TotalPreorder.self (a : E) : cmp a a = 0 := by
  have hswap := h.swap a a
  omega

theorem TotalPreorder.comm {a b : E} (hab : cmp a b = 0) : cmp b a = 0 := by
  have hba := h.swap a b
  have hab := h.swap b a
  omega

theorem TotalPreorder.ge_of_le {a b : E} (hab : cmp a b ≤ 0) : 0 ≤ cmp b a := by
  have hba := h.swap b a
  omega

theorem TotalPreorder.le_of_ge {a b : E} (hab : 0 ≤ cmp a b) : cmp b a ≤ 0 := by
  have hba := h.swap a b
  omega

end Compare

/-! ## What the loops keep -/

/-- The end of the region where the first group of a loop is. -/
def QsSide.near (reg : ℤ × ℤ) : QsSide → ℤ
  | A => reg.1
  | B => reg.2

/-- The other end. -/
def QsSide.far (reg : ℤ × ℤ) : QsSide → ℤ
  | A => reg.2
  | B => reg.1

section Split

variable {E : Type} (cmp : E → E → ℤ) (mem : ℤ → E) (reg : ℤ × ℤ) (side : QsSide)

/-- **The state of a splitting loop**, whose first group ends at `last`. -/
structure Splitting (sp : QsSplit) (last : ℤ) : Prop where
  near_le : side.sign * side.near reg ≤ side.sign * last
  lt_y : side.sign * last < side.sign * sp.y
  le_far : side.sign * sp.y ≤ side.sign * side.far reg
  near_lt : side.sign * side.near reg < side.sign * sp.m
  m_lt : side.sign * sp.m < side.sign * sp.y
  first : ∀ i, side.sign * side.near reg ≤ side.sign * i → side.sign * i ≤ side.sign * last →
    side.sign * cmp (mem i) (mem sp.m) ≤ 0
  second : ∀ i, side.sign * sp.y ≤ side.sign * i → side.sign * i ≤ side.sign * side.far reg →
    0 < side.sign * cmp (mem i) (mem sp.m)
  eq_first : sp.eqX = true → ∀ i, side.sign * side.near reg < side.sign * i →
    side.sign * i ≤ side.sign * last → cmp (mem i) (mem sp.m) = 0
  ne_first : sp.eqX = false → ∃ i, side.sign * side.near reg < side.sign * i ∧
    side.sign * i ≤ side.sign * last ∧ i ≠ sp.m

/-- Before the first inner loop goes on. -/
structure AtFirst (sp : QsSplit) : Prop where
  splitting : Splitting cmp mem reg side sp sp.x
  eq_second : sp.eqY = true → sp.y = side.far reg
  ne_second : sp.eqY = false → sp.y ≠ side.far reg

/-- Before the second one goes on: `x` is to be exchanged. -/
structure AtSecond (sp : QsSplit) : Prop where
  splitting : Splitting cmp mem reg side sp (sp.x - side.sign)
  x_lt : side.sign * sp.x < side.sign * sp.y
  ne_m : sp.x ≠ sp.m
  greater : 0 < side.sign * cmp (mem sp.x) (mem sp.m)
  ne_second : sp.eqY = false

/-- **What a splitting loop leaves**: a region that is parted at `p`. -/
structure Splitted (l r : ℤ) (eqL eqR : Bool) : Prop where
  le_l : reg.1 ≤ l
  r_eq : r = l + 2
  le_R : r ≤ reg.2
  parted : Parted (QsLe cmp) mem reg (l + 1)
  eq_left : eqL = true → SortedOn (QsLe cmp) mem (reg.1, l)
  ne_left : eqL = false → reg.1 < l
  eq_right : eqR = true → SortedOn (QsLe cmp) mem (r, reg.2)
  ne_right : eqR = false → r < reg.2

end Split

section Turns

variable {E : Type} {cmp : E → E → ℤ} {mem : ℤ → E} {reg : ℤ × ℤ} {side : QsSide}
  {sp : QsSplit} {last : ℤ}

theorem QsSide.sign_cases (side : QsSide) : side.sign = 1 ∨ side.sign = -1 := by
  cases side
  · exact .inl rfl
  · exact .inr rfl

theorem QsSide.sign_ne_zero (side : QsSide) : side.sign ≠ 0 := by
  cases side <;> decide

/-- The next index. -/
theorem QsSide.le_add_sign {side : QsSide} {i j : ℤ}
    (h : side.sign * i ≤ side.sign * (j + side.sign)) :
    side.sign * i ≤ side.sign * j ∨ i = j + side.sign := by
  rcases side.sign_cases with hs | hs <;> rw [hs] at h ⊢ <;> omega

/-- All of it lies in the region. -/
theorem Splitting.mem_region (h : Splitting cmp mem reg side sp last) :
    (reg.1 ≤ sp.m ∧ sp.m ≤ reg.2) ∧ (reg.1 ≤ last ∧ last ≤ reg.2) ∧
      reg.1 ≤ sp.y ∧ sp.y ≤ reg.2 := by
  have hlast := h.near_le
  have hy := h.lt_y
  have hfar := h.le_far
  have hm := h.near_lt
  have hmy := h.m_lt
  cases side <;> simp only [QsSide.sign, QsSide.near, QsSide.far] at hlast hy hfar hm hmy <;> omega

/-- **A loop is entered** when the ends of the region lie on both sides of the median. -/
theorem AtFirst.init {m : ℤ} (hm : reg.1 < m ∧ m < reg.2)
    (hnear : side.sign * cmp (mem (side.near reg)) (mem m) ≤ 0)
    (hfar : 0 < side.sign * cmp (mem (side.far reg)) (mem m)) :
    AtFirst cmp mem reg side ⟨side.near reg, side.far reg, m, true, true⟩ := by
  have honly : ∀ {i j : ℤ}, side.sign * j ≤ side.sign * i → side.sign * i ≤ side.sign * j →
      i = j := by
    intro i j h h'
    rcases side.sign_cases with hs | hs <;> rw [hs] at h h' <;> omega
  have hends : side.sign * side.near reg < side.sign * m ∧
      side.sign * m < side.sign * side.far reg := by
    cases side <;> simp only [QsSide.sign, QsSide.near, QsSide.far] <;> omega
  refine ⟨⟨le_rfl, hends.1.trans hends.2, le_rfl, hends.1, hends.2, fun i hi hi' => ?_,
    fun i hi hi' => ?_, fun _ i hi hi' => ?_, fun h => by cases h⟩, fun _ => rfl,
    fun h => by cases h⟩
  · rw [honly hi hi']
    exact hnear
  · rw [honly hi hi']
    exact hfar
  · exact absurd hi (not_lt.mpr hi')

/-- So does the next element for the first group. -/
theorem Splitting.next_mem (h : Splitting cmp mem reg side sp last)
    (hne : last + side.sign ≠ sp.y) :
    reg.1 ≤ last + side.sign ∧ last + side.sign ≤ reg.2 := by
  obtain ⟨-, hlast, hy⟩ := h.mem_region
  have hlt := h.lt_y
  cases side <;> simp only [QsSide.sign] at hne hlt ⊢ <;> omega

/-- So does that for the second one. -/
theorem Splitting.prev_mem (h : Splitting cmp mem reg side sp last) :
    reg.1 ≤ sp.y - side.sign ∧ sp.y - side.sign ≤ reg.2 := by
  obtain ⟨-, hlast, hy⟩ := h.mem_region
  have hlt := h.lt_y
  cases side <;> simp only [QsSide.sign] at hlt ⊢ <;> omega

/-- The other variables do not matter. -/
theorem Splitting.congr (h : Splitting cmp mem reg side sp last) {x : ℤ} {eqY : Bool} :
    Splitting cmp mem reg side { sp with x, eqY } last :=
  ⟨h.near_le, h.lt_y, h.le_far, h.near_lt, h.m_lt, h.first, h.second, h.eq_first, h.ne_first⟩

/-- A group that grows comes closer to the other one. -/
theorem QsSide.sub_lt {x y : ℤ} (side : QsSide) (h : side.sign * x < side.sign * y) :
    (side.sign * y - side.sign * (x + side.sign)).toNat < (side.sign * y - side.sign * x).toNat ∧
      (side.sign * (y - side.sign) - side.sign * x).toNat <
        (side.sign * y - side.sign * x).toNat := by
  rcases side.sign_cases with hs | hs <;> rw [hs] at h ⊢ <;> omega

/-- A group that has grown is not at the end of the region. -/
theorem QsSide.prev_ne_far {y : ℤ} (side : QsSide)
    (h : side.sign * y ≤ side.sign * side.far reg) : y - side.sign ≠ side.far reg := by
  rcases side.sign_cases with hs | hs <;> rw [hs] at h ⊢ <;> omega

/-- The next index is the other group, or lies before it. -/
theorem QsSide.add_lt {x y : ℤ} (side : QsSide) (h : side.sign * x < side.sign * y)
    (hne : x + side.sign ≠ y) : side.sign * (x + side.sign) < side.sign * y ∧
      side.sign * x < side.sign * (y - side.sign) := by
  rcases side.sign_cases with hs | hs <;> rw [hs] at h hne ⊢ <;> omega

/-- **The first group grows** by an element that is not on the other side of the median. -/
theorem Splitting.grow (h : Splitting cmp mem reg side sp last)
    (hlt : side.sign * (last + side.sign) < side.sign * sp.y)
    (hle : side.sign * cmp (mem (last + side.sign)) (mem sp.m) ≤ 0) {eqX : Bool}
    (heq : eqX = true → sp.eqX = true ∧ cmp (mem (last + side.sign)) (mem sp.m) = 0)
    (hne : eqX = false → sp.eqX = false ∨ last + side.sign ≠ sp.m) {x : ℤ} {eqY : Bool} :
    Splitting cmp mem reg side ⟨x, sp.y, sp.m, eqX, eqY⟩ (last + side.sign) := by
  have hnear := h.near_le
  have hnext : side.sign * side.near reg < side.sign * (last + side.sign) := by
    rcases side.sign_cases with hs | hs <;> rw [hs] at hnear ⊢ <;> omega
  have hprev : side.sign * last ≤ side.sign * (last + side.sign) := by
    rcases side.sign_cases with hs | hs <;> rw [hs] <;> omega
  refine ⟨hnext.le, hlt, h.le_far, h.near_lt, h.m_lt, fun i hi hi' => ?_, h.second,
    fun hX i hi hi' => ?_, fun hX => ?_⟩
  · rcases QsSide.le_add_sign hi' with hi' | rfl
    · exact h.first i hi hi'
    · exact hle
  · rcases QsSide.le_add_sign hi' with hi' | rfl
    · exact h.eq_first (heq hX).1 i hi hi'
    · exact (heq hX).2
  · rcases hne hX with hX | hm
    · obtain ⟨i, hi, hi', him⟩ := h.ne_first hX
      exact ⟨i, hi, hi'.trans hprev, him⟩
    · exact ⟨_, hnext, le_rfl, hm⟩

/-- **The second group grows** by an element on its side of the median. -/
theorem Splitting.retreat (h : Splitting cmp mem reg side sp last)
    (hlt : side.sign * last < side.sign * (sp.y - side.sign)) (hm : sp.y - side.sign ≠ sp.m)
    (hgt : 0 < side.sign * cmp (mem (sp.y - side.sign)) (mem sp.m)) {x : ℤ} {eqY : Bool} :
    Splitting cmp mem reg side ⟨x, sp.y - side.sign, sp.m, sp.eqX, eqY⟩ last := by
  have hfar := h.le_far
  have hmy := h.m_lt
  refine ⟨h.near_le, hlt, ?_, h.near_lt, ?_, h.first, fun i hi hi' => ?_, h.eq_first,
    h.ne_first⟩
  · dsimp only
    rcases side.sign_cases with hs | hs <;> rw [hs] at hfar ⊢ <;> omega
  · dsimp only
    rcases side.sign_cases with hs | hs <;> rw [hs] at hmy hm ⊢ <;> omega
  · dsimp only at hi ⊢
    by_cases hiy : i = sp.y - side.sign
    · rw [hiy]
      exact hgt
    · refine h.second i ?_ hi'
      rcases side.sign_cases with hs | hs <;> rw [hs] at hi hiy ⊢ <;> omega

/-- An exchange does not change the others. -/
theorem swap_other {a b i : ℤ} (ha : i ≠ a) (hb : i ≠ b) : (mem ∘ Equiv.swap a b) i = mem i :=
  congrArg mem (Equiv.swap_apply_of_ne_of_ne ha hb)

theorem swap_left (a b : ℤ) : (mem ∘ Equiv.swap a b) a = mem b :=
  congrArg mem (Equiv.swap_apply_left a b)

theorem swap_right (a b : ℤ) : (mem ∘ Equiv.swap a b) b = mem a :=
  congrArg mem (Equiv.swap_apply_right a b)

/-- **The element that ends the first group goes to the second one.** -/
theorem AtSecond.exchange (h : AtSecond cmp mem reg side sp)
    (hlt : side.sign * sp.x < side.sign * (sp.y - side.sign)) (hm : sp.y - side.sign ≠ sp.m) :
    Splitting cmp (mem ∘ Equiv.swap sp.x (sp.y - side.sign)) reg side
      { sp with y := sp.y - side.sign } (sp.x - side.sign) := by
  have hs := h.splitting
  have hfar := hs.le_far
  have hmy := hs.m_lt
  have hmed : (mem ∘ Equiv.swap sp.x (sp.y - side.sign)) sp.m = mem sp.m :=
    swap_other h.ne_m.symm hm.symm
  have hfirst : ∀ i, side.sign * i ≤ side.sign * (sp.x - side.sign) →
      (mem ∘ Equiv.swap sp.x (sp.y - side.sign)) i = mem i := by
    intro i hi
    apply swap_other
    · rintro rfl
      rcases side.sign_cases with hs | hs <;> rw [hs] at hi <;> omega
    · rintro rfl
      rcases side.sign_cases with hs | hs <;> rw [hs] at hi hlt <;> omega
  refine ⟨hs.near_le, ?_, ?_, hs.near_lt, ?_, fun i hi hi' => ?_, fun i hi hi' => ?_,
    fun hX i hi hi' => ?_, hs.ne_first⟩
  · dsimp only
    rcases side.sign_cases with hs | hs <;> rw [hs] at hlt ⊢ <;> omega
  · dsimp only
    rcases side.sign_cases with hs | hs <;> rw [hs] at hfar ⊢ <;> omega
  · dsimp only
    rcases side.sign_cases with hs | hs <;> rw [hs] at hmy hm ⊢ <;> omega
  · dsimp only
    rw [hmed, hfirst i hi']
    exact hs.first i hi hi'
  · dsimp only at hi ⊢
    rw [hmed]
    by_cases hiy : i = sp.y - side.sign
    · rw [hiy, swap_right]
      exact h.greater
    · have hix : i ≠ sp.x := by
        rintro rfl
        rcases side.sign_cases with hs | hs <;> rw [hs] at hi hlt <;> omega
      rw [swap_other hix hiy]
      refine hs.second i ?_ hi'
      rcases side.sign_cases with hs | hs <;> rw [hs] at hi hiy ⊢ <;> omega
  · dsimp only at hX ⊢
    rw [hmed, hfirst i hi']
    exact hs.eq_first hX i hi hi'

/-- **The median itself goes to the first group.** -/
theorem AtSecond.exchange_median (hcmp : TotalPreorder cmp) (h : AtSecond cmp mem reg side sp)
    (hm : sp.y - side.sign = sp.m) :
    Splitting cmp (mem ∘ Equiv.swap sp.x sp.m) reg side { sp with y := sp.m, m := sp.x } sp.x := by
  have hs := h.splitting
  have hnear := hs.near_le
  have hfar := hs.le_far
  have hmy := hs.m_lt
  have hx := h.x_lt
  have hne := h.ne_m
  have hlt : side.sign * sp.x < side.sign * sp.m := by
    rcases side.sign_cases with hs | hs <;> rw [hs] at hx hm ⊢ <;> omega
  have hnext : side.sign * side.near reg < side.sign * sp.x := by
    rcases side.sign_cases with hs | hs <;> rw [hs] at hnear ⊢ <;> omega
  have hmed : (mem ∘ Equiv.swap sp.x sp.m) sp.x = mem sp.m := swap_left _ _
  have hfirst : ∀ i, side.sign * i ≤ side.sign * (sp.x - side.sign) →
      (mem ∘ Equiv.swap sp.x sp.m) i = mem i := by
    intro i hi
    apply swap_other
    · rintro rfl
      rcases side.sign_cases with hs | hs <;> rw [hs] at hi <;> omega
    · rintro rfl
      rcases side.sign_cases with hs | hs <;> rw [hs] at hi hlt <;> omega
  have hcases : ∀ i, side.sign * i ≤ side.sign * sp.x →
      side.sign * i ≤ side.sign * (sp.x - side.sign) ∨ i = sp.x := by
    intro i hi
    have hadd := @QsSide.le_add_sign side i (sp.x - side.sign)
    rw [sub_add_cancel] at hadd
    exact hadd hi
  refine ⟨hnext.le, hlt, ?_, hnext, hlt, fun i hi hi' => ?_, fun i hi hi' => ?_,
    fun hX i hi hi' => ?_, fun hX => ?_⟩
  · dsimp only
    rcases side.sign_cases with hs | hs <;> rw [hs] at hfar hmy ⊢ <;> omega
  · dsimp only
    rw [hmed]
    rcases hcases i hi' with hi' | rfl
    · rw [hfirst i hi']
      exact hs.first i hi hi'
    · rw [hmed, hcmp.self, mul_zero]
  · dsimp only at hi ⊢
    rw [hmed]
    by_cases him : i = sp.m
    · rw [him, swap_right]
      exact h.greater
    · have hix : i ≠ sp.x := by
        rintro rfl
        rcases side.sign_cases with hs | hs <;> rw [hs] at hi hlt <;> omega
      rw [swap_other hix him]
      refine hs.second i ?_ hi'
      rcases side.sign_cases with hs | hs <;> rw [hs] at hi hm ⊢ <;> omega
  · dsimp only at hX ⊢
    rw [hmed]
    rcases hcases i hi' with hi' | rfl
    · rw [hfirst i hi']
      exact hs.eq_first hX i hi hi'
    · rw [hmed, hcmp.self]
  · obtain ⟨i, hi, hi', -⟩ := hs.ne_first hX
    refine ⟨i, hi, ?_, fun hix => ?_⟩
    · rcases side.sign_cases with hs | hs <;> rw [hs] at hi' ⊢ <;> omega
    · dsimp only at hix
      rw [hix] at hi'
      rcases side.sign_cases with hs | hs <;> rw [hs] at hi' <;> omega

/-! ### The end of the loops -/

/-- The region when the median is at its place, seen from the first group. -/
structure Placed (cmp : E → E → ℤ) (mem : ℤ → E) (reg : ℤ × ℤ) (side : QsSide) (p : ℤ)
    (eqX : Bool) : Prop where
  near_lt : side.sign * side.near reg < side.sign * p
  lt_far : side.sign * p < side.sign * side.far reg
  first : ∀ i, side.sign * side.near reg ≤ side.sign * i → side.sign * i < side.sign * p →
    side.sign * cmp (mem i) (mem p) ≤ 0
  second : ∀ i, side.sign * p < side.sign * i → side.sign * i ≤ side.sign * side.far reg →
    0 < side.sign * cmp (mem i) (mem p)
  eq_first : eqX = true → ∀ i, side.sign * side.near reg < side.sign * i →
    side.sign * i < side.sign * p → cmp (mem i) (mem p) = 0
  ne_first : eqX = false → side.near reg + side.sign ≠ p

/-- **The median is brought to its place**, which is the end of the first group. -/
theorem Splitting.placed (h : Splitting cmp mem reg side sp last) (hy : sp.y = last + side.sign) :
    Placed cmp (mem ∘ Equiv.swap sp.m last) reg side last sp.eqX := by
  have hnear := h.near_lt
  have hfar := h.le_far
  have hmy := h.m_lt
  rw [hy] at hfar hmy
  have hmlast : side.sign * sp.m ≤ side.sign * last := by
    rcases side.sign_cases with hs | hs <;> rw [hs] at hmy ⊢ <;> omega
  have hplace : (mem ∘ Equiv.swap sp.m last) last = mem sp.m := swap_right _ _
  -- what stands in the first group now stood there before
  have hfrom : ∀ i, side.sign * side.near reg ≤ side.sign * i → side.sign * i < side.sign * last →
      ∃ j, (mem ∘ Equiv.swap sp.m last) i = mem j ∧ side.sign * side.near reg ≤ side.sign * j ∧
        side.sign * j ≤ side.sign * last ∧
        (side.sign * side.near reg < side.sign * i →
          side.sign * side.near reg < side.sign * j) := by
    intro i hi hi'
    by_cases him : i = sp.m
    · refine ⟨last, ?_, hi.trans hi'.le, le_rfl, fun h => h.trans hi'⟩
      rw [him, swap_left]
    · refine ⟨i, swap_other him ?_, hi, hi'.le, id⟩
      rintro rfl
      exact lt_irrefl _ hi'
  refine ⟨hnear.trans_le hmlast, ?_, fun i hi hi' => ?_, fun i hi hi' => ?_,
    fun hX i hi hi' => ?_, fun hX => ?_⟩
  · rcases side.sign_cases with hs | hs <;> rw [hs] at hfar ⊢ <;> omega
  · obtain ⟨j, heq, hj, hj', -⟩ := hfrom i hi hi'
    rw [hplace, heq]
    exact h.first j hj hj'
  · have him : i ≠ sp.m := by
      rintro rfl
      exact absurd hi (not_lt.mpr hmlast)
    have hil : i ≠ last := by
      rintro rfl
      exact lt_irrefl _ hi
    rw [hplace, swap_other him hil]
    refine h.second i ?_ hi'
    rw [hy]
    rcases side.sign_cases with hs | hs <;> rw [hs] at hi ⊢ <;> omega
  · obtain ⟨j, heq, -, hj', hlt⟩ := hfrom i hi.le hi'
    rw [hplace, heq]
    exact h.eq_first hX j (hlt hi) hj'
  · obtain ⟨i, hi, hi', him⟩ := h.ne_first hX
    rcases side.sign_cases with hs | hs <;> rw [hs] at hi hi' hnear hmlast ⊢ <;> omega

variable {p : ℤ} {eqX eqY : Bool} (hcmp : TotalPreorder cmp)
include hcmp

/-- What `loopA` leaves. -/
theorem Placed.splittedA (h : Placed cmp mem reg .A p eqX) (heq : eqY = true → p + 1 = reg.2)
    (hne : eqY = false → p + 1 ≠ reg.2) : Splitted cmp mem reg (p - 1) (p + 1) eqX eqY := by
  obtain ⟨hnear, hfar, hfirst, hsecond, heqX, hneX⟩ := h
  simp only [QsSide.sign, QsSide.near, QsSide.far, one_mul] at hnear hfar hfirst hsecond heqX hneX
  have hp : p - 1 + 1 = p := by omega
  refine ⟨by omega, by omega, by omega, ⟨fun i hi hi' => ?_, fun i hi hi' => ?_⟩,
    fun hX i j hi hij hj => ?_, fun hX => ?_, fun hY i j hi hij hj => ?_, fun hY => ?_⟩
  · rw [hp] at hi' ⊢
    exact hfirst i hi hi'
  · rw [hp] at hi ⊢
    exact hcmp.le_of_ge (hsecond i hi hi').le
  · dsimp only at hi hj
    exact hcmp.trans _ _ _ (hfirst i hi (by omega))
      (hcmp.comm (heqX hX j (by omega) (by omega))).le
  · have hne := hneX hX
    omega
  · have heq := heq hY
    dsimp only at hi hj
    omega
  · have hne := hne hY
    omega

/-- What `loopB` leaves. -/
theorem Placed.splittedB (h : Placed cmp mem reg .B p eqX) (heq : eqY = true → p - 1 = reg.1)
    (hne : eqY = false → p - 1 ≠ reg.1) : Splitted cmp mem reg (p - 1) (p + 1) eqY eqX := by
  obtain ⟨hnear, hfar, hfirst, hsecond, heqX, hneX⟩ := h
  simp only [QsSide.sign, QsSide.near, QsSide.far, neg_mul, one_mul, neg_lt_neg_iff,
    neg_le_neg_iff] at hnear hfar hfirst hsecond heqX hneX
  have hp : p - 1 + 1 = p := by omega
  refine ⟨by omega, by omega, by omega, ⟨fun i hi hi' => ?_, fun i hi hi' => ?_⟩,
    fun hY i j hi hij hj => ?_, fun hY => ?_, fun hX i j hi hij hj => ?_, fun hX => ?_⟩
  · rw [hp] at hi' ⊢
    have hless := hsecond i hi' hi
    rw [QsLe]
    omega
  · rw [hp] at hi ⊢
    have hge := hfirst i hi' hi
    exact hcmp.le_of_ge (by omega)
  · have heq := heq hY
    dsimp only at hi hj
    omega
  · have hne := hne hY
    omega
  · dsimp only at hi hj
    have hge := hfirst j hj (by omega)
    exact hcmp.trans _ _ _ (heqX hX i (by omega) (by omega)).le (hcmp.le_of_ge (by omega))
  · have hne := hneX hX
    omega

end Turns

end MacRuby
