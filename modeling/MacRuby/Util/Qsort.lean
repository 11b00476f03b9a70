import MacRuby.Lib.Fuel
import MacRuby.Lib.Result
import Mathlib.Algebra.Group.End
import Mathlib.Data.Fin.Basic
import Mathlib.Tactic.Ring

/-!
# `ruby_qsort`

`qs6` sorts an array in place.  It is written with jumps: the state of a run is the label it is at,
with the variables that are alive there.  Between two jumps elements are compared, and at most one
exchange of elements is made, which `mm` does by words if the array is aligned to words.

## Main definitions

* `MM`, `mmprepare`, `mmswap`, `mmrot3` — the exchange of elements.
* `QsLabel`, `QsState`, `qsStep` — the state of a run, and what is done up to the next jump.
* `rubyQsort` — the function.

## Main results

* `mmEach_eq` — which bytes are exchanged.
-/

namespace MacRuby

/-- Why `ruby_qsort` does not return. -/
inductive QsortError
  /-- an element outside of the array is compared or exchanged -/
  | outside
  /-- the stack has no room for another region -/
  | stack
  /-- a computation with an `int` overflows -/
  | overflow
  | outOfFuel
  deriving DecidableEq

/-! ## `mm` -/

/-- An element of the array: its bytes. -/
abbrev QsItem (size : ℕ) := Fin size → UInt8

/-- `mmarg`, without the size. -/
structure MM where
  mmkind : ℤ
  high : ℕ
  low : ℕ

/-- `mmprepare(base, size)`. -/
def mmprepare (base size : ℕ) : MM where
  mmkind := if base &&& 0x3 = 0 then if size ≥ 16 then 1 else 0 else -1
  high := size / 16 * 16
  low := size &&& 0x0c

section Exchange

variable {size : ℕ} {β : Type} (f : β → β)

/-- The bytes of some elements at the offsets from `o` to `o + n` are exchanged, where `f` exchanges
those at one offset: `s = A[0]; A[0] = B[0]; B[0] = s` for four of them. -/
def mmMove (o n : ℕ) (bytes : Fin size → β) : Fin size → β := fun b =>
  if o ≤ b ∧ b < o + n then f (bytes b) else bytes b

/-- The loop for sixteen bytes in each turn, with the offset after it. -/
def mmLines (high : ℕ) : (fuel o : ℕ) → (Fin size → β) → ℕ × (Fin size → β)
  | 0, o, bytes => (o, bytes)
  | fuel + 1, o, bytes =>
      let bytes := mmMove f o 4 bytes
      let bytes := mmMove f (o + 4) 4 bytes
      let bytes := mmMove f (o + 8) 4 bytes
      let bytes := mmMove f (o + 12) 4 bytes
      if o + 16 < high then mmLines high fuel (o + 16) bytes else (o + 16, bytes)

/-- The words behind the last sixteen bytes. -/
def mmWords (low o : ℕ) (bytes : Fin size → β) : Fin size → β :=
  if low ≠ 0 then
    let bytes := mmMove f o 4 bytes
    if low ≥ 8 then
      let bytes := mmMove f (o + 4) 4 bytes
      if low = 12 then mmMove f (o + 8) 4 bytes else bytes
    else bytes
  else bytes

/-- The loop for one byte in each turn. -/
def mmBytes : (fuel o : ℕ) → (Fin size → β) → Fin size → β
  | 0, _, bytes => bytes
  | fuel + 1, o, bytes =>
      let bytes := mmMove f o 1 bytes
      if o + 1 < size then mmBytes fuel (o + 1) bytes else bytes

/-- What `mmswap_` and `mmrot3_` have in common. -/
def mmEach (mm : MM) (bytes : Fin size → β) : Fin size → β :=
  if mm.mmkind ≥ 0 then
    let (o, bytes) := if mm.mmkind > 0 then mmLines f mm.high mm.high 0 bytes else (0, bytes)
    mmWords f mm.low o bytes
  else mmBytes f size 0 bytes

variable (mm : MM) (mem : ℤ → QsItem size)

/-- `mmswap_(a, b)`. -/
def mmswap (a b : ℤ) : ℤ → QsItem size :=
  if a = b then mem
  else
    let bytes := mmEach Prod.swap mm fun o => (mem a o, mem b o)
    Function.update (Function.update mem a fun o => (bytes o).1) b fun o => (bytes o).2

/-- `s = A[0]; A[0] = B[0]; B[0] = C[0]; C[0] = s`. -/
def rot3 (s : UInt8 × UInt8 × UInt8) : UInt8 × UInt8 × UInt8 := (s.2.1, s.2.2, s.1)

/-- `mmrot3_(a, b, c)`. -/
def mmrot3 (a b c : ℤ) : ℤ → QsItem size :=
  let bytes := mmEach rot3 mm fun o => (mem a o, mem b o, mem c o)
  Function.update (Function.update (Function.update mem a fun o => (bytes o).1)
    b fun o => (bytes o).2.1) c fun o => (bytes o).2.2

end Exchange

/-! ## `qs6` -/

/-- The two splitting types, `loopA` and `loopB`. -/
inductive QsSide
  | A
  | B
  deriving DecidableEq

/-- The variables of a splitting loop: the group `x` that its first inner loop moves, the other
group `y`, the median, and whether all items of the groups are equal to it. -/
structure QsSplit where
  x : ℤ
  y : ℤ
  m : ℤ
  eqX : Bool
  eqY : Bool
  deriving DecidableEq

/-- Where a run is, with the variables that are alive there.  An index stands for the address of an
element. -/
inductive QsLabel
  | nxt
  | start
  /-- the check of the ascending order, at `p` -/
  | ascending (m p : ℤ)
  /-- the check of the descending order, at `p` -/
  | descending (m p : ℤ)
  /-- the loop that reverses the region -/
  | reverse (l r : ℤ)
  /-- the loop for case 5-5-5 -/
  | equal (m l : ℤ)
  /-- the first inner loop of `loopA` or `loopB` -/
  | first (side : QsSide) (s : QsSplit)
  /-- the second one -/
  | second (side : QsSide) (s : QsSplit)
  | fin (l r : ℤ) (eqL eqR : Bool)
  | done
  deriving DecidableEq

/-- The state of a run: the label, and the variables that are alive everywhere. -/
structure QsState where
  label : QsLabel
  L : ℤ
  R : ℤ
  chklim : ℕ
  stack : List (ℤ × ℤ)
  deriving DecidableEq

/-- An exchange of elements. -/
inductive QsMove
  | keep
  | swap (a b : ℤ)
  | rot3 (a b c : ℤ)
  deriving DecidableEq

section Code

variable {size : ℕ} (nel : ℕ) (mm : MM) (cmp : QsItem size → QsItem size → ℤ)
  (mem : ℤ → QsItem size)

/-- An index of the array. -/
def InArray (i : ℤ) : Prop := 0 ≤ i ∧ i < nel

instance (i : ℤ) : Decidable (InArray nel i) := inferInstanceAs (Decidable (_ ∧ _))

/-- The exchange is made, if its elements are in the array. -/
def QsMove.apply : QsMove → Except QsortError (ℤ → QsItem size)
  | keep => .ok mem
  | swap a b => if InArray nel a ∧ InArray nel b then .ok (mmswap mm mem a b) else .error .outside
  | rot3 a b c =>
      if InArray nel a ∧ InArray nel b ∧ InArray nel c then .ok (mmrot3 mm mem a b c)
      else .error .outside

/-- `(*cmp)(a, b, d)`. -/
def qsCmp (a b : ℤ) : Except QsortError ℤ :=
  if InArray nel a ∧ InArray nel b then .ok (cmp (mem a) (mem b)) else .error .outside

/-- `med3(a, b, c)`. -/
def med3 (a b c : ℤ) : Except QsortError ℤ := do
  if (← qsCmp nel cmp mem a b) < 0 then
    if (← qsCmp nel cmp mem b c) < 0 then return b
    else if (← qsCmp nel cmp mem a c) < 0 then return c
    else return a
  else if (← qsCmp nel cmp mem b c) > 0 then return b
  else if (← qsCmp nel cmp mem a c) < 0 then return a
  else return c

/-- The median of the region of `t` elements from `l` on. -/
def qsMedian (l t : ℤ) : Except QsortError ℤ := do
  let m := l + t / 2
  if t ≥ 60 then
    if t ≥ 200 then
      let t := t / 8
      let p1 := l + t
      let p2 := p1 + t
      let p3 := p2 + t
      let m1 ← med3 nel cmp mem p1 p2 p3
      let p1 := m + t
      let p2 := p1 + t
      let p3 := p2 + t
      let m3 ← med3 nel cmp mem p1 p2 p3
      med3 nel cmp mem m1 m m3
    else
      let t := t / 4
      med3 nel cmp mem (l + t) m (m + t)
  else return m

/-- What is done up to the next jump. -/
abbrev QsJump := Except QsortError (QsMove × QsState)

variable (s : QsState)

/-- `goto` from a state, after an exchange. -/
def QsState.goto (label : QsLabel) (move : QsMove) : QsJump := .ok (move, { s with label })

/-- `goto loopA`. -/
def loopA (m : ℤ) (move : QsMove) : QsJump :=
  s.goto (.first .A ⟨s.L, s.R, m, true, true⟩) move

/-- `goto loopB`. -/
def loopB (m : ℤ) (move : QsMove) : QsJump :=
  s.goto (.first .B ⟨s.R, s.L, m, true, true⟩) move

/-- `nxt`. -/
def qsNxt : QsJump :=
  match s.stack with
  | [] => s.goto .done .keep
  | (LL, RR) :: stack => .ok (.keep, { s with label := .start, L := LL, R := RR, stack })

/-- Case 3-5-?, where the first element is less than the median. -/
def qsRising (m : ℤ) : QsJump := do
  let t ← qsCmp nel cmp mem m s.R
  if t < 0 then
    if s.chklim ≠ 0 ∧ nel ≥ s.chklim then
      QsState.goto { s with chklim := 0 } (.ascending m s.L) .keep
    else loopA s m .keep
  else if t > 0 then
    if (← qsCmp nel cmp mem s.L s.R) ≤ 0 then loopA s m (.swap m s.R)
    else loopA s m (.rot3 s.R m s.L)
  else loopB s m .keep

/-- Case 7-5-?, where it is greater. -/
def qsFalling (m : ℤ) : QsJump := do
  let t ← qsCmp nel cmp mem m s.R
  if t > 0 then
    if s.chklim ≠ 0 ∧ nel ≥ s.chklim then
      QsState.goto { s with chklim := 0 } (.descending m s.L) .keep
    else loopA s m (.swap s.L s.R)
  else if t < 0 then
    if (← qsCmp nel cmp mem s.L s.R) ≤ 0 then loopB s m (.swap s.L m)
    else loopA s m (.rot3 s.L m s.R)
  else loopA s m (.swap s.L s.R)

/-- Case 5-5-?, where it is equal. -/
def qsLevel (m : ℤ) : QsJump := do
  let t ← qsCmp nel cmp mem m s.R
  if t < 0 then loopA s m .keep
  else if t > 0 then loopB s m (.swap s.L s.R)
  else s.goto (.equal m s.L) .keep

/-- `start`. -/
def qsStart : QsJump :=
  if s.L + 1 = s.R then do
    if (← qsCmp nel cmp mem s.L s.R) > 0 then s.goto .nxt (.swap s.L s.R)
    else s.goto .nxt .keep
  else do
    let m ← qsMedian nel cmp mem s.L (s.R - s.L + 1)
    let t ← qsCmp nel cmp mem s.L m
    if t < 0 then qsRising nel cmp mem s m
    else if t > 0 then qsFalling nel cmp mem s m
    else qsLevel nel cmp mem s m

/-- The check of the ascending order. -/
def qsAscending (m p : ℤ) : QsJump :=
  if p < s.R then do
    if (← qsCmp nel cmp mem p (p + 1)) > 0 then loopA s m .keep
    else s.goto (.ascending m (p + 1)) .keep
  else s.goto .nxt .keep

/-- The check of the descending order. -/
def qsDescending (m p : ℤ) : QsJump :=
  if p < s.R then do
    if (← qsCmp nel cmp mem p (p + 1)) < 0 then loopA s m (.swap s.L s.R)
    else s.goto (.descending m (p + 1)) .keep
  else s.goto (.reverse s.L s.R) .keep

/-- `while (l<r) {mmswap(l,r); l+=size; r-=size;}`. -/
def qsReverse (l r : ℤ) : QsJump :=
  if l < r then s.goto (.reverse (l + 1) (r - 1)) (.swap l r) else s.goto .nxt .keep

/-- The loop that determines the splitting type in case 5-5-5. -/
def qsEqual (m l : ℤ) : QsJump :=
  let l := l + 1
  if l = s.R then s.goto .nxt .keep
  else if l = m then s.goto (.equal m l) .keep
  else do
    let t ← qsCmp nel cmp mem l m
    if t > 0 then loopA s m (.swap l s.R)
    else if t < 0 then loopB s m (.swap s.L l)
    else s.goto (.equal m l) .keep

/-- Which way the first group grows. -/
def QsSide.sign : QsSide → ℤ
  | A => 1
  | B => -1

/-- `mmswap(l,r)`. -/
def QsSide.swap (x y : ℤ) : QsSide → QsMove
  | A => .swap x y
  | B => .swap y x

/-- Where a splitting loop ends: in `loopA`,
`l -= size; if (l != m) mmswap(m,l); l -= size; goto fin`. -/
def qsLeave (side : QsSide) (sp : QsSplit) : QsJump :=
  let x := sp.x - side.sign
  let move := if x ≠ sp.m then side.swap sp.m x else .keep
  let x := x - side.sign
  match side with
  | .A => s.goto (.fin x sp.y sp.eqX sp.eqY) move
  | .B => s.goto (.fin sp.y x sp.eqY sp.eqX) move

/-- The first inner loop of `loopA` or `loopB`. -/
def qsFirst (side : QsSide) (sp : QsSplit) : QsJump :=
  let x := sp.x + side.sign
  let sp := { sp with x }
  if x = sp.y then qsLeave s side sp
  else if x = sp.m then s.goto (.first side sp) .keep
  else do
    let t ← qsCmp nel cmp mem x sp.m
    if side.sign * t > 0 then s.goto (.second side { sp with eqY := false }) .keep
    else if side.sign * t < 0 then s.goto (.first side { sp with eqX := false }) .keep
    else s.goto (.first side sp) .keep

/-- The second one, and the exchange behind it. -/
def qsSecond (side : QsSide) (sp : QsSplit) : QsJump :=
  let y := sp.y - side.sign
  let sp := { sp with y }
  let swap := side.swap sp.x y
  if sp.x = y then qsLeave s side sp
  else if y = sp.m then s.goto (.first side { sp with m := sp.x }) swap
  else do
    let t ← qsCmp nel cmp mem y sp.m
    if side.sign * t < 0 then s.goto (.first side { sp with eqX := false }) swap
    else if t = 0 then s.goto (.first side sp) swap
    else s.goto (.second side sp) .keep

/-- `PUSH(ll,rr)`, with the region that is sorted next. -/
def qsPush (pushed next : ℤ × ℤ) : QsJump :=
  if s.stack.length < 32 then
    .ok (.keep, { s with
      label := .start, L := next.1, R := next.2, stack := pushed :: s.stack })
  else .error .stack

/-- `fin`. -/
def qsFin (l r : ℤ) (eqL eqR : Bool) : QsJump :=
  if eqL = false then
    if eqR = false then
      if l - s.L < s.R - r then qsPush s (r, s.R) (s.L, l)
      else qsPush s (s.L, l) (r, s.R)
    else QsState.goto { s with R := l } .start .keep
  else if eqR = false then QsState.goto { s with L := r } .start .keep
  else s.goto .nxt .keep

/-- What is done from a label on. -/
def qsStep : QsJump :=
  match s.label with
  | .nxt => qsNxt s
  | .start => qsStart nel cmp mem s
  | .ascending m p => qsAscending nel cmp mem s m p
  | .descending m p => qsDescending nel cmp mem s m p
  | .reverse l r => qsReverse s l r
  | .equal m l => qsEqual nel cmp mem s m l
  | .first side sp => qsFirst nel cmp mem s side sp
  | .second side sp => qsSecond nel cmp mem s side sp
  | .fin l r eqL eqR => qsFin s l r eqL eqR
  | .done => s.goto .done .keep

/-- A run from a state on. -/
def qsRun : (fuel : ℕ) → QsState × (ℤ → QsItem size) → Except QsortError (ℤ → QsItem size)
  | 0, _ => .error .outOfFuel
  | fuel + 1, (s, mem) =>
      if s.label = .done then .ok mem
      else do
        let (move, s) ← qsStep nel cmp mem s
        let mem ← move.apply nel mm mem
        qsRun fuel (s, mem)

/-- `ruby_qsort(base, nel, size, cmp, d)`, where an array lies in memory from `base` on, and `mem`
shows the memory in parts of `size` bytes. -/
def rubyQsort (base : ℕ) (fuel : ℕ) : Except QsortError (ℤ → QsItem size) :=
  if (size : ℤ) * (nel - 1) < 2 ^ 31 then
    if nel ≤ 1 then .ok mem
    else qsRun nel (mmprepare base size) cmp fuel (⟨.start, 0, (nel : ℤ) - 1, 63, []⟩, mem)
  else .error .overflow

end Code

/-! ## Which bytes are exchanged -/

section Moved

variable {size : ℕ} {β : Type} (f : β → β) (bytes : Fin size → β)

@[simp] theorem mmMove_zero (o : ℕ) : mmMove f o 0 bytes = bytes := by
  ext b
  rw [mmMove, if_neg (by omega)]

/-- Two moves, one behind the other. -/
theorem mmMove_mmMove (o n k : ℕ) :
    mmMove f (o + n) k (mmMove f o n bytes) = mmMove f o (n + k) bytes := by
  ext b
  unfold mmMove
  split_ifs <;> first | rfl | omega

theorem mmLines_eq {high : ℕ} (hhigh : high % 16 = 0) (fuel : ℕ) {o : ℕ} (ho : o % 16 = 0)
    (hlt : o < high) (hfuel : high ≤ o + 16 * fuel) (bytes : Fin size → β) :
    mmLines f high fuel o bytes = (high, mmMove f o (high - o) bytes) := by
  induction fuel generalizing o bytes with
  | zero => omega
  | succ fuel ih =>
      have hline : mmMove f (o + 12) 4 (mmMove f (o + 8) 4 (mmMove f (o + 4) 4
          (mmMove f o 4 bytes))) = mmMove f o 16 bytes := by
        rw [mmMove_mmMove, mmMove_mmMove, mmMove_mmMove]
      unfold mmLines
      dsimp only
      rw [hline]
      by_cases hmore : o + 16 < high
      · have hrest : 16 + (high - (o + 16)) = high - o := by omega
        rw [if_pos hmore, ih (by omega) hmore (by omega), mmMove_mmMove, hrest]
      · have hlast : high - o = 16 := by omega
        rw [if_neg hmore, hlast]
        exact congrArg (·, _) (by omega)

theorem mmWords_eq {low : ℕ} (hlow : low % 4 = 0) (hlt : low < 16) (o : ℕ) :
    mmWords f low o bytes = mmMove f o low bytes := by
  obtain rfl | rfl | rfl | rfl : low = 0 ∨ low = 4 ∨ low = 8 ∨ low = 12 := by omega
  · rw [mmMove_zero]
    rfl
  · rfl
  · rw [← mmMove_mmMove f bytes o 4 4]
    rfl
  · rw [← mmMove_mmMove f bytes o 8 4, ← mmMove_mmMove f bytes o 4 4]
    rfl

theorem mmBytes_eq (fuel : ℕ) {o : ℕ} (hlt : o < size) (hfuel : size ≤ o + fuel)
    (bytes : Fin size → β) : mmBytes f fuel o bytes = mmMove f o (size - o) bytes := by
  induction fuel generalizing o bytes with
  | zero => omega
  | succ fuel ih =>
      unfold mmBytes
      dsimp only
      by_cases hmore : o + 1 < size
      · have hrest : 1 + (size - (o + 1)) = size - o := by omega
        rw [if_pos hmore, ih hmore (by omega), mmMove_mmMove, hrest]
      · have hlast : size - o = 1 := by omega
        rw [if_neg hmore, hlast]

/-- How many bytes of an element are exchanged: in an array that is aligned to words, whole words
only. -/
def mmMoved (base size : ℕ) : ℕ := if base % 4 = 0 then size - size % 4 else size

theorem land_twelve (n : ℕ) : n &&& 0x0c = n % 16 - n % 4 := by
  have hmod : n &&& 0x0c = n % 2 ^ 4 &&& 0x0c := by
    rw [← Nat.and_two_pow_sub_one_eq_mod, Nat.and_assoc]
    rfl
  have hfour : n % 4 = n % 16 % 4 := by omega
  rw [hmod, hfour]
  have hlt : n % 16 < 16 := Nat.mod_lt n (by decide)
  generalize n % 16 = k at hlt
  revert k
  decide

/-- **The bytes that are exchanged** are the first ones of the elements. -/
theorem mmEach_eq (base : ℕ) (hsize : 0 < size) :
    mmEach f (mmprepare base size) bytes = mmMove f 0 (mmMoved base size) bytes := by
  have halign : base &&& 0x3 = base % 4 := Nat.and_two_pow_sub_one_eq_mod base 2
  have hwords := land_twelve size
  unfold mmEach mmprepare mmMoved
  dsimp only
  rw [halign]
  by_cases hbase : base % 4 = 0
  · rw [if_pos hbase, if_pos hbase]
    by_cases hlines : size ≥ 16
    · have hsum : size / 16 * 16 + (size &&& 0x0c) = size - size % 4 := by omega
      rw [if_pos hlines, if_pos (by decide), if_pos (by decide),
        mmLines_eq f (Nat.mul_mod_left _ _) _ rfl (by omega) (by omega)]
      dsimp only
      rw [mmWords_eq f _ (by omega) (by omega), Nat.sub_zero, ← hsum]
      have hmove := mmMove_mmMove f bytes 0 (size / 16 * 16) (size &&& 0x0c)
      rwa [Nat.zero_add] at hmove
    · have hsum : (size &&& 0x0c) = size - size % 4 := by omega
      rw [if_neg hlines, if_pos (by decide), if_neg (by decide)]
      dsimp only
      rw [mmWords_eq f _ (by omega) (by omega), hsum]
  · rw [if_neg hbase, if_neg hbase, if_neg (by decide), mmBytes_eq f _ hsize (by omega),
      Nat.sub_zero]

end Moved

section Memory

variable {base size : ℕ} (hsize : 0 < size) (mem : ℤ → QsItem size)
include hsize

/-- Whole elements are swapped. -/
theorem mmswap_whole (hwhole : mmMoved base size = size) (a b : ℤ) :
    mmswap (mmprepare base size) mem a b = mem ∘ Equiv.swap a b := by
  unfold mmswap
  split
  · rename_i h
    rw [h, Equiv.swap_self, Equiv.coe_refl, Function.comp_id]
  dsimp only
  rw [mmEach_eq _ _ base hsize, hwhole]
  ext i o
  have ho : 0 ≤ (o : ℕ) ∧ (o : ℕ) < 0 + size := ⟨Nat.zero_le _, by omega⟩
  by_cases hb : i = b
  · rw [hb, Function.update_self, mmMove, if_pos ho, Function.comp_apply, Equiv.swap_apply_right]
    rfl
  rw [Function.update_of_ne hb]
  by_cases ha : i = a
  · rw [ha, Function.update_self, mmMove, if_pos ho, Function.comp_apply, Equiv.swap_apply_left]
    rfl
  · rw [Function.update_of_ne ha, Function.comp_apply, Equiv.swap_apply_of_ne_of_ne ha hb]

/-- Whole elements are rotated. -/
theorem mmrot3_whole (hwhole : mmMoved base size = size) {a b c : ℤ} (hac : a ≠ c) (hbc : b ≠ c) :
    mmrot3 (mmprepare base size) mem a b c = mem ∘ (Equiv.swap a b * Equiv.swap b c) := by
  unfold mmrot3
  dsimp only
  rw [mmEach_eq _ _ base hsize, hwhole]
  ext i o
  have ho : 0 ≤ (o : ℕ) ∧ (o : ℕ) < 0 + size := ⟨Nat.zero_le _, by omega⟩
  rw [Function.comp_apply, Equiv.Perm.mul_apply]
  by_cases hc : i = c
  · rw [hc, Function.update_self, mmMove, if_pos ho, Equiv.swap_apply_right,
      Equiv.swap_apply_right]
    rfl
  rw [Function.update_of_ne hc]
  by_cases hb : i = b
  · rw [hb, Function.update_self, mmMove, if_pos ho, Equiv.swap_apply_left,
      Equiv.swap_apply_of_ne_of_ne hac.symm hbc.symm]
    rfl
  rw [Function.update_of_ne hb, Equiv.swap_apply_of_ne_of_ne hb hc]
  by_cases ha : i = a
  · rw [ha, Function.update_self, mmMove, if_pos ho, Equiv.swap_apply_left]
    rfl
  · rw [Function.update_of_ne ha, Equiv.swap_apply_of_ne_of_ne ha hb]

variable {o : Fin size} (ho : mmMoved base size ≤ o)
include ho

/-- **The bytes behind the last word stay where they are.** -/
theorem mmswap_tail (a b i : ℤ) : mmswap (mmprepare base size) mem a b i o = mem i o := by
  unfold mmswap
  split
  · rfl
  rw [mmEach_eq _ _ base hsize]
  have hout : ¬ (0 ≤ (o : ℕ) ∧ (o : ℕ) < 0 + mmMoved base size) := by omega
  by_cases hb : i = b
  · rw [hb, Function.update_self, mmMove, if_neg hout]
  rw [Function.update_of_ne hb]
  by_cases ha : i = a
  · rw [ha, Function.update_self, mmMove, if_neg hout]
  · rw [Function.update_of_ne ha]

theorem mmrot3_tail (a b c i : ℤ) : mmrot3 (mmprepare base size) mem a b c i o = mem i o := by
  unfold mmrot3
  rw [mmEach_eq _ _ base hsize]
  have hout : ¬ (0 ≤ (o : ℕ) ∧ (o : ℕ) < 0 + mmMoved base size) := by omega
  by_cases hc : i = c
  · rw [hc, Function.update_self, mmMove, if_neg hout]
  rw [Function.update_of_ne hc]
  by_cases hb : i = b
  · rw [hb, Function.update_self, mmMove, if_neg hout]
  rw [Function.update_of_ne hb]
  by_cases ha : i = a
  · rw [ha, Function.update_self, mmMove, if_neg hout]
  · rw [Function.update_of_ne ha]

/-- **No exchange moves them.** -/
theorem QsMove.apply_tail {nel : ℕ} {move : QsMove} {mem' : ℤ → QsItem size}
    (h : move.apply nel (mmprepare base size) mem = .ok mem') (i : ℤ) : mem' i o = mem i o := by
  cases move with
  | keep =>
      cases h
      rfl
  | swap a b =>
      rw [QsMove.apply] at h
      split at h
      · cases h
        exact mmswap_tail hsize mem ho a b i
      · cases h
  | rot3 a b c =>
      rw [QsMove.apply] at h
      split at h
      · cases h
        exact mmrot3_tail hsize mem ho a b c i
      · cases h

/-- **They are where they were after a run.** -/
theorem qsRun_tail {nel : ℕ} {cmp : QsItem size → QsItem size → ℤ} (fuel : ℕ) {s : QsState}
    {mem mem' : ℤ → QsItem size}
    (h : qsRun nel (mmprepare base size) cmp fuel (s, mem) = .ok mem') (i : ℤ) :
    mem' i o = mem i o := by
  induction fuel generalizing s mem with
  | zero => cases h
  | succ fuel ih =>
      rw [qsRun] at h
      split at h
      · cases h
        rfl
      · obtain ⟨⟨move, s'⟩, -, hrest⟩ := Result.bind_eq_ok.mp h
        obtain ⟨mem'', hmove, hrun⟩ := Result.bind_eq_ok.mp hrest
        rw [ih hrun, QsMove.apply_tail hsize mem ho hmove]

end Memory

end MacRuby
