import Mathlib.Data.Fintype.Card
import MacRuby.Array.Basic
import MacRuby.Lib.Fuel

/-!
# Flattening

`flatten` goes through an array and through the arrays in it, with a stack of the arrays it is in
and the places where to go on, and with a table of these arrays.  An array in the table that comes
again is a recursive one.  The arrays are given by their identities and may share elements and
contain themselves; an element that is no array is not converted to one.

The table is consulted at every level, so that with a positive limit, too, an array that comes
again raises, even where the limit would not let it be gone through.

## Main definitions

* `flattenLoop`, `flatten`, `rbAryFlattenBang`, `rbAryFlatten` — the code.
* `Flattens` — the recursive flattening.
* `HasPath`, `NoReturn` — paths from an array to another, and that there is no way back.
* `FlattenRight` — what is documented.

## Main results

* `flattenLoop_settles` — the loop does what the recursion does.
* `flattenRight` — `flatten` is right.
-/

namespace MacRuby

section Code

/-- An element of an array: an array, by its identity, or something else. -/
inductive ArrayElem (ι α : Type)
  | other (v : α)
  | array (id : ι)
  deriving DecidableEq

variable {ι α : Type} [DecidableEq ι]

/-- The elements of the arrays. -/
abbrev ArrayHeap (ι α : Type) := ι → List (ArrayElem ι α)

/-- The variables of `flatten`; the stack has the array and the index of each frame together. -/
structure FlattenState (ι α : Type) where
  ary : ι
  i : ℕ
  stack : List (ι × ℕ)
  memo : Finset ι
  result : List (ArrayElem ι α)
  modified : Bool

/-- The loop of `flatten`, which runs on fuel: the result and `modified`. -/
def flattenLoop (heap : ArrayHeap ι α) (level : ℤ) :
    ℕ → FlattenState ι α → Option (Except ArrayError (List (ArrayElem ι α) × Bool))
  | 0, _ => none
  | fuel + 1, st =>
      match (heap st.ary)[st.i]? with
      | some elt =>
          match elt with
          | .other _ =>
              flattenLoop heap level fuel { st with i := st.i + 1, result := st.result ++ [elt] }
          | .array tmp =>
              if level ≥ 0 ∧ st.stack.length ≥ level then
                flattenLoop heap level fuel { st with i := st.i + 1, result := st.result ++ [elt] }
              else if tmp ∈ st.memo then
                some (.error (.argument "tried to flatten recursive array"))
              else
                flattenLoop heap level fuel
                  ⟨tmp, 0, (st.ary, st.i + 1) :: st.stack, insert tmp st.memo, st.result, true⟩
      | none =>
          match st.stack with
          | [] => some (.ok (st.result, st.modified))
          | (ary, i) :: stack =>
              flattenLoop heap level fuel
                ⟨ary, i, stack, st.memo.erase st.ary, st.result, st.modified⟩

attribute [grind =] flattenLoop

/-- `flatten(ary, level, &modified)`. -/
def flatten (heap : ArrayHeap ι α) (ary : ι) (level : ℤ) (fuel : ℕ) :
    Option (Except ArrayError (List (ArrayElem ι α) × Bool)) :=
  flattenLoop heap level fuel ⟨ary, 0, [], {ary}, [], false⟩

/-- `rb_ary_flatten_bang`, where the value is the array or nil. -/
def rbAryFlattenBang (heap : ArrayHeap ι α) (ary : ι) (lv : Option ℤ) (fuel : ℕ) :
    Option (EStateM.Result ArrayError (ArrayHeap ι α) (Option ι)) :=
  let level := lv.getD (-1)
  if level = 0 then some (.ok (some ary) heap)
  else
    match flatten heap ary level fuel with
    | none => none
    | some (.error e) => some (.error e heap)
    | some (.ok (result, modified)) =>
        if !modified then some (.ok none heap)
        else some (.ok (some ary) (Function.update heap ary result))

/-- `rb_ary_flatten`: the elements of the array that it returns. -/
def rbAryFlatten (heap : ArrayHeap ι α) (ary : ι) (lv : Option ℤ) (fuel : ℕ) :
    Option (Except ArrayError (List (ArrayElem ι α))) :=
  let level := lv.getD (-1)
  if level = 0 then some (.ok (heap ary))
  else (flatten heap ary level fuel).map fun out => out.map Prod.fst

end Code

/-! ## The documented result -/

section Meaning

variable {ι α : Type} (heap : ArrayHeap ι α)

/-- How many levels may be gone down at a depth; none is no limit. -/
def limitAt (level : ℤ) (depth : ℕ) : Option ℕ :=
  if level < 0 then none else some (level.toNat - depth)

/-- **The recursive flattening** of elements, going down the number of levels. -/
inductive Flattens : Option ℕ → List (ArrayElem ι α) → List (ArrayElem ι α) → Prop
  | nil {k : Option ℕ} : Flattens k [] []
  | other {k : Option ℕ} {v : α} {es r : List (ArrayElem ι α)} :
      Flattens k es r → Flattens k (.other v :: es) (.other v :: r)
  | keep {y : ι} {es r : List (ArrayElem ι α)} :
      Flattens (some 0) es r → Flattens (some 0) (.array y :: es) (.array y :: r)
  | expand {k : Option ℕ} {y : ι} {es s r : List (ArrayElem ι α)} : k ≠ some 0 →
      Flattens (k.map (· - 1)) (heap y) s → Flattens k es r →
      Flattens k (.array y :: es) (s ++ r)

/-- There is a path of so many steps, each from an array to one of its elements. -/
def HasPath : ℕ → ι → ι → Prop
  | 0, x, y => x = y
  | n + 1, x, y => ∃ z, .array z ∈ heap x ∧ HasPath n z y

/-- No array contains itself along a path that is shorter than the level. -/
def NoCycleBelow (level : ℤ) : Prop :=
  ∀ (x : ι) (n : ℕ), 0 < n → level < 0 ∨ (n : ℤ) < level → ¬HasPath heap n x x

/-- No array on a path from `ary` contains itself along the rest of a path of at most `level`
steps. -/
def NoReturn (level : ℤ) (ary : ι) : Prop :=
  ∀ (x : ι) (m n : ℕ), 0 < n → level < 0 ∨ ((m + n : ℕ) : ℤ) ≤ level →
    HasPath heap m ary x → ¬HasPath heap n x x

/-- Some element is an array that the level lets be expanded. -/
def Expands (k : Option ℕ) (es : List (ArrayElem ι α)) : Prop := k ≠ some 0 ∧ ∃ y, .array y ∈ es

variable [DecidableEq ι]

/-- **The documented behaviour**, where `clear` says that the arrays are not recursive. -/
structure FlattenRight (clear : Prop) (ary : ι) (level : ℤ) : Prop where
  terminates : ∃ out, Fuel.Settles (flatten heap ary level) (some out)
  result : clear → ∃ r modified, Fuel.Settles (flatten heap ary level) (some (.ok (r, modified))) ∧
    Fuel.Settles (rbAryFlatten heap ary (some level)) (some (.ok r)) ∧
    Flattens heap (limitAt level 0) (heap ary) r ∧
    (modified = true ↔ Expands (limitAt level 0) (heap ary))
  raises : level < 0 → (∃ x m n, HasPath heap m ary x ∧ 0 < n ∧ HasPath heap n x x) →
    Fuel.Settles (flatten heap ary level)
      (some (.error (.argument "tried to flatten recursive array"))) ∧
    Fuel.Settles (rbAryFlattenBang heap ary (some level))
      (some (.error (.argument "tried to flatten recursive array") heap))

end Meaning

/-! ## The recursion that keeps the arrays it is in -/

section Recursion

variable {ι α : Type} (heap : ArrayHeap ι α)

/-- The flattening of elements within the arrays of a path, going down the number of levels; none
is that an array of the path comes again. -/
inductive FlattensIn :
    Option ℕ → List ι → List (ArrayElem ι α) → Option (List (ArrayElem ι α)) → Prop
  | nil {k : Option ℕ} {path : List ι} : FlattensIn k path [] (some [])
  | other {k : Option ℕ} {path : List ι} {v : α} {es : List (ArrayElem ι α)}
      {o : Option (List (ArrayElem ι α))} :
      FlattensIn k path es o → FlattensIn k path (.other v :: es) (o.map (.other v :: ·))
  | keep {path : List ι} {y : ι} {es : List (ArrayElem ι α)} {o : Option (List (ArrayElem ι α))} :
      FlattensIn (some 0) path es o →
      FlattensIn (some 0) path (.array y :: es) (o.map (.array y :: ·))
  | again {k : Option ℕ} {path : List ι} {y : ι} {es : List (ArrayElem ι α)} :
      k ≠ some 0 → y ∈ path →
      FlattensIn k path (.array y :: es) none
  | stop {k : Option ℕ} {path : List ι} {y : ι} {es : List (ArrayElem ι α)} :
      k ≠ some 0 → y ∉ path →
      FlattensIn (k.map (· - 1)) (y :: path) (heap y) none →
      FlattensIn k path (.array y :: es) none
  | expand {k : Option ℕ} {path : List ι} {y : ι} {es s : List (ArrayElem ι α)}
      {o : Option (List (ArrayElem ι α))} : k ≠ some 0 → y ∉ path →
      FlattensIn (k.map (· - 1)) (y :: path) (heap y) (some s) → FlattensIn k path es o →
      FlattensIn k path (.array y :: es) (o.map (s ++ ·))

variable {heap} {k : Option ℕ} {path : List ι} {es : List (ArrayElem ι α)}
  {o : Option (List (ArrayElem ι α))}

/-- **There is always an outcome**: a path has each array once, and so an end. -/
theorem exists_flattensIn [Fintype ι] (heap : ArrayHeap ι α) (hpath : path.Nodup) (k : Option ℕ)
    (es : List (ArrayElem ι α)) :
    ∃ o, FlattensIn heap k path es o := by
  induction hn : Fintype.card ι - path.length using Nat.strong_induction_on
    generalizing path k es with
  | _ n ih =>
      induction es with
      | nil => exact ⟨some [], .nil⟩
      | cons e es ihes =>
          obtain ⟨o, ho⟩ := ihes
          cases e with
          | other v => exact ⟨_, .other ho⟩
          | array y =>
              by_cases hk : k = some 0
              · subst hk
                exact ⟨_, .keep ho⟩
              · by_cases hy : y ∈ path
                · exact ⟨none, .again hk hy⟩
                · have hnodup : (y :: path).Nodup := List.nodup_cons.mpr ⟨hy, hpath⟩
                  have hcard := hnodup.length_le_card
                  rw [List.length_cons] at hcard
                  obtain ⟨oy, hoy⟩ := ih _ (by rw [List.length_cons]; omega) hnodup
                    (k.map (· - 1)) (heap y) rfl
                  cases oy with
                  | none => exact ⟨none, .stop hk hy hoy⟩
                  | some s => exact ⟨_, .expand hk hy hoy ho⟩

/-- What comes out is the recursive flattening. -/
theorem FlattensIn.flattens (h : FlattensIn heap k path es o) :
    ∀ r, o = some r → Flattens heap k es r := by
  induction h with
  | nil =>
      intro r hr
      obtain rfl := Option.some_inj.mp hr
      exact .nil
  | other _ ih =>
      intro r hr
      obtain ⟨r', hr', rfl⟩ := Option.map_eq_some_iff.mp hr
      exact .other (ih r' hr')
  | keep _ ih =>
      intro r hr
      obtain ⟨r', hr', rfl⟩ := Option.map_eq_some_iff.mp hr
      exact .keep (ih r' hr')
  | again => intro r hr; cases hr
  | stop => intro r hr; cases hr
  | expand hk _ _ _ ihs ih =>
      intro r hr
      obtain ⟨r', hr', rfl⟩ := Option.map_eq_some_iff.mp hr
      exact .expand hk (ihs _ rfl) (ih r' hr')

/-- Within an outcome, each array is flattened and is not on the path. -/
theorem FlattensIn.mem (h : FlattensIn heap k path es o) (ho : o ≠ none) (hk : k ≠ some 0) {y : ι}
    (hy : .array y ∈ es) :
    y ∉ path ∧ ∃ s, FlattensIn heap (k.map (· - 1)) (y :: path) (heap y) (some s) := by
  induction h with
  | nil => cases hy
  | other _ ih =>
      rcases List.mem_cons.mp hy with hy | hy
      · cases hy
      · exact ih (by simpa using ho) hk hy
  | keep => exact absurd rfl hk
  | again => exact absurd rfl ho
  | stop => exact absurd rfl ho
  | expand _ hmem hs _ _ ih =>
      rcases List.mem_cons.mp hy with hy | hy
      · cases hy
        exact ⟨hmem, _, hs⟩
      · exact ih (by simpa using ho) hk hy

/-- **No array of the path comes again** on a path of so many steps, where there is an outcome. -/
theorem FlattensIn.not_mem_of_hasPath {x y : ι} {n : ℕ} {s : List (ArrayElem ι α)}
    (h : FlattensIn heap k path (heap x) (some s)) (hn : 0 < n) (hk : ∀ l, k = some l → n ≤ l)
    (hsteps : HasPath heap n x y) : y ∉ path := by
  induction n generalizing k path x s with
  | zero => exact absurd hn (lt_irrefl 0)
  | succ n ih =>
      obtain ⟨z, hz, hsteps⟩ := hsteps
      have hk0 : k ≠ some 0 := fun h0 => absurd (hk 0 h0) (by omega)
      obtain ⟨hmem, s', hs'⟩ := h.mem (by simp) hk0 hz
      cases n with
      | zero =>
          obtain rfl : z = y := hsteps
          exact hmem
      | succ n =>
          have hk' : ∀ l, k.map (· - 1) = some l → n + 1 ≤ l := by
            intro l hl
            obtain ⟨l', hl', rfl⟩ := Option.map_eq_some_iff.mp hl
            exact Nat.le_sub_of_add_le (hk l' hl')
          have hnot := ih hs' (by omega) hk' hsteps
          exact fun hy => hnot (List.mem_cons_of_mem z hy)

/-- Some steps on, there is an outcome for the array that is reached. -/
theorem FlattensIn.steps {x y : ι} {m : ℕ} {s : List (ArrayElem ι α)}
    (h : FlattensIn heap k (x :: path) (heap x) (some s)) (hk : ∀ l, k = some l → m ≤ l)
    (hsteps : HasPath heap m x y) :
    ∃ path' s', FlattensIn heap (k.map (· - m)) (y :: path') (heap y) (some s') := by
  induction m generalizing k path x s with
  | zero =>
      obtain rfl : x = y := hsteps
      exact ⟨path, s, by simpa using h⟩
  | succ m ih =>
      obtain ⟨z, hz, hsteps⟩ := hsteps
      have hk0 : k ≠ some 0 := fun h0 => absurd (hk 0 h0) (by omega)
      obtain ⟨-, s', hs'⟩ := h.mem (by simp) hk0 hz
      have hk' : ∀ l, k.map (· - 1) = some l → m ≤ l := by
        intro l hl
        obtain ⟨l', hl', rfl⟩ := Option.map_eq_some_iff.mp hl
        exact Nat.le_sub_of_add_le (hk l' hl')
      obtain ⟨path', s'', h'⟩ := ih hs' hk' hsteps
      refine ⟨path', s'', ?_⟩
      rw [Option.map_map] at h'
      convert h' using 2
      funext l
      exact Nat.sub_add_eq l m 1 |>.trans (Nat.sub_right_comm l m 1)

theorem HasPath.snoc {x y z : ι} {n : ℕ} (h : HasPath heap n x y) (hz : .array z ∈ heap y) :
    HasPath heap (n + 1) x z := by
  induction n generalizing x with
  | zero =>
      obtain rfl : x = y := h
      exact ⟨z, hz, rfl⟩
  | succ n ih =>
      obtain ⟨w, hw, h⟩ := h
      exact ⟨w, hw, ih h⟩

theorem HasPath.trans {x y z : ι} {m n : ℕ} (h : HasPath heap m x y) (h' : HasPath heap n y z) :
    HasPath heap (m + n) x z := by
  induction n generalizing y m with
  | zero =>
      obtain rfl : y = z := h'
      exact h
  | succ n ih =>
      obtain ⟨w, hw, h'⟩ := h'
      have hnext := ih (h.snoc hw) h'
      rwa [Nat.add_right_comm] at hnext

/-- The arrays of a path from `root` to `cur`. -/
def IsPath (heap : ArrayHeap ι α) (root cur : ι) (path : List ι) : Prop :=
  cur ∈ path ∧ ∀ y ∈ path, ∃ m n,
    HasPath heap m root y ∧ HasPath heap n y cur ∧ m + n + 1 = path.length

theorem isPath_singleton (root : ι) : IsPath heap root root [root] := by
  refine ⟨by simp, fun y hy => ?_⟩
  obtain rfl := List.mem_singleton.mp hy
  exact ⟨0, 0, rfl, rfl, rfl⟩

theorem IsPath.cons {root cur z : ι} (h : IsPath heap root cur path) (hz : .array z ∈ heap cur) :
    IsPath heap root z (z :: path) := by
  refine ⟨by simp, fun y hy => ?_⟩
  rcases List.mem_cons.mp hy with rfl | hy
  · obtain ⟨m, n, hm, hn, hlen⟩ := h.2 cur h.1
    exact ⟨m + n + 1, 0, (hm.trans hn).snoc hz, rfl, by rw [List.length_cons]; omega⟩
  · obtain ⟨m, n, hm, hn, hlen⟩ := h.2 y hy
    exact ⟨m, n + 1, hm, hn.snoc hz, by rw [List.length_cons]; omega⟩

/-- **Where an array comes again, there is a way back to it.** -/
theorem FlattensIn.exists_return (h : FlattensIn heap k path es o) (ho : o = none) {root cur : ι}
    (hpath : IsPath heap root cur path) (hes : ∀ e ∈ es, e ∈ heap cur) :
    ∃ x m n, 0 < n ∧ (∀ l, k = some l → m + n + 1 ≤ path.length + l) ∧
      HasPath heap m root x ∧ HasPath heap n x x := by
  induction h generalizing cur with
  | nil => cases ho
  | other _ ih =>
      exact ih (Option.map_eq_none_iff.mp ho) hpath fun e he => hes e (List.mem_cons_of_mem _ he)
  | keep _ ih =>
      exact ih (Option.map_eq_none_iff.mp ho) hpath fun e he => hes e (List.mem_cons_of_mem _ he)
  | again hk hy =>
      obtain ⟨m, n, hm, hn, hlen⟩ := hpath.2 _ hy
      refine ⟨_, m, n + 1, Nat.succ_pos n, fun l hl => ?_, hm, hn.snoc (hes _ (by simp))⟩
      have hl0 : l ≠ 0 := fun h0 => hk (h0 ▸ hl)
      omega
  | stop hk _ _ ih =>
      obtain ⟨x, m, n, hn, hle, hm, hx⟩ :=
        ih rfl (hpath.cons (hes _ (by simp))) fun e he => he
      refine ⟨x, m, n, hn, fun l hl => ?_, hm, hx⟩
      have hl0 : l ≠ 0 := fun h0 => hk (h0 ▸ hl)
      have hlast := hle (l - 1) (by rw [hl]; rfl)
      rw [List.length_cons] at hlast
      omega
  | expand _ _ _ _ _ ih =>
      exact ih (Option.map_eq_none_iff.mp ho) hpath fun e he => hes e (List.mem_cons_of_mem _ he)

end Recursion

/-! ## The loop -/

section Simulation

variable {ι α : Type} [DecidableEq ι] {heap : ArrayHeap ι α} {level : ℤ} {st : FlattenState ι α}
  {es : List (ArrayElem ι α)} {o : Option (List (ArrayElem ι α))}

/-- The arrays that the loop is in. -/
def FlattenState.path (st : FlattenState ι α) : List ι := st.ary :: st.stack.map Prod.fst

/-- The loop raises from here. -/
def Raises (heap : ArrayHeap ι α) (level : ℤ) (st : FlattenState ι α) : Prop :=
  Fuel.Settles (fun fuel => flattenLoop heap level fuel st)
    (some (.error (.argument "tried to flatten recursive array")))

/-- The loop does from `st` what it does from `st'`. -/
def TurnsTo (heap : ArrayHeap ι α) (level : ℤ) (st st' : FlattenState ι α) : Prop :=
  ∀ out, Fuel.Settles (fun fuel => flattenLoop heap level fuel st') out →
    Fuel.Settles (fun fuel => flattenLoop heap level fuel st) out

/-- **What the loop does with the elements that remain of an array**: it raises, or comes to the end
of the array with their flattening added. -/
def Flattening (heap : ArrayHeap ι α) (level : ℤ) (k : Option ℕ) (es : List (ArrayElem ι α))
    (st : FlattenState ι α) : Option (List (ArrayElem ι α)) → Prop
  | none => Raises heap level st
  | some r => ∃ modified, (modified = true ↔ st.modified = true ∨ Expands k es) ∧
      TurnsTo heap level st
        ⟨st.ary, (heap st.ary).length, st.stack, st.memo, st.result ++ r, modified⟩

/-- A turn of the loop. -/
theorem TurnsTo.of_turn {st' : FlattenState ι α}
    (h : ∀ fuel, flattenLoop heap level (fuel + 1) st = flattenLoop heap level fuel st') :
    TurnsTo heap level st st' := fun _ => Fuel.Settles.of_succ h

theorem TurnsTo.trans {st' st'' : FlattenState ι α} (h : TurnsTo heap level st st')
    (h' : TurnsTo heap level st' st'') : TurnsTo heap level st st'' :=
  fun out hout => h out (h' out hout)

/-- An element is passed on. -/
theorem turnsTo_push {pre : List (ArrayElem ι α)} {e : ArrayElem ι α}
    (hes : heap st.ary = pre ++ e :: es) (hi : st.i = pre.length)
    (he : ∀ y, e = .array y → level ≥ 0 ∧ st.stack.length ≥ level) :
    TurnsTo heap level st { st with i := st.i + 1, result := st.result ++ [e] } := by
  have hget : (heap st.ary)[st.i]? = some e := by simp [hes, hi]
  refine .of_turn fun fuel => ?_
  rw [flattenLoop, hget]
  cases e with
  | other v => rfl
  | array y => simp only [if_pos (he y rfl)]

/-- An array is gone into. -/
theorem turnsTo_enter {pre : List (ArrayElem ι α)} {y : ι}
    (hes : heap st.ary = pre ++ .array y :: es) (hi : st.i = pre.length)
    (hlevel : ¬(level ≥ 0 ∧ st.stack.length ≥ level)) (hy : y ∉ st.memo) :
    TurnsTo heap level st
      ⟨y, 0, (st.ary, st.i + 1) :: st.stack, insert y st.memo, st.result, true⟩ := by
  have hget : (heap st.ary)[st.i]? = some (.array y) := by simp [hes, hi]
  refine .of_turn fun fuel => ?_
  rw [flattenLoop, hget]
  simp only [if_neg hlevel, if_neg hy]

/-- An array that comes again raises. -/
theorem raises_again {pre : List (ArrayElem ι α)} {y : ι}
    (hes : heap st.ary = pre ++ .array y :: es) (hi : st.i = pre.length)
    (hlevel : ¬(level ≥ 0 ∧ st.stack.length ≥ level)) (hy : y ∈ st.memo) :
    Raises heap level st := by
  have hget : (heap st.ary)[st.i]? = some (.array y) := by simp [hes, hi]
  refine .of_le 1 fun fuel hfuel => ?_
  obtain ⟨fuel, rfl⟩ := Nat.exists_eq_add_of_le' hfuel
  rw [flattenLoop, hget]
  simp only [if_neg hlevel, if_pos hy]

/-- The end of an array goes on with the array it is in. -/
theorem turnsTo_leave {ary x : ι} {i : ℕ} {stack : List (ι × ℕ)} {memo : Finset ι}
    {result : List (ArrayElem ι α)} {modified : Bool} :
    TurnsTo heap level ⟨x, (heap x).length, (ary, i) :: stack, memo, result, modified⟩
      ⟨ary, i, stack, memo.erase x, result, modified⟩ := by
  refine .of_turn fun fuel => ?_
  rw [flattenLoop]
  simp

/-- The limit and the test of the loop. -/
theorem limitAt_eq_zero_iff {depth : ℕ} :
    limitAt level depth = some 0 ↔ level ≥ 0 ∧ (depth : ℤ) ≥ level := by
  unfold limitAt
  split
  · simp
    omega
  · simp
    omega

theorem limitAt_succ (depth : ℕ) :
    limitAt level (depth + 1) = (limitAt level depth).map (· - 1) := by
  unfold limitAt
  split
  · rfl
  · simp [Nat.sub_add_eq]

theorem Flattening.push {k : Option ℕ} {e : ArrayElem ι α}
    (hgo : TurnsTo heap level st { st with i := st.i + 1, result := st.result ++ [e] })
    (hexp : Expands k (e :: es) ↔ Expands k es)
    (h : Flattening heap level k es { st with i := st.i + 1, result := st.result ++ [e] } o) :
    Flattening heap level k (e :: es) st (o.map (e :: ·)) := by
  cases o with
  | none => exact hgo _ h
  | some r =>
      obtain ⟨modified, hmod, hend⟩ := h
      refine ⟨modified, hmod.trans (or_congr_right hexp.symm), hgo.trans ?_⟩
      simpa using hend

/-- **The loop does what the recursion does.** -/
theorem flattenLoop_settles {k : Option ℕ} {path : List ι} (h : FlattensIn heap k path es o)
    (hk : k = limitAt level st.stack.length)
    (hmemo : ∀ x, x ∈ st.memo ↔ x ∈ path) {pre : List (ArrayElem ι α)}
    (hes : heap st.ary = pre ++ es) (hi : st.i = pre.length) :
    Flattening heap level k es st o := by
  induction h generalizing st pre with
  | nil =>
      have hlen : (heap st.ary).length = st.i := by simp [hes, hi]
      refine ⟨st.modified, by simp [Expands], fun out hout => ?_⟩
      rwa [hlen, List.append_nil] at hout
  | @other k path v es o _ ih =>
      refine .push (turnsTo_push hes hi fun y hy => by cases hy) (by simp [Expands]) ?_
      exact ih hk hmemo (show heap st.ary = (pre ++ [.other v]) ++ es by simp [hes]) (by simp [hi])
  | @keep path y es o _ ih =>
      have hlevel := limitAt_eq_zero_iff.mp hk.symm
      refine .push (turnsTo_push hes hi fun _ _ => hlevel) (by simp [Expands]) ?_
      exact ih hk hmemo (show heap st.ary = (pre ++ [.array y]) ++ es by simp [hes]) (by simp [hi])
  | again hk0 hy =>
      have hlevel := mt limitAt_eq_zero_iff.mpr (hk ▸ hk0)
      exact raises_again hes hi hlevel ((hmemo _).mpr hy)
  | @stop k path y es hk0 hy _ ih =>
      have hlevel := mt limitAt_eq_zero_iff.mpr (hk ▸ hk0)
      refine turnsTo_enter hes hi hlevel (mt (hmemo _).mp hy) _ ?_
      exact ih (by rw [hk, ← limitAt_succ]; rfl) (by simp [hmemo]) (List.nil_append _).symm rfl
  | @expand k path y es s o hk0 hy _ _ ihs ih =>
      have hlevel := mt limitAt_eq_zero_iff.mpr (hk ▸ hk0)
      have hexp : Expands k (.array y :: es) := ⟨hk0, y, by simp⟩
      have hnot := mt (hmemo y).mp hy
      have hinner : Flattening heap level (k.map (· - 1)) (heap y)
          ⟨y, 0, (st.ary, st.i + 1) :: st.stack, insert y st.memo, st.result, true⟩ (some s) :=
        ihs (by rw [hk, ← limitAt_succ]; rfl) (by simp [hmemo]) (List.nil_append _).symm rfl
      obtain ⟨modified, hmod, hend⟩ := hinner
      obtain rfl : modified = true := hmod.mpr (Or.inl rfl)
      have hback := ((turnsTo_enter hes hi hlevel hnot).trans hend).trans turnsTo_leave
      rw [Finset.erase_insert hnot] at hback
      have hrest : Flattening heap level k es
          ⟨st.ary, st.i + 1, st.stack, st.memo, st.result ++ s, true⟩ o :=
        ih hk hmemo (show heap st.ary = (pre ++ [.array y]) ++ es by simp [hes]) (by simp [hi])
      cases o with
      | none => exact hback _ hrest
      | some r =>
          obtain ⟨modified, hmod', hend'⟩ := hrest
          refine ⟨modified, ?_, hback.trans ?_⟩
          · simp [hmod', hexp]
          · simpa using hend'

end Simulation

/-! ## Flattening is right -/

section Result

variable {ι α : Type} [DecidableEq ι] [Fintype ι] (heap : ArrayHeap ι α) (ary : ι) (level : ℤ)

/-- **Flattening raises or has the recursive flattening**, by the recursion that keeps the arrays
it is in. -/
theorem flatten_settles : ∃ o, FlattensIn heap (limitAt level 0) [ary] (heap ary) o ∧
    match o with
    | none => Fuel.Settles (flatten heap ary level)
        (some (.error (.argument "tried to flatten recursive array")))
    | some r => ∃ modified, (modified = true ↔ Expands (limitAt level 0) (heap ary)) ∧
        Fuel.Settles (flatten heap ary level) (some (.ok (r, modified))) := by
  obtain ⟨o, ho⟩ := exists_flattensIn heap (List.nodup_singleton ary) (limitAt level 0) (heap ary)
  refine ⟨o, ho, ?_⟩
  have hrun : Flattening heap level (limitAt level 0) (heap ary) ⟨ary, 0, [], {ary}, [], false⟩ o :=
    flattenLoop_settles ho rfl (by simp) (List.nil_append _).symm rfl
  cases o with
  | none => exact hrun
  | some r =>
      obtain ⟨modified, hmod, hend⟩ := hrun
      refine ⟨modified, by simpa using hmod, hend _ ?_⟩
      refine .of_le 1 fun fuel hfuel => ?_
      obtain ⟨fuel, rfl⟩ := Nat.exists_eq_add_of_le' hfuel
      rw [flattenLoop]
      simp

variable {heap ary level}

omit [DecidableEq ι] [Fintype ι] in
/-- **The recursion comes to an array again exactly when there is a way back** within the limit. -/
theorem flattensIn_eq_none_iff {o : Option (List (ArrayElem ι α))}
    (h : FlattensIn heap (limitAt level 0) [ary] (heap ary) o) :
    o = none ↔ ¬NoReturn heap level ary := by
  have hlimit : ∀ l, limitAt level 0 = some l → 0 ≤ level ∧ l = level.toNat := by
    intro l hl
    unfold limitAt at hl
    split at hl
    · cases hl
    · obtain rfl := Option.some_inj.mp hl
      exact ⟨by omega, Nat.sub_zero _⟩
  constructor
  · intro ho hclear
    obtain ⟨x, m, n, hn, hle, hm, hx⟩ :=
      h.exists_return ho (isPath_singleton ary) fun e he => he
    refine hclear x m n hn ?_ hm hx
    by_cases hneg : level < 0
    · exact Or.inl hneg
    · have hbound := hle level.toNat (by simp [limitAt, hneg])
      rw [List.length_singleton] at hbound
      omega
  · intro hreturn
    unfold NoReturn at hreturn
    push Not at hreturn
    obtain ⟨x, m, n, hn, hle, hm, hx⟩ := hreturn
    cases o with
    | none => rfl
    | some r =>
        have hbound : ∀ l, limitAt level 0 = some l → m + n ≤ l := by
          intro l hl
          have := hlimit l hl
          omega
        obtain ⟨path, s, hs⟩ := h.steps (fun l hl => by have := hbound l hl; omega) hm
        refine absurd (List.mem_cons_self) (hs.not_mem_of_hasPath hn (fun l hl => ?_) hx)
        obtain ⟨l', hl', rfl⟩ := Option.map_eq_some_iff.mp hl
        have := hbound l' hl'
        omega

omit [DecidableEq ι] [Fintype ι] in
/-- No element is expanded where there is no level to go down. -/
theorem Flattens.eq_of_zero {es r : List (ArrayElem ι α)} (h : Flattens heap (some 0) es r) :
    r = es := by
  generalize hk : some 0 = k at h
  induction h with
  | nil => rfl
  | other _ ih => rw [ih hk]
  | keep _ ih => rw [ih hk]
  | expand hk0 => exact absurd hk.symm hk0

omit [Fintype ι] in
/-- `rb_ary_flatten`, from the outcome of `flatten`. -/
theorem rbAryFlatten_settles {r : List (ArrayElem ι α)} {modified : Bool}
    (h : Fuel.Settles (flatten heap ary level) (some (.ok (r, modified))))
    (hr : Flattens heap (limitAt level 0) (heap ary) r) :
    Fuel.Settles (rbAryFlatten heap ary (some level)) (some (.ok r)) := by
  by_cases h0 : level = 0
  · subst h0
    refine .of_le 0 fun fuel _ => ?_
    rw [hr.eq_of_zero]
    rfl
  · refine (h.map fun out => out.map fun out => out.map Prod.fst).congr fun fuel => ?_
    rw [rbAryFlatten, Option.getD_some, if_neg h0]

omit [Fintype ι] in
/-- **`flatten!` leaves the array as it is where it raises.** -/
theorem rbAryFlattenBang_settles {e : ArrayError} (h0 : level ≠ 0)
    (h : Fuel.Settles (flatten heap ary level) (some (.error e))) :
    Fuel.Settles (rbAryFlattenBang heap ary (some level)) (some (.error e heap)) := by
  obtain ⟨n, hn⟩ := h
  refine .of_le n fun fuel hfuel => ?_
  rw [rbAryFlattenBang, Option.getD_some, if_neg h0, hn fuel hfuel]

variable (heap ary level)

/-- **Flattening is right**, where there is no way back to an array within the level. -/
theorem flattenRight : FlattenRight heap (NoReturn heap level ary) ary level := by
  obtain ⟨o, ho, hout⟩ := flatten_settles heap ary level
  have hnone := flattensIn_eq_none_iff ho
  constructor
  · cases o with
    | none => exact ⟨_, hout⟩
    | some r =>
        obtain ⟨modified, -, hout⟩ := hout
        exact ⟨_, hout⟩
  · intro hclear
    cases o with
    | none => exact absurd hclear (hnone.mp rfl)
    | some r =>
        obtain ⟨modified, hmod, hout⟩ := hout
        have hr := ho.flattens r rfl
        exact ⟨r, modified, hout, rbAryFlatten_settles hout hr, hr, hmod⟩
  · intro hneg hcycle
    obtain ⟨x, m, n, hm, hn, hx⟩ := hcycle
    obtain rfl := hnone.mpr fun hclear => hclear x m n hn (Or.inl hneg) hm hx
    exact ⟨hout, rbAryFlattenBang_settles (by omega) hout⟩

/-- One array that contains itself. -/
def itself : ArrayHeap Unit ℕ := fun _ => [.array ()]

/-- It raises with level 1 too, though it contains itself along no path shorter than that. -/
theorem not_flattenRight_itself : ¬FlattenRight itself (NoCycleBelow itself 1) () 1 := by
  intro h
  have hclear : NoCycleBelow itself 1 := by
    intro x n hn hlevel
    omega
  obtain ⟨r, modified, hsettles, -⟩ := h.result hclear
  have hraise : Fuel.Settles (flatten itself () 1)
      (some (.error (.argument "tried to flatten recursive array"))) := by
    refine .of_le 1 fun fuel hfuel => ?_
    obtain ⟨fuel, rfl⟩ := Nat.exists_eq_add_of_le' hfuel
    rfl
  have heq := hsettles.unique hraise
  cases heq

end Result

end MacRuby
