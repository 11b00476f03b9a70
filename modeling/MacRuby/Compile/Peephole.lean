import Mathlib.Data.List.TakeWhile
import MacRuby.Compile.Optimize

/-!
# What the peephole optimiser preserves

Each rewrite replaces a piece of the list without labels by another such piece. The points of the
two lists then correspond, and it is enough to follow the run through the piece itself. A rewrite
that removes a jump behind a label is not of this kind: whoever enters at the label needs the jump.

## Main results

* `sameMeaning_of_replace` — replacing a piece without labels by one that is run alike.
* `peepholeJump_sameMeaning`, `peepholeBranch_sameMeaning` — one step of the walk.
* `iseqOptimize_sameMeaning` — the walk, when it loses no entry.
-/

namespace MacRuby

open Simulation

variable {V : Type} (rtest : V → Bool)

/-! ## Searches -/

@[simp] theorem labelsOf_nil : labelsOf ([] : List (Elem V)) = [] := rfl

@[simp] theorem labelsOf_cons_insn (i : Insn V) (es : List (Elem V)) :
    labelsOf (.insn i :: es) = labelsOf es := rfl

theorem label_cons_afterLabel_suffix {l : Label} {es k : List (Elem V)}
    (h : afterLabel l es = some k) : .label l :: k <:+ es := by
  fun_induction afterLabel l es with
  | case1 => simp at h
  | case2 es =>
      obtain rfl : es = k := by simpa using h
      exact List.suffix_rfl
  | case3 l' es hne ih => exact (ih h).trans (List.suffix_cons _ _)
  | case4 e es _ ih => exact (ih h).trans (List.suffix_cons _ _)

theorem afterLabel_suffix {l : Label} {es k : List (Elem V)} (h : afterLabel l es = some k) :
    k <:+ es :=
  (List.suffix_cons _ _).trans (label_cons_afterLabel_suffix h)

theorem afterLabel_eq_none {l : Label} {es : List (Elem V)} :
    afterLabel l es = none ↔ l ∉ labelsOf es := by
  fun_induction afterLabel l es with
  | case1 => simp [labelsOf]
  | case2 es => simp [labelsOf, Elem.label?]
  | case3 l' es hne ih =>
      rw [ih]
      simp [labelsOf, Elem.label?, Ne.symm hne]
  | case4 e es hne ih =>
      rw [ih]
      cases e <;> simp_all [labelsOf, Elem.label?]

theorem afterLabel_append (l : Label) (es fs : List (Elem V)) :
    afterLabel l (es ++ fs) =
      match afterLabel l es with
      | some k => some (k ++ fs)
      | none => afterLabel l fs := by
  fun_induction afterLabel l es with
  | case1 => rfl
  | case2 es => simp [afterLabel]
  | case3 l' es hne ih => simpa [afterLabel, hne] using ih
  | case4 e es hne ih =>
      cases e with
      | label l' => exact absurd rfl (hne l')
      | _ => simpa [afterLabel] using ih

theorem skipToInsn_suffix (es : List (Elem V)) : skipToInsn es <:+ es := List.dropWhile_suffix _

theorem isInsn_of_skipToInsn {es k : List (Elem V)} {e : Elem V} (h : skipToInsn es = e :: k) :
    e.isInsn = true := by
  have hhead := List.head?_dropWhile_not (fun e : Elem V => !e.isInsn) es
  rw [skipToInsn] at h
  simpa [h] using hhead

theorem getDestinationInsn_suffix (es : List (Elem V)) (l : Label) :
    getDestinationInsn es l <:+ es := by
  rw [getDestinationInsn]
  cases h : afterLabel l es with
  | none => exact (skipToInsn_suffix _).trans (List.nil_suffix)
  | some k => exact (skipToInsn_suffix _).trans (afterLabel_suffix h)

/-- Pointers into one list are equal when as much stands from them on. -/
theorem eq_of_suffix_of_length_eq {es k k' : List (Elem V)} (h : k <:+ es) (h' : k' <:+ es)
    (hlen : k.length = k'.length) : k = k' :=
  (List.suffix_of_suffix_length_le h h' hlen.le).eq_of_length hlen

theorem skipToInsn_append (es fs : List (Elem V)) :
    skipToInsn (es ++ fs) = if skipToInsn es = [] then skipToInsn fs else skipToInsn es ++ fs := by
  rw [skipToInsn, List.dropWhile_append]
  cases h : es.dropWhile (fun e => !e.isInsn) <;> simp [skipToInsn, h]

/-- The destination of a label, in a list in two parts. -/
theorem getDestinationInsn_append (front back : List (Elem V)) (l : Label) :
    getDestinationInsn (front ++ back) l =
      match afterLabel l front with
      | some a => if skipToInsn a = [] then skipToInsn back else skipToInsn a ++ back
      | none => getDestinationInsn back l := by
  rw [getDestinationInsn, afterLabel_append]
  cases h : afterLabel l front with
  | none => rfl
  | some a => exact skipToInsn_append a back

/-- The destination of a label, before or behind an instruction, or the instruction itself. -/
theorem getDestinationInsn_insn (front back : List (Elem V)) (i : Insn V) (l : Label) :
    getDestinationInsn (front ++ .insn i :: back) l =
      match afterLabel l front with
      | some a => skipToInsn a ++ .insn i :: back
      | none => getDestinationInsn back l := by
  rw [getDestinationInsn_append]
  cases h : afterLabel l front with
  | none => rfl
  | some a =>
      have hself : skipToInsn (.insn i :: back) = .insn i :: back := rfl
      by_cases ha : skipToInsn a = [] <;> simp [ha, hself]

/-! ## Silent runs -/

theorem silentStar_append {es ns : List (Elem V)} (hns : ∀ e ∈ ns, e.isInsn = false)
    (k : List (Elem V)) : SilentStar (listMove rtest es) (.at (ns ++ k)) (.at k) := by
  induction ns with
  | nil => exact .refl
  | cons e ns ih =>
      have hrest := ih fun e' he' => hns e' (List.mem_cons_of_mem _ he')
      refine .head ?_ hrest
      have he := hns e List.mem_cons_self
      cases e with
      | insn i => simp [Elem.isInsn] at he
      | adjust l n => simp [Elem.isInsn] at he
      | label l => rfl
      | none => rfl

theorem silentStar_skipToInsn (es k : List (Elem V)) :
    SilentStar (listMove rtest es) (.at k) (.at (skipToInsn k)) := by
  have h : k = k.takeWhile (fun e => !e.isInsn) ++ skipToInsn k :=
    (List.takeWhile_append_dropWhile).symm
  nth_rewrite 1 [h]
  apply silentStar_append
  intro e he
  simpa using List.mem_takeWhile_imp he

theorem silentStar_enter {es : List (Elem V)} {l : Label} (hl : l ∈ labelsOf es) :
    SilentStar (listMove rtest es) (enter es l) (.at (getDestinationInsn es l)) := by
  rw [enter, getDestinationInsn]
  cases h : afterLabel l es with
  | none => exact absurd hl (afterLabel_eq_none.mp h)
  | some k => exact silentStar_skipToInsn rtest es k

/-! ## Replacing a piece without labels -/

variable {rtest}

/-- The points of two lists that differ in one piece. -/
inductive Replaced (front piece piece' back : List (Elem V)) : Point V → Point V → Prop
  | before {a : List (Elem V)} (h : a <:+ front) :
      Replaced front piece piece' back (.at (a ++ (piece ++ back))) (.at (a ++ (piece' ++ back)))
  | behind {b : List (Elem V)} (h : b <:+ back) : Replaced front piece piece' back (.at b) (.at b)
  | left : Replaced front piece piece' back .left .left
  | lost : Replaced front piece piece' back .lost .lost

section Replace

variable {front piece piece' back : List (Elem V)}

theorem Replaced.symm {s s' : Point V} (h : Replaced front piece piece' back s s') :
    Replaced front piece' piece back s' s := by
  cases h with
  | before h => exact .before h
  | behind h => exact .behind h
  | left => exact .left
  | lost => exact .lost

/-- Both lists are entered at corresponding points. -/
theorem replaced_enter (hpiece : labelsOf piece = []) (hpiece' : labelsOf piece' = []) (l : Label) :
    Replaced front piece piece' back (enter (front ++ (piece ++ back)) l)
      (enter (front ++ (piece' ++ back)) l) := by
  have hnone : afterLabel l piece = none := by simp [afterLabel_eq_none, hpiece]
  have hnone' : afterLabel l piece' = none := by simp [afterLabel_eq_none, hpiece']
  simp only [enter, afterLabel_append, hnone, hnone']
  cases hfront : afterLabel l front with
  | some k => exact .before (afterLabel_suffix hfront)
  | none =>
      cases hback : afterLabel l back with
      | some k => exact .behind (afterLabel_suffix hback)
      | none => exact .lost

/-- The machine of a list with a piece in it. -/
def moveWith (rtest : V → Bool) (front piece back : List (Elem V)) :
    Point V → Move (Point V) (Reply V) (Event V) RunEnd :=
  listMove rtest (front ++ (piece ++ back))

/-- The move of one and the same element is matched, if what stands behind it is. -/
theorem matches_cons (hpiece : labelsOf piece = []) (hpiece' : labelsOf piece' = []) (e : Elem V)
    {k k' : List (Elem V)} (hk : Replaced front piece piece' back (.at k) (.at k')) :
    Matches (moveWith rtest front piece back) (moveWith rtest front piece' back)
      (Replaced front piece piece' back) (.at (e :: k)) (.at (e :: k')) := by
  have hdest : ∀ i : Insn V, Replaced front piece piece' back
      (i.destination (front ++ (piece ++ back))) (i.destination (front ++ (piece' ++ back))) := by
    intro i
    rw [Insn.destination, Insn.destination]
    cases i.target with
    | ok l => exact replaced_enter hpiece hpiece' l
    | error _ => exact .lost
  cases e with
  | label l => exact .of_silent rfl rfl (.of_rel hk)
  | none => exact .of_silent rfl rfl (.of_rel hk)
  | adjust l n => exact .act rfl rfl (fun _ => rfl) fun _ => .of_rel hk
  | insn i =>
      obtain ⟨id, line, ops⟩ := i
      cases id with
      | jump => exact .of_silent rfl rfl (.of_rel (hdest _))
      | branchif =>
          refine .act rfl rfl (fun _ => rfl) ?_
          intro r
          cases hr : rtest r.value
          · simpa [hr] using .of_rel hk
          · simpa [hr] using .of_rel (hdest _)
      | branchunless =>
          refine .act rfl rfl (fun _ => rfl) ?_
          intro r
          cases hr : rtest r.value
          · simpa [hr] using .of_rel (hdest _)
          · simpa [hr] using .of_rel hk
      | leave => exact .act rfl rfl (fun _ => rfl) fun _ => .of_rel .left
      | _ =>
          refine .act rfl rfl (fun _ => rfl) ?_
          intro r
          cases hr : r.goto with
          | none => simpa [hr] using .of_rel hk
          | some l => simpa [hr] using .of_rel (replaced_enter hpiece hpiece' l)

/-- Behind the piece nothing differs. -/
theorem matches_behind (hpiece : labelsOf piece = []) (hpiece' : labelsOf piece' = [])
    {b : List (Elem V)} (hb : b <:+ back) :
    Matches (moveWith rtest front piece back) (moveWith rtest front piece' back)
      (Replaced front piece piece' back) (.at b) (.at b) := by
  cases b with
  | nil => exact .halt rfl rfl
  | cons e b => exact matches_cons hpiece hpiece' e (.behind ((List.suffix_cons e b).trans hb))

/-- Following the run through the piece is enough for a simulation. -/
theorem isSimulation_of_follows (hpiece : labelsOf piece = []) (hpiece' : labelsOf piece' = [])
    (h : Follows (moveWith rtest front piece back) (moveWith rtest front piece' back)
      (Replaced front piece piece' back) (.at (piece ++ back)) (.at (piece' ++ back))) :
    IsSimulation (moveWith rtest front piece back) (moveWith rtest front piece' back)
      (Replaced front piece piece' back) := by
  intro s s' hs
  cases hs with
  | @before a ha =>
      cases a with
      | nil => exact h
      | cons e a =>
          refine .of_matches .refl .refl ?_
          exact matches_cons hpiece hpiece' e (.before ((List.suffix_cons e a).trans ha))
  | behind hb => exact .of_matches .refl .refl (matches_behind hpiece hpiece' hb)
  | left => exact .of_matches .refl .refl (.halt rfl rfl)
  | lost => exact .of_matches .refl .refl (.halt rfl rfl)

/-- **Replacing a piece without labels by one that is run alike.** -/
theorem sameMeaning_of_replace (hpiece : labelsOf piece = []) (hpiece' : labelsOf piece' = [])
    (h : Follows (moveWith rtest front piece back) (moveWith rtest front piece' back)
      (Replaced front piece piece' back) (.at (piece ++ back)) (.at (piece' ++ back)))
    (h' : Follows (moveWith rtest front piece' back) (moveWith rtest front piece back)
      (Replaced front piece' piece back) (.at (piece' ++ back)) (.at (piece ++ back))) :
    SameMeaning rtest (front ++ (piece ++ back)) (front ++ (piece' ++ back)) := by
  have hsim := isSimulation_of_follows hpiece hpiece' h
  have hflip : Replaced front piece' piece back = fun s' s =>
    Replaced front piece piece' back s s' := by
    funext s' s
    exact propext ⟨Replaced.symm, Replaced.symm⟩
  have hsim' := isSimulation_of_follows hpiece' hpiece h'
  rw [hflip] at hsim'
  intro o
  refine ⟨observations_eq hsim hsim' o (.before List.suffix_rfl), ?_⟩
  intro l
  exact observations_eq hsim hsim' o (replaced_enter hpiece hpiece' l)

end Replace

theorem SameMeaning.refl (es : List (Elem V)) : SameMeaning rtest es es :=
  fun _ => ⟨rfl, fun _ => rfl⟩

theorem SameMeaning.trans {es es' es'' : List (Elem V)} (h : SameMeaning rtest es es')
    (h' : SameMeaning rtest es' es'') : SameMeaning rtest es es'' := by
  intro o
  refine ⟨(h o).1.trans (h' o).1, ?_⟩
  intro l
  exact ((h o).2 l).trans ((h' o).2 l)

/-! ## The moves of the rewritten instructions -/

@[simp] theorem Insn.setTarget_insnId (i : Insn V) (l : Label) :
    (i.setTarget l).insnId = i.insnId := rfl

theorem Insn.setTarget_target {i : Insn V} {l : Label} (h : i.target = .ok l) (l' : Label) :
    (i.setTarget l').target = .ok l' := by
  obtain ⟨id, line, ops⟩ := i
  cases ops with
  | nil => simp [Insn.target] at h
  | cons op ops => simp [Insn.setTarget, Insn.target]

theorem Insn.invertTo_target {i : Insn V} {l : Label} (h : i.target = .ok l) (l' : Label) :
    (i.invertTo l').target = .ok l' :=
  Insn.setTarget_target (i := { i with insnId := i.insnId.invert }) h l'

/-- Does a branch jump on a value of this truth? -/
def InsnId.takes (i : InsnId) (b : Bool) : Bool := b == (i == .branchif)

theorem InsnId.isBranch_iff {i : InsnId} :
    i.isBranch = true ↔ i = .branchif ∨ i = .branchunless := by
  simp [InsnId.isBranch]

theorem InsnId.isBranch_invert (i : InsnId) : i.invert.isBranch = true := by
  rw [InsnId.isBranch_iff, InsnId.invert]
  split <;> simp

theorem InsnId.takes_invert {i : InsnId} (h : i.isBranch = true) (b : Bool) :
    i.invert.takes b = !i.takes b := by
  rcases InsnId.isBranch_iff.mp h with rfl | rfl <;> cases b <;> rfl

section Moves

variable {es k : List (Elem V)} {i : Insn V} {l : Label}

theorem listMove_jump (hi : i.insnId = .jump) (hl : i.target = .ok l) :
    listMove rtest es (.at (.insn i :: k)) = .silent (enter es l) := by
  simp [listMove, insnMove, hi, Insn.destination, hl]

theorem listMove_branch (hi : i.insnId.isBranch = true) (hl : i.target = .ok l) :
    listMove rtest es (.at (.insn i :: k)) = .act fun r =>
      (.test r.value, if i.insnId.takes (rtest r.value) then enter es l else .at k) := by
  rcases InsnId.isBranch_iff.mp hi with hi | hi
  · simp [listMove, insnMove, hi, Insn.destination, hl, InsnId.takes]
  · simp only [listMove, insnMove, hi, Insn.destination, hl, InsnId.takes]
    congr
    funext r
    cases rtest r.value <;> rfl

theorem listMove_leave (hi : i.insnId = .leave) :
    listMove rtest es (.at (.insn i :: k)) = .act fun _ => (.exec .leave i.operands, .left) := by
  simp [listMove, insnMove, hi]

theorem mem_labelsOf_of_getDestinationInsn {e : Elem V} (h : getDestinationInsn es l = e :: k) :
    l ∈ labelsOf es := by
  by_contra hl
  rw [getDestinationInsn, afterLabel_eq_none.mpr hl] at h
  simp [skipToInsn] at h

variable (rtest) in
/-- Entering at a label of a jump is entering at the label of that jump. -/
theorem silentStar_enter_jump {l' : Label} (h : getDestinationInsn es l = .insn i :: k)
    (hi : i.insnId = .jump) (hl' : i.target = .ok l') :
    SilentStar (listMove rtest es) (enter es l) (enter es l') := by
  have hent := silentStar_enter rtest (mem_labelsOf_of_getDestinationInsn h)
  rw [h] at hent
  exact hent.tail (listMove_jump hi hl')

end Moves

/-! ## The rewrites -/

section Rewrites

variable {front back : List (Elem V)} {i : Insn V} {l : Label}

/-- A jump to the next instruction is removed. -/
theorem sameMeaning_remove (hi : i.insnId = .jump) (hl : i.target = .ok l)
    (hmem : l ∈ labelsOf (front ++ ([.insn i] ++ back)))
    (hdest : getDestinationInsn (front ++ ([.insn i] ++ back)) l = skipToInsn back) :
    SameMeaning rtest (front ++ ([.insn i] ++ back)) (front ++ ([] ++ back)) := by
  have hent := silentStar_enter rtest hmem
  rw [hdest] at hent
  have hjump : listMove rtest (front ++ ([.insn i] ++ back)) (.at ([.insn i] ++ back)) =
      .silent (enter (front ++ ([.insn i] ++ back)) l) := listMove_jump hi hl
  have hskip := skipToInsn_suffix back
  apply sameMeaning_of_replace rfl rfl
  · exact .of_silent hjump ⟨_, _, hent, silentStar_skipToInsn _ _ _, .behind hskip⟩
  · exact .of_matches (silentStar_skipToInsn _ _ _) (.head hjump hent)
      (matches_behind rfl rfl hskip)

/-- A jump or branch to a jump goes where that jump goes. -/
theorem sameMeaning_setTarget (hi : i.insnId = .jump ∨ i.insnId.isBranch = true)
    (hl : i.target = .ok l) {d : Insn V} {k : List (Elem V)}
    (hdest : getDestinationInsn (front ++ ([.insn i] ++ back)) l = .insn d :: k)
    (hd : d.insnId = .jump) {l' : Label} (hl' : d.target = .ok l') :
    SameMeaning rtest (front ++ ([.insn i] ++ back))
      (front ++ ([.insn (i.setTarget l')] ++ back)) := by
  have hent := silentStar_enter_jump rtest hdest hd hl'
  have hset := Insn.setTarget_target hl l'
  rcases hi with hi | hi
  · apply sameMeaning_of_replace rfl rfl
    · exact .of_silent (listMove_jump hi hl)
        ⟨_, _, hent, .single (listMove_jump hi hset), replaced_enter rfl rfl l'⟩
    · exact .of_silent (listMove_jump hi hset)
        ⟨_, _, .refl, .head (listMove_jump hi hl) hent, replaced_enter rfl rfl l'⟩
  · apply sameMeaning_of_replace rfl rfl
    · refine .of_matches .refl .refl
        (.act (listMove_branch hi hl) (listMove_branch hi hset) (fun _ => rfl) ?_)
      intro r
      cases ht : i.insnId.takes (rtest r.value)
      · simpa [ht] using .of_rel (.behind List.suffix_rfl)
      · simpa [ht] using ⟨_, _, hent, .refl, replaced_enter rfl rfl l'⟩
    · refine .of_matches .refl .refl
        (.act (listMove_branch hi hset) (listMove_branch hi hl) (fun _ => rfl) ?_)
      intro r
      cases ht : i.insnId.takes (rtest r.value)
      · simpa [ht] using .of_rel (.behind List.suffix_rfl)
      · simpa [ht] using ⟨_, _, .refl, hent, replaced_enter rfl rfl l'⟩

/-- A jump to a `leave` becomes that `leave`; the `pop` behind it is never reached. -/
theorem sameMeaning_leave (hi : i.insnId = .jump) (hl : i.target = .ok l) {d : Insn V}
    {k : List (Elem V)} (hdest : getDestinationInsn (front ++ ([.insn i] ++ back)) l = .insn d :: k)
    (hd : d.insnId = .leave) :
    SameMeaning rtest (front ++ ([.insn i] ++ back))
      (front ++ ([.insn ⟨.leave, i.lineNo, d.operands⟩, .insn ⟨.pop, i.lineNo, []⟩] ++ back)) := by
  have hent := silentStar_enter rtest (mem_labelsOf_of_getDestinationInsn hdest)
  rw [hdest] at hent
  apply sameMeaning_of_replace rfl rfl
  · exact .of_matches (.head (listMove_jump hi hl) hent) .refl
      (.act (listMove_leave hd) (listMove_leave rfl) (fun _ => rfl) fun _ => .of_rel .left)
  · exact .of_matches .refl (.head (listMove_jump hi hl) hent)
      (.act (listMove_leave rfl) (listMove_leave hd) (fun _ => rfl) fun _ => .of_rel .left)

/-- A branch over a jump is inverted, if no label stands between the two. -/
theorem sameMeaning_invert {p : Insn V} {ns : List (Elem V)} {lp : Label}
    (hp : p.insnId.isBranch = true) (hlp : p.target = .ok lp)
    (hns : ∀ e ∈ ns, e.isInsn = false) (hlabels : labelsOf ns = [])
    (hi : i.insnId = .jump) (hl : i.target = .ok l)
    (hmem : lp ∈ labelsOf (front ++ (.insn p :: (ns ++ [.insn i]) ++ back)))
    (hdest : getDestinationInsn (front ++ (.insn p :: (ns ++ [.insn i]) ++ back)) lp =
      skipToInsn back) :
    SameMeaning rtest (front ++ (.insn p :: (ns ++ [.insn i]) ++ back))
      (front ++ (.insn (p.invertTo l) :: ns ++ back)) := by
  have hpiece : labelsOf (.insn p :: (ns ++ [.insn i])) = [] := by simp [hlabels]
  have hpiece' : labelsOf (.insn (p.invertTo l) :: ns) = [] := by simp [hlabels]
  have hskip := skipToInsn_suffix back
  -- not taken, the branch runs into the jump; taken, it ends where the inverted one falls through
  have hfall : SilentStar (listMove rtest (front ++ (.insn p :: (ns ++ [.insn i]) ++ back)))
      (.at (ns ++ [.insn i] ++ back))
      (enter (front ++ (.insn p :: (ns ++ [.insn i]) ++ back)) l) := by
    rw [List.append_assoc]
    exact (silentStar_append rtest hns _).tail (listMove_jump hi hl)
  have hent := silentStar_enter rtest hmem
  rw [hdest] at hent
  have hfall' : SilentStar (listMove rtest (front ++ (.insn (p.invertTo l) :: ns ++ back)))
      (.at (ns ++ back)) (.at (skipToInsn back)) :=
    (silentStar_append rtest hns _).trans (silentStar_skipToInsn _ _ _)
  have hp' : (p.invertTo l).insnId.isBranch = true := InsnId.isBranch_invert _
  have hlp' := Insn.invertTo_target hlp l
  have htakes : ∀ b, (p.invertTo l).insnId.takes b = !p.insnId.takes b := InsnId.takes_invert hp
  apply sameMeaning_of_replace hpiece hpiece'
  · refine .of_matches .refl .refl
      (.act (listMove_branch hp hlp) (listMove_branch hp' hlp') (fun _ => rfl) ?_)
    intro r
    cases ht : p.insnId.takes (rtest r.value)
    · simp only [htakes, ht, Bool.not_false, if_true, if_false, Bool.false_eq_true]
      exact ⟨_, _, hfall, .refl, replaced_enter hpiece hpiece' l⟩
    · simp only [htakes, ht, Bool.not_true, if_true, if_false, Bool.false_eq_true]
      exact ⟨_, _, hent, hfall', .behind hskip⟩
  · refine .of_matches .refl .refl
      (.act (listMove_branch hp' hlp') (listMove_branch hp hlp) (fun _ => rfl) ?_)
    intro r
    cases ht : p.insnId.takes (rtest r.value)
    · simp only [htakes, ht, Bool.not_false, if_true, if_false, Bool.false_eq_true]
      exact ⟨_, _, .refl, hfall, replaced_enter hpiece' hpiece l⟩
    · simp only [htakes, ht, Bool.not_true, if_true, if_false, Bool.false_eq_true]
      exact ⟨_, _, hfall', hent, .behind hskip⟩

end Rewrites

/-! ## The lists the pass is given -/

/-- Is it a jump or a branch? -/
def Insn.IsControl (i : Insn V) : Prop := i.insnId = .jump ∨ i.insnId.isBranch = true

/-- The lists the pass is given: the targets of jumps and branches are labels of the list, it ends
with `leave`, so that an instruction follows every label, and it has no stack adjustments. -/
structure WellFormed (es : List (Elem V)) : Prop where
  target : ∀ i, .insn i ∈ es → i.IsControl → ∃ l, i.target = .ok l ∧ l ∈ labelsOf es
  leave : ∃ i, es.getLast? = some (.insn i) ∧ i.insnId = .leave
  noAdjust : ∀ l n, .adjust l n ∉ es

theorem Insn.IsControl.ne_leave {i : Insn V} (h : i.IsControl) : i.insnId ≠ .leave := by
  intro hi
  simp [Insn.IsControl, hi, InsnId.isBranch] at h

/-- Something stands behind a jump or branch. -/
theorem WellFormed.ne_nil {front back : List (Elem V)} {i : Insn V}
    (h : WellFormed (front ++ .insn i :: back)) (hi : i.IsControl) : back ≠ [] := by
  rintro rfl
  obtain ⟨j, hlast, hj⟩ := h.leave
  obtain rfl : i = j := by simpa using hlast
  exact hi.ne_leave hj

/-- A list stays well formed when a piece of it is replaced by one with the same labels. -/
theorem WellFormed.replace {front back : List (Elem V)} (piece piece' : List (Elem V))
    (h : WellFormed (front ++ (piece ++ back))) (hback : back ≠ [])
    (hlabels : labelsOf piece' = labelsOf piece) (hadjust : ∀ l n, .adjust l n ∉ piece')
    (hnew : ∀ i, .insn i ∈ piece' → i.IsControl →
      ∃ l, i.target = .ok l ∧ l ∈ labelsOf (front ++ (piece ++ back))) :
    WellFormed (front ++ (piece' ++ back)) := by
  have hall : labelsOf (front ++ (piece' ++ back)) = labelsOf (front ++ (piece ++ back)) := by
    simp [hlabels]
  refine ⟨?_, ?_, ?_⟩
  · intro i hi hctl
    rw [hall]
    rcases List.mem_append.mp hi with hf | hpb
    · exact h.target i (List.mem_append_left _ hf) hctl
    · rcases List.mem_append.mp hpb with hp | hb
      · exact hnew i hp hctl
      · exact h.target i (List.mem_append_right _ (List.mem_append_right _ hb)) hctl
  · simpa [List.getLast?_append_of_ne_nil, hback] using h.leave
  · intro l n hmem
    have hno := h.noAdjust l n
    simp only [List.mem_append, not_or] at hmem hno
    rcases hmem with hf | hp | hb
    · exact hno.1 hf
    · exact hadjust l n hp
    · exact hno.2.2 hb

/-! ## The walk -/

variable (rtest)

/-- What holds when a rewrite applies to the jump `iobj`. -/
def JumpRewrite.Applies (before : List (Elem V)) (iobj : Insn V) (rest : List (Elem V))
    (l : Label) :
    JumpRewrite V → Prop
  | .remove => getDestinationInsn (before.reverse ++ .insn iobj :: rest) l = skipToInsn rest
  | .again l' => ∃ d k, getDestinationInsn (before.reverse ++ .insn iobj :: rest) l = .insn d :: k ∧
      d.insnId = .jump ∧ d.target = .ok l'
  | .leave d => ∃ k, getDestinationInsn (before.reverse ++ .insn iobj :: rest) l = .insn d :: k ∧
      d.insnId = .leave
  | .invert p front => getPrevInsn before = .insn p :: front ∧ p.insnId.isBranch = true ∧
      ∃ lp, p.target = .ok lp ∧
        getDestinationInsn (before.reverse ++ .insn iobj :: rest) lp = skipToInsn rest
  | .keep => True

theorem insnAt_eq_ok {es : List (Elem V)} {i : Insn V} (h : insnAt es = .ok i) :
    ∃ k, es = .insn i :: k := by
  unfold insnAt at h
  split at h
  · obtain rfl := Except.ok.inj h
    exact ⟨_, rfl⟩
  · cases h

/-- **When each rewrite applies.** -/
theorem jumpRewrite_applies {before rest : List (Elem V)} {iobj : Insn V} {r : JumpRewrite V}
    (h : jumpRewrite before iobj rest = .ok r) :
    ∃ l, iobj.target = .ok l ∧ r.Applies before iobj rest l := by
  have hnext : skipToInsn rest <:+ before.reverse ++ .insn iobj :: rest :=
    (skipToInsn_suffix rest).trans
      ((List.suffix_cons _ rest).trans (List.suffix_append _ _))
  have heq : ∀ l, (getDestinationInsn (before.reverse ++ .insn iobj :: rest) l).length =
      (getNextInsn rest).length →
      getDestinationInsn (before.reverse ++ .insn iobj :: rest) l = skipToInsn rest :=
    fun l => eq_of_suffix_of_length_eq (getDestinationInsn_suffix _ l) hnext
  simp only [jumpRewrite, Result.bind_eq_ok] at h
  obtain ⟨l, hl, h⟩ := h
  refine ⟨l, hl, ?_⟩
  split at h
  · rename_i hlen
    cases h
    exact heq l hlen
  · obtain ⟨d, hd, h⟩ := Result.bind_eq_ok.mp h
    obtain ⟨k, hk⟩ := insnAt_eq_ok hd
    split at h
    · rename_i hjump
      obtain ⟨l', hl', h⟩ := Result.bind_eq_ok.mp h
      split at h
      · cases h
        exact ⟨d, k, hk, hjump.2, hl'⟩
      · cases h
        trivial
    · split at h
      · rename_i hleave
        cases h
        exact ⟨k, hk, hleave⟩
      · split at h
        · cases h
          trivial
        · rename_i piobj front hprev
          obtain ⟨p, hp, hbranch⟩ := Result.bind_eq_ok.mp h
          obtain ⟨_, hp⟩ := insnAt_eq_ok hp
          obtain ⟨rfl, -⟩ := List.cons_eq_cons.mp hp
          split at hbranch
          · rename_i hb
            obtain ⟨lp, hlp, hover⟩ := Result.bind_eq_ok.mp hbranch
            split at hover
            · rename_i hlen
              cases hover
              exact ⟨hprev, hb, lp, hlp, heq lp hlen⟩
            · cases hover
              trivial
          · cases hbranch
            trivial

/-- The second list is as well formed as the first, and if `C` holds it means the same. -/
def Keeps (rtest : V → Bool) (C : Prop) (es es' : List (Elem V)) : Prop :=
  WellFormed es' ∧ (C → SameMeaning rtest es es')

theorem before_split {before : List (Elem V)} {p : Insn V} {front : List (Elem V)}
    (h : getPrevInsn before = .insn p :: front) :
    before = sincePrevInsn before ++ .insn p :: front := by
  rw [← h, getPrevInsn, skipToInsn, sincePrevInsn, List.takeWhile_append_dropWhile]

theorem sincePrevInsn_isInsn {before : List (Elem V)} {e : Elem V} (h : e ∈ sincePrevInsn before) :
    e.isInsn = false := by
  simpa using List.mem_takeWhile_imp h

section Steps

variable {before rest : List (Elem V)} {iobj : Insn V} {l : Label}

/-- The jump or branch at which the walk stands has a label of the list as its target. -/
theorem WellFormed.mem_labelsOf (hwf : WellFormed (before.reverse ++ .insn iobj :: rest))
    (hi : iobj.IsControl) (hl : iobj.target = .ok l) :
    l ∈ labelsOf (before.reverse ++ .insn iobj :: rest) := by
  obtain ⟨l', hl', hmem⟩ := hwf.target iobj (by simp) hi
  obtain rfl : l = l' := by simpa [hl] using hl'
  exact hmem

/-- The inversion of a branch over a jump, seen from the jump. -/
theorem keeps_invert {p : Insn V} {front : List (Elem V)}
    (hwf : WellFormed (before.reverse ++ .insn iobj :: rest)) (hi : iobj.insnId = .jump)
    (hl : iobj.target = .ok l)
    (happ : (JumpRewrite.invert p front).Applies before iobj rest l) :
    Keeps rtest (labelsOf (sincePrevInsn before) = []) (before.reverse ++ .insn iobj :: rest)
      ((sincePrevInsn before ++ .insn (p.invertTo l) :: front).reverse ++ rest) := by
  have hmem := hwf.mem_labelsOf (.inl hi) hl
  have hrest : rest ≠ [] := hwf.ne_nil (.inl hi)
  obtain ⟨hprev, hp, lp, hlp, hdest⟩ := happ
  have hns : ∀ e ∈ (sincePrevInsn before).reverse, e.isInsn = false :=
    fun e he => sincePrevInsn_isInsn (List.mem_reverse.mp he)
  have hold : before.reverse ++ .insn iobj :: rest = front.reverse ++
      (.insn p :: ((sincePrevInsn before).reverse ++ [.insn iobj]) ++ rest) := by
    nth_rewrite 1 [before_split hprev]
    simp
  have hnew : (sincePrevInsn before ++ .insn (p.invertTo l) :: front).reverse ++ rest =
      front.reverse ++ (.insn (p.invertTo l) :: (sincePrevInsn before).reverse ++ rest) := by
    simp
  rw [hold] at hwf hmem hdest
  rw [hold, hnew]
  constructor
  · apply hwf.replace _ _ hrest
    · simp
    · intro l n hin
      rcases List.mem_cons.mp hin with heq | hin
      · cases heq
      · exact absurd (hns _ hin) (by simp [Elem.isInsn])
    · intro i hmi hctl
      rcases List.mem_cons.mp hmi with heq | hin
      · obtain rfl := Elem.insn.inj heq
        exact ⟨l, Insn.invertTo_target hlp l, hmem⟩
      · exact absurd (hns _ hin) (by simp [Elem.isInsn])
  · intro hclean
    obtain ⟨lp', hlp', hmemp⟩ := hwf.target p (by simp) (.inr hp)
    obtain rfl : lp = lp' := by simpa [hlp] using hlp'
    have hlabels : labelsOf (sincePrevInsn before).reverse = [] := by
      simpa [labelsOf] using hclean
    exact sameMeaning_invert hp hlp hns hlabels hi hl hmemp hdest

/-- A jump or branch to a jump goes where that jump goes, and that is a label of the list. -/
theorem keeps_setTarget (hwf : WellFormed (before.reverse ++ .insn iobj :: rest))
    (hi : iobj.IsControl) (hl : iobj.target = .ok l) {d : Insn V} {k : List (Elem V)}
    (hdest : getDestinationInsn (before.reverse ++ .insn iobj :: rest) l = .insn d :: k)
    (hd : d.insnId = .jump) {l' : Label} (hl' : d.target = .ok l') :
    WellFormed (before.reverse ++ .insn (iobj.setTarget l') :: rest) ∧
      SameMeaning rtest (before.reverse ++ .insn iobj :: rest)
        (before.reverse ++ .insn (iobj.setTarget l') :: rest) := by
  refine ⟨?_, sameMeaning_setTarget hi hl hdest hd hl'⟩
  apply hwf.replace [.insn iobj] [.insn (iobj.setTarget l')] (hwf.ne_nil hi) rfl (by simp)
  intro i hmi hctl
  obtain rfl : i = iobj.setTarget l' := by simpa using hmi
  have hmemd : .insn d ∈ before.reverse ++ .insn iobj :: rest :=
    (getDestinationInsn_suffix _ l).subset (hdest ▸ List.mem_cons_self)
  obtain ⟨l'', hl'', hmem⟩ := hwf.target d hmemd (.inl hd)
  obtain rfl : l' = l'' := by simpa [hl'] using hl''
  exact ⟨l', Insn.setTarget_target hl l', hmem⟩

/-- **One step of the walk at a jump.** -/
theorem peepholeJump_keeps {fuel : ℕ} {before' : List (Elem V)}
    (h : peepholeJump fuel before iobj rest = .ok before') (hi : iobj.insnId = .jump)
    (hwf : WellFormed (before.reverse ++ .insn iobj :: rest)) :
    Keeps rtest (CleanJump fuel before iobj rest) (before.reverse ++ .insn iobj :: rest)
      (before'.reverse ++ rest) := by
  induction fuel generalizing iobj with
  | zero => cases h
  | succ fuel ih =>
      obtain ⟨r, hr, h⟩ := Result.bind_eq_ok.mp h
      obtain ⟨l, hl, happ⟩ := jumpRewrite_applies hr
      have hmem := hwf.mem_labelsOf (.inl hi) hl
      have hrest : rest ≠ [] := hwf.ne_nil (.inl hi)
      simp only [CleanJump, hr]
      cases r with
      | remove =>
          cases h
          refine ⟨hwf.replace [.insn iobj] [] hrest rfl (by simp) (by simp), fun _ => ?_⟩
          exact sameMeaning_remove hi hl hmem happ
      | again l' =>
          obtain ⟨d, k, hdest, hd, hl'⟩ := happ
          obtain ⟨hwf', hsame⟩ := keeps_setTarget rtest hwf (.inl hi) hl hdest hd hl'
          obtain ⟨hwf'', hsame'⟩ := ih h hi hwf'
          exact ⟨hwf'', fun hc => hsame.trans (hsame' hc)⟩
      | leave d =>
          obtain ⟨k, hdest, hd⟩ := happ
          cases h
          simp only [List.reverse_cons, List.append_assoc]
          refine ⟨?_, fun _ => sameMeaning_leave hi hl hdest hd⟩
          apply hwf.replace [.insn iobj]
            [.insn ⟨.leave, iobj.lineNo, d.operands⟩, .insn ⟨.pop, iobj.lineNo, []⟩] hrest rfl
              (by simp)
          intro i hmi hctl
          rcases List.mem_pair.mp hmi with heq | heq <;> obtain rfl := Elem.insn.inj heq <;>
            simp [Insn.IsControl, InsnId.isBranch] at hctl
      | invert p front =>
          obtain ⟨l', hl', h⟩ := Result.bind_eq_ok.mp h
          obtain rfl : l = l' := by simpa [hl] using hl'
          cases h
          exact keeps_invert rtest hwf hi hl happ
      | keep =>
          cases h
          simpa using ⟨hwf, fun _ => SameMeaning.refl _⟩

/-- **One step of the walk at a branch.** -/
theorem peepholeBranch_keeps {iobj' : Insn V}
    (h : peepholeBranch before iobj rest = .ok iobj') (hi : iobj.insnId.isBranch = true)
    (hwf : WellFormed (before.reverse ++ .insn iobj :: rest)) :
    WellFormed (before.reverse ++ .insn iobj' :: rest) ∧
      SameMeaning rtest (before.reverse ++ .insn iobj :: rest)
        (before.reverse ++ .insn iobj' :: rest) := by
  obtain ⟨l, hl, h⟩ := Result.bind_eq_ok.mp h
  obtain ⟨d, hd, h⟩ := Result.bind_eq_ok.mp h
  obtain ⟨k, hk⟩ := insnAt_eq_ok hd
  split at h
  · rename_i hjump
    obtain ⟨l', hl', h⟩ := Result.bind_eq_ok.mp h
    cases h
    exact keeps_setTarget rtest hwf (.inr hi) hl hk hjump hl'
  · cases h
    exact ⟨hwf, .refl _⟩

/-- **One step of the walk.** -/
theorem iseqPeepholeOptimize_keeps {fuel : ℕ} {before' : List (Elem V)}
    (h : iseqPeepholeOptimize false fuel before iobj rest = .ok before')
    (hwf : WellFormed (before.reverse ++ .insn iobj :: rest)) :
    Keeps rtest (iobj.insnId = .jump → CleanJump fuel before iobj rest)
      (before.reverse ++ .insn iobj :: rest) (before'.reverse ++ rest) := by
  unfold iseqPeepholeOptimize at h
  split at h
  · rename_i hi
    obtain ⟨hwf', hsame⟩ := peepholeJump_keeps rtest h hi hwf
    exact ⟨hwf', fun hc => hsame (hc hi)⟩
  · split at h
    · rename_i hi
      obtain ⟨iobj', hb, h⟩ := Result.bind_eq_ok.mp h
      obtain ⟨hwf', hsame⟩ := peepholeBranch_keeps rtest hb hi hwf
      cases h
      simpa using ⟨hwf', fun _ => hsame⟩
    · simp only [Bool.false_eq_true, false_and, if_false] at h
      cases h
      simpa using ⟨hwf, fun _ => SameMeaning.refl _⟩

/-- **The walk**, from any place of the list. -/
theorem iseqOptimize_keeps {fuel : ℕ} {back es' : List (Elem V)}
    (h : iseqOptimize false fuel before back = .ok es')
    (hwf : WellFormed (before.reverse ++ back)) :
    Keeps rtest (CleanWalk false fuel before back) (before.reverse ++ back) es' := by
  fun_induction iseqOptimize false fuel before back with
  | case1 before =>
      cases h
      rw [List.append_nil] at hwf ⊢
      exact ⟨hwf, fun _ => .refl _⟩
  | case2 before iobj rest ih =>
      obtain ⟨before', hb, h⟩ := Result.bind_eq_ok.mp h
      obtain ⟨hwf', hsame⟩ := iseqPeepholeOptimize_keeps rtest hb hwf
      obtain ⟨hwf'', hsame'⟩ := ih before' h hwf'
      refine ⟨hwf'', fun hc => ?_⟩
      simp only [CleanWalk, hb] at hc
      exact (hsame hc.1).trans (hsame' hc.2)
  | case3 before e rest hne ih =>
      have hc : CleanWalk false fuel before (e :: rest)
        = CleanWalk false fuel (e :: before) rest := by
        cases e with
        | insn i => exact absurd rfl (hne i)
        | _ => rfl
      rw [hc]
      simpa using ih h (by simpa using hwf)

end Steps

/-! ## The pass follows no null pointer -/

/-- The targets of jumps and branches are labels of the list, an instruction follows each of these,
and the list has no stack adjustments. -/
structure Targeted (es : List (Elem V)) : Prop where
  target : ∀ i, .insn i ∈ es → i.IsControl →
    ∃ l d k, i.target = .ok l ∧ getDestinationInsn es l = .insn d :: k
  noAdjust : ∀ l n, .adjust l n ∉ es

/-- An instruction follows every label of a list that ends with `leave`. -/
theorem WellFormed.getDestinationInsn {es : List (Elem V)} (hwf : WellFormed es) {l : Label}
    (hl : l ∈ labelsOf es) : ∃ d k, getDestinationInsn es l = .insn d :: k := by
  obtain ⟨i, hlast, -⟩ := hwf.leave
  cases hk : afterLabel l es with
  | none => exact absurd hl (afterLabel_eq_none.mp hk)
  | some k =>
      have hmem : .insn i ∈ k := by
        obtain ⟨pre, hpre⟩ := label_cons_afterLabel_suffix hk
        rw [← hpre, List.getLast?_append_of_ne_nil _ (by simp)] at hlast
        simpa using List.mem_of_getLast? hlast
      have hsub : ∀ e ∈ skipToInsn k, e ∈ es := by
        intro e he
        exact (afterLabel_suffix hk).subset ((skipToInsn_suffix k).subset he)
      cases hskip : skipToInsn k with
      | nil =>
          have hall := List.dropWhile_eq_nil_iff.mp hskip _ hmem
          simp [Elem.isInsn] at hall
      | cons e k' =>
          have he := isInsn_of_skipToInsn hskip
          cases e with
          | insn d => exact ⟨d, k', by simp [MacRuby.getDestinationInsn, hk, hskip]⟩
          | adjust l n => exact absurd (hsub _ (by simp [hskip])) (hwf.noAdjust l n)
          | label l => simp [Elem.isInsn] at he
          | none => simp [Elem.isInsn] at he

theorem WellFormed.targeted {es : List (Elem V)} (hwf : WellFormed es) : Targeted es := by
  refine ⟨fun i hi hctl => ?_, hwf.noAdjust⟩
  obtain ⟨l, hl, hmem⟩ := hwf.target i hi hctl
  obtain ⟨d, k, hdest⟩ := hwf.getDestinationInsn hmem
  exact ⟨l, d, k, hl, hdest⟩

section Defined

variable {before rest : List (Elem V)} {iobj : Insn V} {l : Label}

theorem pure_ne_error {α : Type} (a : α) (e : OptFault) : (pure a : Except OptFault α) ≠ .error e :=
  nofun

/-- The targets of jumps and branches can be read. -/
theorem Targeted.target_ne_error {es : List (Elem V)} (htg : Targeted es) {i : Insn V}
    (hmem : .insn i ∈ es) (hi : i.IsControl) (e : OptFault) : i.target ≠ .error e := by
  obtain ⟨l, -, -, hl, -⟩ := htg.target i hmem hi
  rw [hl]
  exact pure_ne_error l e

/-- The destination of a jump or branch is an instruction of the list. -/
theorem Targeted.destination {es : List (Elem V)} (htg : Targeted es) {i : Insn V}
    (hmem : .insn i ∈ es) (hi : i.IsControl) {l : Label} (hl : i.target = .ok l) :
    ∃ d k, getDestinationInsn es l = .insn d :: k ∧ .insn d ∈ es := by
  obtain ⟨l', d, k, hl', hdest⟩ := htg.target i hmem hi
  obtain rfl : l = l' := by simpa [hl] using hl'
  exact ⟨d, k, hdest, (getDestinationInsn_suffix _ l).subset (hdest ▸ List.mem_cons_self)⟩

/-- Replacing an instruction by others, or removing it where an instruction follows, leaves an
instruction at the destination of each label. -/
theorem destination_replace {front back piece : List (Elem V)} {i d : Insn V} {k : List (Elem V)}
    (hpiece : ∀ e ∈ piece, ∃ j, e = .insn j)
    (hnext : piece = [] → ∃ d k, skipToInsn back = .insn d :: k)
    (h : getDestinationInsn (front ++ .insn i :: back) l = .insn d :: k) :
    ∃ d' k', getDestinationInsn (front ++ (piece ++ back)) l = .insn d' :: k' := by
  rw [getDestinationInsn_insn] at h
  rw [getDestinationInsn_append]
  cases hl : afterLabel l front with
  | some a =>
      simp only [hl] at h ⊢
      cases ha : skipToInsn a with
      | cons e a' =>
          obtain rfl : e = .insn d := by simpa [ha] using congrArg List.head? h
          exact ⟨d, _, rfl⟩
      | nil =>
          cases piece with
          | nil => simpa using hnext rfl
          | cons e piece =>
              obtain ⟨j, rfl⟩ := hpiece e (by simp)
              exact ⟨j, _, rfl⟩
  | none =>
      simp only [hl] at h ⊢
      have hnone : afterLabel l piece = none := by
        refine afterLabel_eq_none.mpr fun hmem => ?_
        obtain ⟨j, hj⟩ := hpiece _ (mem_labelsOf.mp hmem)
        cases hj
      rw [getDestinationInsn_append, hnone]
      exact ⟨d, k, h⟩

/-- **A list stays as it should be when an instruction is replaced.** -/
theorem Targeted.replace {front back : List (Elem V)} {i : Insn V} (piece : List (Elem V))
    (h : Targeted (front ++ .insn i :: back)) (hpiece : ∀ e ∈ piece, ∃ j, e = .insn j)
    (hnext : piece = [] → ∃ d k, skipToInsn back = .insn d :: k)
    (hnew : ∀ j, .insn j ∈ piece → j.IsControl → ∃ l d k, j.target = .ok l ∧
      getDestinationInsn (front ++ .insn i :: back) l = .insn d :: k) :
    Targeted (front ++ (piece ++ back)) := by
  constructor
  · intro j hj hctl
    obtain ⟨l, d, k, hl, hdest⟩ : ∃ l d k, j.target = .ok l ∧
        getDestinationInsn (front ++ .insn i :: back) l = .insn d :: k := by
      simp only [List.mem_append] at hj
      rcases hj with hj | hj | hj
      · exact h.target j (by simp [hj]) hctl
      · exact hnew j hj hctl
      · exact h.target j (by simp [hj]) hctl
    obtain ⟨d', k', hdest'⟩ := destination_replace hpiece hnext hdest
    exact ⟨l, d', k', hl, hdest'⟩
  · intro l n hmem
    simp only [List.mem_append] at hmem
    rcases hmem with hmem | hmem | hmem
    · exact h.noAdjust l n (by simp [hmem])
    · obtain ⟨j, hj⟩ := hpiece _ hmem
      cases hj
    · exact h.noAdjust l n (by simp [hmem])

/-- A jump or branch to a jump may go where that jump goes. -/
theorem Targeted.setTarget (htg : Targeted (before.reverse ++ .insn iobj :: rest))
    (hl : iobj.target = .ok l) {d : Insn V} {k : List (Elem V)}
    (hdest : getDestinationInsn (before.reverse ++ .insn iobj :: rest) l = .insn d :: k)
    (hd : d.insnId = .jump) {l' : Label} (hl' : d.target = .ok l') :
    Targeted (before.reverse ++ .insn (iobj.setTarget l') :: rest) := by
  have hmemd : .insn d ∈ before.reverse ++ .insn iobj :: rest :=
    (getDestinationInsn_suffix _ l).subset (hdest ▸ List.mem_cons_self)
  obtain ⟨d', k', hdest', -⟩ := htg.destination hmemd (.inl hd) hl'
  refine htg.replace [.insn (iobj.setTarget l')] (by simp) (by simp) ?_
  intro j hj _
  obtain rfl : j = iobj.setTarget l' := by simpa using hj
  exact ⟨l', d', k', Insn.setTarget_target hl l', hdest'⟩

/-- Nothing undefined is read to choose the rewrite of a jump. -/
theorem jumpRewrite_ne_error (htg : Targeted (before.reverse ++ .insn iobj :: rest))
    (hi : iobj.insnId = .jump) (e : OptFault) : jumpRewrite before iobj rest ≠ .error e := by
  have hself : .insn iobj ∈ before.reverse ++ .insn iobj :: rest := by simp
  apply Result.bind_ne_error (htg.target_ne_error hself (.inl hi) e)
  intro l hl
  obtain ⟨d, k, hdest, hmemd⟩ := htg.destination hself (.inl hi) hl
  simp only [hdest, insnAt]
  split
  · exact pure_ne_error _ e
  apply Result.bind_ne_error (pure_ne_error d e)
  rintro _ ⟨⟩
  split
  · rename_i hjump
    apply Result.bind_ne_error (htg.target_ne_error hmemd (.inl hjump.2) e)
    intro l' _
    split <;> exact pure_ne_error _ e
  · split
    · exact pure_ne_error _ e
    · split
      · exact pure_ne_error _ e
      · rename_i piobj front hprev
        rw [getPrevInsn] at hprev
        have hmemp : piobj ∈ before := (skipToInsn_suffix before).subset (by simp [hprev])
        have hinsn := isInsn_of_skipToInsn hprev
        cases piobj with
        | insn p =>
            apply Result.bind_ne_error (pure_ne_error p e)
            rintro _ ⟨⟩
            split
            · rename_i hp
              apply Result.bind_ne_error (htg.target_ne_error (by simp [hmemp]) (.inr hp) e)
              intro lp _
              split <;> exact pure_ne_error _ e
            · exact pure_ne_error _ e
        | adjust l n => exact absurd (by simp [hmemp]) (htg.noAdjust l n)
        | label l => simp [Elem.isInsn] at hinsn
        | none => simp [Elem.isInsn] at hinsn

/-- A jump is rewritten unless the `again` loop goes on for ever. -/
theorem peepholeJump_ne_undefined {fuel : ℕ}
    (htg : Targeted (before.reverse ++ .insn iobj :: rest)) (hi : iobj.insnId = .jump) :
    peepholeJump fuel before iobj rest ≠ .error .undefined := by
  induction fuel generalizing iobj with
  | zero => exact nofun
  | succ fuel ih =>
      apply Result.bind_ne_error (jumpRewrite_ne_error htg hi _)
      intro r hr
      obtain ⟨l, hl, happ⟩ := jumpRewrite_applies hr
      cases r with
      | again l' =>
          obtain ⟨d, k, hdest, hd, hl'⟩ := happ
          exact ih (htg.setTarget hl hdest hd hl') hi
      | invert p front =>
          apply Result.bind_ne_error (htg.target_ne_error (by simp) (.inl hi) _)
          intro _ _
          exact pure_ne_error _ _
      | remove => exact pure_ne_error _ _
      | leave d => exact pure_ne_error _ _
      | keep => exact pure_ne_error _ _

/-- A branch inverted over a jump. -/
theorem Targeted.invert {p : Insn V} {front : List (Elem V)}
    (htg : Targeted (before.reverse ++ .insn iobj :: rest)) (hi : iobj.insnId = .jump)
    (hl : iobj.target = .ok l) (happ : (JumpRewrite.invert p front).Applies before iobj rest l) :
    Targeted ((sincePrevInsn before ++ .insn (p.invertTo l) :: front).reverse ++ rest) := by
  obtain ⟨hprev, hp, lp, hlp, hdest⟩ := happ
  have hself := htg.destination (by simp) (.inl hi) hl
  have hold : before.reverse ++ .insn iobj :: rest = front.reverse ++
      .insn p :: ((sincePrevInsn before).reverse ++ .insn iobj :: rest) := by
    nth_rewrite 1 [before_split hprev]
    simp
  have hnew : (sincePrevInsn before ++ .insn (p.invertTo l) :: front).reverse ++ rest =
      (front.reverse ++ .insn (p.invertTo l) :: (sincePrevInsn before).reverse) ++
        ([] ++ rest) := by
    simp
  obtain ⟨dp, kp, hdp, -⟩ := htg.destination (i := p) (by rw [hold]; simp) (.inr hp) hlp
  rw [hdp] at hdest
  rw [hold] at htg hself
  have hbranch := htg.replace [.insn (p.invertTo l)] (by simp) (by simp) (by
    intro j hj _
    obtain rfl : j = p.invertTo l := by simpa using hj
    obtain ⟨d, k, hd, -⟩ := hself
    exact ⟨l, d, k, Insn.invertTo_target hlp l, hd⟩)
  rw [hnew]
  refine Targeted.replace (i := iobj) [] ?_ (by simp) (fun _ => ⟨dp, kp, hdest.symm⟩) (by simp)
  simpa using hbranch

/-- **One step of the walk at a jump** leaves a list as it should be. -/
theorem peepholeJump_targeted {fuel : ℕ} {before' : List (Elem V)}
    (h : peepholeJump fuel before iobj rest = .ok before') (hi : iobj.insnId = .jump)
    (htg : Targeted (before.reverse ++ .insn iobj :: rest)) :
    Targeted (before'.reverse ++ rest) := by
  induction fuel generalizing iobj with
  | zero => cases h
  | succ fuel ih =>
      obtain ⟨r, hr, h⟩ := Result.bind_eq_ok.mp h
      obtain ⟨l, hl, happ⟩ := jumpRewrite_applies hr
      cases r with
      | remove =>
          cases h
          obtain ⟨d, k, hdest, -⟩ := htg.destination (by simp) (.inl hi) hl
          exact htg.replace [] (by simp) (fun _ => ⟨d, k, happ.symm.trans hdest⟩) (by simp)
      | again l' =>
          obtain ⟨d, k, hdest, hd, hl'⟩ := happ
          exact ih h hi (htg.setTarget hl hdest hd hl')
      | leave d =>
          cases h
          simp only [List.reverse_cons, List.append_assoc]
          refine htg.replace [.insn ⟨.leave, iobj.lineNo, d.operands⟩,
            .insn ⟨.pop, iobj.lineNo, []⟩]
            (by simp) (by simp) ?_
          intro i hmi hctl
          rcases List.mem_pair.mp hmi with heq | heq <;> obtain rfl := Elem.insn.inj heq <;>
            simp [Insn.IsControl, InsnId.isBranch] at hctl
      | invert p front =>
          obtain ⟨l', hl', h⟩ := Result.bind_eq_ok.mp h
          obtain rfl : l = l' := by simpa [hl] using hl'
          cases h
          exact htg.invert hi hl happ
      | keep =>
          cases h
          simpa using htg

/-- **One step of the walk** leaves a list as it should be. -/
theorem iseqPeepholeOptimize_targeted {fuel : ℕ} {before' : List (Elem V)}
    (h : iseqPeepholeOptimize false fuel before iobj rest = .ok before')
    (htg : Targeted (before.reverse ++ .insn iobj :: rest)) :
    Targeted (before'.reverse ++ rest) := by
  unfold iseqPeepholeOptimize at h
  split_ifs at h with hi hb
  · exact peepholeJump_targeted h hi htg
  · obtain ⟨iobj', hbranch, h⟩ := Result.bind_eq_ok.mp h
    obtain ⟨l, hl, hbranch⟩ := Result.bind_eq_ok.mp hbranch
    obtain ⟨d, hd, hbranch⟩ := Result.bind_eq_ok.mp hbranch
    obtain ⟨k, hk⟩ := insnAt_eq_ok hd
    cases h
    rw [List.reverse_cons, List.append_assoc, List.singleton_append]
    split_ifs at hbranch with hjump
    · obtain ⟨l', hl', hbranch⟩ := Result.bind_eq_ok.mp hbranch
      cases hbranch
      exact htg.setTarget hl hk hjump hl'
    · cases hbranch
      exact htg
  · simp at *
  · cases h
    simpa using htg

theorem iseqPeepholeOptimize_ne_undefined {fuel : ℕ}
    (htg : Targeted (before.reverse ++ .insn iobj :: rest)) :
    iseqPeepholeOptimize false fuel before iobj rest ≠ .error .undefined := by
  unfold iseqPeepholeOptimize
  split
  · rename_i hi
    exact peepholeJump_ne_undefined htg hi
  · split
    · rename_i hi
      refine Result.bind_ne_error ?_ fun _ _ => pure_ne_error _ _
      apply Result.bind_ne_error (htg.target_ne_error (by simp) (.inr hi) _)
      intro l hl
      obtain ⟨d, k, hdest, hmemd⟩ := htg.destination (by simp) (.inr hi) hl
      rw [hdest]
      apply Result.bind_ne_error (pure_ne_error d _)
      rintro _ ⟨⟩
      split
      · rename_i hjump
        exact Result.bind_ne_error (htg.target_ne_error hmemd (.inl hjump) _)
          fun _ _ => pure_ne_error _ _
      · exact pure_ne_error _ _
    · simpa using pure_ne_error _ _

/-- **The pass has a result unless an `again` loop goes on for ever.** -/
theorem iseqOptimize_ne_undefined (fuel : ℕ) (before back : List (Elem V))
    (htg : Targeted (before.reverse ++ back)) :
    iseqOptimize false fuel before back ≠ .error .undefined := by
  fun_induction iseqOptimize false fuel before back with
  | case1 before => exact nofun
  | case2 before iobj rest ih =>
      apply Result.bind_ne_error (iseqPeepholeOptimize_ne_undefined htg)
      intro before' hb
      exact ih before' (iseqPeepholeOptimize_targeted hb htg)
  | case3 before e rest hne ih => exact ih (by simpa using htg)

end Defined

/-! ## The meaning of the optimised list -/

/-- **The optimised list means the same, if no step of the walk inverts a branch over a jump behind
a label.** -/
theorem iseqOptimize_sameMeaning (rtest : V → Bool) (anchor : Anchor V) (fuel : ℕ)
    (hwf : WellFormed anchor.elems)
    (hterm : iseqOptimize false fuel [] anchor.elems ≠ .error .diverges)
    (hclean : CleanWalk false fuel [] anchor.elems) :
    ∃ es', iseqOptimize false fuel [] anchor.elems = .ok es' ∧
      SameMeaning rtest anchor.elems es' := by
  have hdef := iseqOptimize_ne_undefined fuel [] _ hwf.targeted
  cases h : iseqOptimize false fuel [] anchor.elems with
  | error e =>
      cases e with
      | undefined => exact absurd h hdef
      | diverges => exact absurd h hterm
  | ok es' => exact ⟨es', rfl, (iseqOptimize_keeps rtest h hwf).2 hclean⟩

/-- `branchif L1; …: jump L2; L1: putnil; leave; L2: putself; leave`, with labels of the caller's
before the jump. -/
def branchOverJump (entries : List Label) : List (Elem Bool) :=
  (.insn ⟨.branchif, 1, [.label 1]⟩ :: entries.map .label) ++
    [.insn ⟨.jump, 1, [.label 2]⟩, .label 1, .insn ⟨.putnil, 2, []⟩, .insn ⟨.leave, 2, []⟩,
      .label 2, .insn ⟨.putself, 3, []⟩, .insn ⟨.leave, 3, []⟩]

theorem wellFormed_branchOverJump (entries : List Label) : WellFormed (branchOverJump entries) := by
  refine ⟨?_, ⟨⟨.leave, 3, []⟩, ?_, rfl⟩, ?_⟩
  · intro i hi hctl
    simp [branchOverJump] at hi
    rcases hi with rfl | rfl | rfl | rfl | rfl | rfl
    · exact ⟨1, rfl, by simp [branchOverJump, mem_labelsOf]⟩
    · exact ⟨2, rfl, by simp [branchOverJump, mem_labelsOf]⟩
    all_goals simp [Insn.IsControl, InsnId.isBranch] at hctl
  · rw [branchOverJump, List.getLast?_append_of_ne_nil _ (by simp)]
    rfl
  · intro l n hmem
    simp [branchOverJump] at hmem

theorem iseqOptimize_sameMeaning_branchOverJump :
    ∃ es', iseqOptimize false 1 [] (branchOverJump []) = .ok es' ∧
      SameMeaning id (branchOverJump []) es' :=
  iseqOptimize_sameMeaning id ⟨branchOverJump [], by decide⟩ 1 (wellFormed_branchOverJump []) nofun
    ⟨nofun, fun _ => rfl, nofun, nofun, nofun, nofun, trivial⟩

/-- Entered at the label before the jump, the optimised list runs into the branch's target. -/
theorem not_sameMeaning_branchOverJump :
    ¬ ∀ (anchor : Anchor Bool) (fuel : ℕ), WellFormed anchor.elems →
      iseqOptimize false fuel [] anchor.elems ≠ .error .diverges →
      ∃ es', iseqOptimize false fuel [] anchor.elems = .ok es' ∧
        SameMeaning id anchor.elems es' := by
  intro hall
  obtain ⟨es', hes', hsame⟩ := hall ⟨branchOverJump [3], by decide⟩ 1
    (wellFormed_branchOverJump [3]) nofun
  obtain rfl := Except.ok.inj hes'
  obtain ⟨n, hn⟩ := ((hsame fun _ => ⟨true, none⟩).2 3).le ⟨4, rfl⟩
  have hfirst := congrArg (fun seen => seen.1.head?) hn
  rcases n with _ | _ | n
  · cases hfirst
  · cases hfirst
  · cases hfirst

end MacRuby
