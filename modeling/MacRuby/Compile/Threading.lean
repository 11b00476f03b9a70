import MacRuby.Compile.Condition
import MacRuby.Lib.Follow
import MacRuby.Lib.Fuel

/-!
# When the peephole optimiser terminates

The optimiser sends a jump to a jump on to where that one goes, and looks again. It stops at the
jump itself, at the instruction next to it, and where the label does not change, and that is not
enough: two other jumps that go to one another keep it busy for ever. The walk goes from the first
instruction to the last, and a jump it has passed leads nowhere that it could be caught, so what
matters is only what stands behind a jump when the walk comes to it, which is what stood there from
the beginning.

## Main definitions

* `Targeted` — the lists the pass is given.
* `threadBehind` — one turn of the loop, among the elements behind the jump.
* `Threads` — no jump is caught in what stands behind it.

## Main results

* `iseqOptimize_terminates_iff` — the pass ends exactly then.
-/

namespace MacRuby

open Follow

variable {V : Type}

/-! ## Destinations -/

theorem length_getDestinationInsn_le (es : List (Elem V)) (l : Label) :
    (getDestinationInsn es l).length ≤ es.length :=
  (getDestinationInsn_suffix es l).length_le

theorem length_getNextInsn_le (es : List (Elem V)) : (getNextInsn es).length ≤ es.length :=
  (skipToInsn_suffix es).length_le

/-! ## One turn of the loop -/

/-- The label to go on with from `l` when its destination is a jump, unless that is the element
with `n` elements from it to the end. -/
def threadAt (n : ℕ) (l : Label) : List (Elem V) → Option Label
  | .insn d :: k =>
      if k.length + 1 = n ∨ d.insnId ≠ .jump then none
      else
        match d.target with
        | .ok l' => if l = l' then none else some l'
        | .error _ => none
  | _ => none

/-- One turn of the loop, which stops at that element. -/
def thread (n : ℕ) (es : List (Elem V)) (l : Label) : Option Label :=
  threadAt n l (getDestinationInsn es l)

/-- One turn of the loop for a jump, among the elements behind it: it stops at the next
instruction. -/
def threadBehind (rest : List (Elem V)) : Label → Option Label :=
  thread (getNextInsn rest).length rest

/-- One turn of the loop for the jump `iobj`. -/
def again (before : List (Elem V)) (iobj : Insn V) (rest : List (Elem V)) (l : Label) :
    Option Label :=
  let es := before.reverse ++ .insn iobj :: rest
  if (getDestinationInsn es l).length = (getNextInsn rest).length then none
  else thread (rest.length + 1) es l

/-- No jump is caught in what stands behind it. -/
def Threads (es : List (Elem V)) : Prop :=
  ∀ front i rest l, es = front ++ .insn i :: rest → i.insnId = .jump → i.target = .ok l →
    Halts (threadBehind rest) l

variable {before rest : List (Elem V)} {iobj : Insn V} {l l' : Label}

/-- What is looked at next does not depend on where the jump goes. -/
theorem again_setTarget (before : List (Elem V)) (iobj : Insn V) (rest : List (Elem V))
    (l : Label) :
    again before (iobj.setTarget l) rest = again before iobj rest := by
  ext1 l'
  have hnext := length_getNextInsn_le rest
  simp only [again, thread, getDestinationInsn_insn]
  cases afterLabel l' before.reverse with
  | none => rfl
  | some a =>
      cases ha : skipToInsn a with
      | nil => simp [ha, threadAt]
      | cons e k =>
          cases e <;> simp [ha, threadAt]

/-- A turn is a rewrite of the jump. -/
theorem jumpRewrite_again_iff (hl : iobj.target = .ok l) :
    jumpRewrite before iobj rest = .ok (.again l') ↔ again before iobj rest l = some l' := by
  simp only [jumpRewrite, again, thread, hl, Result.ok_bind]
  by_cases hnext : (getDestinationInsn (before.reverse ++ .insn iobj :: rest) l).length
      = (getNextInsn rest).length
  · simp [hnext, pure, Except.pure]
  · simp only [if_neg hnext]
    cases hdest : getDestinationInsn (before.reverse ++ .insn iobj :: rest) l with
    | nil => simp [insnAt, threadAt, bind, Except.bind]
    | cons e k =>
        cases e with
        | insn d =>
            simp only [insnAt, Result.ok_bind, threadAt, List.length_cons]
            by_cases hself : k.length + 1 = rest.length + 1 ∨ d.insnId ≠ .jump
            · have hnot : ¬ (k.length + 1 ≠ rest.length + 1 ∧ d.insnId = .jump) := by tauto
              rw [if_neg hnot, if_pos hself]
              refine iff_of_false ?_ (by simp)
              intro h
              split_ifs at h
              · cases h
              · split at h
                · cases h
                · obtain ⟨p, -, h⟩ := Result.bind_eq_ok.mp h
                  split_ifs at h
                  · obtain ⟨lp, -, h⟩ := Result.bind_eq_ok.mp h
                    split_ifs at h <;> cases h
                  · cases h
            · have hjump : k.length + 1 ≠ rest.length + 1 ∧ d.insnId = .jump := by tauto
              rw [if_pos hjump, if_neg hself]
              cases ht : d.target with
              | error e => simp [bind, Except.bind]
              | ok l'' =>
                  simp only [Result.ok_bind]
                  by_cases hne : l = l'' <;> simp [hne, pure, Except.pure]
        | _ => simp [insnAt, threadAt, bind, Except.bind]

/-! ## The loop of one jump -/

/-- A jump that is caught keeps the loop busy whatever fuel it has. -/
theorem peepholeJump_diverges (hl : iobj.target = .ok l) (h : ¬ Halts (again before iobj rest) l)
    (fuel : ℕ) : peepholeJump fuel before iobj rest = .error .diverges := by
  induction fuel generalizing iobj l with
  | zero => rfl
  | succ fuel ih =>
      cases hnext : again before iobj rest l with
      | none => exact absurd (.stop hnext) h
      | some l' =>
          rw [peepholeJump, (jumpRewrite_again_iff hl).mpr hnext, Result.ok_bind]
          refine ih (Insn.setTarget_target hl l') ?_
          rwa [again_setTarget, ← halts_iff_of_eq_some hnext]

/-- Otherwise the jump is rewritten. -/
theorem peepholeJump_settles (hi : iobj.insnId = .jump) (hl : iobj.target = .ok l)
    (htg : Targeted (before.reverse ++ .insn iobj :: rest)) (h : Halts (again before iobj rest) l) :
    ∃ before', Fuel.Settles (fun n => peepholeJump n before iobj rest) (.ok before') := by
  generalize hf : again before iobj rest = f at h
  induction h generalizing iobj with
  | @stop l hstop =>
      -- the last turn does not look at the fuel
      obtain ⟨before', hlast⟩ : ∃ before', ∀ n, peepholeJump (n + 1) before iobj rest
        = .ok before' := by
        cases hr : jumpRewrite before iobj rest with
        | error e => exact absurd hr (jumpRewrite_ne_error htg hi e)
        | ok r =>
            cases r with
            | again l' =>
                rw [jumpRewrite_again_iff hl, hf, hstop] at hr
                cases hr
            | remove => exact ⟨_, fun n => by rw [peepholeJump, hr]; rfl⟩
            | leave d => exact ⟨_, fun n => by rw [peepholeJump, hr]; rfl⟩
            | invert p front => exact ⟨_, fun n => by rw [peepholeJump, hr, hl]; rfl⟩
            | keep => exact ⟨_, fun n => by rw [peepholeJump, hr]; rfl⟩
      refine ⟨before', 1, fun n hn => ?_⟩
      obtain ⟨n, rfl⟩ : ∃ n', n = n' + 1 := ⟨n - 1, by omega⟩
      exact hlast n
  | @step l l' hstep _ ih =>
      have hagain := (jumpRewrite_again_iff hl).mpr (by rw [hf]; exact hstep)
      obtain ⟨_, hl'', d, k, hdest, hd, hl'⟩ := jumpRewrite_applies hagain
      obtain rfl := Except.ok.inj (hl.symm.trans hl'')
      have hi' : (iobj.setTarget l').insnId = .jump := hi
      obtain ⟨before', n, hn⟩ := ih hi' (Insn.setTarget_target hl l')
        (htg.setTarget hl hdest hd hl') (by rw [again_setTarget, hf])
      refine ⟨before', n + 1, fun m hm => ?_⟩
      obtain ⟨m, rfl⟩ : ∃ m', m = m' + 1 := ⟨m - 1, by omega⟩
      dsimp only
      rw [peepholeJump, hagain, Result.ok_bind]
      exact hn m (by omega)

/-! ## The jumps already passed -/

/-- From each jump that the walk has passed the loop would end, or come to the instruction at which
the walk stands. -/
def Passed (before back : List (Elem V)) : Prop :=
  ∀ i, .insn i ∈ before → i.insnId = .jump → ∀ l, i.target = .ok l →
    Halts (thread (skipToInsn back).length (before.reverse ++ back)) l

/-- The label stands right before the instruction that comes after `front`. -/
def LandsAfter (front : List (Elem V)) (l : Label) : Prop :=
  ∃ a, afterLabel l front = some a ∧ skipToInsn a = []

/-- A turn changes for the labels right before a replaced instruction only, but for the one that
stops at the next instruction. -/
theorem thread_replace (front : List (Elem V)) (i : Insn V) (back : List (Elem V))
    {piece : List (Elem V)} (hpiece : ∀ e ∈ piece, ∃ j, e = .insn j) (l : Label) :
    LandsAfter front l ∨
      thread (skipToInsn back).length (front ++ (piece ++ back)) l
        = thread (back.length + 1) (front ++ .insn i :: back) l ∨
      thread (skipToInsn back).length (front ++ (piece ++ back)) l = none := by
  have hle := (skipToInsn_suffix back).length_le
  rw [thread, thread, getDestinationInsn_insn, getDestinationInsn_append]
  cases ha : afterLabel l front with
  | some a =>
      cases hskip : skipToInsn a with
      | nil => exact .inl ⟨a, ha, hskip⟩
      | cons e k =>
          refine .inr (.inl ?_)
          cases e with
          | insn d =>
              have h1 : k.length + (piece.length + back.length) + 1 ≠ (skipToInsn back).length := by
                omega
              have h2 : k.length + (back.length + 1) ≠ back.length := by omega
              simp [hskip, threadAt, h1, h2]
          | _ => simp [hskip, threadAt]
  | none =>
      refine .inr ?_
      have hnone : afterLabel l piece = none := by
        refine afterLabel_eq_none.mpr fun hmem => ?_
        obtain ⟨j, hj⟩ := hpiece _ (mem_labelsOf.mp hmem)
        cases hj
      simp only [getDestinationInsn_append, hnone]
      have hback := length_getDestinationInsn_le back l
      cases hdest : getDestinationInsn back l with
      | nil => exact .inl rfl
      | cons e k =>
          rw [hdest, List.length_cons] at hback
          cases e with
          | insn d =>
              by_cases hn : k.length + 1 = (skipToInsn back).length
              · exact .inr (by simp [threadAt, hn])
              · have h1 : k.length ≠ back.length := by omega
                exact .inl (by simp [threadAt, hn, h1])
          | _ => exact .inl rfl

/-- **The walk passes an instruction**, whatever is put in its place. -/
theorem Passed.pass {i : Insn V} (piece : List (Elem V)) (h : Passed before (.insn i :: rest))
    (hpiece : ∀ e ∈ piece, ∃ j, e = .insn j)
    (hland : ∀ l, LandsAfter before.reverse l →
      Halts (thread (skipToInsn rest).length (before.reverse ++ (piece ++ rest))) l)
    (hnew : ∀ j, .insn j ∈ piece → j.insnId = .jump → ∀ l, j.target = .ok l →
      Halts (thread (skipToInsn rest).length (before.reverse ++ (piece ++ rest))) l) :
    Passed (piece.reverse ++ before) rest := by
  intro j hj hjump l hl
  have hcur : (piece.reverse ++ before).reverse ++ rest = before.reverse ++ (piece ++ rest) := by
    simp
  rw [hcur]
  rcases List.mem_append.mp hj with hj | hj
  · exact hnew j (List.mem_reverse.mp hj) hjump l hl
  · refine (h j hj hjump l hl).of_agree fun l' => ?_
    rcases thread_replace before.reverse i rest hpiece l' with hl' | heq | hnone
    · exact .inr (hland l' hl')
    · exact .inl heq
    · exact .inr (.stop hnone)

/-- Where a label lands when the instruction is removed: the loop would stop there. -/
theorem thread_removed (hl : LandsAfter before.reverse l) :
    thread (skipToInsn rest).length (before.reverse ++ ([] ++ rest)) l = none := by
  obtain ⟨a, ha, hskip⟩ := hl
  rw [thread, List.nil_append, getDestinationInsn_append]
  simp only [ha, hskip, if_true]
  cases h : skipToInsn rest with
  | nil => rfl
  | cons e k =>
      cases e <;> simp [threadAt]

/-- Where a label lands when an instruction is put in the place of another. -/
theorem thread_replaced {j : Insn V} {piece : List (Elem V)} {n : ℕ}
    (hl : LandsAfter before.reverse l) :
    thread n (before.reverse ++ (.insn j :: piece ++ rest)) l
      = threadAt n l (.insn j :: (piece ++ rest)) := by
  obtain ⟨a, ha, hskip⟩ := hl
  rw [thread, List.cons_append, getDestinationInsn_insn]
  simp [ha, hskip]

/-- The walk passes an instruction that is no jump, or is replaced by some that are none. -/
theorem Passed.other {i : Insn V} (h : Passed before (.insn i :: rest)) (piece : List (Elem V))
    (hne : piece ≠ []) (hpiece : ∀ e ∈ piece, ∃ j, e = .insn j ∧ j.insnId ≠ .jump) :
    Passed (piece.reverse ++ before) rest := by
  refine h.pass piece (fun e he => ?_) (fun l hl => .stop ?_) fun j hj hjump => ?_
  · obtain ⟨j, hj, -⟩ := hpiece e he
    exact ⟨j, hj⟩
  · cases piece with
    | nil => exact absurd rfl hne
    | cons e piece =>
        obtain ⟨j, rfl, hj⟩ := hpiece e (by simp)
        rw [thread_replaced hl]
        simp [threadAt, hj]
  · obtain ⟨j', hj', hnot⟩ := hpiece _ hj
    cases hj'
    exact absurd hjump hnot

/-- A jump is removed. -/
theorem Passed.remove {i : Insn V} (h : Passed before (.insn i :: rest)) : Passed before rest :=
  h.pass [] (by simp) (fun _ hl => .stop (thread_removed hl)) (by simp)

/-- A jump is kept when its loop has come to an end. -/
theorem Passed.keep (h : Passed before (.insn iobj :: rest)) (hl : iobj.target = .ok l)
    (hend : again before iobj rest l = none) : Passed (.insn iobj :: before) rest := by
  have hstop : thread (skipToInsn rest).length (before.reverse ++ ([.insn iobj] ++ rest)) l
    = none := by
    rw [List.singleton_append, thread, ← getNextInsn]
    simp only [again, thread] at hend
    have hsuffix := getDestinationInsn_suffix (before.reverse ++ .insn iobj :: rest) l
    cases hdest : getDestinationInsn (before.reverse ++ .insn iobj :: rest) l with
    | nil => rfl
    | cons e k =>
        cases e with
        | insn d =>
            rw [hdest] at hend hsuffix
            by_cases hnext : k.length + 1 = (getNextInsn rest).length
            · simp [threadAt, hnext]
            · rw [List.length_cons, if_neg hnext] at hend
              by_cases hself : k.length + 1 = rest.length + 1
              · -- the jump goes to itself
                have heq := eq_of_suffix_of_length_eq hsuffix (List.suffix_append _ _) hself
                cases heq
                simp [threadAt, hl]
              · have hself' : k.length ≠ rest.length := by omega
                simpa [threadAt, hnext, hself'] using hend
        | _ => rfl
  refine h.pass [.insn iobj] (by simp) (fun l' hl' => ?_) fun j hj _ l' hl' => ?_
  · rw [List.singleton_append] at hstop ⊢
    cases hnext : thread (skipToInsn rest).length (before.reverse ++ .insn iobj :: rest) l' with
    | none => exact .stop hnext
    | some l'' =>
        have heq := hnext
        rw [← List.singleton_append, thread_replaced hl'] at heq
        obtain rfl : l'' = l := by
          simp only [threadAt, hl] at heq
          split_ifs at heq
          exact (Option.some.inj heq).symm
        exact .step hnext (.stop hstop)
  · obtain rfl : j = iobj := by simpa using hj
    obtain rfl := Except.ok.inj (hl.symm.trans hl')
    exact .stop hstop

/-- A branch passed before becomes another one. -/
theorem Passed.branch {p p' : Insn V} {ns front : List (Elem V)} (hp : p.insnId ≠ .jump)
    (hp' : p'.insnId ≠ .jump) (h : Passed (ns ++ .insn p :: front) rest) :
    Passed (ns ++ .insn p' :: front) rest := by
  intro j hj hjump l hl
  have hmem : .insn j ∈ ns ++ .insn p :: front := by
    simp only [List.mem_append, List.mem_cons, Elem.insn.injEq] at hj ⊢
    rcases hj with hj | rfl | hj
    · exact .inl hj
    · exact absurd hjump hp'
    · exact .inr (.inr hj)
  refine (h j hmem hjump l hl).of_agree fun l' => .inl ?_
  have hcur : ∀ q : Insn V, (ns ++ .insn q :: front).reverse ++ rest
      = front.reverse ++ .insn q :: (ns.reverse ++ rest) := by simp
  rw [hcur, hcur, thread, thread, getDestinationInsn_insn, getDestinationInsn_insn]
  cases afterLabel l' front.reverse with
  | none => rfl
  | some a =>
      cases hskip : skipToInsn a with
      | nil => simp [hskip, threadAt, hp, hp']
      | cons e k => cases e <;> simp [hskip, threadAt]

theorem InsnId.ne_jump_of_isBranch {i : InsnId} (h : i.isBranch = true) : i ≠ .jump := by
  rintro rfl
  cases h

/-- What the jumps passed do does not depend on the instruction at which the walk stands. -/
theorem Passed.retarget {i : Insn V} (h : Passed before (.insn i :: rest)) (j : Insn V) :
    Passed before (.insn j :: rest) := by
  intro k hk hjump l hl
  refine (h k hk hjump l hl).of_agree fun l' => .inl ?_
  have hself : ∀ q : Insn V, skipToInsn (.insn q :: rest) = .insn q :: rest := fun _ => rfl
  rw [hself, hself, thread, thread, getDestinationInsn_insn, getDestinationInsn_insn]
  cases afterLabel l' before.reverse with
  | none => rfl
  | some a =>
      cases hskip : skipToInsn a with
      | nil => simp [hskip, threadAt]
      | cons e k => cases e <;> simp [hskip, threadAt]

/-- **The walk passes a jump.** -/
theorem peepholeJump_passed {fuel : ℕ} {before' : List (Elem V)}
    (h : peepholeJump fuel before iobj rest = .ok before')
    (hpass : Passed before (.insn iobj :: rest)) :
    Passed before' rest := by
  induction fuel generalizing iobj with
  | zero => cases h
  | succ fuel ih =>
      obtain ⟨r, hr, h⟩ := Result.bind_eq_ok.mp h
      obtain ⟨l, hl, happ⟩ := jumpRewrite_applies hr
      cases r with
      | remove =>
          cases h
          exact hpass.remove
      | again l' => exact ih h (hpass.retarget _)
      | leave d =>
          cases h
          refine hpass.other [.insn ⟨.leave, iobj.lineNo, d.operands⟩,
            .insn ⟨.pop, iobj.lineNo, []⟩]
            (by simp) ?_
          intro e he
          rcases List.mem_pair.mp he with rfl | rfl <;> exact ⟨_, rfl, by simp⟩
      | invert p front =>
          obtain ⟨l', hl', h⟩ := Result.bind_eq_ok.mp h
          cases h
          obtain ⟨hprev, hp, -⟩ := happ
          rw [before_split hprev] at hpass
          exact hpass.remove.branch (InsnId.ne_jump_of_isBranch hp)
            (InsnId.ne_jump_of_isBranch (InsnId.isBranch_invert p.insnId))
      | keep =>
          cases h
          refine hpass.keep hl ?_
          cases hagain : again before iobj rest l with
          | none => rfl
          | some l' =>
              rw [← jumpRewrite_again_iff hl, hr] at hagain
              cases hagain

/-- **The walk passes an instruction.** -/
theorem iseqPeepholeOptimize_passed {fuel : ℕ} {before' : List (Elem V)}
    (h : iseqPeepholeOptimize false fuel before iobj rest = .ok before')
    (hpass : Passed before (.insn iobj :: rest)) : Passed before' rest := by
  unfold iseqPeepholeOptimize at h
  split_ifs at h with hi hb
  · exact peepholeJump_passed h hpass
  · obtain ⟨iobj', hbranch, h⟩ := Result.bind_eq_ok.mp h
    obtain ⟨l, hl, hbranch⟩ := Result.bind_eq_ok.mp hbranch
    obtain ⟨d, hd, hbranch⟩ := Result.bind_eq_ok.mp hbranch
    have hid : iobj'.insnId ≠ .jump := by
      split_ifs at hbranch with hjump
      · obtain ⟨l', -, hbranch⟩ := Result.bind_eq_ok.mp hbranch
        cases hbranch
        exact hi
      · cases hbranch
        exact hi
    cases h
    exact hpass.other [.insn iobj'] (by simp) (by simp [hid])
  · simp at *
  · cases h
    exact hpass.other [.insn iobj] (by simp) (by simp [hi])

/-! ## The walk -/

/-- The loop ends once it comes to a jump already passed. -/
theorem halts_again_of_passed (hpass : Passed before (.insn iobj :: rest)) {a : List (Elem V)}
    (ha : afterLabel l before.reverse = some a) : Halts (again before iobj rest) l := by
  cases hagain : again before iobj rest l with
  | none => exact .stop hagain
  | some l' =>
      refine .step hagain ?_
      have hthread : thread (rest.length + 1) (before.reverse ++ .insn iobj :: rest) l
        = some l' := by
        simp only [again] at hagain
        split_ifs at hagain
        exact hagain
      rw [thread, getDestinationInsn_insn] at hthread
      simp only [ha] at hthread
      cases hskip : skipToInsn a with
      | nil => simp [hskip, threadAt] at hthread
      | cons e k =>
          have hmem : e ∈ before := by
            have hsub := (skipToInsn_suffix a).trans (afterLabel_suffix ha)
            rw [hskip] at hsub
            exact List.mem_reverse.mp (hsub.subset (by simp))
          cases e with
          | insn d =>
              simp only [hskip, List.cons_append, threadAt] at hthread
              split_ifs at hthread with hjump
              rw [not_or, not_not] at hjump
              cases ht : d.target with
              | error e => simp [ht] at hthread
              | ok l'' =>
                  simp only [ht] at hthread
                  split_ifs at hthread
                  cases hthread
                  refine (hpass d hmem hjump.2 l' ht).of_agree fun l => ?_
                  rw [again]
                  split_ifs with hnext
                  · exact .inr (.stop (if_pos hnext))
                  · exact .inl rfl
          | _ => simp [hskip, threadAt] at hthread

/-- **Only what stands behind a jump can catch it.** -/
theorem halts_again_iff (hnodup : (labelsOf (before.reverse ++ .insn iobj :: rest)).Nodup)
    (hpass : Passed before (.insn iobj :: rest)) :
    Halts (again before iobj rest) l ↔ Halts (threadBehind rest) l := by
  have hnext := length_getNextInsn_le rest
  have hagree : ∀ l, threadBehind rest l = again before iobj rest l ∨
      threadBehind rest l = none ∧ Halts (again before iobj rest) l := by
    intro l
    cases ha : afterLabel l before.reverse with
    | none =>
        have hle := length_getDestinationInsn_le rest l
        refine .inl ?_
        simp only [threadBehind, again, thread, getDestinationInsn_insn, ha]
        cases hdest : getDestinationInsn rest l with
        | nil => simp [threadAt]
        | cons e k =>
            rw [hdest, List.length_cons] at hle
            cases e with
            | insn d =>
                have hself : k.length ≠ rest.length := by omega
                by_cases hn : k.length + 1 = (getNextInsn rest).length <;>
                  simp [threadAt, hn, hself]
            | _ => simp [threadAt]
    | some a =>
        refine .inr ⟨?_, halts_again_of_passed hpass ha⟩
        have hmem : l ∈ labelsOf before.reverse := by
          by_contra hl
          rw [afterLabel_eq_none.mpr hl] at ha
          cases ha
        rw [labelsOf_append, List.nodup_append] at hnodup
        have hnot : l ∉ labelsOf rest := fun hl => hnodup.2.2 l hmem l hl rfl
        rw [threadBehind, thread, getDestinationInsn, afterLabel_eq_none.mpr hnot]
        rfl
  constructor
  · intro h
    refine h.of_agree fun l => ?_
    rcases hagree l with heq | ⟨hnone, -⟩
    · exact .inl heq
    · exact .inr (.stop hnone)
  · intro h
    refine h.of_agree fun l => ?_
    rcases hagree l with heq | ⟨-, hhalts⟩
    · exact .inl heq.symm
    · exact .inr hhalts

/-- The walk keeps the labels. -/
theorem labelsOf_peepholeJump {fuel : ℕ} {before' : List (Elem V)}
    (h : peepholeJump fuel before iobj rest = .ok before') :
    labelsOf before' = labelsOf before := by
  induction fuel generalizing iobj with
  | zero => cases h
  | succ fuel ih =>
      obtain ⟨r, hr, h⟩ := Result.bind_eq_ok.mp h
      obtain ⟨l, -, happ⟩ := jumpRewrite_applies hr
      cases r with
      | again l' => exact ih h
      | invert p front =>
          obtain ⟨l', -, h⟩ := Result.bind_eq_ok.mp h
          cases h
          nth_rewrite 2 [before_split happ.1]
          simp
      | remove =>
          cases h
          rfl
      | leave d =>
          cases h
          rfl
      | keep =>
          cases h
          rfl

theorem labelsOf_iseqPeepholeOptimize {fuel : ℕ} {before' : List (Elem V)}
    (h : iseqPeepholeOptimize false fuel before iobj rest = .ok before') :
    labelsOf before' = labelsOf before := by
  unfold iseqPeepholeOptimize at h
  split_ifs at h with hi hb
  · exact labelsOf_peepholeJump h
  · obtain ⟨iobj', -, h⟩ := Result.bind_eq_ok.mp h
    cases h
    rfl
  · simp at *
  · cases h
    rfl

theorem threads_cons {e : Elem V} {rest : List (Elem V)} : Threads (e :: rest) ↔
    (∀ i l, e = .insn i → i.insnId = .jump → i.target = .ok l → Halts (threadBehind rest) l) ∧
      Threads rest := by
  constructor
  · intro h
    refine ⟨fun i l he => h [] i rest l (by rw [he]; rfl), fun front i r l hr => ?_⟩
    exact h (e :: front) i r l (by rw [hr]; rfl)
  · rintro ⟨hhead, htail⟩ front i r l hr
    cases front with
    | nil =>
        rw [List.nil_append, List.cons.injEq] at hr
        rw [← hr.2]
        exact hhead i l hr.1
    | cons e' front =>
        rw [List.cons_append, List.cons.injEq] at hr
        exact htail front i r l hr.2

/-- The walk passes a label. -/
theorem Passed.label {e : Elem V} (he : e.isInsn = false) (h : Passed before (e :: rest)) :
    Passed (e :: before) rest := by
  intro i hi hjump l hl
  have hskip : skipToInsn (e :: rest) = skipToInsn rest := by simp [skipToInsn, he]
  have hmem : .insn i ∈ before := by
    rcases List.mem_cons.mp hi with rfl | hi
    · cases he
    · exact hi
  have hhalts := h i hmem hjump l hl
  rw [hskip] at hhalts
  simpa using hhalts

/-- An instruction that is no jump takes no loop. -/
theorem iseqPeepholeOptimize_of_ne_jump (hi : iobj.insnId ≠ .jump)
    (htg : Targeted (before.reverse ++ .insn iobj :: rest)) :
    ∃ before', ∀ n, iseqPeepholeOptimize false n before iobj rest = .ok before' := by
  by_cases hb : iobj.insnId.isBranch = true
  · obtain ⟨iobj', hbranch⟩ : ∃ iobj', peepholeBranch before iobj rest = .ok iobj' := by
      obtain ⟨l, d, k, hl, hdest⟩ := htg.target iobj (by simp) (.inr hb)
      rw [peepholeBranch, hl, Result.ok_bind, hdest, insnAt, Result.ok_bind]
      split_ifs with hjump
      · have hmem : .insn d ∈ before.reverse ++ .insn iobj :: rest :=
          (getDestinationInsn_suffix _ l).subset (hdest ▸ List.mem_cons_self)
        obtain ⟨l', -, -, hl', -⟩ := htg.target d hmem (.inl hjump)
        exact ⟨_, by rw [hl']; rfl⟩
      · exact ⟨_, rfl⟩
    refine ⟨.insn iobj' :: before, fun n => ?_⟩
    rw [iseqPeepholeOptimize, if_neg hi, if_pos hb, hbranch]
    rfl
  · refine ⟨.insn iobj :: before, fun n => ?_⟩
    rw [iseqPeepholeOptimize, if_neg hi, if_neg hb, if_neg (by simp)]
    rfl

/-- What the walk keeps. -/
structure WalkInvariant (before back : List (Elem V)) : Prop where
  nodup : (labelsOf (before.reverse ++ back)).Nodup
  targeted : Targeted (before.reverse ++ back)
  passed : Passed before back

theorem WalkInvariant.insn {fuel : ℕ} {before' : List (Elem V)}
    (hinv : WalkInvariant before (.insn iobj :: rest))
    (h : iseqPeepholeOptimize false fuel before iobj rest = .ok before') :
    WalkInvariant before' rest := by
  refine ⟨?_, iseqPeepholeOptimize_targeted h hinv.targeted,
    iseqPeepholeOptimize_passed h hinv.passed⟩
  have hreverse : ∀ es : List (Elem V), labelsOf es.reverse = (labelsOf es).reverse := by
    simp [labelsOf]
  have hnodup := hinv.nodup
  rw [labelsOf_append, hreverse, labelsOf_cons_insn] at hnodup
  rwa [labelsOf_append, hreverse, labelsOf_iseqPeepholeOptimize h]

theorem WalkInvariant.other {e : Elem V} (hinv : WalkInvariant before (e :: rest))
    (he : ∀ i, e ≠ .insn i) : WalkInvariant (e :: before) rest := by
  have hcur : (e :: before).reverse ++ rest = before.reverse ++ e :: rest := by simp
  refine ⟨by rw [hcur]; exact hinv.nodup, by rw [hcur]; exact hinv.targeted, ?_⟩
  refine Passed.label ?_ hinv.passed
  cases e with
  | insn i => exact absurd rfl (he i)
  | adjust l n => exact absurd (by simp) (hinv.targeted.noAdjust l n)
  | label l => rfl
  | none => rfl

/-- **The walk ends if no jump is caught in what stands behind it.** -/
theorem iseqOptimize_settles {back : List (Elem V)} (hinv : WalkInvariant before back)
    (hth : Threads back) :
    ∃ es', Fuel.Settles (fun n => iseqOptimize false n before back) (.ok es') := by
  induction back generalizing before with
  | nil => exact ⟨before.reverse, .const _⟩
  | cons e rest ih =>
      obtain ⟨hhead, htail⟩ := threads_cons.mp hth
      by_cases he : ∃ i, e = .insn i
      · obtain ⟨iobj, rfl⟩ := he
        obtain ⟨before', hstep⟩ : ∃ before', Fuel.Settles
            (fun n => iseqPeepholeOptimize false n before iobj rest) (.ok before') := by
          by_cases hi : iobj.insnId = .jump
          · obtain ⟨l, -, -, hl, -⟩ := hinv.targeted.target iobj (by simp) (.inl hi)
            obtain ⟨before', hs⟩ := peepholeJump_settles hi hl hinv.targeted
              ((halts_again_iff hinv.nodup hinv.passed).mpr (hhead iobj l rfl hi hl))
            exact ⟨before', hs.congr fun n => by rw [iseqPeepholeOptimize, if_pos hi]⟩
          · obtain ⟨before', hs⟩ := iseqPeepholeOptimize_of_ne_jump hi hinv.targeted
            exact ⟨before', (Fuel.Settles.const _).congr hs⟩
        obtain ⟨n, hn⟩ := hstep
        obtain ⟨es', hes'⟩ := ih (hinv.insn (hn n (Nat.le_refl n))) htail
        exact ⟨es', Fuel.Settles.bind ⟨n, hn⟩ hes'⟩
      · have hne : ∀ i, e ≠ .insn i := fun i hi => he ⟨i, hi⟩
        obtain ⟨es', hes'⟩ := ih (hinv.other hne) htail
        refine ⟨es', hes'.congr fun n => ?_⟩
        cases e with
        | insn i => exact absurd rfl (hne i)
        | _ => rfl

/-- **No jump is caught in what stands behind it if the walk ends.** -/
theorem threads_of_iseqOptimize {fuel : ℕ} {back es' : List (Elem V)}
    (hinv : WalkInvariant before back) (h : iseqOptimize false fuel before back = .ok es') :
    Threads back := by
  induction back generalizing before with
  | nil =>
      intro front i r l hr
      simp at hr
  | cons e rest ih =>
      by_cases he : ∃ i, e = .insn i
      · obtain ⟨iobj, rfl⟩ := he
        obtain ⟨before', hstep, h⟩ := Result.bind_eq_ok.mp h
        refine threads_cons.mpr ⟨fun i l hil hi hl => ?_, ih (hinv.insn hstep) h⟩
        obtain rfl := Elem.insn.inj hil
        rw [← halts_again_iff hinv.nodup hinv.passed]
        by_contra hcaught
        rw [iseqPeepholeOptimize, if_pos hi, peepholeJump_diverges hl hcaught] at hstep
        cases hstep
      · have hne : ∀ i, e ≠ .insn i := fun i hi => he ⟨i, hi⟩
        have hrest : iseqOptimize false fuel (e :: before) rest = .ok es' := by
          cases e with
          | insn i => exact absurd rfl (hne i)
          | _ => exact h
        exact threads_cons.mpr ⟨fun i l hil => absurd hil (hne i), ih (hinv.other hne) hrest⟩

/-- **The pass terminates exactly if no jump is caught in what stands behind it**: if no chain of
jumps behind it, from its target on, goes round without coming to the next instruction. -/
theorem iseqOptimize_terminates_iff (anchor : Anchor V) (htg : Targeted anchor.elems) :
    (∃ fuel es', iseqOptimize false fuel [] anchor.elems = .ok es') ↔ Threads anchor.elems := by
  have hinv : WalkInvariant [] anchor.elems := ⟨anchor.nodup, htg, by simp [Passed]⟩
  constructor
  · rintro ⟨fuel, es', h⟩
    exact threads_of_iseqOptimize hinv h
  · intro h
    obtain ⟨es', n, hn⟩ := iseqOptimize_settles hinv h
    exact ⟨n, es', hn n (Nat.le_refl n)⟩

/-- The code of `while true && c; end` in a method, with `true` or `nil` for `c`. -/
def emptyLoop (c : Bool) : List (Elem Bool) :=
  let cond : Cond Bool := .and 1 (.true 1) (if c then .true 1 else .nil 1)
  (compileLoop compileConstant 1 0 (.whileLoop cond) true none false 0).1 ++ [.insn ⟨.leave, 1, []⟩]

theorem targeted_emptyLoop (c : Bool) : Targeted (emptyLoop c) := by
  constructor
  · intro i hi hctl
    cases c <;> simp [emptyLoop, compileLoop, compileEach, compileTest, compileBranchCondition,
      jumpInsn] at hi <;> rcases hi with rfl | rfl | rfl | rfl | rfl | rfl | rfl | rfl
    all_goals first
      | exact ⟨_, _, _, rfl, rfl⟩
      | simp [Insn.IsControl, InsnId.isBranch] at hctl
  · intro l n h
    cases c <;> simp [emptyLoop, compileLoop, compileEach, compileTest, compileBranchCondition,
      jumpInsn] at h

theorem iseqOptimize_terminates_emptyLoop : Threads (emptyLoop false) :=
  (iseqOptimize_terminates_iff ⟨emptyLoop false, by decide⟩ (targeted_emptyLoop false)).mp
    ⟨4, _, rfl⟩

/-- The pass never ends on `while true && true; end`: the first jump is sent round between the two
jumps of the condition. -/
theorem not_iseqOptimize_terminates_emptyLoop :
    Targeted (emptyLoop true) ∧ (labelsOf (emptyLoop true)).Nodup ∧
      ¬ ∃ fuel es', iseqOptimize false fuel [] (emptyLoop true) = .ok es' := by
  refine ⟨targeted_emptyLoop true, by decide, ?_⟩
  rintro ⟨fuel, es', h⟩
  have hinv : WalkInvariant [] (emptyLoop true) :=
    ⟨by decide, targeted_emptyLoop true, by simp [Passed]⟩
  have hhalts := threads_of_iseqOptimize hinv h [] _ _ 0 rfl rfl rfl
  refine not_halts (P := fun l => l = 0 ∨ l = 5 ∨ l = 1) ?_ (.inl rfl) hhalts
  rintro l (rfl | rfl | rfl)
  · exact ⟨5, rfl, by simp⟩
  · exact ⟨1, rfl, by simp⟩
  · exact ⟨5, rfl, by simp⟩

end MacRuby
