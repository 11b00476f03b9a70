import MacRuby.Vm.Machine

/-!
# Conditions, `if` and loops

`compile_branch_condition` compiles a condition to jumps: each operator gives its operands the
exits they need, and a constant is a jump. `NODE_IF` and `NODE_WHILE` put their bodies behind the
labels. Labels are numbered as they are made; a compiler takes and returns the next number.

The definition of evaluation from left to right is `Cond.truth`, that of a loop is `Turns`.

## Main definitions

* `Cond`, `compileBranchCondition` — conditions and their code.
* `compileIf`, `Loop`, `compileLoop` — the statements.
* `Cond.truth`, `evalIf`, `Turns` — what they mean.

## Main results

* `reaches_condition` — a condition leaves by the right exit.
* `runs_compileIf`, `reaches_loop` — and so `if` and loops do what they mean.
* `shortCircuits_of_compiles` — all of it, for any compiler of expressions.
-/

namespace MacRuby

variable {V S E : Type}

/-! ## The compiler -/

/-- A condition: the operators, the nodes whose truth is known, and any other expression. -/
inductive Cond (E : Type)
  | and (line : ℤ) (fst snd : Cond E)
  | or (line : ℤ) (fst snd : Cond E)
  | lit (line : ℤ)
  | true (line : ℤ)
  | str (line : ℤ)
  | false (line : ℤ)
  | nil (line : ℤ)
  | other (line : ℤ) (e : E)

/-- `ADD_INSNL(ret, line, jump, label)`. -/
def jumpInsn (line : ℤ) (l : Label) : Elem V := .insn ⟨.jump, line, [.label l]⟩

section Compile

-- `COMPILE_(ret, desc, node, poped)`, which takes and returns the number of the next label
variable (compile : E → Bool → ℕ → List (Elem V) × ℕ)

/-- `compile_branch_condition(iseq, ret, cond, then_label, else_label)`. -/
def compileBranchCondition : Cond E → Label → Label → ℕ → List (Elem V) × ℕ
  | .and _ fst snd, thenLabel, elseLabel, no =>
      let c := compileBranchCondition fst no elseLabel (no + 1)
      let d := compileBranchCondition snd thenLabel elseLabel c.2
      (c.1 ++ .label no :: d.1, d.2)
  | .or _ fst snd, thenLabel, elseLabel, no =>
      let c := compileBranchCondition fst thenLabel no (no + 1)
      let d := compileBranchCondition snd thenLabel elseLabel c.2
      (c.1 ++ .label no :: d.1, d.2)
  | .lit line, thenLabel, _, no => ([jumpInsn line thenLabel], no)
  | .true line, thenLabel, _, no => ([jumpInsn line thenLabel], no)
  | .str line, thenLabel, _, no => ([jumpInsn line thenLabel], no)
  | .false line, _, elseLabel, no => ([jumpInsn line elseLabel], no)
  | .nil line, _, elseLabel, no => ([jumpInsn line elseLabel], no)
  | .other line e, thenLabel, elseLabel, no =>
      let c := compile e Bool.false no
      (c.1 ++ [.insn ⟨.branchunless, line, [.label elseLabel]⟩, jumpInsn line thenLabel], c.2)

/-- `iseq_compile_each` on a node that may be null; the line of its `putnil` is that of the last
node compiled, here the line of the statement. -/
def compileEach (lastLine : ℤ) : Option E → Bool → ℕ → List (Elem V) × ℕ
  | none, poped, no => (if poped then [] else [.insn ⟨.putnil, lastLine, []⟩], no)
  | some e, poped, no => compile e poped no

/-- `NODE_IF`. -/
def compileIf (line : ℤ) (cond : Cond E) (body els : Option E) (poped : Bool) (no : ℕ) :
    List (Elem V) × ℕ :=
  let thenLabel := no
  let elseLabel := no + 1
  let endLabel := no + 2
  let condSeq := compileBranchCondition compile cond thenLabel elseLabel (no + 3)
  let thenSeq := compileEach compile line body poped condSeq.2
  let elseSeq := compileEach compile line els poped thenSeq.2
  (condSeq.1 ++ .label thenLabel :: (thenSeq.1 ++ jumpInsn line endLabel :: .label elseLabel ::
    (elseSeq.1 ++ [.label endLabel])), elseSeq.2)

/-- `NODE_WHILE`, `NODE_UNTIL` or `NODE_OPT_N`, the loop of the option `-n`. -/
inductive Loop (E : Type)
  | whileLoop (cond : Cond E)
  | untilLoop (cond : Cond E)
  | optN

/-- The test of a loop, which goes on at `redoLabel`. -/
def compileTest (line : ℤ) (idGets : ℕ) (redoLabel endLabel : Label) :
    Loop E → ℕ → List (Elem V) × ℕ
  | .whileLoop cond, no => compileBranchCondition compile cond redoLabel endLabel no
  | .untilLoop cond, no => compileBranchCondition compile cond endLabel redoLabel no
  | .optN, no =>
      ([.insn ⟨.putnil, line, []⟩,
        .insn ⟨.send, line, [.id idGets, .num 0, .iseq none, .num 8, .cache]⟩,
        .insn ⟨.branchif, line, [.label redoLabel]⟩], no)

/-- `NODE_WHILE`, `NODE_UNTIL` and `NODE_OPT_N`; `preTested` is `node->nd_state == 1`, and a loop of
the option `-n` is tested first whatever it says. -/
def compileLoop (line : ℤ) (idGets : ℕ) (loop : Loop E) (preTested : Bool) (body : Option E)
    (poped : Bool) (no : ℕ) : List (Elem V) × ℕ :=
  let nextLabel := no
  let redoLabel := no + 1
  let breakLabel := no + 2
  let endLabel := no + 3
  let nextCatchLabel := no + 4
  let tmpLabel := no + 5
  let first := preTested || loop matches .optN
  let bodySeq := compileEach compile line body Bool.true (if first then no + 5 else no + 6)
  let condSeq := compileTest compile line idGets redoLabel endLabel loop bodySeq.2
  (jumpInsn line (if first then nextLabel else tmpLabel) :: .insn ⟨.putnil, line, []⟩ ::
    .label nextCatchLabel :: .insn ⟨.pop, line, []⟩ :: jumpInsn line nextLabel ::
    ((if first then [] else [.label tmpLabel]) ++ .label redoLabel :: (bodySeq.1 ++
      .label nextLabel :: (condSeq.1 ++ .label endLabel :: .insn ⟨.putnil, line, []⟩ ::
        .label breakLabel :: if poped then [.insn ⟨.pop, line, []⟩] else []))), condSeq.2)

end Compile

/-- The loop with this condition. -/
def loopOf (untl : Bool) (cond : Cond E) : Loop E :=
  if untl then .untilLoop cond else .whileLoop cond

/-! ## The meaning -/

section Meaning

variable (rtest : V → Bool) (eval : E → S → V × S)

/-- The truth of a condition, evaluated from left to right as far as needed. -/
def Cond.truth : Cond E → S → Bool × S
  | .and _ fst snd, s =>
      let r := Cond.truth fst s
      if r.1 then Cond.truth snd r.2 else (Bool.false, r.2)
  | .or _ fst snd, s =>
      let r := Cond.truth fst s
      if r.1 then (Bool.true, r.2) else Cond.truth snd r.2
  | .lit _, s => (Bool.true, s)
  | .true _, s => (Bool.true, s)
  | .str _, s => (Bool.true, s)
  | .false _, s => (Bool.false, s)
  | .nil _, s => (Bool.false, s)
  | .other _ e, s => (rtest (eval e s).1, (eval e s).2)

/-- A node that may be null, whose value is `nil` then. -/
def evalEach (nil : V) : Option E → S → V × S
  | none, s => (nil, s)
  | some e, s => eval e s

/-- The value of an `if` is that of the branch chosen. -/
def evalIf (nil : V) (cond : Cond E) (body els : Option E) (s : S) : V × S :=
  let r := cond.truth rtest eval s
  evalEach eval nil (if r.1 then body else els) r.2

/-- Whether a `while` goes on, or an `until` if `untl` is set. -/
def goesOn (untl : Bool) (cond : Cond E) (s : S) : Bool × S :=
  ((cond.truth rtest eval s).1 != untl, (cond.truth rtest eval s).2)

end Meaning

/-- After `n` tests that let the loop go on, and its body after each, the world is the second one
and the loop is to be tested again. -/
inductive Turns (test : S → Bool × S) (body : S → S) : ℕ → S → S → Prop
  | zero {s : S} : Turns test body 0 s s
  | succ {n : ℕ} {s t : S} (h : Turns test body n s t) (ht : (test t).1 = true) :
      Turns test body (n + 1) s (body (test t).2)

/-! ## The code of a condition -/

section Run

open Machine

variable {m : Machine V S} {eval : E → S → V × S} {compile : E → Bool → ℕ → List (Elem V) × ℕ}

/-- What is assumed of the compiler: the code of an expression pushes its value, and with `poped`
drops it. -/
def Compiles (m : Machine V S) (eval : E → S → V × S)
    (compile : E → Bool → ℕ → List (Elem V) × ℕ) : Prop :=
  ∀ e poped no, m.Runs poped (compile e poped no).1 (eval e)

/-- **A condition leaves by the right exit**, with the stack as it was. -/
theorem reaches_condition (h : Compiles m eval compile) (cond : Cond E) {es back : List (Elem V)}
    (front : List (Elem V)) {thenLabel elseLabel : Label} {no : ℕ} (hnodup : (labelsOf es).Nodup)
    (hes : es = front ++ ((compileBranchCondition compile cond thenLabel elseLabel no).1 ++ back))
    {kt ke : List (Elem V)} (hthen : afterLabel thenLabel es = some kt)
    (helse : afterLabel elseLabel es = some ke) (stack : List V) (s : S) :
    m.Reaches es
      ⟨(compileBranchCondition compile cond thenLabel elseLabel no).1 ++ back, stack, s⟩
      ⟨if (cond.truth m.rtest eval s).1 then kt else ke, stack, (cond.truth m.rtest eval s).2⟩ := by
  induction cond generalizing front back thenLabel elseLabel no kt ke s with
  | and line fst snd ihfst ihsnd =>
      simp only [compileBranchCondition, List.append_assoc, List.cons_append] at hes ⊢
      rw [← List.append_assoc] at hes
      have hlabel := afterLabel_of_nodup _ hnodup hes
      have hfst := ihfst _ (by rw [hes, List.append_assoc]) hlabel helse s
      refine hfst.trans ?_
      rw [Cond.truth]
      cases hr : (fst.truth m.rtest eval s).1 with
      | true =>
          simp only [if_true]
          exact ihsnd _ (by rw [hes, List.append_cons]) hthen helse _
      | false =>
          simp only [Bool.false_eq_true, if_false]
          exact .refl
  | or line fst snd ihfst ihsnd =>
      simp only [compileBranchCondition, List.append_assoc, List.cons_append] at hes ⊢
      rw [← List.append_assoc] at hes
      have hlabel := afterLabel_of_nodup _ hnodup hes
      have hfst := ihfst _ (by rw [hes, List.append_assoc]) hthen hlabel s
      refine hfst.trans ?_
      rw [Cond.truth]
      cases hr : (fst.truth m.rtest eval s).1 with
      | true =>
          simp only [if_true]
          exact .refl
      | false =>
          simp only [Bool.false_eq_true, if_false]
          exact ihsnd _ (by rw [hes, List.append_cons]) hthen helse _
  | lit line => exact reaches_jump line hthen
  | true line => exact reaches_jump line hthen
  | str line => exact reaches_jump line hthen
  | false line => exact reaches_jump line helse
  | nil line => exact reaches_jump line helse
  | other line e =>
      simp only [compileBranchCondition, List.append_assoc, List.cons_append, List.nil_append]
        at hes ⊢
      refine (h e false no _ stack s hnodup hes).trans ?_
      refine (reaches_branchunless line _ helse).trans ?_
      rw [Cond.truth]
      cases hr : m.rtest (eval e s).1 with
      | true =>
          simp only [if_true]
          exact reaches_jump line hthen
      | false =>
          simp only [Bool.false_eq_true, if_false]
          exact .refl

theorem runs_compileEach (h : Compiles m eval compile) (lastLine : ℤ) (body : Option E)
    (poped : Bool) (no : ℕ) :
    m.Runs poped (compileEach compile lastLine body poped no).1 (evalEach eval m.nil body) := by
  cases body with
  | some e => exact h e poped no
  | none =>
      intro es back front stack s _ _
      cases poped with
      | true => exact .refl
      | false => exact reaches_putnil lastLine

/-- **An `if` runs the branch chosen**, once. -/
theorem runs_compileIf (h : Compiles m eval compile) (line : ℤ) (cond : Cond E)
    (body els : Option E) (poped : Bool) (no : ℕ) :
    m.Runs poped (compileIf compile line cond body els poped no).1
      (evalIf m.rtest eval m.nil cond body els) := by
  intro es back front stack s hnodup hes
  simp only [compileIf, List.append_assoc, List.cons_append, List.nil_append] at hes ⊢
  set condSeq := compileBranchCondition compile cond no (no + 1) (no + 3)
  set thenSeq := compileEach compile line body poped condSeq.2
  set elseSeq := compileEach compile line els poped thenSeq.2
  have hthen := afterLabel_of_nodup (front ++ condSeq.1) hnodup (by simpa using hes)
  have helse := afterLabel_of_nodup
    (front ++ condSeq.1 ++ .label no :: (thenSeq.1 ++ [jumpInsn line (no + 2)])) hnodup
    (by simpa using hes)
  have hend := afterLabel_of_nodup (front ++ condSeq.1 ++ .label no :: (thenSeq.1 ++
    jumpInsn line (no + 2) :: .label (no + 1) :: elseSeq.1)) hnodup (by simpa using hes)
  refine (reaches_condition h cond front hnodup hes hthen helse stack s).trans ?_
  rw [evalIf]
  cases (cond.truth m.rtest eval s).1 with
  | true =>
      simp only [if_true]
      have hbody := runs_compileEach h line body poped condSeq.2 (front ++ condSeq.1 ++ [.label no])
        stack (cond.truth m.rtest eval s).2 hnodup (by simpa using hes)
      exact hbody.trans (reaches_jump line hend)
  | false =>
      simp only [Bool.false_eq_true, if_false]
      have hels := runs_compileEach h line els poped thenSeq.2 (front ++ condSeq.1 ++ .label no ::
        (thenSeq.1 ++ [jumpInsn line (no + 2), .label (no + 1)])) stack
        (cond.truth m.rtest eval s).2 hnodup (by simpa using hes)
      exact hels.trans (reaches_label _)

/-- The test of a loop leaves to the body or to the end. -/
theorem reaches_test (h : Compiles m eval compile) (line : ℤ) (idGets : ℕ) (untl : Bool)
    (cond : Cond E) {es back : List (Elem V)} (front : List (Elem V)) {redoLabel endLabel : Label}
    {no : ℕ} (hnodup : (labelsOf es).Nodup) (hes : es = front ++
      ((compileTest compile line idGets redoLabel endLabel (loopOf untl cond) no).1 ++ back))
    {kr ke : List (Elem V)} (hredo : afterLabel redoLabel es = some kr)
    (hend : afterLabel endLabel es = some ke) (stack : List V) (s : S) :
    m.Reaches es
      ⟨(compileTest compile line idGets redoLabel endLabel (loopOf untl cond) no).1 ++ back,
        stack, s⟩
      ⟨if (goesOn m.rtest eval untl cond s).1 then kr else ke, stack,
        (goesOn m.rtest eval untl cond s).2⟩ := by
  cases untl with
  | false =>
      have hrun := reaches_condition h cond front hnodup hes hredo hend stack s
      simpa [goesOn, compileTest, loopOf] using hrun
  | true =>
      have hrun := reaches_condition h cond front hnodup hes hend hredo stack s
      rw [goesOn]
      cases hc : (cond.truth m.rtest eval s).1 <;> simpa [hc, compileTest, loopOf] using hrun

/-- **A loop runs its body once for each test that lets it go on**, and once before the first test
if it is tested afterwards; when a test fails it ends, with `nil`. -/
theorem reaches_loop (h : Compiles m eval compile) (line : ℤ) (idGets : ℕ) (untl : Bool)
    (cond : Cond E) (preTested : Bool) (body : Option E) (poped : Bool) (no : ℕ)
    {es front back : List (Elem V)} (hnodup : (labelsOf es).Nodup)
    (hes : es = front ++ ((compileLoop compile line idGets (loopOf untl cond) preTested body poped
      no).1 ++ back)) (stack : List V) (s : S) :
    let code := (compileLoop compile line idGets (loopOf untl cond) preTested body poped no).1
    let test := goesOn m.rtest eval untl cond
    let run := fun s => (evalEach eval m.nil body s).2
    ∃ k, afterLabel no es = some k ∧
      ∀ n t, Turns test run n (if preTested then s else run s) t →
        m.Reaches es ⟨code ++ back, stack, s⟩ ⟨k, stack, t⟩ ∧
          ((test t).1 = false → m.Reaches es ⟨code ++ back, stack, s⟩
            ⟨back, pushed poped m.nil stack, (test t).2⟩) := by
  have hfirst : (preTested || (loopOf untl cond) matches .optN) = preTested := by
    cases untl <;> simp [loopOf]
  dsimp only
  set bodySeq := compileEach compile line body true (if preTested then no + 5 else no + 6) with hb
  set condSeq := compileTest compile line idGets (no + 1) (no + 3) (loopOf untl cond) bodySeq.2
    with hc
  set tail : List (Elem V) := .insn ⟨.putnil, line, []⟩ :: .label (no + 2) ::
    ((if poped then [.insn ⟨.pop, line, []⟩] else []) ++ back) with htail
  set head : List (Elem V) := jumpInsn line (if preTested then no else no + 5) ::
    .insn ⟨.putnil, line, []⟩ :: .label (no + 4) :: .insn ⟨.pop, line, []⟩ :: jumpInsn line no ::
    (if preTested then [] else [.label (no + 5)]) with hhead
  have hcode :
      (compileLoop compile line idGets (loopOf untl cond) preTested body poped no).1 ++ back
      = head ++ .label (no + 1) :: (bodySeq.1 ++ .label no ::
        (condSeq.1 ++ .label (no + 3) :: tail)) := by
    simp only [compileLoop, hfirst, ← hb, ← hc, hhead, htail, List.append_assoc, List.cons_append]
  rw [hcode] at hes ⊢
  have hnext := afterLabel_of_nodup (front ++ head ++ .label (no + 1) :: bodySeq.1) hnodup
    (by simpa using hes)
  have hredo := afterLabel_of_nodup (front ++ head) hnodup (by simpa using hes)
  have hend := afterLabel_of_nodup (front ++ head ++ .label (no + 1) :: (bodySeq.1 ++ .label no ::
    condSeq.1)) hnodup (by simpa using hes)
  -- the body runs from the label before it to the test
  have hbody : ∀ t, m.Reaches es
      ⟨bodySeq.1 ++ .label no :: (condSeq.1 ++ .label (no + 3) :: tail), stack, t⟩
      ⟨condSeq.1 ++ .label (no + 3) :: tail, stack, (evalEach eval m.nil body t).2⟩ := by
    intro t
    have hrun := runs_compileEach h line body true (if preTested then no + 5 else no + 6)
      (front ++ head ++ [.label (no + 1)]) stack t hnodup (by simpa using hes)
    exact hrun.trans (reaches_label no)
  have htest : ∀ t, m.Reaches es ⟨condSeq.1 ++ .label (no + 3) :: tail, stack, t⟩
      ⟨if (goesOn m.rtest eval untl cond t).1 then
          bodySeq.1 ++ .label no :: (condSeq.1 ++ .label (no + 3) :: tail) else tail, stack,
        (goesOn m.rtest eval untl cond t).2⟩ := by
    intro t
    exact reaches_test h line idGets untl cond (front ++ head ++ .label (no + 1) ::
      (bodySeq.1 ++ [.label no])) hnodup (by simpa using hes) hredo hend stack t
  have hstart : m.Reaches es
      ⟨head ++ .label (no + 1) :: (bodySeq.1 ++ .label no ::
        (condSeq.1 ++ .label (no + 3) :: tail)),
        stack, s⟩
      ⟨condSeq.1 ++ .label (no + 3) :: tail, stack,
        if preTested then s else (evalEach eval m.nil body s).2⟩ := by
    cases preTested with
    | true => exact reaches_jump line hnext
    | false =>
        have htmp := afterLabel_of_nodup (front ++ jumpInsn line (no + 5) ::
          [.insn ⟨.putnil, line, []⟩, .label (no + 4), .insn ⟨.pop, line, []⟩, jumpInsn line no])
          hnodup (by simpa [hhead] using hes)
        exact ((reaches_jump line htmp).trans (reaches_label _)).trans (hbody s)
  refine ⟨_, hnext, fun n t hturns => ?_⟩
  have hreach : m.Reaches es
      ⟨head ++ .label (no + 1) :: (bodySeq.1 ++ .label no ::
        (condSeq.1 ++ .label (no + 3) :: tail)),
        stack, s⟩ ⟨condSeq.1 ++ .label (no + 3) :: tail, stack, t⟩ := by
    generalize (if preTested then s else (evalEach eval m.nil body s).2) = s' at hstart hturns
    induction hturns with
    | zero => exact hstart
    | @succ n _ t _ ht ih =>
        have hturn := htest t
        rw [if_pos ht] at hturn
        exact ((ih hstart).trans hturn).trans (hbody _)
  refine ⟨hreach, fun hstop => ?_⟩
  have hleave := htest t
  rw [if_neg (by simp [hstop])] at hleave
  refine (hreach.trans hleave).trans ?_
  refine ((reaches_putnil line).trans (reaches_label _)).trans ?_
  cases poped with
  | true => exact reaches_pop line m.nil
  | false => exact .refl

/-- What the code of conditions, of `if` and of loops does, wherever it stands in a list. -/
structure ShortCircuits (m : Machine V S) (eval : E → S → V × S)
    (compile : E → Bool → ℕ → List (Elem V) × ℕ) : Prop where
  /-- A condition evaluates what its truth needs, in order, and leaves to the one label or to the
  other with the stack as it was. -/
  condition : ∀ (cond : Cond E) (es front back : List (Elem V)) (thenLabel elseLabel : Label)
    (no : ℕ)
    (kt ke : List (Elem V)) (stack : List V) (s : S), (labelsOf es).Nodup →
    es = front ++ ((compileBranchCondition compile cond thenLabel elseLabel no).1 ++ back) →
    afterLabel thenLabel es = some kt → afterLabel elseLabel es = some ke →
    m.Reaches es
      ⟨(compileBranchCondition compile cond thenLabel elseLabel no).1 ++ back, stack, s⟩
      ⟨if (cond.truth m.rtest eval s).1 then kt else ke, stack, (cond.truth m.rtest eval s).2⟩
  /-- An `if` runs the branch chosen, once. -/
  branch : ∀ (line : ℤ) (cond : Cond E) (body els : Option E) (poped : Bool) (no : ℕ),
    m.Runs poped (compileIf compile line cond body els poped no).1
      (evalIf m.rtest eval m.nil cond body els)
  /-- A loop comes to its next test after each test that lets it go on and a run of its body, and
  ends when a test fails. -/
  loop : ∀ (line : ℤ) (idGets : ℕ) (untl : Bool) (cond : Cond E) (preTested : Bool)
    (body : Option E)
    (poped : Bool) (no : ℕ) (es front back : List (Elem V)) (stack : List V) (s : S),
    (labelsOf es).Nodup →
    es = front ++
      ((compileLoop compile line idGets (loopOf untl cond) preTested body poped no).1 ++ back) →
    let code := (compileLoop compile line idGets (loopOf untl cond) preTested body poped no).1
    let test := goesOn m.rtest eval untl cond
    let run := fun s => (evalEach eval m.nil body s).2
    ∃ k, afterLabel no es = some k ∧
      ∀ n t, Turns test run n (if preTested then s else run s) t →
        m.Reaches es ⟨code ++ back, stack, s⟩ ⟨k, stack, t⟩ ∧
          ((test t).1 = false → m.Reaches es ⟨code ++ back, stack, s⟩
            ⟨back, pushed poped m.nil stack, (test t).2⟩)

/-- **Conditions compile to evaluation from left to right as far as needed**, whatever the
expressions in them do. -/
theorem shortCircuits_of_compiles (h : Compiles m eval compile) : ShortCircuits m eval compile where
  condition cond _ front _ _ _ _ _ _ stack s hnodup hes hthen helse :=
    reaches_condition h cond front hnodup hes hthen helse stack s
  branch := runs_compileIf h
  loop line idGets untl cond preTested body poped no _ _ _ stack s hnodup hes :=
    reaches_loop h line idGets untl cond preTested body poped no hnodup hes stack s

end Run

/-- A machine whose world is the list of the values evaluated. -/
def tracingMachine : Machine Bool (List Bool) where
  nil := false
  rtest := id
  other
    | ⟨.putobject, _, [.value v]⟩, stack, s => some (v :: stack, s ++ [v])
    | _, _, _ => none

/-- A constant is evaluated by a `putobject`. -/
def compileConstant (v poped : Bool) (no : ℕ) : List (Elem Bool) × ℕ :=
  (.insn ⟨.putobject, 0, [.value v]⟩ :: if poped then [.insn ⟨.pop, 0, []⟩] else [], no)

theorem compiles_compileConstant :
    Compiles tracingMachine (fun v s => (v, s ++ [v])) compileConstant := by
  intro v poped no es back front stack s _ _
  have hput : tracingMachine.Next es ⟨(compileConstant v poped no).1 ++ back, stack, s⟩
      ⟨(if poped then [.insn ⟨.pop, 0, []⟩] else []) ++ back, v :: stack, s ++ [v]⟩ := rfl
  refine .head hput ?_
  cases poped with
  | true => exact Machine.reaches_pop 0 v
  | false => exact .refl

/-- In `if e && f || g` the second operand is not evaluated when the first is false. -/
theorem shortCircuits_compileConstant :
    tracingMachine.Runs false
      (compileIf compileConstant 1 (.or 1 (.and 1 (.other 1 false) (.other 1 true)) (.other 1 true))
        (some true) (some false) false 0).1
      fun s => (true, s ++ [false] ++ [true] ++ [true]) :=
  (shortCircuits_of_compiles compiles_compileConstant).branch 1 _ _ _ false 0

end MacRuby
