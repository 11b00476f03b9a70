import MacRuby.Compile.Array

/-!
# Splat arguments

The arguments of a call that has splats are a tree nested to the left, which `setup_args` walks
from the last argument to the first. The plain arguments in front stay on the stack one by one;
every later piece becomes an array, the arrays are joined at the end, and `caller_setup_args` lays
the elements of the last one on the stack when the call is made.

## Main definitions

* `Args`, `setupArgs` — the tree and its code.
* `callerSetupArgs` — what the call does with the stack.
* `Args.list`, `passed` — the arguments in the order of the source, and what they pass.

## Main results

* `setupArgn_spec` — plain values, then one value for each later piece.
* `reaches_concatarrays` — joining keeps the elements.
* `setupArgs_passes` — the callee receives the arguments in order.
-/

namespace MacRuby

open Machine

variable {E O : Type}

/-! ## The code -/

/-- `nd_body` of a `NODE_ARGSCAT`: an expression, or plain arguments that the parser has put
together. -/
inductive Body (E : Type)
  | node (e : Node E)
  | array (line : ℤ) (elems : List (Node E))

/-- The arguments of a call. -/
inductive Args (E : Type)
  | array (line : ℤ) (elems : List (Node E))
  | splat (line : ℤ) (e : Node E)
  | argscat (line : ℤ) (head : Args E) (body : Body E)
  | argspush (line : ℤ) (head : Args E) (body : Node E)

/-- `nd_type(argn) == NODE_ARRAY`, with the line and the elements. -/
def Args.array? : Args E → Option (ℤ × List (Node E))
  | .array line elems => some (line, elems)
  | _ => none

/-- An argument is never pushed onto plain ones: the parser appends it to their list. -/
def Args.WellFormed : Args E → Prop
  | .array _ _ | .splat _ _ => True
  | .argscat _ head _ => head.WellFormed
  | .argspush _ head _ => head.array? = none ∧ head.WellFormed

/-- The variables of `setup_args`; `splat` is `VM_CALL_ARGS_SPLAT_BIT` of `*flag`. -/
structure ArgSetup where
  args : List (Elem Value)
  argsSplat : List (Elem Value)
  argc : ℤ
  nsplat : ℕ
  splat : Bool
  no : ℕ

section Compile

variable (compile : E → Bool → ℕ → List (Elem Value) × ℕ)

/-- `COMPILE(tmp, "args (cat: splat)", argn->nd_body)`. -/
def compileBody : Body E → ℕ → List (Elem Value) × ℕ
  | .node e, no => compileNode compile e false no
  | .array line elems, no => compileArray compile line elems true false no

/-- `compile_array(iseq, args, argn, Qfalse)` and `POP_ELEMENT(args)`. -/
def setupArray (line : ℤ) (elems : List (Node E)) (argc : ℤ) (st : ArgSetup) : ArgSetup :=
  let c := compileArray compile line elems false false st.no
  { st with args := c.1.dropLast, argc := argc, no := c.2 }

/-- `INSERT_LIST(args_splat, tmp)`, with what is done to the value after `tmp`. -/
def insertSplat (tmp wrap : List (Elem Value)) (no : ℕ) (st : ArgSetup) : ArgSetup :=
  { st with argsSplat := tmp ++ (wrap ++ st.argsSplat), nsplat := st.nsplat + 1, splat := true,
            no := no }

/-- `setup_argn`. -/
def setupArgn : Args E → ArgSetup → ArgSetup
  | .array line elems, st => setupArray compile line elems elems.length st
  | .splat _ e, st =>
      let c := compileNode compile e false st.no
      { st with args := c.1, argc := 1, nsplat := st.nsplat + 1, splat := true, no := c.2 }
  | .argscat line head body, st =>
      let tmp := compileBody compile body st.no
      let wrap := if head.array?.isSome && st.nsplat == 0 then []
        else [.insn ⟨.splatarray, line, [.value .qfalse]⟩]
      let st := insertSplat tmp.1 wrap tmp.2 st
      match head.array? with
      | some (line, elems) => setupArray compile line elems (elems.length + 1) st
      | none => setupArgn head st
  | .argspush line head body, st =>
      let tmp := compileNode compile body false st.no
      let wrap := if head.array?.isSome && st.nsplat == 0 then []
        else [.insn ⟨.newarray, line, [.num 1]⟩]
      let st := insertSplat tmp.1 wrap tmp.2 st
      match head.array? with
      | some (line, elems) => setupArray compile line elems (elems.length + 1) st
      | none => setupArgn head st

/-- The walk from the beginning, where `argn` may be null. -/
def setupFrom (no : ℕ) : Option (Args E) → ArgSetup
  | some argn => setupArgn compile argn ⟨[], [], 0, 0, false, no⟩
  | none => ⟨[], [], 0, 0, false, no⟩

/-- What `setup_args` leaves: the code, the count it returns and the bits of `*flag`. -/
structure ArgCode where
  code : List (Elem Value)
  argc : ℤ
  splat : Bool
  blockarg : Bool

/-- `setup_args(iseq, args, argn, flag)`, where `argn` may be null and may have a block. The line of
the `concatarray`s is read from a list as if it were a node, and may be any. -/
def setupArgs (anyLine : ℤ) (argn : Option (Args E)) (block : Option (Node E)) (no : ℕ) : ArgCode :=
  let argBlock := match block with
    | some e => compileNode compile e false no
    | none => ([], no)
  let st := setupFrom compile argBlock.2 argn
  { code := st.args ++ (st.argsSplat ++ (List.replicate (st.nsplat - 1)
      (.insn ⟨.concatarray, anyLine, []⟩) ++ argBlock.1))
    argc := st.argc
    splat := st.splat
    blockarg := block.isSome }

end Compile

/-! ## The call -/

/-- `rb_raise(rb_eTypeError, "wrong argument type %s (expected Proc)", ...)`. -/
inductive BlockError
  | wrongType (proc : Value)

/-- The block a value is or is converted to by `to_proc`; `nil` is none. -/
def blockOf (toProc : Value → Option Block) : Value → Except BlockError (Option Block)
  | .nil => .ok none
  | proc =>
      match toProc proc with
      | some b => .ok (some b)
      | none => .error (.wrongType proc)

/-- The block of a call: the value on top of the stack, or the block that stands with the call. With
a null pointer `block` there is none, and nothing is taken from the stack. -/
def callerSetupBlock (toProc : Value → Option Block) (blockp blockarg : Bool)
    (blockiseq : Option Block) (stack : List Value) :
    Except BlockError (Option Block × List Value) :=
  match blockp, blockarg, stack with
  | true, true, proc :: stack => (blockOf toProc proc).map fun b => (b, stack)
  | true, true, [] => .ok (none, [])
  | true, false, stack => .ok (blockiseq, stack)
  | false, _, stack => .ok (none, stack)

/-- The values passed are laid on the stack. -/
def callerSetupSplat (toA : ℕ → Option (List Value)) (splat : Bool) (argc : ℤ)
    (stack : List Value) : ℤ × List Value :=
  match splat, stack with
  | true, ary :: stack =>
      match rbCheckToA toA ary with
      | none => (argc, ary :: stack)
      | some tmp => (argc + (tmp.length - 1), tmp.reverse ++ stack)
  | _, stack => (argc, stack)

/-- `caller_setup_args(th, cfp, flag, argc, blockiseq, block)`: the count of the arguments, the
block, and the stack. -/
def callerSetupArgs (toA : ℕ → Option (List Value)) (toProc : Value → Option Block) (blockp : Bool)
    (blockiseq : Option Block) (c : ArgCode) (stack : List Value) :
    Except BlockError (ℤ × Option Block × List Value) :=
  (callerSetupBlock toProc blockp c.blockarg blockiseq stack).map fun b =>
    let r := callerSetupSplat toA c.splat c.argc b.2
    (r.1, b.1, r.2)

/-! ## What the arguments pass -/

/-- An argument as it is written. -/
inductive Arg (E : Type)
  | plain (e : Node E)
  | splat (e : Node E)

/-- The arguments of a `NODE_ARGSCAT` after those of its head. -/
def Body.list : Body E → List (Arg E)
  | .node e => [.splat e]
  | .array _ elems => elems.map .plain

/-- The arguments in the order of the source. -/
def Args.list : Args E → List (Arg E)
  | .array _ elems => elems.map .plain
  | .splat _ e => [.splat e]
  | .argscat _ head body => head.list ++ body.list
  | .argspush _ head e => head.list ++ [.plain e]

section Meaning

variable (eval : E → World O → Value × World O) (elements : Value → List Value)

/-- What an argument passes. -/
def Arg.passed : Arg E → World O → List Value × World O
  | .plain e, w => ([(evalNode eval e w).1], (evalNode eval e w).2)
  | .splat e, w => (elements (evalNode eval e w).1, (evalNode eval e w).2)

/-- What the arguments pass, evaluated once each from left to right. -/
def passed : List (Arg E) → World O → List Value × World O
  | [], w => ([], w)
  | a :: args, w =>
      let r := a.passed eval elements w
      let t := passed args r.2
      (r.1 ++ t.1, t.2)

attribute [grind =] passed

theorem passed_append (args args' : List (Arg E)) (w : World O) :
    passed eval elements (args ++ args') w =
      ((passed eval elements args w).1 ++
        (passed eval elements args' (passed eval elements args w).2).1,
        (passed eval elements args' (passed eval elements args w).2).2) := by
  induction args generalizing w with
  | nil => rfl
  | cons a args ih => simp [passed, ih]

theorem passed_plain (elems : List (Node E)) (w : World O) :
    passed eval elements (elems.map .plain) w = evalAll (evalNode eval) elems w := by
  induction elems generalizing w with
  | nil => rfl
  | cons e elems ih => simp [passed, Arg.passed, evalAll, ih]

end Meaning

/-- The arguments of a call that may have none. -/
def argList : Option (Args E) → List (Arg E)
  | some argn => argn.list
  | none => []

/-- The value of a block argument, which is evaluated after the arguments. -/
def evalBlock (eval : E → World O → Value × World O) :
    Option (Node E) → World O → Option Value × World O
  | some e, w => (some (evalNode eval e w).1, (evalNode eval e w).2)
  | none, w => (none, w)

/-- The block a call passes. -/
def givenBlock (toProc : Value → Option Block) (blockp : Bool) (blockiseq : Option Block) :
    Option Value → Except BlockError (Option Block)
  | some v => blockOf toProc v
  | none => .ok (if blockp then blockiseq else none)

/-- Every argument list is evaluated once from left to right, wherever its code stands, and the call
finds on the stack, with their count, the plain values and the elements of the splatted ones in the
order of the source. -/
def PassesInOrder (o : Objects O) (lfp : ℕ) (toProc : Value → Option Block)
    (eval : E → World O → Value × World O) (compile : E → Bool → ℕ → List (Elem Value) × ℕ)
    (elements : Value → List Value) : Prop :=
  ∀ (anyLine : ℤ) (argn : Option (Args E)) (block : Option (Node E)) (no : ℕ) (blockp : Bool)
    (blockiseq : Option Block) (es front back : List (Elem Value)) (stack : List Value)
    (w : World O), (∀ t ∈ argn, t.WellFormed) → (block.isSome → blockp = true) →
    (labelsOf es).Nodup →
    let c := setupArgs compile anyLine argn block no
    let r := passed eval elements (argList argn) w
    let b := evalBlock eval block r.2
    es = front ++ (c.code ++ back) →
    ∃ stack', (o.machine lfp).Reaches es ⟨c.code ++ back, stack, w⟩ ⟨back, stack', b.2⟩ ∧
      callerSetupArgs o.toA toProc blockp blockiseq c stack' =
        (givenBlock toProc blockp blockiseq b.1).map fun blk =>
          ((r.1.length : ℤ), blk, r.1.reverse ++ stack)

/-! ## The pieces -/

section Run

variable {o : Objects O} {lfp : ℕ} {eval : E → World O → Value × World O}
  {compile : E → Bool → ℕ → List (Elem Value) × ℕ}

/-- The code pushes one value, which stands for what the arguments pass. -/
def IsPiece (o : Objects O) (lfp : ℕ) (eval : E → World O → Value × World O)
    (code : List (Elem Value)) (args : List (Arg E)) : Prop :=
  ∀ {es back : List (Elem Value)} (front : List (Elem Value)) (stack : List Value) (w : World O),
    (labelsOf es).Nodup → es = front ++ (code ++ back) →
    ∃ x, (o.machine lfp).Reaches es ⟨code ++ back, stack, w⟩
        ⟨back, x :: stack, (passed eval (splatted o.toA) args w).2⟩ ∧
      splatted o.toA x = (passed eval (splatted o.toA) args w).1

theorem isPiece_compileBody (h : Compiles (o.machine lfp) eval compile) (body : Body E) (no : ℕ) :
    IsPiece o lfp eval (compileBody compile body no).1 body.list := by
  intro es back front stack w hlabels hes
  cases body with
  | node e =>
      refine ⟨_, compiles_compileNode h e false no front stack w hlabels hes, ?_⟩
      simp [Body.list, passed, Arg.passed]
  | array line elems =>
      have hrun := runs_compileArray h line elems true no front stack w hlabels hes
      rw [Body.list, passed_plain]
      exact ⟨_, hrun, rfl⟩

/-- A piece may be splatted before it is joined to the others. -/
theorem isPiece_splatarray {code : List (Elem Value)} {args : List (Arg E)}
    (h : IsPiece o lfp eval code args) (line : ℤ) :
    IsPiece o lfp eval (code ++ [.insn ⟨.splatarray, line, [.value .qfalse]⟩]) args := by
  intro es back front stack w hlabels hes
  rw [List.append_assoc] at hes ⊢
  obtain ⟨x, hrun, hx⟩ := h front stack w hlabels hes
  exact ⟨_, hrun.trans (reaches_splatarray line .qfalse x), hx⟩

/-- A plain argument is a piece if it is put in an array. -/
theorem isPiece_newarray (h : Compiles (o.machine lfp) eval compile) (e : Node E) (no : ℕ)
    (line : ℤ) :
    IsPiece o lfp eval
      ((compileNode compile e false no).1 ++ [.insn ⟨.newarray, line, [.num 1]⟩]) [.plain e] := by
  intro es back front stack w hlabels hes
  rw [List.append_assoc] at hes ⊢
  have hrun := compiles_compileNode h e false no front stack w hlabels hes
  refine ⟨.array [(evalNode eval e w).1], hrun.trans ?_, by simp [passed, Arg.passed]⟩
  exact reaches_newarray line [(evalNode eval e w).1]

/-- What `setup_argn` has done for a tree: plain values on the stack, then one value for each
further piece, which together stand for what the arguments pass. -/
structure SetupSpec (o : Objects O) (lfp : ℕ) (eval : E → World O → Value × World O) (t : Args E)
    (st r : ArgSetup) (pre : List (Elem Value)) : Prop where
  argsSplat : r.argsSplat = pre ++ st.argsSplat
  splat : r.splat = (st.splat || t.array?.isNone)
  run : ∀ {es back : List (Elem Value)} (front : List (Elem Value)) (stack : List Value)
    (w : World O), (labelsOf es).Nodup → es = front ++ (r.args ++ (pre ++ back)) →
    ∃ vs xs, (o.machine lfp).Reaches es ⟨r.args ++ (pre ++ back), stack, w⟩
        ⟨back, xs.reverse ++ (vs.reverse ++ stack),
          (passed eval (splatted o.toA) t.list w).2⟩ ∧
      vs ++ xs.flatMap (splatted o.toA) = (passed eval (splatted o.toA) t.list w).1 ∧
      r.nsplat = st.nsplat + xs.length ∧ (xs = [] ↔ t.array?.isSome) ∧
      r.argc = vs.length + if t.array?.isNone then 1 else 0

theorem dropLast_compileArray (line : ℤ) (elems : List (Node E)) (no : ℕ) :
    (compileArray compile line elems false false no).1.dropLast =
      (compileAll (compileNode compile) (fun _ => false) 0 elems no).1 := by
  simp [compileArray]

/-- The plain arguments of a call are evaluated in order. -/
theorem reaches_setupArray (h : Compiles (o.machine lfp) eval compile) (line : ℤ)
    (elems : List (Node E)) (argc : ℤ) (st : ArgSetup) {es back : List (Elem Value)}
    (front : List (Elem Value)) (stack : List Value) (w : World O) (hlabels : (labelsOf es).Nodup)
    (hes : es = front ++ ((setupArray compile line elems argc st).args ++ back)) :
    (o.machine lfp).Reaches es
      ⟨(setupArray compile line elems argc st).args ++ back, stack, w⟩
      ⟨back, (evalAll (evalNode eval) elems w).1.reverse ++ stack,
        (evalAll (evalNode eval) elems w).2⟩ := by
  simp only [setupArray, dropLast_compileArray] at hes ⊢
  have hrun := reaches_compileAll (compiles_compileNode h) (fun _ => false) 0 elems st.no front
    stack w hlabels hes
  rwa [pushedAll_false] at hrun

/-- A piece after a tree, which is set up before the tree is. -/
theorem setupHead_spec (h : Compiles (o.machine lfp) eval compile) {t head : Args E}
    (ih : ∀ st, ∃ pre, SetupSpec o lfp eval head st (setupArgn compile head st) pre)
    {tmp wrap : List (Elem Value)} {args : List (Arg E)}
    (hpiece : IsPiece o lfp eval (tmp ++ wrap) args) (ht : t.array? = none)
    (hlist : t.list = head.list ++ args) (no : ℕ) (st : ArgSetup) :
    ∃ pre, SetupSpec o lfp eval t st
      (match head.array? with
      | some (line, elems) =>
          setupArray compile line elems (elems.length + 1) (insertSplat tmp wrap no st)
      | none => setupArgn compile head (insertSplat tmp wrap no st)) pre := by
  cases hhead : head.array? with
  | some p =>
      obtain ⟨line, elems⟩ := p
      obtain rfl : head = .array line elems := by
        cases head <;> simp_all [Args.array?]
      refine ⟨tmp ++ wrap, by simp [setupArray, insertSplat], ?_, ?_⟩
      · simp [setupArray, insertSplat, ht]
      · intro es back front stack w hlabels hes
        have hrun := reaches_setupArray h line elems _ _ front stack w hlabels hes
        obtain ⟨x, hrun', hx⟩ := hpiece (front ++ (setupArray compile line elems (elems.length + 1)
          (insertSplat tmp wrap no st)).args) _ (evalAll (evalNode eval) elems w).2 hlabels
          (by simpa using hes)
        refine ⟨(evalAll (evalNode eval) elems w).1, [x], ?_, ?_, ?_, ?_, ?_⟩
        · rw [hlist, passed_append, Args.list, passed_plain]
          exact hrun.trans hrun'
        · rw [hlist, passed_append, Args.list, passed_plain]
          simp [hx]
        · simp [setupArray, insertSplat]
        · simp [ht]
        · simp [setupArray, ht, length_evalAll]
  | none =>
      obtain ⟨pre, hpre⟩ := ih (insertSplat tmp wrap no st)
      refine ⟨pre ++ (tmp ++ wrap), ?_, ?_, ?_⟩
      · rw [hpre.argsSplat]
        simp [insertSplat]
      · rw [hpre.splat, ht]
        simp [insertSplat]
      · intro es back front stack w hlabels hes
        rw [List.append_assoc pre] at hes ⊢
        obtain ⟨vs, xs, hrun, hvals, hn, hxs, hargc⟩ := hpre.run front stack w hlabels hes
        obtain ⟨x, hrun', hx⟩ := hpiece
          (front ++ ((setupArgn compile head (insertSplat tmp wrap no st)).args ++ pre))
          (xs.reverse ++ (vs.reverse ++ stack)) (passed eval (splatted o.toA) head.list w).2 hlabels
          (by simpa using hes)
        refine ⟨vs, xs ++ [x], ?_, ?_, ?_, ?_, ?_⟩
        · rw [hlist, passed_append, List.reverse_append]
          exact hrun.trans hrun'
        · rw [hlist, passed_append, ← hvals]
          simp [hx]
        · rw [hn]
          simp [insertSplat]
          omega
        · simp [ht]
        · rw [hargc, hhead, ht]

/-- **A tree lays plain values and pieces on the stack**, in the order of the source. -/
theorem setupArgn_spec (h : Compiles (o.machine lfp) eval compile) (t : Args E)
    (hwf : t.WellFormed) (st : ArgSetup) :
    ∃ pre, SetupSpec o lfp eval t st (setupArgn compile t st) pre := by
  induction t generalizing st with
  | array line elems =>
      refine ⟨[], rfl, by simp [setupArgn, setupArray, Args.array?], ?_⟩
      intro es back front stack w hlabels hes
      rw [List.nil_append] at hes ⊢
      have hrun := reaches_setupArray h line elems _ _ front stack w hlabels hes
      rw [Args.list, passed_plain]
      refine ⟨(evalAll (evalNode eval) elems w).1, [], hrun, by simp, rfl,
        by simp [Args.array?], ?_⟩
      simp [setupArgn, setupArray, Args.array?, length_evalAll]
  | splat line e =>
      refine ⟨[], rfl, by simp [setupArgn, Args.array?], ?_⟩
      intro es back front stack w hlabels hes
      rw [List.nil_append] at hes ⊢
      have hrun := compiles_compileNode h e false st.no front stack w hlabels hes
      refine ⟨[], [(evalNode eval e w).1], hrun, ?_, rfl, by simp [Args.array?], ?_⟩
      · simp [Args.list, passed, Arg.passed]
      · simp [setupArgn, Args.array?]
  | argscat line head body ih =>
      refine setupHead_spec h (ih hwf) ?_ rfl (by rw [Args.list]) _ st
      split
      · rw [List.append_nil]
        exact isPiece_compileBody h body st.no
      · exact isPiece_splatarray (isPiece_compileBody h body st.no) line
  | argspush line head body ih =>
      refine setupHead_spec h (ih hwf.2) ?_ rfl (by rw [Args.list]) _ st
      rw [hwf.1]
      exact isPiece_newarray h body st.no line

/-- **Joining arrays keeps the elements.** -/
theorem reaches_concatarrays (o : Objects O) (lfp : ℕ) (line : ℤ) (es k : List (Elem Value))
    (stack : List Value) (w : World O) (y : Value) (ys : List Value) :
    ∃ z, (o.machine lfp).Reaches es
        ⟨List.replicate ys.length (.insn ⟨.concatarray, line, []⟩) ++ k, y :: (ys ++ stack), w⟩
        ⟨k, z :: stack, w⟩ ∧
      splatted o.toA z = (y :: ys).reverse.flatMap (splatted o.toA) := by
  induction ys generalizing y with
  | nil => exact ⟨y, .refl, by simp⟩
  | cons y' ys ih =>
      obtain ⟨z, hrun, hz⟩ := ih (concatarray o.toA y' y)
      refine ⟨z, (reaches_concatarray line y' y).trans hrun, ?_⟩
      rw [hz]
      simp [concatarray]

/-- A value on top of plain ones is splatted by the call. -/
theorem callerSetupSplat_of_splatted (toA : ℕ → Option (List Value)) (x : Value)
    (vs stack : List Value) :
    callerSetupSplat toA true (vs.length + 1) (x :: (vs.reverse ++ stack)) =
      (((vs ++ splatted toA x).length : ℤ), (vs ++ splatted toA x).reverse ++ stack) := by
  rw [callerSetupSplat, splatted]
  cases rbCheckToA toA x with
  | none => simp
  | some tmp =>
      simp only [Option.getD_some, List.length_append, List.reverse_append, List.append_assoc,
        Prod.mk.injEq, and_true]
      omega

/-- The arguments are joined to plain values and at most one value to be splatted. -/
theorem reaches_setupFrom (h : Compiles (o.machine lfp) eval compile) (anyLine : ℤ) (no : ℕ)
    (argn : Option (Args E)) (hwf : ∀ t ∈ argn, t.WellFormed) {es back : List (Elem Value)}
    (front : List (Elem Value)) (stack : List Value) (w : World O) (hlabels : (labelsOf es).Nodup)
    {st : ArgSetup} (hst : setupFrom compile no argn = st)
    (hes : es = front ++ (st.args ++ (st.argsSplat ++ (List.replicate (st.nsplat - 1)
      (.insn ⟨.concatarray, anyLine, []⟩) ++ back)))) :
    ∃ stack', (o.machine lfp).Reaches es
        ⟨st.args ++ (st.argsSplat ++ (List.replicate (st.nsplat - 1)
          (.insn ⟨.concatarray, anyLine, []⟩) ++ back)), stack, w⟩
        ⟨back, stack', (passed eval (splatted o.toA) (argList argn) w).2⟩ ∧
      callerSetupSplat o.toA st.splat st.argc stack' =
        (((passed eval (splatted o.toA) (argList argn) w).1.length : ℤ),
          (passed eval (splatted o.toA) (argList argn) w).1.reverse ++ stack) := by
  cases argn with
  | none =>
      subst hst
      exact ⟨stack, .refl, rfl⟩
  | some t =>
      obtain ⟨pre, hspec⟩ := setupArgn_spec h t (hwf t rfl) ⟨[], [], 0, 0, false, no⟩
      rw [show setupArgn compile t _ = st from hst] at hspec
      have hpre : st.argsSplat = pre := by simpa using hspec.argsSplat
      rw [hpre] at hes ⊢
      obtain ⟨vs, xs, hrun, hvals, hn, hxs, hargc⟩ := hspec.run front stack w hlabels hes
      have hsplat := hspec.splat
      rw [Nat.zero_add] at hn
      rw [argList, ← hvals, hn]
      rw [hn] at hrun
      cases hys : xs.reverse with
      | nil =>
          -- only plain values
          obtain rfl : xs = [] := List.reverse_eq_nil_iff.mp hys
          have ht := hxs.mp rfl
          refine ⟨vs.reverse ++ stack, hrun, ?_⟩
          rw [hsplat, hargc]
          simp [callerSetupSplat, Option.isNone_eq_false_iff.mpr ht]
      | cons y ys =>
          have hlen : xs.length - 1 = ys.length := by
            rw [← List.length_reverse, hys]
            rfl
          have ht : t.array?.isNone = true := by
            rw [← Option.not_isSome, Bool.not_eq_true', ← Bool.not_eq_true]
            rintro ht
            simp [hxs.mpr ht] at hys
          obtain ⟨z, hjoin, hz⟩ := reaches_concatarrays o lfp anyLine es back
            (vs.reverse ++ stack) (passed eval (splatted o.toA) t.list w).2 y ys
          refine ⟨z :: (vs.reverse ++ stack), hrun.trans ?_, ?_⟩
          · rw [hys, hlen]
            exact hjoin
          · rw [hsplat, hargc, ht, ← List.reverse_reverse xs, hys, ← hz]
            exact callerSetupSplat_of_splatted o.toA z vs stack

/-- **Splat arguments are passed in order**, the elements of a value being those of its `to_a`, or
the value where it has none. -/
theorem setupArgs_passes (h : Compiles (o.machine lfp) eval compile)
    (toProc : Value → Option Block) :
    PassesInOrder o lfp toProc eval compile (splatted o.toA) := by
  intro anyLine argn block no blockp blockiseq es front back stack w hwf hblock hlabels c r b hes
  cases block with
  | none =>
      simp only [c, setupArgs, List.append_assoc] at hes ⊢
      obtain ⟨stack', hrun, hsplat⟩ := reaches_setupFrom h anyLine no argn hwf front stack w hlabels
        rfl hes
      refine ⟨stack', hrun, ?_⟩
      cases blockp with
      | true =>
          simp [callerSetupArgs, callerSetupBlock, hsplat, b, evalBlock, givenBlock, r, Except.map]
      | false =>
          simp [callerSetupArgs, callerSetupBlock, hsplat, b, evalBlock, givenBlock, r, Except.map]
  | some e =>
      obtain rfl : blockp = true := hblock rfl
      simp only [c, setupArgs, List.append_assoc] at hes ⊢
      obtain ⟨stack', hrun, hsplat⟩ := reaches_setupFrom h anyLine _ argn hwf front stack w hlabels
        rfl hes
      have hrun' := compiles_compileNode h e false no
        (front ++ ((setupFrom compile (compileNode compile e false no).2 argn).args ++
          ((setupFrom compile (compileNode compile e false no).2 argn).argsSplat ++
            List.replicate ((setupFrom compile (compileNode compile e false no).2 argn).nsplat - 1)
              (.insn ⟨.concatarray, anyLine, []⟩)))) stack' r.2 hlabels (by simpa using hes)
      refine ⟨_, hrun.trans hrun', ?_⟩
      simp only [callerSetupArgs, callerSetupBlock, pushed, Bool.false_eq_true, if_false, b,
        evalBlock, givenBlock, Option.isSome_some]
      cases blockOf toProc (evalNode eval e r.2).1 with
      | error err => rfl
      | ok blk => simp [Except.map, hsplat, r]

end Run

/-- Objects without a `to_a`, and no instructions but those described. -/
def plainObjects : Objects Unit where
  rtest
    | .nil | .qfalse => false
    | _ => true
  toA _ := none
  other _ _ _ := none

/-- No expressions but literals. -/
def compileNothing (e : Empty) (_ : Bool) (_ : ℕ) : List (Elem Value) × ℕ := e.elim

/-- `f(1, *[2, 3], 4)`, where the numbers are objects and the array is a value. -/
def mixedArgs : Args Empty :=
  .argspush 1 (.argscat 1 (.array 1 [.lit 1 (.object 1)])
    (.node (.lit 1 (.array [.object 2, .object 3])))) (.lit 1 (.object 4))

theorem compiles_compileNothing :
    Compiles (plainObjects.machine 0) (fun e _ => e.elim) compileNothing := by
  intro e
  exact e.elim

/-- The four values are passed in order. -/
theorem setupArgs_passes_mixedArgs :
    ∃ stack', (plainObjects.machine 0).Reaches
        (setupArgs compileNothing 0 (some mixedArgs) none 0).code
        ⟨(setupArgs compileNothing 0 (some mixedArgs) none 0).code ++ [], [], ⟨fun _ => .nil, ()⟩⟩
        ⟨[], stack', ⟨fun _ => .nil, ()⟩⟩ ∧
      callerSetupArgs plainObjects.toA (fun _ => none) true none
        (setupArgs compileNothing 0 (some mixedArgs) none 0) stack' =
        .ok (4, none, [.object 4, .object 3, .object 2, .object 1]) := by
  have hwf : ∀ t ∈ some mixedArgs, t.WellFormed := by
    intro t ht
    cases ht
    exact ⟨rfl, trivial⟩
  exact setupArgs_passes compiles_compileNothing (fun _ => none) 0 (some mixedArgs) none 0 true none
    _ [] [] [] ⟨fun _ => .nil, ()⟩ hwf (by simp) (by decide) (by simp)

/-- A value that is not an array is taken for itself. -/
def elementsOrItself : Value → List Value
  | .array vs => vs
  | v => [v]

/-- `nil`. -/
def compileNil (_ : Unit) (poped : Bool) (no : ℕ) : List (Elem Value) × ℕ :=
  (if poped then [] else [.insn ⟨.putnil, 1, []⟩], no)

/-- `f(*nil)` passes nothing, not `nil`: `nil` has a `to_a`. -/
theorem not_setupArgs_passes_itself :
    ¬ PassesInOrder plainObjects 0 (fun _ => none) (fun _ w => (.nil, w)) compileNil
      elementsOrItself := by
  intro h
  obtain ⟨stack', hrun, hcall⟩ := h 0 (some (.splat 1 (.other ()))) none 0 true none
    [.insn ⟨.putnil, 1, []⟩] [] [] [] ⟨fun _ => .nil, ()⟩
    (by
      intro t ht
      cases ht
      trivial) (by simp) (by decide) rfl
  obtain hrefl | ⟨f, hnext, hrest⟩ := hrun.cases_head
  · cases hrefl
  · cases hnext
    obtain hrefl | ⟨f, hnext, -⟩ := hrest.cases_head
    · cases hrefl
      cases hcall
    · cases hnext

end MacRuby
