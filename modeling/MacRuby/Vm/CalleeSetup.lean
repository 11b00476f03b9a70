import MacRuby.Compile.Arguments
import MacRuby.Compile.Layout
import MacRuby.Lib.Memory

/-!
# Binding the arguments of a method

`vm_callee_setup_arg` moves the arguments of a call, which lie on the stack one after another, to
the slots of the parameters, which begin at the same address. Post arguments are copied first,
from a copy of the stack where the two ranges may overlap; optional and rest arguments are taken
afterwards from whichever array is current. The entry point it returns is that of the first
default expression to be evaluated.

## Main definitions

* `Value`, `Block`, `ArgPtr` — values, blocks and pointers to arguments.
* `setupPost`, `setupOpt`, `setupRest`, `setupBlock` — the steps.
* `vmCalleeSetupArg` — the function.
-/

namespace MacRuby

/-- Values, as far as binding arguments looks at them. -/
inductive Value
  | nil
  | qfalse
  | array (elems : List Value)
  | object (id : ℕ)

/-- `rb_block_t`, with the proc object made of it, if one was. -/
structure Block where
  id : ℕ
  proc : Option Value

/-- `rb_raise(rb_eArgError, "wrong number of arguments (%d for %d)", ...)`. -/
inductive ArgError
  | wrongNumber (given expected : ℕ)

/-- `argv`: a pointer into the stack, as an offset from `orig_argv`, or into an array allocated
by `ALLOCA_N`. -/
inductive ArgPtr
  | stack (off : ℕ)
  | alloca (vals : List Value) (off : ℕ)

/-- `argv[k]`. -/
def ArgPtr.read (stack : ℕ → Value) : ArgPtr → ℕ → Value
  | .stack off, k => stack (off + k)
  | .alloca vals off, k => vals.getD (off + k) .nil

/-- `argv + n`. -/
def ArgPtr.add : ArgPtr → ℕ → ArgPtr
  | .stack off, n => .stack (off + n)
  | .alloca vals off, n => .alloca vals (off + n)

/-- `argv`, `argc` and `opt_pc` between the steps, with the stack from `orig_argv` on. -/
structure ArgState where
  stack : ℕ → Value
  argv : ArgPtr
  argc : ℕ
  optPc : ℕ

/-- The post arguments are copied to their slots. -/
def setupPost (iseq : IseqArgs) (origArgc : ℕ) (st : ArgState) : ArgState :=
  if iseq.argPostLen ≠ 0 then
    let argv :=
      if ¬ (origArgc : ℤ) < iseq.argPostStart then
        .alloca (Memory.slice (st.argv.read st.stack) 0 st.argc) 0
      else st.argv
    let argc := st.argc - iseq.argPostLen
    { st with
      stack := Memory.copy (fun stack k => argv.read stack (argc + k)) iseq.argPostStart.toNat
        iseq.argPostLen st.stack
      argv := argv
      argc := argc }
  else st

/-- The optional arguments stay where they are, and the missing ones become nil. -/
def setupOpt (iseq : IseqArgs) (argOptTable : List ℕ) (origArgc : ℕ) (st : ArgState) :
    Except ArgError ArgState :=
  if iseq.argOpts ≠ 0 then
    let opts := iseq.argOpts - 1
    if iseq.argRest = -1 ∧ st.argc > opts then
      .error (.wrongNumber origArgc (iseq.argc + opts + iseq.argPostLen))
    else if st.argc > opts then
      .ok { st with
        argc := st.argc - opts
        argv := st.argv.add opts
        optPc := argOptTable.getD opts 0 }
    else
      .ok { st with
        stack := Memory.fill (st.argc + iseq.argc) (opts + iseq.argc) .nil st.stack
        optPc := argOptTable.getD st.argc 0
        argc := 0 }
  else .ok st

/-- The rest argument takes what is left. -/
def setupRest (iseq : IseqArgs) (st : ArgState) : ArgState :=
  if iseq.argRest ≠ -1 then
    { st with
      stack := Function.update st.stack iseq.argRest.toNat
        (.array (Memory.slice (st.argv.read st.stack) 0 st.argc))
      argc := 0 }
  else st

/-- The value of the block argument: the proc of the block, made if there is none yet, or nil. -/
def blockValue (vmMakeProc : Block → Value) : Option Block → Value
  | none => .nil
  | some b => b.proc.getD (vmMakeProc b)

/-- The block argument. `block` is the pointer to the block pointer, which a call always passes;
it is made to point to the proc's block. -/
def setupBlock (vmMakeProc : Block → Value) (iseq : IseqArgs) (origArgc : ℕ) (st : ArgState)
    (block : Option (Option Block)) : Except ArgError (ArgState × Option (Option Block)) :=
  match block with
  | some blockptr =>
      if iseq.argBlock ≠ -1 then
        if st.argc ≠ 0 then .error (.wrongNumber origArgc (iseq.argc + iseq.argPostLen))
        else
          let blockval := blockValue vmMakeProc blockptr
          .ok ({ st with stack := Function.update st.stack iseq.argBlock.toNat blockval },
            some (blockptr.map fun b => { b with proc := some blockval }))
      else .ok (st, block)
  | none => .ok (st, block)

/-- What `vm_callee_setup_arg` leaves: the stack, the entry point and the block pointer. -/
structure CalleeSetup where
  stack : ℕ → Value
  optPc : ℕ
  block : Option (Option Block)

/-- `vm_callee_setup_arg`. -/
def vmCalleeSetupArg (vmMakeProc : Block → Value) (iseq : IseqArgs) (argOptTable : List ℕ)
    (origArgc : ℕ) (stack : ℕ → Value) (block : Option (Option Block)) :
    Except ArgError CalleeSetup :=
  if iseq.argSimple % 2 = 1 then
    if origArgc ≠ iseq.argc then .error (.wrongNumber origArgc iseq.argc)
    else .ok ⟨stack, 0, block⟩
  else if origArgc < iseq.argc + iseq.argPostLen then
    .error (.wrongNumber origArgc (iseq.argc + iseq.argPostLen))
  else do
    let st := setupPost iseq origArgc ⟨stack, .stack iseq.argc, origArgc - iseq.argc, 0⟩
    let st ← setupOpt iseq argOptTable origArgc st
    let st := setupRest iseq st
    let (st, block) ← setupBlock vmMakeProc iseq origArgc st block
    return ⟨st.stack, st.optPc, block⟩

/-! ## What the steps leave -/

/-- The stack holds the arguments from `orig_argv` on. -/
def Holds (args : List Value) (stack : ℕ → Value) : Prop :=
  ∀ i < args.length, args[i]? = some (stack i)

section

variable {E : Type*} {sig : Signature E} {isBlock : Bool} {iseq : IseqArgs} {args : List Value}

/-- Between the steps, `g` optional arguments being taken: the mandatory and the post slots are
filled, and `argv` points to the arguments that are left. -/
structure Filled (sig : Signature E) (args : List Value) (g : ℕ) (st : ArgState) : Prop where
  mandatory : ∀ i < sig.m, args[i]? = some (st.stack i)
  post : ∀ i < sig.p, args[args.length - sig.p + i]? = some (st.stack (sig.postSlot + i))
  argc : st.argc + g = args.length - sig.m - sig.p
  argv : ∀ k < st.argc, args[sig.m + g + k]? = some (st.argv.read st.stack k)

/-- The post arguments land in their slots, and the arguments between them and the mandatory ones
can still be read and are still in place. -/
theorem setupPost_spec (hs : SlotsOf sig isBlock iseq) {stack : ℕ → Value}
    (hstack : Holds args stack) (hn : sig.m + sig.p ≤ args.length) :
    Filled sig args 0
        (setupPost iseq args.length ⟨stack, .stack iseq.argc, args.length - iseq.argc, 0⟩) ∧
      ∀ i, i < args.length - sig.m - sig.p → i < sig.o → args[sig.m + i]? = some
        ((setupPost iseq args.length
          ⟨stack, .stack iseq.argc, args.length - iseq.argc, 0⟩).stack (sig.m + i)) := by
  rw [setupPost, hs.argPostLen, hs.argc]
  by_cases hp : sig.p = 0
  · rw [if_neg (by simpa using hp)]
    refine ⟨⟨fun i hi => hstack i (by omega), by simp [hp], by simp [hp], fun k hk => ?_⟩,
      fun i hi _ => hstack _ (by omega)⟩
    simp only at hk
    exact hstack _ (by omega)
  · rw [if_pos hp, hs.argPostStart hp]
    have hslot : sig.m + sig.o ≤ sig.postSlot := by
      rw [Signature.postSlot, Signature.restSlot]
      omega
    simp only [Int.toNat_natCast]
    -- the pointer reads the arguments after the mandatory ones, whatever is stored from the
    -- first post slot on
    generalize hargv : (if ¬ (args.length : ℤ) < (sig.postSlot : ℤ) then
      ArgPtr.alloca (Memory.slice ((ArgPtr.stack sig.m).read stack) 0 (args.length - sig.m)) 0
      else ArgPtr.stack sig.m) = argv
    have hread : ∀ k < args.length - sig.m, ∀ stack' : ℕ → Value,
        (∀ i < sig.postSlot, stack' i = stack i) → argv.read stack' k = stack (sig.m + k) := by
      intro k hk stack' hsame
      split_ifs at hargv with hover
      · subst hargv
        exact hsame _ (by omega)
      · subst hargv
        rw [ArgPtr.read, Nat.zero_add, List.getD_eq_getElem?_getD, Memory.getElem?_slice hk,
          Option.getD_some, Nat.zero_add, ArgPtr.read]
    have hcopy := Memory.copy_apply
      (fun stack k => argv.read stack (args.length - sig.m - sig.p + k)) sig.postSlot sig.p stack
      (fun k hk m' hm' => by
        rw [hread _ (by omega) m' (fun i hi => hm' i (Or.inl hi)),
          hread _ (by omega) stack (fun _ _ => rfl)])
    generalize Memory.copy
      (fun stack k => argv.read stack (args.length - sig.m - sig.p + k)) sig.postSlot sig.p stack =
      stack1 at hcopy ⊢
    refine ⟨⟨fun i hi => ?_, fun i hi => ?_, by simp, fun k hk => ?_⟩, fun i hi ho => ?_⟩
    · dsimp only
      rw [hcopy, if_neg (by omega)]
      exact hstack i (by omega)
    · dsimp only
      rw [hcopy, if_pos (by omega), Nat.add_sub_cancel_left,
        hread _ (by omega) stack (fun _ _ => rfl), ← hstack _ (by omega)]
      congr 1
      omega
    · dsimp only at hk ⊢
      rw [hread k (by omega) _ (fun i hi => by rw [hcopy, if_neg (by omega)])]
      exact hstack _ (by omega)
    · rw [hcopy, if_neg (by omega)]
      exact hstack _ (by omega)

/-- How many optional parameters get an argument. -/
def Signature.given (sig : Signature E) (n : ℕ) : ℕ := min sig.o (n - sig.m - sig.p)

/-- The optional slots hold their arguments, and nil where there is none. -/
def OptFilled (sig : Signature E) (args : List Value) (stack : ℕ → Value) : Prop :=
  (∀ i < sig.given args.length, args[sig.m + i]? = some (stack (sig.m + i))) ∧
  ∀ i, sig.given args.length ≤ i → i < sig.o → stack (sig.m + i) = .nil

/-- Too many arguments are an error here if there are optional parameters and no rest; otherwise
the entry point is that of the first parameter that got none. -/
theorem setupOpt_spec (hs : SlotsOf sig isBlock iseq) (table : List ℕ) {st : ArgState}
    (hst : Filled sig args 0 st) (hpc : st.optPc = 0)
    (hplace : ∀ i, i < args.length - sig.m - sig.p → i < sig.o →
      args[sig.m + i]? = some (st.stack (sig.m + i))) :
    (sig.o ≠ 0 ∧ sig.rest = none ∧ sig.m + sig.o + sig.p < args.length ∧
      ∃ e, setupOpt iseq table args.length st = .error e) ∨
    ((sig.o = 0 ∨ sig.rest.isSome ∨ args.length ≤ sig.m + sig.o + sig.p) ∧
      ∃ st', setupOpt iseq table args.length st = .ok st' ∧
        Filled sig args (sig.given args.length) st' ∧ OptFilled sig args st'.stack ∧
        st'.optPc = if sig.o = 0 then 0 else table.getD (sig.given args.length) 0) := by
  have hargc : st.argc = args.length - sig.m - sig.p := by simpa using hst.argc
  have hrest : iseq.argRest = -1 ↔ sig.rest = none := by
    rw [hs.argRest]
    cases sig.rest <;> simp
  rw [setupOpt, hs.argOpts, hs.argc]
  by_cases ho : sig.o = 0
  · right
    have hgiven : sig.given args.length = 0 := by simp [Signature.given, ho]
    rw [if_neg (by simp [ho])]
    refine ⟨Or.inl ho, st, rfl, ?_, ⟨by simp [hgiven], by simp [ho]⟩, by rw [if_pos ho, hpc]⟩
    rwa [hgiven]
  · simp only [if_neg ho, Nat.add_sub_cancel, hrest]
    rw [if_pos (Nat.succ_ne_zero _)]
    by_cases hmore : st.argc > sig.o
    · have hgiven : sig.given args.length = sig.o := by
        rw [Signature.given]
        omega
      by_cases hr : sig.rest = none
      · left
        rw [if_pos ⟨hr, hmore⟩]
        exact ⟨ho, hr, by omega, _, rfl⟩
      · right
        rw [if_neg (by tauto), if_pos hmore]
        refine ⟨Or.inr (Or.inl (Option.isSome_iff_ne_none.mpr hr)), _, rfl, ?_, ?_, ?_⟩
        · refine ⟨hst.mandatory, hst.post, ?_, fun k hk => ?_⟩
          · dsimp only
            omega
          · dsimp only at hk ⊢
            have hold := hst.argv (sig.o + k) (by omega)
            rw [Nat.add_zero, ← Nat.add_assoc] at hold
            rw [hgiven, hold]
            cases st.argv <;> simp [ArgPtr.add, ArgPtr.read, Nat.add_assoc]
        · exact ⟨fun i hi => hplace i (by omega) (by omega), fun i hi hi' => by omega⟩
        · simp [hgiven]
    · have hgiven : sig.given args.length = st.argc := by
        rw [Signature.given]
        omega
      have hfill := Memory.fill_apply (st.argc + sig.m) (sig.o + sig.m) Value.nil st.stack
      right
      rw [if_neg (by tauto), if_neg hmore]
      refine ⟨Or.inr (Or.inr (by omega)), _, rfl, ?_, ?_, by simp [hgiven]⟩
      · refine ⟨fun i hi => ?_, fun i hi => ?_, by dsimp only; omega, by simp⟩
        · dsimp only
          rw [hfill, if_neg (by omega)]
          exact hst.mandatory i hi
        · dsimp only
          rw [hfill, if_neg (by rw [Signature.postSlot, Signature.restSlot]; omega)]
          exact hst.post i hi
      · refine ⟨fun i hi => ?_, fun i hi hi' => ?_⟩
        · dsimp only
          rw [hfill, if_neg (by omega)]
          exact hplace i (by omega) (by omega)
        · dsimp only
          rw [hfill, if_pos (by omega)]

/-- The rest slot holds the list of the arguments that are left. -/
def RestFilled (sig : Signature E) (args : List Value) (stack : ℕ → Value) : Prop :=
  sig.rest.isSome → stack sig.restSlot = .array ((args.drop (sig.m + sig.given args.length)).take
    (args.length - sig.m - sig.p - sig.given args.length))

/-- What `argv` points to is the list of the arguments that are left. -/
theorem Filled.slice_eq {g : ℕ} {st : ArgState} (hst : Filled sig args g st) :
    Memory.slice (st.argv.read st.stack) 0 st.argc =
      (args.drop (sig.m + g)).take (args.length - sig.m - sig.p - g) := by
  have hargc : st.argc = args.length - sig.m - sig.p - g := by
    have := hst.argc
    omega
  rw [← hargc]
  apply List.ext_getElem?
  intro k
  by_cases hk : k < st.argc
  · rw [Memory.getElem?_slice hk, Nat.zero_add, List.getElem?_take_of_lt hk, List.getElem?_drop,
      hst.argv k hk]
  · rw [List.getElem?_eq_none (by simpa using hk), List.getElem?_eq_none]
    simp only [List.length_take, List.length_drop]
    omega

theorem setupRest_spec (hs : SlotsOf sig isBlock iseq) {st : ArgState}
    (hst : Filled sig args (sig.given args.length) st) (hopt : OptFilled sig args st.stack) :
    (∀ i < sig.m, args[i]? = some ((setupRest iseq st).stack i)) ∧
      (∀ i < sig.p, args[args.length - sig.p + i]? =
        some ((setupRest iseq st).stack (sig.postSlot + i))) ∧
      OptFilled sig args (setupRest iseq st).stack ∧
      RestFilled sig args (setupRest iseq st).stack ∧
      (setupRest iseq st).optPc = st.optPc ∧
      (setupRest iseq st).argc = if sig.rest.isSome then 0 else st.argc := by
  rw [setupRest, hs.argRest]
  cases hr : sig.rest with
  | none =>
      rw [if_neg (by simp)]
      exact ⟨hst.mandatory, hst.post, hopt, by simp [RestFilled, hr], rfl, by simp⟩
  | some r =>
      simp only [Option.isSome_some, if_true, Int.toNat_natCast]
      rw [if_pos (by omega)]
      have hpost : sig.postSlot = sig.restSlot + 1 := by simp [Signature.postSlot, hr]
      have hslot : sig.restSlot = sig.m + sig.o := rfl
      have hother : ∀ i, i ≠ sig.restSlot → Function.update st.stack sig.restSlot
          (.array (Memory.slice (st.argv.read st.stack) 0 st.argc)) i = st.stack i :=
        fun i hi => Function.update_of_ne hi _ _
      refine ⟨fun i hi => ?_, fun i hi => ?_, ⟨fun i hi => ?_, fun i hi hi' => ?_⟩, fun _ => ?_,
        rfl, rfl⟩ <;> dsimp only
      · rw [hother i (by omega)]
        exact hst.mandatory i hi
      · rw [hother _ (by omega)]
        exact hst.post i hi
      · have hle : sig.given args.length ≤ sig.o := Nat.min_le_left _ _
        rw [hother _ (by omega)]
        exact hopt.1 i hi
      · rw [hother _ (by omega)]
        exact hopt.2 i hi hi'
      · rw [Function.update_self, hst.slice_eq]

/-- Arguments that are still left are an error if there is a block parameter; otherwise the block
is stored, and only to its own slot. -/
theorem setupBlock_spec (vmMakeProc : Block → Value) (hs : SlotsOf sig isBlock iseq) (n : ℕ)
    (st : ArgState) (blockptr : Option Block) :
    (sig.block.isSome ∧ st.argc ≠ 0 ∧
      ∃ e, setupBlock vmMakeProc iseq n st (some blockptr) = .error e) ∨
    ((sig.block = none ∨ st.argc = 0) ∧
      ∃ st' block, setupBlock vmMakeProc iseq n st (some blockptr) = .ok (st', block) ∧
        st'.optPc = st.optPc ∧ (∀ i < sig.blockSlot, st'.stack i = st.stack i) ∧
        (sig.block.isSome → st'.stack sig.blockSlot = blockValue vmMakeProc blockptr)) := by
  simp only [setupBlock, hs.argBlock]
  cases hb : sig.block with
  | none => exact Or.inr ⟨Or.inl rfl, st, some blockptr, rfl, rfl, fun _ _ => rfl, by simp⟩
  | some b =>
      simp only [Option.isSome_some, if_true, Int.toNat_natCast]
      rw [if_pos (by omega)]
      by_cases hargc : st.argc = 0
      · rw [if_neg (by simpa using hargc)]
        refine Or.inr ⟨Or.inr hargc, _, _, rfl, rfl, fun i hi => ?_, fun _ => ?_⟩
        · exact Function.update_of_ne (by omega) _ _
        · exact Function.update_self _ _ _
      · rw [if_pos hargc]
        exact Or.inl ⟨trivial, hargc, _, rfl⟩

/-- Without optional parameters, a rest and a block nothing but mandatory parameters is left. -/
theorem o_ne_zero_of_not_simple (hs : SlotsOf sig isBlock iseq) (h : ¬ iseq.argSimple % 2 = 1)
    (hr : sig.rest = none) (hb : sig.block = none) : sig.o ≠ 0 := by
  intro ho
  apply h
  refine hs.argSimple.mpr ⟨ho, ?_, hr, hb⟩
  by_contra hp
  rcases sig.post_alone (by rintro h; simp [Signature.p, h] at hp) with h | h
  · exact h (by simpa [Signature.o] using ho)
  · simp [hr] at h

/-- The parameters are bound as the signature says. -/
structure Bound (sig : Signature E) (args : List Value) (block : Value) (stack : ℕ → Value) :
    Prop where
  mandatory : ∀ i < sig.m, args[i]? = some (stack i)
  post : ∀ i < sig.p, args[args.length - sig.p + i]? = some (stack (sig.postSlot + i))
  optional : OptFilled sig args stack
  rest : RestFilled sig args stack
  block : sig.block.isSome → stack sig.blockSlot = block

/-- The slots below the block's are filled before it. -/
theorem Bound.of_same {block : Value} {stack stack' : ℕ → Value}
    (hm : ∀ i < sig.m, args[i]? = some (stack i))
    (hp : ∀ i < sig.p, args[args.length - sig.p + i]? = some (stack (sig.postSlot + i)))
    (hopt : OptFilled sig args stack) (hrest : RestFilled sig args stack)
    (hsame : ∀ i < sig.blockSlot, stack' i = stack i)
    (hblock : sig.block.isSome → stack' sig.blockSlot = block) : Bound sig args block stack' := by
  have hgiven : sig.given args.length ≤ sig.o := Nat.min_le_left _ _
  have hslots : sig.m + sig.o ≤ sig.postSlot ∧ sig.postSlot + sig.p = sig.blockSlot :=
    ⟨Nat.le_add_right _ _, rfl⟩
  refine ⟨fun i hi => ?_, fun i hi => ?_, ⟨fun i hi => ?_, fun i hi hi' => ?_⟩, fun hr => ?_,
    hblock⟩
  · rw [hsame i (by omega)]
    exact hm i hi
  · rw [hsame _ (by omega)]
    exact hp i hi
  · rw [hsame _ (by omega)]
    exact hopt.1 i hi
  · rw [hsame _ (by omega)]
    exact hopt.2 i hi hi'
  · have hpost : sig.postSlot = sig.restSlot + 1 := by
      obtain ⟨r, hr⟩ := Option.isSome_iff_exists.mp hr
      simp [Signature.postSlot, hr]
    rw [hsame _ (by omega)]
    exact hrest hr

/-- **Binding raises exactly on a wrong number of arguments, and otherwise fills the slots.** -/
theorem vmCalleeSetupArg_spec (vmMakeProc : Block → Value) (hs : SlotsOf sig isBlock iseq)
    (table : List ℕ) {stack : ℕ → Value} (hstack : Holds args stack) (blockptr : Option Block) :
    ((args.length < sig.m + sig.p ∨ sig.m + sig.o + sig.p < args.length ∧ sig.rest = none) ∧
      ∃ e, vmCalleeSetupArg vmMakeProc iseq table args.length stack (some blockptr) = .error e) ∨
    (¬ (args.length < sig.m + sig.p ∨ sig.m + sig.o + sig.p < args.length ∧ sig.rest = none) ∧
      ∃ c, vmCalleeSetupArg vmMakeProc iseq table args.length stack (some blockptr) = .ok c ∧
        Bound sig args (blockValue vmMakeProc blockptr) c.stack ∧
        c.optPc = if sig.o = 0 then 0 else table.getD (sig.given args.length) 0) := by
  rw [vmCalleeSetupArg]
  by_cases hsimple : iseq.argSimple % 2 = 1
  · obtain ⟨ho, hp, hr, hb⟩ := hs.argSimple.mp hsimple
    rw [if_pos hsimple, hs.argc]
    by_cases hn : args.length = sig.m
    · right
      rw [if_neg (by simpa using hn)]
      refine ⟨by simp [hn, ho, hp], _, rfl, ?_, by simp [ho]⟩
      exact ⟨fun i hi => hstack i (by omega), by simp [hp],
        ⟨by simp [Signature.given, ho], by simp [ho]⟩, by simp [RestFilled, hr], by simp [hb]⟩
    · left
      rw [if_pos hn]
      refine ⟨?_, _, rfl⟩
      simp only [ho, hp, hr, and_true]
      omega
  · rw [if_neg hsimple, hs.argc, hs.argPostLen]
    by_cases hfew : args.length < sig.m + sig.p
    · left
      rw [if_pos hfew]
      exact ⟨Or.inl hfew, _, rfl⟩
    rw [if_neg hfew]
    obtain ⟨hpost, hplace⟩ := setupPost_spec hs hstack (by omega)
    have hpc : (setupPost iseq args.length
        ⟨stack, .stack iseq.argc, args.length - iseq.argc, 0⟩).optPc = 0 := by
      rw [setupPost]
      split <;> rfl
    rw [hs.argc] at hpost hplace hpc
    obtain ⟨ho, hr, hmany, e, he⟩ | ⟨hok, st, he, hfill, hopt, hentry⟩ :=
      setupOpt_spec hs table hpost hpc hplace
    · left
      refine ⟨Or.inr ⟨hmany, hr⟩, e, ?_⟩
      simp only [he]
      rfl
    · obtain ⟨hm, hp', hopt', hrest', hpc', hargc⟩ := setupRest_spec hs hfill hopt
      have hmore := hfill.argc
      have hgiven : sig.given args.length = min sig.o (args.length - sig.m - sig.p) := rfl
      simp only [he]
      obtain ⟨hb, hleft, e, hblk⟩ | ⟨hleft, st', block, hblk, hpc'', hsame, hblock⟩ :=
        setupBlock_spec vmMakeProc hs args.length (setupRest iseq st) blockptr
      · left
        have hr : sig.rest = none := by
          by_contra hr
          rw [hargc, if_pos (Option.isSome_iff_ne_none.mpr hr)] at hleft
          exact hleft rfl
        rw [hargc, hr, if_neg (by simp)] at hleft
        refine ⟨Or.inr ⟨by omega, hr⟩, e, ?_⟩
        show (setupBlock vmMakeProc iseq args.length (setupRest iseq st) (some blockptr) >>= _) = _
        rw [hblk]
        rfl
      · right
        refine ⟨?_, ⟨st'.stack, st'.optPc, block⟩, ?_,
          Bound.of_same hm hp' hopt' hrest' hsame hblock,
          by rw [hpc'', hpc', hentry]⟩
        · rintro (h | ⟨hmany, hr⟩)
          · exact hfew h
          · rw [hargc, hr, if_neg (by simp)] at hleft
            simp only [hr, Option.isSome_none, Bool.false_eq_true, false_or] at hok
            rcases hleft with hb | hleft
            · have := o_ne_zero_of_not_simple hs hsimple hr hb
              omega
            · omega
        · show (setupBlock vmMakeProc iseq args.length (setupRest iseq st) (some blockptr) >>= _)
            = _
          rw [hblk]
          rfl

end

/-! ## The entry point -/

section

variable {V E : Type*} (compile : E → ℕ → List (Elem V) × ℕ)

/-- The code of each default expression, with its label. -/
def defaults : ℕ → List E → List (List (Elem V))
  | _, [] => []
  | no, e :: es => (.label no :: (compile e (no + 1)).1) :: defaults (compile e (no + 1)).2 es

@[simp] theorem length_defaults (no : ℕ) (es : List E) :
    (defaults compile no es).length = es.length := by
  induction es generalizing no with
  | nil => rfl
  | cons e es ih => simp [defaults, ih]

theorem compileOptArgs_eq (no : ℕ) (es : List E) :
    ∃ l, (compileOptArgs compile no es).1 = (defaults compile no es).flatten ++ [.label l] := by
  induction es generalizing no with
  | nil => exact ⟨no, rfl⟩
  | cons e es ih =>
      obtain ⟨l, hl⟩ := ih (compile e (no + 1)).2
      exact ⟨l, by simp [compileOptArgs, defaults, hl]⟩

/-- Label `k` of the table stands after the code of the first `k` default expressions. -/
theorem label_compileOptArgs (no : ℕ) (es : List E) {k : ℕ} (hk : k ≤ es.length) :
    ∃ l, (compileOptArgs compile no es).2.1[k]? = some l ∧
      (compileOptArgs compile no es).1[((defaults compile no es).take k).flatten.length]? =
        some (.label l) := by
  induction es generalizing no k with
  | nil =>
      obtain rfl : k = 0 := by simpa using hk
      exact ⟨no, rfl, rfl⟩
  | cons e es ih =>
      cases k with
      | zero => exact ⟨no, rfl, rfl⟩
      | succ k =>
          obtain ⟨l, hl, hpos⟩ := ih (compile e (no + 1)).2 (by simpa using hk)
          refine ⟨l, by simpa [compileOptArgs] using hl, ?_⟩
          simp only [compileOptArgs, defaults, List.take_succ_cons, List.flatten_cons,
            List.cons_append, List.length_cons, List.length_append, List.getElem?_cons_succ]
          rw [List.getElem?_append_right (by omega), Nat.add_sub_cancel_left]
          exact hpos

/-- The entry point `pc` evaluates exactly the default expressions from the `g`-th on: the code
before it is that of the first `g` of them, and the code from it on starts with the others. -/
def EntersAt (eql : V → V → Bool) (ds : List (List (Elem V))) (g : ℕ) (elems : List (Elem V))
    (s : Sequence V) (pc : ℕ) : Prop :=
  ∃ bs after, LaidOut eql elems s bs ∧
    elems = (ds.take g).flatten ++ (ds.drop g).flatten ++ after ∧
    pc = Blocks.start bs (ds.take g).flatten.length

/-- The table of optional arguments holds the entry points. -/
theorem entersAt_table {eql : V → V → Bool} {anchor : Anchor V} {s : Sequence V} {no : ℕ}
    {es : List E} (body : List (Elem V))
    (helems : anchor.elems = (compileOptArgs compile no es).1 ++ body)
    (hs : iseqSetSequence eql anchor = .ok s) {g : ℕ} (hg : g ≤ es.length) :
    EntersAt eql (defaults compile no es) g anchor.elems s
      ((iseqSetOptargsTable s.labels (compileOptArgs compile no es).2.1).getD g 0) := by
  obtain ⟨bs, hbs⟩ := laidOut_of_eq_ok hs
  obtain ⟨last, hlast⟩ := compileOptArgs_eq compile no es
  obtain ⟨l, hl, hpos⟩ := label_compileOptArgs compile no es hg
  refine ⟨bs, .label last :: body, hbs, ?_, ?_⟩
  · rw [← List.flatten_append, List.take_append_drop, helems, hlast]
    simp
  · have hlabel : anchor.elems[((defaults compile no es).take g).flatten.length]? =
        some (.label l) := by
      rw [helems, List.getElem?_append_left]
      · exact hpos
      · exact (List.getElem?_eq_some_iff.mp hpos).1
    rw [iseqSetOptargsTable, List.getD_eq_getElem?_getD, List.getElem?_map, hl, Option.map_some,
      Option.getD_some, hbs.label_position _ _ hlabel, Blocks.next_eq_start]

/-- **Method argument binding follows the signature.** For every parameter list, every list of
arguments on the stack and every block: the call raises exactly when there are too few arguments,
or too many and no rest parameter; otherwise every slot holds what its parameter takes, and the
entry point evaluates exactly the missing defaults. -/
theorem vmCalleeSetupArg_binds (eql : V → V → Bool) (vmMakeProc : Block → Value)
    (sig : Signature E) (locals : List ℕ) (labelNo : ℕ) :
    ∃ a, iseqSetArguments compile (sig.names ++ locals) false labelNo (some sig.nodeArgs) =
        some a ∧
      ∀ (body : List (Elem V)) (anchor : Anchor V) (s : Sequence V),
        anchor.elems = a.optargs ++ body → iseqSetSequence eql anchor = .ok s →
      ∀ (args : List Value) (stack : ℕ → Value) (blockptr : Option Block), Holds args stack →
        ((∃ e, vmCalleeSetupArg vmMakeProc a.iseq (iseqSetOptargsTable s.labels
            a.iseq.argOptTable) args.length stack (some blockptr) = .error e) ↔
          args.length < sig.m + sig.p ∨
            sig.m + sig.o + sig.p < args.length ∧ sig.rest = none) ∧
        ∀ c, vmCalleeSetupArg vmMakeProc a.iseq (iseqSetOptargsTable s.labels
            a.iseq.argOptTable) args.length stack (some blockptr) = .ok c →
          Bound sig args (blockValue vmMakeProc blockptr) c.stack ∧
            EntersAt eql (defaults compile labelNo (sig.optional.map Prod.snd))
              (sig.given args.length) anchor.elems s c.optPc := by
  obtain ⟨a, init, ha, hslots, htable, hoptargs⟩ :=
    sig.iseqSetArguments_eq compile locals false labelNo
  refine ⟨a, ha, ?_⟩
  intro body anchor s helems hs args stack blockptr hstack
  obtain ⟨hbad, e, he⟩ | ⟨hgood, c, hc, hbound, hentry⟩ := vmCalleeSetupArg_spec vmMakeProc hslots
    (iseqSetOptargsTable s.labels a.iseq.argOptTable) hstack blockptr
  · refine ⟨⟨fun _ => hbad, fun _ => ⟨e, he⟩⟩, fun c hc => ?_⟩
    rw [he] at hc
    cases hc
  · refine ⟨⟨fun ⟨e, he⟩ => ?_, fun h => absurd h hgood⟩, fun c' hc' => ?_⟩
    · rw [hc] at he
      cases he
    · rw [hc] at hc'
      cases hc'
      refine ⟨hbound, ?_⟩
      rw [hentry]
      by_cases ho : sig.o = 0
      · obtain ⟨bs, hbs⟩ := laidOut_of_eq_ok hs
        have hnil : sig.optional = [] := by simpa [Signature.o] using ho
        rw [if_pos ho, hnil]
        exact ⟨bs, anchor.elems, hbs, by simp [defaults], by simp [defaults]⟩
      · have hne : sig.optional.map Prod.snd ≠ [] := by simpa [Signature.o] using ho
        rw [setOptArgs, if_neg hne] at htable hoptargs
        rw [if_neg ho, htable]
        apply entersAt_table compile (init ++ body)
        · rw [helems, hoptargs, List.append_assoc]
        · exact hs
        · rw [List.length_map]
          exact Nat.min_le_left _ _

end

/-- `def f(a, b = 7, *c, d, &e)`. -/
def sampleSignature : Signature ℕ where
  mandatory := [10]
  optional := [(11, 7)]
  rest := some 12
  post := [13]
  block := some 14
  comma := false
  mInit := none
  pInit := none
  nodup := by decide
  valid := by decide
  post_alone := by decide
  comma_alone := by decide

/-- The default of an optional parameter of `sampleSignature`. -/
def sampleCompile (v no : ℕ) : List (Elem ℕ) × ℕ :=
  ([.insn ⟨.putobject, 1, [.value v]⟩, .insn ⟨.setlocal, 1, [.num 2]⟩], no)

/-- The code of the method, with a body that returns nil. -/
def sampleAnchor : Anchor ℕ where
  elems := [.label 0, .insn ⟨.putobject, 1, [.value 7]⟩, .insn ⟨.setlocal, 1, [.num 2]⟩,
    .label 1, .insn ⟨.putnil, 2, []⟩, .insn ⟨.leave, 2, []⟩]
  nodup := by decide

/-- A call with two arguments, which leaves out the optional one. -/
def sampleStack : ℕ → Value
  | 0 => .object 100
  | 1 => .object 101
  | _ => .object 0

theorem vmCalleeSetupArg_binds_sample :
    ∃ a s, iseqSetArguments sampleCompile (sampleSignature.names ++ []) false 0
        (some sampleSignature.nodeArgs) = some a ∧
      iseqSetSequence (· == ·) sampleAnchor = .ok s ∧
      ∃ c, vmCalleeSetupArg (fun b => .object b.id) a.iseq
          (iseqSetOptargsTable s.labels a.iseq.argOptTable) 2 sampleStack (some none) = .ok c ∧
        Bound sampleSignature [.object 100, .object 101] .nil c.stack ∧
        EntersAt (· == ·) (defaults sampleCompile 0 [7]) 0 sampleAnchor.elems s c.optPc := by
  obtain ⟨a, ha, hall⟩ := vmCalleeSetupArg_binds sampleCompile (· == ·)
    (fun b => .object b.id) sampleSignature [] 0
  obtain rfl := Option.some.inj (ha.symm.trans rfl)
  have hrun := hall [.insn ⟨.putnil, 2, []⟩, .insn ⟨.leave, 2, []⟩] sampleAnchor _ rfl rfl
    [.object 100, .object 101] sampleStack none (by
      intro i hi
      match i, hi with
      | 0, _ => rfl
      | 1, _ => rfl)
  exact ⟨_, _, ha, rfl, _, rfl, hrun.2 _ rfl⟩

end MacRuby
