import MacRuby.Vm.CalleeSetup

/-!
# Binding the parameters of a block

`vm_yield_setup_args` binds yielded values to the parameters of a block, in place on the stack. A
multiple assignment to the same names compiles to `expandarray` instructions and one assignment
per name. The two agree: for every parameter list and every list of values the slots hold what the
assignment stores.

## Main definitions

* `vmYieldSetupArgs` — the function.
* `compileMassign`, `vmExpandarray`, `MasgnInsn.run` — multiple assignment.

## Main results

* `vmYieldSetupArgs_eq_massign` — the two agree.
-/

namespace MacRuby

/-! ## The block -/

/-- A single array is expanded over the stack, unless the block has the form `{|a|}`. -/
def expandSingle (iseq : IseqArgs) (argc : ℕ) (argv : ℕ → Value) : ℕ × (ℕ → Value) :=
  if ¬ iseq.argSimple / 2 % 2 = 1 ∧ iseq.argc + iseq.argPostLen > 0 ∧ argc = 1 then
    match argv 0 with
    | .array vs => (vs.length, Memory.copy (fun _ k => vs.getD k .nil) 0 vs.length argv)
    | _ => (argc, argv)
  else (argc, argv)

/-- The rest and the post parameters take the values after the mandatory ones. -/
def yieldRest (iseq : IseqArgs) (argc : ℕ) (argv : ℕ → Value) : ℕ → Value :=
  let r := iseq.argRest.toNat
  if iseq.argRest = -1 then argv
  else if iseq.argPostLen ≠ 0 then
    let len := iseq.argPostLen
    let start := iseq.argPostStart.toNat
    let rsize := if argc > iseq.argc then argc - iseq.argc else 0
    let psize := if rsize > len then len else rsize
    let ary := Value.array (Memory.slice argv r (rsize - psize))
    let argv := Memory.move (r + rsize - psize) start psize argv
    let argv := Memory.fill (start + psize) (start + len) .nil argv
    Function.update argv r ary
  else if argc < r then Function.update (Memory.fill argc r .nil argv) r (.array [])
  else Function.update argv r (.array (Memory.slice argv r (argc - r)))

/-- `vm_yield_setup_args`: the stack and the entry point. -/
def vmYieldSetupArgs (vmMakeProc : Block → Value) (iseq : IseqArgs) (argOptTable : List ℕ)
    (origArgc : ℕ) (argv : ℕ → Value) (blockptr : Option Block) (lambda : Bool) :
    Except ArgError ((ℕ → Value) × ℕ) :=
  if lambda then do
    let c ← vmCalleeSetupArg vmMakeProc iseq argOptTable origArgc argv (some blockptr)
    return (c.stack, c.optPc)
  else
    let (argc, argv) := expandSingle iseq origArgc argv
    let argv := Memory.fill argc iseq.argc .nil argv
    let argv := yieldRest iseq argc argv
    let argv :=
      if iseq.argBlock ≠ -1 then
        Function.update argv iseq.argBlock.toNat
          (match blockptr with
          | some b => b.proc.getD .qfalse
          | none => .nil)
      else argv
    .ok (argv, 0)

/-! ## Multiple assignment -/

/-- `rb_ary_to_ary`, for objects without a `to_ary`. -/
def rbAryToAry : Value → List Value
  | .array vs => vs
  | v => [v]

/-- The post branch of `vm_expandarray`: nil for each missing value, then the values from the last
one back, then an array of the others. -/
def expandPost (vs : List Value) (num : ℕ) (isSplat : Bool) : List Value :=
  let js := List.range (num - (num - vs.length))
  let pushed := List.replicate (num - vs.length) Value.nil ++
    js.map fun j => vs.getD (vs.length - j - 1) .nil
  (if isSplat then pushed ++ [.array (vs.take (vs.length - js.length))] else pushed).reverse

/-- The normal branch: the values from the top down, nil where there is none, and an array of the
others below them. -/
def expandNormal (vs : List Value) (num : ℕ) (isSplat : Bool) : List Value :=
  let pushed := (List.range num).map fun i => if vs.length ≤ i then .nil else vs.getD i .nil
  if isSplat then
    pushed ++ [if num > vs.length then .array [] else .array (vs.drop num)]
  else pushed

/-- `vm_expandarray`: what it pushes, top first. -/
def vmExpandarray (ary : Value) (num flag : ℕ) : List Value :=
  let isSplat := decide (flag % 2 = 1)
  if flag / 2 % 2 = 1 then expandPost (rbAryToAry ary) num isSplat
  else expandNormal (rbAryToAry ary) num isSplat

/-- The instructions of a multiple assignment to names. -/
inductive MasgnInsn
  | expandarray (num flag : ℕ)
  | setlocal (id : ℕ)
  deriving DecidableEq, Repr

/-- What follows the names on the left-hand side: nothing, a `*` without a name, a `*` with one,
or a `*`, with or without a name, and names after it. -/
inductive Splat
  | none
  | anonymous
  | rest (id : ℕ)
  | postarg (restn : Option ℕ) (postn : List ℕ)

/-- `lhs_splat`. -/
def Splat.lhsSplat : Splat → ℕ
  | .none => 0
  | .anonymous => 0
  | .rest _ => 1
  | .postarg _ _ => 1

/-- What is compiled for the `*` and the names after it. -/
def Splat.code : Splat → List MasgnInsn
  | .none => []
  | .anonymous => []
  | .rest id => [.setlocal id]
  | .postarg restn postn =>
      .expandarray postn.length (2 + restn.toList.length) ::
        (restn.toList.map .setlocal ++ postn.map .setlocal)

/-- `compile_massign`, from the value of the right-hand side on, where the value of the whole is
not used. -/
def compileMassign (lhsn : List ℕ) (splatn : Splat) : List MasgnInsn :=
  .expandarray lhsn.length splatn.lhsSplat :: (lhsn.map .setlocal ++ splatn.code)

/-- The operand stack, top first, and the variables. -/
structure MasgnState where
  stack : List Value
  locals : ℕ → Value

/-- One instruction. -/
def MasgnInsn.step (st : MasgnState) : MasgnInsn → Option MasgnState
  | .expandarray num flag =>
      match st.stack with
      | ary :: stack => some { st with stack := vmExpandarray ary num flag ++ stack }
      | [] => none
  | .setlocal id =>
      match st.stack with
      | v :: stack => some ⟨stack, Function.update st.locals id v⟩
      | [] => none

/-- A sequence of instructions. -/
def MasgnInsn.run : MasgnState → List MasgnInsn → Option MasgnState
  | st, [] => some st
  | st, i :: is => (i.step st).bind fun st => run st is

/-! ## What the assignment stores -/

/-- The variables after `ids` are assigned `vs` one by one. -/
def assign : (ℕ → Value) → List ℕ → List Value → ℕ → Value
  | env, id :: ids, v :: vs => assign (Function.update env id v) ids vs
  | env, _, _ => env

theorem assign_of_not_mem {ids : List ℕ} {id : ℕ} (h : id ∉ ids) (env : ℕ → Value)
    (vs : List Value) : assign env ids vs id = env id := by
  induction ids generalizing env vs with
  | nil => rfl
  | cons i ids ih =>
      cases vs with
      | nil => rfl
      | cons v vs =>
          rw [List.mem_cons, not_or] at h
          rw [assign, ih h.2, Function.update_of_ne h.1]

theorem assign_getElem {ids : List ℕ} (hnodup : ids.Nodup) {k id : ℕ} (hid : ids[k]? = some id)
    (env : ℕ → Value) {vs : List Value} (hlen : vs.length = ids.length) :
    vs[k]? = some (assign env ids vs id) := by
  induction ids generalizing env vs k with
  | nil => simp at hid
  | cons i ids ih =>
      obtain ⟨hi, hnodup⟩ := List.nodup_cons.mp hnodup
      cases vs with
      | nil => simp at hlen
      | cons v vs =>
          cases k with
          | zero =>
              obtain rfl : i = id := by simpa using hid
              rw [assign, assign_of_not_mem hi, Function.update_self]
              rfl
          | succ k => exact ih hnodup (by simpa using hid) _ (by simpa using hlen)

/-- A run of assignments pops one value for each name. -/
theorem run_setlocal (ids : List ℕ) (is : List MasgnInsn) (env : ℕ → Value) {vs : List Value}
    (hlen : vs.length = ids.length) (stack : List Value) :
    MasgnInsn.run ⟨vs ++ stack, env⟩ (ids.map .setlocal ++ is) =
      MasgnInsn.run ⟨stack, assign env ids vs⟩ is := by
  induction ids generalizing env vs with
  | nil =>
      obtain rfl : vs = [] := by simpa using hlen
      rfl
  | cons id ids ih =>
      cases vs with
      | nil => simp at hlen
      | cons v vs => exact ih _ (by simpa using hlen)

/-- What the mandatory parameters, the rest and the post parameters take of `vals`. -/
def mandatoryValues (vals : List Value) (m : ℕ) : List Value :=
  (List.range m).map fun i => vals.getD i .nil

def postValues (vals : List Value) (m p : ℕ) : List Value :=
  (List.range p).map fun j => ((vals.drop m).drop ((vals.drop m).length - p)).getD j .nil

def restValue (vals : List Value) (m p : ℕ) : Value :=
  .array ((vals.drop m).take ((vals.drop m).length - p))

theorem vmExpandarray_names (vals : List Value) (num : ℕ) :
    vmExpandarray (.array vals) num 0 = mandatoryValues vals num := by
  apply List.map_congr_left
  intro i _
  split
  · rw [List.getD_eq_getElem?_getD, List.getElem?_eq_none (by assumption), Option.getD_none]
  · rfl

theorem vmExpandarray_splat (vals : List Value) (num : ℕ) :
    vmExpandarray (.array vals) num 1 = mandatoryValues vals num ++ [.array (vals.drop num)] := by
  have hsplat : (if num > vals.length then Value.array [] else .array (vals.drop num)) =
      .array (vals.drop num) := by
    split
    · rw [List.drop_eq_nil_of_le (by omega)]
    · rfl
  have hcode : vmExpandarray (.array vals) num 1 = vmExpandarray (.array vals) num 0 ++
      [if num > vals.length then .array [] else .array (vals.drop num)] := rfl
  rw [hcode, hsplat, vmExpandarray_names]

/-- With names after the `*`, the rest comes on top and the names' values follow in order. -/
theorem vmExpandarray_post (vals : List Value) (num : ℕ) :
    vmExpandarray (.array vals) num 3 = .array (vals.take (vals.length - num)) ::
      (List.range num).map fun j => (vals.drop (vals.length - num)).getD j .nil := by
  have hlen : vals.length - (num - (num - vals.length)) = vals.length - num := by omega
  have hcode : vmExpandarray (.array vals) num 3 = expandPost vals num true := rfl
  simp only [hcode, expandPost, List.length_range, hlen, if_true]
  rw [List.reverse_append, List.reverse_append, List.reverse_singleton, List.singleton_append,
    List.reverse_replicate]
  congr 1
  apply List.ext_getElem?
  intro k
  simp only [List.getD_eq_getElem?_getD]
  by_cases hk : k < num - (num - vals.length)
  · rw [List.getElem?_append_left (by simpa using hk), List.getElem?_reverse (by simpa using hk)]
    simp only [List.length_map, List.length_range, List.getElem?_map]
    rw [List.getElem?_range (by omega), List.getElem?_range (by omega), Option.map_some,
      Option.map_some, List.getElem?_drop]
    congr 3
    omega
  · rw [List.getElem?_append_right (by simpa using hk)]
    simp only [List.length_reverse, List.length_map, List.length_range, List.getElem?_map,
      List.getElem?_replicate]
    by_cases hk' : k < num
    · rw [if_pos (by omega), List.getElem?_range hk', Option.map_some, List.getElem?_drop,
        List.getElem?_eq_none (by omega), Option.getD_none]
    · rw [if_neg (by omega), List.getElem?_eq_none (by simpa using hk'), Option.map_none]

/-- The left-hand side with the names of a parameter list. -/
def Signature.splat {E : Type*} (sig : Signature E) : Splat :=
  match sig.rest, sig.post with
  | none, _ => .none
  | some r, [] => .rest r
  | some r, id :: ids => .postarg (some r) (id :: ids)

section

variable {E : Type*} {sig : Signature E}

theorem post_eq_nil_of_rest (ho : sig.optional = []) (hr : sig.rest = none) : sig.post = [] := by
  by_contra hp
  rcases sig.post_alone hp with h | h
  · exact h ho
  · simp [hr] at h

theorem assign_append (env : ℕ → Value) {ids ids' : List ℕ} {vs : List Value}
    (hlen : vs.length = ids.length) (vs' : List Value) :
    assign env (ids ++ ids') (vs ++ vs') = assign (assign env ids vs) ids' vs' := by
  induction ids generalizing env vs with
  | nil =>
      obtain rfl : vs = [] := by simpa using hlen
      rfl
  | cons id ids ih =>
      cases vs with
      | nil => simp at hlen
      | cons v vs => exact ih _ (by simpa using hlen)

/-- The values the parameters take, in the order of their slots. -/
def Signature.takes (sig : Signature E) (vals : List Value) : List Value :=
  mandatoryValues vals sig.m ++ (sig.rest.toList.map fun _ => restValue vals sig.m sig.p) ++
    postValues vals sig.m sig.p

/-- **What the assignment stores**: each name gets the value of its place. -/
theorem run_compileMassign (ho : sig.optional = []) (vals : List Value) (env : ℕ → Value) :
    MasgnInsn.run ⟨[.array vals], env⟩ (compileMassign sig.mandatory sig.splat) =
      some ⟨[], assign env (sig.mandatory ++ sig.rest.toList ++ sig.post) (sig.takes vals)⟩ := by
  have hm : (mandatoryValues vals sig.m).length = sig.mandatory.length := by
    simp [mandatoryValues, Signature.m]
  simp only [compileMassign, MasgnInsn.run, MasgnInsn.step, Option.bind_some, List.append_nil]
  rw [show sig.mandatory.length = sig.m from rfl, Signature.takes, Signature.splat]
  cases hr : sig.rest with
  | none =>
      rw [post_eq_nil_of_rest ho hr]
      simp only [Splat.lhsSplat, Splat.code, vmExpandarray_names]
      have hrun := run_setlocal sig.mandatory [] env hm []
      rw [List.append_nil] at hrun
      rw [hrun]
      simp [MasgnInsn.run, postValues, Signature.p, post_eq_nil_of_rest ho hr]
  | some r =>
      cases hp : sig.post with
      | nil =>
          simp only [Splat.lhsSplat, Splat.code, vmExpandarray_splat]
          rw [run_setlocal sig.mandatory _ env hm]
          have hall : (vals.drop sig.m).take ((vals.drop sig.m).length - 0) = vals.drop sig.m := by
            rw [Nat.sub_zero, List.take_length]
          simp only [MasgnInsn.run, MasgnInsn.step, Option.bind_some, postValues, restValue,
            Signature.p, hp, List.length_nil, hall]
          simp [assign_append env hm, assign]
      | cons id ids =>
          have hnum : (id :: ids).length = sig.p := by rw [Signature.p, hp]
          simp only [Splat.lhsSplat, Splat.code, vmExpandarray_splat]
          rw [run_setlocal sig.mandatory _ env hm]
          simp only [MasgnInsn.run, MasgnInsn.step, Option.bind_some, Option.toList_some,
            List.length_singleton, hnum, List.append_nil]
          rw [show 2 + 1 = 3 from rfl, vmExpandarray_post, ← List.map_append]
          have hlen : (restValue vals sig.m sig.p :: postValues vals sig.m sig.p).length =
              ([r] ++ id :: ids).length := by
            simp [postValues, ← hnum]
          have hrun := run_setlocal ([r] ++ id :: ids) []
            (assign env sig.mandatory (mandatoryValues vals sig.m)) hlen []
          rw [List.append_nil, List.append_nil] at hrun
          rw [List.append_assoc, List.append_assoc, assign_append env hm]
          exact hrun

/-! ## What the block's slots hold -/

/-- The values a block's parameters are bound from: those yielded, or those of the single array
yielded. -/
def yieldedValues : List Value → List Value
  | [.array vs] => vs
  | args => args

theorem expandSingle_spec {isBlock : Bool} {iseq : IseqArgs} (hs : SlotsOf sig isBlock iseq)
    (hsingle : ¬ iseq.argSimple / 2 % 2 = 1) (hmp : 0 < sig.m + sig.p) {args : List Value}
    {argv : ℕ → Value} (hargv : Holds args argv) :
    ∃ argv', expandSingle iseq args.length argv = ((yieldedValues args).length, argv') ∧
      Holds (yieldedValues args) argv' := by
  rw [expandSingle, hs.argc, hs.argPostLen]
  by_cases hn : args.length = 1
  · obtain ⟨v, rfl⟩ := List.length_eq_one_iff.mp hn
    have h0 : argv 0 = v := (Option.some.inj (hargv 0 (by simp))).symm
    rw [if_pos ⟨hsingle, hmp, hn⟩, h0]
    cases v with
    | array vs =>
        refine ⟨_, rfl, fun i (hi : i < vs.length) => ?_⟩
        rw [Memory.copy_apply _ _ _ _ (fun _ _ _ _ => rfl), if_pos (by omega), Nat.sub_zero,
          List.getD_eq_getElem?_getD]
        change vs[i]? = _
        rw [List.getElem?_eq_getElem hi, Option.getD_some]
    | nil => exact ⟨argv, rfl, hargv⟩
    | qfalse => exact ⟨argv, rfl, hargv⟩
    | object id => exact ⟨argv, rfl, hargv⟩
  · have hsame : yieldedValues args = args := by
      rw [yieldedValues.eq_2]
      rintro vs rfl
      exact hn rfl
    rw [if_neg (by tauto), hsame]
    exact ⟨argv, rfl, hargv⟩

/-- After the missing mandatory parameters became nil, the slots hold the values in order. -/
theorem fill_mandatory {vals : List Value} {argv : ℕ → Value} (hargv : Holds vals argv) (m : ℕ) :
    (∀ i < m, Memory.fill vals.length m .nil argv i = vals.getD i .nil) ∧
      ∀ i, m ≤ i → i < vals.length →
        vals[i]? = some (Memory.fill vals.length m .nil argv i) := by
  refine ⟨fun i hi => ?_, fun i hi hi' => ?_⟩
  · rw [Memory.fill_apply, List.getD_eq_getElem?_getD]
    by_cases hlen : vals.length ≤ i
    · rw [if_pos ⟨hlen, hi⟩, List.getElem?_eq_none hlen, Option.getD_none]
    · rw [if_neg (by omega), hargv i (by omega), Option.getD_some]
  · rw [Memory.fill_apply, if_neg (by omega)]
    exact hargv i hi'

/-- The values from `off` on that lie on the stack. -/
theorem slice_eq_take_drop {vals : List Value} {argv : ℕ → Value} {off n : ℕ}
    (h : ∀ i, off ≤ i → i < vals.length → vals[i]? = some (argv i)) (hn : n ≤ vals.length - off) :
    Memory.slice argv off n = (vals.drop off).take n := by
  apply List.ext_getElem?
  intro k
  by_cases hk : k < n
  · rw [Memory.getElem?_slice hk, List.getElem?_take_of_lt hk, List.getElem?_drop,
      h _ (by omega) (by omega)]
  · rw [List.getElem?_eq_none (by simpa using hk), List.getElem?_eq_none]
    simp only [List.length_take, List.length_drop]
    omega

/-- **The slots after `yieldRest` hold what the parameters take.** -/
theorem yieldRest_spec {isBlock : Bool} {iseq : IseqArgs} (hs : SlotsOf sig isBlock iseq)
    (ho : sig.optional = []) {vals : List Value} {argv : ℕ → Value}
    (hm : ∀ i < sig.m, argv i = vals.getD i .nil)
    (hv : ∀ i, sig.m ≤ i → i < vals.length → vals[i]? = some (argv i)) :
    (∀ i < sig.m, yieldRest iseq vals.length argv i = vals.getD i .nil) ∧
      (sig.rest.isSome → yieldRest iseq vals.length argv sig.restSlot =
        restValue vals sig.m sig.p) ∧
      ∀ j < sig.p, yieldRest iseq vals.length argv (sig.postSlot + j) =
        ((vals.drop sig.m).drop ((vals.drop sig.m).length - sig.p)).getD j .nil := by
  have hslot : sig.restSlot = sig.m := by simp [Signature.restSlot, Signature.o, ho]
  simp only [yieldRest, hs.argRest, hs.argPostLen, hs.argc]
  cases hr : sig.rest with
  | none =>
      have hp : sig.p = 0 := by rw [Signature.p, post_eq_nil_of_rest ho hr, List.length_nil]
      simp only [Option.isSome_none, Bool.false_eq_true, if_false, if_true]
      exact ⟨hm, by simp, by simp [hp]⟩
  | some r =>
      have hpost : sig.postSlot = sig.m + 1 := by simp [Signature.postSlot, hr, hslot]
      simp only [Option.isSome_some, if_true, Int.toNat_natCast, hslot]
      rw [if_neg (by omega)]
      by_cases hp : sig.p = 0
      · rw [if_neg (by simpa using hp)]
        have hrest : restValue vals sig.m sig.p = .array (vals.drop sig.m) := by
          rw [restValue, hp, Nat.sub_zero, List.take_length]
        by_cases hlen : vals.length < sig.m
        · rw [if_pos hlen]
          refine ⟨fun i hi => ?_, fun _ => ?_, by simp [hp]⟩
          · rw [Function.update_of_ne (by omega), Memory.fill_apply, hm i hi]
            split
            · rw [List.getD_eq_getElem?_getD, List.getElem?_eq_none (by omega), Option.getD_none]
            · rfl
          · rw [Function.update_self, hrest, List.drop_eq_nil_of_le (by omega)]
        · rw [if_neg hlen]
          refine ⟨fun i hi => ?_, fun _ => ?_, by simp [hp]⟩
          · rw [Function.update_of_ne (by omega), hm i hi]
          · rw [Function.update_self, hrest, slice_eq_take_drop hv le_rfl, ← List.length_drop,
              List.take_length]
      · rw [if_pos hp, hs.argPostStart hp]
        simp only [Int.toNat_natCast]
        have hrsize : (if vals.length > sig.m then vals.length - sig.m else 0) =
            vals.length - sig.m := by
          split <;> omega
        have hpsize : (if vals.length - sig.m > sig.p then sig.p else vals.length - sig.m) =
            min sig.p (vals.length - sig.m) := by
          split <;> omega
        rw [hrsize, hpsize]
        have hleft : vals.length - sig.m - min sig.p (vals.length - sig.m) =
            vals.length - sig.m - sig.p := by
          omega
        refine ⟨fun i hi => ?_, fun _ => ?_, fun j hj => ?_⟩
        · rw [Function.update_of_ne (by omega), Memory.fill_apply, if_neg (by omega), Memory.move,
            if_neg (by omega), hm i hi]
        · rw [Function.update_self, slice_eq_take_drop hv (by omega), hleft, restValue,
            List.length_drop]
        · rw [Function.update_of_ne (by omega), Memory.fill_apply, List.drop_drop,
            List.getD_eq_getElem?_getD, List.getElem?_drop, List.length_drop]
          by_cases hj' : j < min sig.p (vals.length - sig.m)
          · rw [if_neg (by omega), Memory.move, if_pos (by omega), hv _ (by omega) (by omega),
              Option.getD_some]
            congr 1
            omega
          · rw [if_pos (by omega), List.getElem?_eq_none (by omega), Option.getD_none]

/-- The slots of the parameters before the block's hold what the parameters take. -/
theorem vmYieldSetupArgs_takes {isBlock : Bool} {iseq : IseqArgs} (hs : SlotsOf sig isBlock iseq)
    (ho : sig.optional = []) (hsingle : ¬ iseq.argSimple / 2 % 2 = 1) (hmp : 0 < sig.m + sig.p)
    (vmMakeProc : Block → Value) (table : List ℕ) {args : List Value} {argv : ℕ → Value}
    (hargv : Holds args argv) (blockptr : Option Block) :
    ∃ argv', vmYieldSetupArgs vmMakeProc iseq table args.length argv blockptr false =
        .ok (argv', 0) ∧
      ∀ k < sig.blockSlot, (sig.takes (yieldedValues args))[k]? = some (argv' k) := by
  obtain ⟨argv1, hexp, hargv1⟩ := expandSingle_spec hs hsingle hmp hargv
  obtain ⟨hm, hv⟩ := fill_mandatory hargv1 sig.m
  obtain ⟨hm', hrest, hpost⟩ := yieldRest_spec hs ho hm hv
  generalize hrun : yieldRest iseq (yieldedValues args).length
    (Memory.fill (yieldedValues args).length sig.m .nil argv1) = argv2 at hm' hrest hpost
  have hslots : sig.restSlot = sig.m ∧ sig.postSlot = sig.m + sig.rest.toList.length ∧
      sig.blockSlot = sig.postSlot + sig.p := by
    refine ⟨?_, ?_, rfl⟩ <;> simp [Signature.postSlot, Signature.restSlot, Signature.o, ho]
  have htakes : ∀ k < sig.blockSlot,
      (sig.takes (yieldedValues args))[k]? = some (argv2 k) := by
    intro k hk
    rw [Signature.takes, List.append_assoc]
    by_cases hkm : k < sig.m
    · rw [List.getElem?_append_left (by simpa [mandatoryValues] using hkm), mandatoryValues,
        List.getElem?_map, List.getElem?_range hkm, Option.map_some, hm' k hkm]
    · rw [List.getElem?_append_right (by simpa [mandatoryValues] using hkm)]
      simp only [mandatoryValues, List.length_map, List.length_range]
      by_cases hkr : k < sig.postSlot
      · -- the slot of the rest
        obtain ⟨r, hr⟩ : ∃ r, sig.rest = some r := by
          cases hr : sig.rest with
          | none => simp [hr] at hslots; omega
          | some r => exact ⟨r, rfl⟩
        obtain rfl : k = sig.m := by simp [hr] at hslots; omega
        rw [hr] at hrest ⊢
        simp only [Nat.sub_self, Option.toList_some, List.map_cons, List.cons_append,
          List.getElem?_cons_zero]
        rw [← hslots.1, hrest rfl, hslots.1]
      · rw [List.getElem?_append_right (by simp only [List.length_map]; omega)]
        obtain ⟨j, rfl⟩ : ∃ j, k = sig.postSlot + j := ⟨k - sig.postSlot, by omega⟩
        have hj : j < sig.p := by omega
        rw [hpost j hj, postValues, List.getElem?_map, List.length_map]
        rw [show sig.postSlot + j - sig.m - sig.rest.toList.length = j by omega,
          List.getElem?_range hj, Option.map_some]
  simp only [vmYieldSetupArgs, Bool.false_eq_true, if_false, hexp, hs.argc, hrun, hs.argBlock]
  cases hb : sig.block with
  | none => exact ⟨argv2, rfl, htakes⟩
  | some b =>
      refine ⟨_, rfl, fun k hk => ?_⟩
      simp only [Option.isSome_some, if_true, Int.toNat_natCast]
      rw [if_pos (by omega), Function.update_of_ne (by omega)]
      exact htakes k hk

theorem length_takes (vals : List Value) :
    (sig.takes vals).length = (sig.mandatory ++ sig.rest.toList ++ sig.post).length := by
  simp [Signature.takes, mandatoryValues, postValues, Signature.m, Signature.p]

/-- **Block parameter binding agrees with multiple assignment.** For every parameter list without
optional parameters, other than the form `{|a|}`, and every list of yielded values, each slot holds
what the multiple assignment to the same names stores in the name of that slot. -/
theorem vmYieldSetupArgs_eq_massign {V : Type*} (compile : E → ℕ → List (Elem V) × ℕ)
    (vmMakeProc : Block → Value) (sig : Signature E) (locals : List ℕ) (labelNo : ℕ)
    (ho : sig.optional = [])
    (hform : ¬ (sig.m = 1 ∧ sig.p = 0 ∧ sig.rest = none ∧ sig.comma = false))
    (hmp : 0 < sig.m + sig.p) :
    ∃ a, iseqSetArguments compile (sig.names ++ locals) true labelNo (some sig.nodeArgs) = some a ∧
      ∀ (table : List ℕ) (args : List Value) (argv : ℕ → Value) (blockptr : Option Block)
        (env : ℕ → Value), Holds args argv →
      ∃ argv' st, vmYieldSetupArgs vmMakeProc a.iseq table args.length argv blockptr false =
          .ok (argv', 0) ∧
        MasgnInsn.run ⟨[.array (yieldedValues args)], env⟩
          (compileMassign sig.mandatory sig.splat) = some st ∧
        (∀ k id, (sig.mandatory ++ sig.rest.toList ++ sig.post)[k]? = some id →
          argv' k = st.locals id) ∧
        ∀ k < sig.m, argv' k = (yieldedValues args).getD k .nil := by
  obtain ⟨a, init, ha, hslots, -, -⟩ := sig.iseqSetArguments_eq compile locals true labelNo
  have hsingle : ¬ a.iseq.argSimple / 2 % 2 = 1 := by
    rw [hslots.single]
    tauto
  refine ⟨a, ha, ?_⟩
  intro table args argv blockptr env hargv
  obtain ⟨argv', hrun, htakes⟩ := vmYieldSetupArgs_takes hslots ho hsingle hmp vmMakeProc table
    hargv blockptr
  refine ⟨argv', _, hrun, run_compileMassign ho _ env, ?_, ?_⟩
  · intro k id hid
    have hnodup : (sig.mandatory ++ sig.rest.toList ++ sig.post).Nodup := by
      have h := sig.nodup
      rw [ho, List.map_nil, List.append_nil] at h
      exact (List.nodup_append.mp h).1
    have hk : k < sig.blockSlot := by
      have hlt := (List.getElem?_eq_some_iff.mp hid).1
      simp only [List.length_append] at hlt
      simp only [Signature.blockSlot, Signature.postSlot, Signature.restSlot, Signature.m,
        Signature.o, Signature.p, ho, List.length_nil]
      omega
    have hassign := assign_getElem hnodup hid env (length_takes (yieldedValues args))
    rw [htakes k hk] at hassign
    exact Option.some.inj hassign
  · intro k hk
    have hslot : k < sig.blockSlot := by
      simp only [Signature.blockSlot, Signature.postSlot, Signature.restSlot]
      omega
    have hval := htakes k hslot
    rw [Signature.takes, List.append_assoc,
      List.getElem?_append_left (by simpa [mandatoryValues] using hk), mandatoryValues,
      List.getElem?_map, List.getElem?_range hk, Option.map_some] at hval
    exact (Option.some.inj hval).symm

end

/-- `{|a, *b, c|}`. -/
def sampleBlock : Signature ℕ where
  mandatory := [10]
  optional := []
  rest := some 11
  post := [12]
  block := none
  comma := false
  mInit := none
  pInit := none
  nodup := by decide
  valid := by decide
  post_alone := by decide
  comma_alone := by decide

/-- `yield [x, y, z]`, with what was on the stack above it. -/
def sampleYield : ℕ → Value
  | 0 => .array [.object 100, .object 101, .object 102]
  | _ => .object 0

theorem vmYieldSetupArgs_eq_massign_sample :
    ∃ a, iseqSetArguments sampleCompile (sampleBlock.names ++ []) true 0
        (some sampleBlock.nodeArgs) = some a ∧
      ∃ argv' st, vmYieldSetupArgs (fun b => .object b.id) a.iseq [] 1 sampleYield none false =
          .ok (argv', 0) ∧
        MasgnInsn.run ⟨[.array [.object 100, .object 101, .object 102]], fun _ => .nil⟩
          (compileMassign sampleBlock.mandatory sampleBlock.splat) = some st ∧
        (∀ k id, (sampleBlock.mandatory ++ sampleBlock.rest.toList ++ sampleBlock.post)[k]? =
          some id → argv' k = st.locals id) ∧
        ∀ k < sampleBlock.m,
          argv' k = [Value.object 100, .object 101, .object 102].getD k .nil := by
  obtain ⟨a, ha, hall⟩ := vmYieldSetupArgs_eq_massign sampleCompile (fun b => .object b.id)
    sampleBlock [] 0 rfl (by decide) (by decide)
  refine ⟨a, ha, hall [] [.array [.object 100, .object 101, .object 102]] sampleYield none
    (fun _ => .nil) ?_⟩
  intro i hi
  obtain rfl : i = 0 := by simpa using hi
  rfl

end MacRuby
