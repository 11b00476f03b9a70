import MacRuby.Compile.Element

/-!
# The slots of a parameter list

`iseq_set_arguments` reads a parameter list off the syntax tree. It looks names up in the local
table, which the parser fills in the order of the parameters, compiles the default expressions
one after another with a label before each and one after the last, and records counts, slots and
labels in the instruction sequence. Names are interned as numbers: `0` stands for none, and `1`
in the place of a rest parameter marks the comma of `{|x,|}`.

## Main definitions

* `NodeArgs` — the `NODE_ARGS` tree.
* `IseqArgs` — the argument information of an instruction sequence.
* `iseqSetArguments` — the function.
* `Signature` — a parameter list in its own terms, with the tree the parser makes of it.

## Main results

* `Signature.iseqSetArguments_eq` — the slots follow the parameters in order.
-/

namespace MacRuby

/-- The third node of an argument list: the post arguments, and the initialisers of destructured
parameters. -/
structure NodePost (E : Type*) where
  pid : ℕ
  plen : ℕ
  mInit : Option E
  pInit : Option E

/-- The second node of an argument list. -/
structure NodeAux (E : Type*) where
  rest : ℕ
  block : ℕ
  post : Option (NodePost E)

/-- `NODE_ARGS`; `opt` are the default expressions. `E` is the type of expressions. -/
structure NodeArgs (E : Type*) where
  frml : ℕ
  opt : List E
  aux : Option (NodeAux E)

/-- The argument information of `rb_iseq_t`. -/
structure IseqArgs where
  argc : ℕ
  argSimple : ℕ
  argRest : ℤ
  argBlock : ℤ
  argOpts : ℕ
  argPostLen : ℕ
  argPostStart : ℤ
  argSize : ℤ
  argOptTable : List Label
  deriving DecidableEq, Repr

/-- The argument information of a new sequence. -/
def IseqArgs.new : IseqArgs := ⟨0, 0, -1, -1, 0, 0, 0, 0, []⟩

/-- `get_dyna_var_idx_at_raw`: the index of a name in the local table, or `-1`. -/
def getDynaVarIdxAtRaw (localTable : List ℕ) (id : ℕ) : ℤ :=
  match localTable.idxOf? id with
  | some i => i
  | none => -1

namespace NodeArgs

variable {E : Type*} (localTable : List ℕ) (node : NodeArgs E)

/-- `rest_id`. -/
def restId : ℕ := (node.aux.map fun a => if a.rest = 1 then 0 else a.rest).getD 0

/-- `last_comma`. -/
def lastComma : Bool := (node.aux.map fun a => decide (a.rest = 1)).getD false

/-- `block_id`. -/
def blockId : ℕ := (node.aux.map NodeAux.block).getD 0

/-- The node of the post arguments. -/
def post? : Option (NodePost E) := node.aux.bind NodeAux.post

/-- `arg_post_len`. -/
def argPostLen : ℕ := (node.post?.map NodePost.plen).getD 0

/-- `arg_rest`. -/
def argRest : ℤ := if node.restId ≠ 0 then getDynaVarIdxAtRaw localTable node.restId else -1

/-- `arg_post_start`, which a rest argument without post arguments sets to the slot after its
own. -/
def argPostStart : ℤ :=
  let start := (node.post?.map fun q => getDynaVarIdxAtRaw localTable q.pid).getD 0
  if node.restId ≠ 0 ∧ start = 0 then node.argRest localTable + 1 else start

/-- `arg_block`. -/
def argBlock : ℤ := if node.blockId ≠ 0 then getDynaVarIdxAtRaw localTable node.blockId else -1

end NodeArgs

section

variable {V E : Type*} (compile : E → ℕ → List (Elem V) × ℕ)

/-- The optional arguments: a label before each default expression and one after the last.
`compile` is `COMPILE_POPED`, which takes and returns the number of the next label. -/
def compileOptArgs : ℕ → List E → List (Elem V) × List Label × ℕ
  | no, [] => ([.label no], [no], no + 1)
  | no, e :: es =>
      let code := compile e (no + 1)
      let rest := compileOptArgs code.2 es
      (.label no :: code.1 ++ rest.1, no :: rest.2.1, rest.2.2)

/-- The code, the labels and the next label of the optional arguments, if there are any. -/
def setOptArgs (no : ℕ) (es : List E) : List (Elem V) × List Label × ℕ :=
  if es = [] then ([], [], no) else compileOptArgs compile no es

/-- Compile an expression that may be missing. -/
def compileOption (no : ℕ) : Option E → List (Elem V) × ℕ
  | some e => compile e no
  | none => ([], no)

/-- What `iseq_set_arguments` leaves: the argument information, the elements it compiled and the
number of the next label. -/
structure SetArguments (V : Type*) where
  iseq : IseqArgs
  optargs : List (Elem V)
  labelNo : ℕ

/-- `iseq_set_arguments`; `isBlock` says that the sequence is a block's. It fails where the source
stops with `rb_bug("arg_rest: -1")`. -/
def iseqSetArguments (localTable : List ℕ) (isBlock : Bool) (labelNo : ℕ) :
    Option (NodeArgs E) → Option (SetArguments V)
  | none => some ⟨{ IseqArgs.new with argSimple := 1 }, [], labelNo⟩
  | some node =>
      let opts := setOptArgs compile labelNo node.opt
      let mInit := compileOption compile opts.2.2 (node.post?.bind NodePost.mInit)
      let pInit := compileOption compile mInit.2 (node.post?.bind NodePost.pInit)
      let argOpts := opts.2.1.length
      let argPostLen := node.argPostLen
      let argRest := node.argRest localTable
      let argPostStart := node.argPostStart localTable
      let argBlock := node.argBlock localTable
      let simple := argOpts = 0 ∧ argPostLen = 0 ∧ argRest = -1 ∧ argBlock = -1
      -- the form {|a|}
      let single := isBlock ∧ argOpts = 0 ∧ argPostLen = 0 ∧ argRest = -1 ∧ node.frml = 1 ∧
        node.lastComma = false
      if node.restId ≠ 0 ∧ argRest = -1 then none
      else
        some {
          iseq := {
            argc := node.frml
            argSimple := (if simple then 1 else 0) + if single then 2 else 0
            argRest := argRest
            argBlock := argBlock
            argOpts := argOpts
            argPostLen := argPostLen
            argPostStart := argPostStart
            argSize :=
              if simple then node.frml
              else if argBlock ≠ -1 then argBlock + 1
              else if argPostLen ≠ 0 then argPostStart + argPostLen
              else if argRest ≠ -1 then argRest + 1
              else if argOpts ≠ 0 then node.frml + argOpts - 1
              else node.frml
            argOptTable := opts.2.1 }
          optargs := opts.1 ++ mInit.1 ++ pInit.1
          labelNo := pInit.2 }

end

/-! ## Parameter lists -/

/-- A parameter list. Its names are distinct and real names, post parameters come only with
optional ones or a rest, and a trailing comma only with mandatory ones. -/
structure Signature (E : Type*) where
  mandatory : List ℕ
  optional : List (ℕ × E)
  rest : Option ℕ
  post : List ℕ
  block : Option ℕ
  comma : Bool
  mInit : Option E
  pInit : Option E
  nodup : (mandatory ++ optional.map Prod.fst ++ rest.toList ++ post ++ block.toList).Nodup
  valid : ∀ id ∈ mandatory ++ optional.map Prod.fst ++ rest.toList ++ post ++ block.toList, 1 < id
  post_alone : post ≠ [] → optional ≠ [] ∨ rest.isSome
  comma_alone : comma = true → optional = [] ∧ rest = none ∧ post = []

namespace Signature

variable {V E : Type*} (sig : Signature E)

/-- The parameters in order, as the parser enters them in the local table. -/
def names : List ℕ :=
  sig.mandatory ++ sig.optional.map Prod.fst ++ sig.rest.toList ++ sig.post ++ sig.block.toList

/-- The numbers of mandatory, optional and post parameters. -/
def m : ℕ := sig.mandatory.length
def o : ℕ := sig.optional.length
def p : ℕ := sig.post.length

/-- The slots of the rest, of the first post and of the block parameter. -/
def restSlot : ℕ := sig.m + sig.o
def postSlot : ℕ := sig.restSlot + sig.rest.toList.length
def blockSlot : ℕ := sig.postSlot + sig.p

/-- `new_args`: the tree the parser makes of a parameter list. -/
def nodeArgs : NodeArgs E where
  frml := sig.m
  opt := sig.optional.map Prod.snd
  aux := some {
    rest := if sig.comma then 1 else sig.rest.getD 0
    block := sig.block.getD 0
    post := match sig.post, sig.mInit with
      | id :: _, mInit => some ⟨id, sig.p, mInit, sig.pInit⟩
      | [], some mInit => some ⟨0, 0, some mInit, none⟩
      | [], none => none }

end Signature

theorem getDynaVarIdxAtRaw_append {id : ℕ} {pre post : List ℕ} (h : id ∉ pre) :
    getDynaVarIdxAtRaw (pre ++ id :: post) id = pre.length := by
  have hidx : (pre ++ id :: post).idxOf? id = some pre.length := by
    rw [List.idxOf?, List.findIdx?_append, List.findIdx?_eq_none_iff.mpr]
    · simp [List.findIdx?_cons]
    · intro x hx
      simpa using fun hxid : x = id => h (hxid ▸ hx)
  simp [getDynaVarIdxAtRaw, hidx]

/-- The argument information says where the parameters of `sig` are. -/
structure SlotsOf {E : Type*} (sig : Signature E) (isBlock : Bool) (a : IseqArgs) : Prop where
  argc : a.argc = sig.m
  argOpts : a.argOpts = if sig.o = 0 then 0 else sig.o + 1
  argPostLen : a.argPostLen = sig.p
  argPostStart : sig.p ≠ 0 → a.argPostStart = sig.postSlot
  argRest : a.argRest = if sig.rest.isSome then (sig.restSlot : ℤ) else -1
  argBlock : a.argBlock = if sig.block.isSome then (sig.blockSlot : ℤ) else -1
  argSimple : a.argSimple % 2 = 1 ↔ sig.o = 0 ∧ sig.p = 0 ∧ sig.rest = none ∧ sig.block = none
  single : a.argSimple / 2 % 2 = 1 ↔
    isBlock = true ∧ sig.o = 0 ∧ sig.p = 0 ∧ sig.rest = none ∧ sig.m = 1 ∧ sig.comma = false

namespace Signature

variable {V E : Type*} (sig : Signature E)

/-- A name is found at the number of names before it. -/
theorem getDynaVarIdxAtRaw_names {id : ℕ} (pre post locals : List ℕ)
    (h : sig.names = pre ++ id :: post) :
    getDynaVarIdxAtRaw (sig.names ++ locals) id = pre.length := by
  have hnodup := sig.nodup
  rw [show sig.mandatory ++ sig.optional.map Prod.fst ++ sig.rest.toList ++ sig.post ++
    sig.block.toList = sig.names from rfl, h, List.nodup_append] at hnodup
  rw [h, List.append_assoc, List.cons_append]
  apply getDynaVarIdxAtRaw_append
  intro hid
  exact hnodup.2.2 id hid id List.mem_cons_self rfl

theorem idx_rest {r : ℕ} (h : sig.rest = some r) (locals : List ℕ) :
    getDynaVarIdxAtRaw (sig.names ++ locals) r = sig.restSlot := by
  rw [sig.getDynaVarIdxAtRaw_names (sig.mandatory ++ sig.optional.map Prod.fst)
    (sig.post ++ sig.block.toList)]
  · simp [restSlot, m, o]
  · simp [names, h]

theorem idx_post {id : ℕ} {post : List ℕ} (h : sig.post = id :: post) (locals : List ℕ) :
    getDynaVarIdxAtRaw (sig.names ++ locals) id = sig.postSlot := by
  rw [sig.getDynaVarIdxAtRaw_names
    (sig.mandatory ++ sig.optional.map Prod.fst ++ sig.rest.toList)
    (post ++ sig.block.toList)]
  · simp [postSlot, restSlot, m, o, Nat.add_assoc]
  · simp [names, h]

theorem idx_block {b : ℕ} (h : sig.block = some b) (locals : List ℕ) :
    getDynaVarIdxAtRaw (sig.names ++ locals) b = sig.blockSlot := by
  rw [sig.getDynaVarIdxAtRaw_names
    (sig.mandatory ++ sig.optional.map Prod.fst ++ sig.rest.toList ++ sig.post) []]
  · simp [blockSlot, postSlot, restSlot, m, o, p, Nat.add_assoc]
  · simp [names, h]

theorem rest_ne_zero {r : ℕ} (h : sig.rest = some r) : r ≠ 0 := by
  have hv := sig.valid r (by simp [h])
  omega

theorem block_ne_zero {b : ℕ} (h : sig.block = some b) : b ≠ 0 := by
  have hv := sig.valid b (by simp [h])
  omega

/-- The tree has the name of the rest parameter, and none after a trailing comma. -/
theorem restId_nodeArgs : sig.nodeArgs.restId = sig.rest.getD 0 := by
  cases hc : sig.comma with
  | true => simp [nodeArgs, NodeArgs.restId, hc, (sig.comma_alone hc).2.1]
  | false =>
      cases hr : sig.rest with
      | none => simp [nodeArgs, NodeArgs.restId, hc, hr]
      | some r =>
          have hv := sig.valid r (by simp [hr])
          simp only [nodeArgs, NodeArgs.restId, hc, hr, Option.map_some, Option.getD_some,
            Bool.false_eq_true, if_false]
          rw [if_neg (by omega)]

theorem lastComma_nodeArgs : sig.nodeArgs.lastComma = sig.comma := by
  cases hc : sig.comma with
  | true => simp [nodeArgs, NodeArgs.lastComma, hc]
  | false =>
      cases hr : sig.rest with
      | none => simp [nodeArgs, NodeArgs.lastComma, hc, hr]
      | some r =>
          have hv := sig.valid r (by simp [hr])
          simp only [nodeArgs, NodeArgs.lastComma, hc, hr, Option.map_some, Option.getD_some,
            Bool.false_eq_true, if_false, decide_eq_false_iff_not]
          omega

theorem argPostLen_nodeArgs : sig.nodeArgs.argPostLen = sig.p := by
  cases hp : sig.post <;> cases hi : sig.mInit <;>
    simp [nodeArgs, NodeArgs.argPostLen, NodeArgs.post?, hp, hi, p]

theorem argRest_nodeArgs (locals : List ℕ) : sig.nodeArgs.argRest (sig.names ++ locals) =
    if sig.rest.isSome then (sig.restSlot : ℤ) else -1 := by
  rw [NodeArgs.argRest, restId_nodeArgs]
  cases hr : sig.rest with
  | none => simp
  | some r => simp [sig.rest_ne_zero hr, sig.idx_rest hr locals]

theorem argBlock_nodeArgs (locals : List ℕ) : sig.nodeArgs.argBlock (sig.names ++ locals) =
    if sig.block.isSome then (sig.blockSlot : ℤ) else -1 := by
  have hid : sig.nodeArgs.blockId = sig.block.getD 0 := rfl
  rw [NodeArgs.argBlock, hid]
  cases hb : sig.block with
  | none => simp
  | some b => simp [sig.block_ne_zero hb, sig.idx_block hb locals]

theorem argPostStart_nodeArgs (locals : List ℕ) (h : sig.p ≠ 0) :
    sig.nodeArgs.argPostStart (sig.names ++ locals) = sig.postSlot := by
  cases hp : sig.post with
  | nil => simp [p, hp] at h
  | cons id post =>
      -- the first slot is free for post arguments only if nothing stands before them
      have hpos : sig.postSlot ≠ 0 := by
        rcases sig.post_alone (by simp [hp]) with ho | hr
        · have := List.length_pos_iff.mpr ho
          simp only [postSlot, restSlot, o]
          omega
        · obtain ⟨r, hr⟩ := Option.isSome_iff_exists.mp hr
          simp [postSlot, hr]
      have hstart : (sig.nodeArgs.post?.map fun q =>
          getDynaVarIdxAtRaw (sig.names ++ locals) q.pid).getD 0 = sig.postSlot := by
        have hnode : sig.nodeArgs.post? = some ⟨id, sig.p, sig.mInit, sig.pInit⟩ := by
          simp [nodeArgs, NodeArgs.post?, hp]
        rw [hnode, Option.map_some, Option.getD_some, sig.idx_post hp locals]
      simp only [NodeArgs.argPostStart, hstart]
      rw [if_neg (by omega)]

theorem length_compileOptArgs (compile : E → ℕ → List (Elem V) × ℕ) (no : ℕ) (es : List E) :
    (compileOptArgs compile no es).2.1.length = es.length + 1 := by
  induction es generalizing no with
  | nil => rfl
  | cons e es ih => simp [compileOptArgs, ih]

theorem length_setOptArgs (compile : E → ℕ → List (Elem V) × ℕ) (no : ℕ) :
    (setOptArgs compile no sig.nodeArgs.opt).2.1.length =
      if sig.o = 0 then 0 else sig.o + 1 := by
  cases ho : sig.optional <;> simp [setOptArgs, nodeArgs, o, ho, length_compileOptArgs]

/-- **The slots follow the parameters in order**, and the code of the optional arguments comes
first. -/
theorem iseqSetArguments_eq (compile : E → ℕ → List (Elem V) × ℕ) (locals : List ℕ)
    (isBlock : Bool) (labelNo : ℕ) :
    ∃ a init, iseqSetArguments compile (sig.names ++ locals) isBlock labelNo
        (some sig.nodeArgs) = some a ∧
      SlotsOf sig isBlock a.iseq ∧
      a.iseq.argOptTable = (setOptArgs compile labelNo (sig.optional.map Prod.snd)).2.1 ∧
      a.optargs = (setOptArgs compile labelNo (sig.optional.map Prod.snd)).1 ++ init := by
  rw [iseqSetArguments]
  simp only [argRest_nodeArgs, restId_nodeArgs]
  rw [if_neg (by cases h : sig.rest <;> simp)]
  refine ⟨_, _, rfl, ?_, rfl, List.append_assoc _ _ _⟩
  have hrest : (if sig.rest.isSome then (sig.restSlot : ℤ) else -1) = -1 ↔ sig.rest = none := by
    cases sig.rest <;> simp
  have hblock : (if sig.block.isSome then (sig.blockSlot : ℤ) else -1) = -1 ↔
      sig.block = none := by
    cases sig.block <;> simp
  have hopts : (if sig.o = 0 then 0 else sig.o + 1) = 0 ↔ sig.o = 0 := by
    split <;> simp_all
  have hsum : ∀ P Q : Prop, ∀ [Decidable P] [Decidable Q],
      (((if P then 1 else 0) + if Q then 2 else 0) % 2 = 1 ↔ P) ∧
        (((if P then 1 else 0) + if Q then 2 else 0) / 2 % 2 = 1 ↔ Q) := by
    intro P Q _ _
    by_cases hP : P <;> by_cases hQ : Q <;> simp [hP, hQ]
  refine ⟨rfl, sig.length_setOptArgs compile labelNo, sig.argPostLen_nodeArgs,
    sig.argPostStart_nodeArgs locals, rfl, sig.argBlock_nodeArgs locals, ?_, ?_⟩
  · simp only [(hsum _ _).1, length_setOptArgs, argPostLen_nodeArgs, argBlock_nodeArgs, hrest,
      hblock, hopts]
  · simp only [(hsum _ _).2, length_setOptArgs, argPostLen_nodeArgs, hrest, hopts,
      lastComma_nodeArgs]
    rfl

end Signature

end MacRuby
