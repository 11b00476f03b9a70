import Mathlib.Data.Int.Notation
import Mathlib.Data.List.Basic

/-!
# The elements an instruction sequence is compiled to

`iseq_compile_each` turns a syntax tree into a linked list of elements: instructions, labels and
stack adjustments. The list is what the optimiser rewrites and what `iseq_set_sequence` lays out
as words. The tables are those of `insns_info.inc`: the types of an instruction's operands, the
words it takes and what it does to the depth of the stack.

## Main definitions

* `InsnId`, `OpType` — the instructions and the types of their operands.
* `insnOpTypes`, `insnLen`, `insnStackIncrease` — the tables of `insns_info.inc`.
* `Operand`, `Insn`, `Elem`, `Anchor` — the elements of the list and the list itself.

## Main results

* `insnLen_eq` — the table of lengths and the table of operand types agree.
-/

namespace MacRuby

/-- The types of operands, the `TS_*` characters of `insns_info.inc`. -/
inductive OpType
  | iseq | gentry | offset | dindex | cdhash | ic | id | funcptr | value | lindex | num
  deriving DecidableEq, Repr

/-- The instructions, in the order of `insn_name_info`. -/
inductive InsnId
  | nop | getlocal | setlocal | getspecial | setspecial | getdynamic | setdynamic
  | getinstancevariable | setinstancevariable | getclassvariable | setclassvariable | getconstant
  | setconstant | getglobal | setglobal | putnil | putself | putcbase | putobject | putstring
  | concatstrings | tostring | toregexp | newarray | duparray | expandarray | concatarray
  | splatarray | checkincludearray | newhash | newrange | pop | dup | dupn | swap | reput | topn
  | setn | adjuststack | definemethod | aliasInsn | undef | defined | postexe | trace
  | defineclass | send | invokesuper | invokeblock | leave | finish | throw | jump | branchif
  | branchunless | getinlinecache | onceinlinecache | setinlinecache | optCaseDispatch
  | optCheckenv | optPlus | optMinus | optMult | optDiv | optMod | optEq | optNeq | optLt | optLe
  | optGt | optGe | optLtlt | optAref | optAset | optLength | optSucc | optNot | optRegexpmatch1
  | optRegexpmatch2 | optCallCFunction | bitblt | answer
  deriving DecidableEq, Repr

/-- `insn_op_types`: the types of an instruction's operands. -/
def insnOpTypes : InsnId → List OpType
  | .nop | .putnil | .putself | .putcbase | .tostring | .concatarray | .pop | .dup | .swap
  | .reput | .undef | .leave | .finish | .optCheckenv | .optPlus | .optMinus | .optMult | .optDiv
  | .optMod | .optLt | .optLe | .optGt | .optGe | .optLtlt | .optAref | .optAset | .optLength
  | .optSucc | .optRegexpmatch2 | .bitblt | .answer => []
  | .getlocal | .setlocal => [.lindex]
  | .getspecial => [.value, .num]
  | .setspecial | .putobject | .putstring | .duparray | .splatarray | .checkincludearray
  | .aliasInsn | .optRegexpmatch1 => [.value]
  | .getdynamic | .setdynamic => [.dindex, .num]
  | .getinstancevariable | .setinstancevariable | .getclassvariable | .setclassvariable
  | .getconstant | .setconstant => [.id]
  | .getglobal | .setglobal => [.gentry]
  | .concatstrings | .newarray | .newhash | .newrange | .dupn | .topn | .setn | .adjuststack
  | .trace | .throw => [.num]
  | .toregexp | .expandarray | .invokeblock => [.num, .num]
  | .definemethod | .defineclass => [.id, .iseq, .num]
  | .defined => [.num, .value, .value]
  | .postexe => [.iseq]
  | .send => [.id, .num, .iseq, .num, .value]
  | .invokesuper => [.num, .iseq, .num]
  | .jump | .branchif | .branchunless | .setinlinecache => [.offset]
  | .getinlinecache | .onceinlinecache => [.ic, .offset]
  | .optCaseDispatch => [.cdhash, .offset]
  | .optEq | .optNot => [.ic]
  | .optNeq => [.ic, .ic]
  | .optCallCFunction => [.funcptr]

/-- `insn_len`: the words an instruction takes, its operands included. -/
def insnLen : InsnId → ℕ
  | .nop | .putnil | .putself | .putcbase | .tostring | .concatarray | .pop | .dup | .swap
  | .reput | .undef | .leave | .finish | .optCheckenv | .optPlus | .optMinus | .optMult | .optDiv
  | .optMod | .optLt | .optLe | .optGt | .optGe | .optLtlt | .optAref | .optAset | .optLength
  | .optSucc | .optRegexpmatch2 | .bitblt | .answer => 1
  | .getlocal | .setlocal | .setspecial | .getinstancevariable | .setinstancevariable
  | .getclassvariable | .setclassvariable | .getconstant | .setconstant | .getglobal | .setglobal
  | .putobject | .putstring | .concatstrings | .newarray | .duparray | .splatarray
  | .checkincludearray | .newhash | .newrange | .dupn | .topn | .setn | .adjuststack | .aliasInsn
  | .postexe | .trace | .throw | .jump | .branchif | .branchunless | .setinlinecache | .optEq
  | .optNot | .optRegexpmatch1 | .optCallCFunction => 2
  | .getspecial | .getdynamic | .setdynamic | .toregexp | .expandarray | .invokeblock
  | .getinlinecache | .onceinlinecache | .optCaseDispatch | .optNeq => 3
  | .definemethod | .defined | .defineclass | .invokesuper => 4
  | .send => 6

/-- **The table of lengths and the table of operand types agree.** -/
theorem insnLen_eq (i : InsnId) : insnLen i = (insnOpTypes i).length + 1 := by
  cases i <;> rfl

/-- A label is known by its `label_no`. -/
abbrev Label := ℕ

/-- An operand as the compiler leaves it. `V` is the type of Ruby values; `lits` is the array
`[obj, label, ...]` of a case dispatch. -/
inductive Operand (V : Type*)
  | label (l : Label)
  | lits (ps : List (V × Label))
  | num (n : ℤ)
  | value (v : V)
  | id (sym : ℕ)
  | iseq (body : Option ℕ)
  | gentry (entry : ℕ)
  | cache

/-- `INSN`: an instruction of the list. -/
structure Insn (V : Type*) where
  insnId : InsnId
  lineNo : ℤ
  operands : List (Operand V)

/-- `LINK_ELEMENT`: an element of the list. A stack adjustment has the label whose depth it
restores, if any, and a line. -/
inductive Elem (V : Type*)
  | insn (i : Insn V)
  | label (l : Label)
  | adjust (l : Option Label) (lineNo : ℤ)
  | none

variable {V : Type*}

/-- The label an element is. -/
def Elem.label? : Elem V → Option Label
  | .label l => some l
  | _ => Option.none

/-- The labels of a list, in order. -/
def labelsOf (es : List (Elem V)) : List Label := es.filterMap Elem.label?

@[simp] theorem labelsOf_append (es fs : List (Elem V)) :
    labelsOf (es ++ fs) = labelsOf es ++ labelsOf fs := by
  simp [labelsOf]

theorem mem_labelsOf {es : List (Elem V)} {l : Label} : l ∈ labelsOf es ↔ .label l ∈ es := by
  rw [labelsOf, List.mem_filterMap]
  constructor
  · rintro ⟨e, he, hl⟩
    cases e <;> simp_all [Elem.label?]
  · intro h
    exact ⟨_, h, rfl⟩

/-- `LINK_ANCHOR`: a list of elements. A label is one node of the list, so it stands in it at
most once. -/
structure Anchor (V : Type*) where
  elems : List (Elem V)
  nodup : (labelsOf elems).Nodup

/-- `FIX2INT` of an operand. -/
def fix2int (opes : List (Operand V)) (j : ℕ) : Option ℤ :=
  match opes[j]? with
  | some (.num n) => some n
  | _ => Option.none

/-- `VM_CALL_ARGS_BLOCKARG_BIT`, as a test of the flag operand of a call. -/
def blockargBit (flag : ℤ) : ℤ := if flag / 4 % 2 = 1 then 1 else 0

/-- `insn_stack_increase`: the depth of the stack after an instruction. It fails on operands that
are not numbers where the table reads a number. -/
def insnStackIncrease (depth : ℤ) (insn : InsnId) (opes : List (Operand V)) : Option ℤ :=
  match insn with
  | .getlocal | .getspecial | .getdynamic | .getinstancevariable | .getclassvariable | .getglobal
  | .putnil | .putself | .putcbase | .putobject | .putstring | .duparray | .dup | .getinlinecache
  | .onceinlinecache | .topn | .bitblt | .answer => some (depth + 1)
  | .nop | .getconstant | .tostring | .splatarray | .checkincludearray | .swap | .defined
  | .postexe | .trace | .leave | .finish | .throw | .jump | .setinlinecache | .optCheckenv
  | .reput | .setn | .optLength | .optSucc | .optNot | .optRegexpmatch1 | .optCallCFunction =>
    some depth
  | .setlocal | .setspecial | .setdynamic | .setinstancevariable | .setclassvariable | .setglobal
  | .concatarray | .newrange | .pop | .definemethod | .undef | .defineclass | .branchif
  | .branchunless | .optPlus | .optMinus | .optMult | .optDiv | .optMod | .optEq | .optNeq
  | .optLt | .optLe | .optGt | .optGe | .optLtlt | .optAref | .optRegexpmatch2
  | .optCaseDispatch => some (depth - 1)
  | .setconstant | .aliasInsn | .optAset => some (depth - 2)
  | .concatstrings | .newarray | .newhash | .invokeblock => do
      let num ← fix2int opes 0
      return depth + (1 - num)
  | .toregexp => do
      let cnt ← fix2int opes 1
      return depth + (1 - cnt)
  | .expandarray => do
      let num ← fix2int opes 0
      let flag ← fix2int opes 1
      return depth + (num - 1 + if flag % 2 = 1 then 1 else 0)
  | .dupn => do
      let n ← fix2int opes 0
      return depth + n
  | .adjuststack => do
      let n ← fix2int opes 0
      return depth - n
  | .send => do
      let opArgc ← fix2int opes 1
      let opFlag ← fix2int opes 3
      return depth - (opArgc + blockargBit opFlag)
  | .invokesuper => do
      let opArgc ← fix2int opes 0
      let opFlag ← fix2int opes 2
      return depth - (opArgc + blockargBit opFlag)

/-- `insn_data_length`. -/
def Insn.dataLength (i : Insn V) : ℕ := insnLen i.insnId

/-- `calc_sp_depth`. -/
def calcSpDepth (depth : ℤ) (i : Insn V) : Option ℤ :=
  insnStackIncrease depth i.insnId i.operands

end MacRuby
