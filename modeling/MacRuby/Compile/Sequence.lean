import MacRuby.Compile.Element
import MacRuby.Lib.Assoc
import MacRuby.Lib.Blocks
import Mathlib.Logic.Function.Basic
import Mathlib.Tactic

/-!
# Laying out the elements as words

`iseq_set_sequence` goes over the list of elements twice. The first pass counts words and
information entries and gives every label its position; the second emits the words, each
instruction's operands resolved against the positions of the first. Stack adjustments become one
of two instructions, or nothing, and only the second pass knows which. `iseq_set_exception_table`
and `iseq_set_optargs_table` then read the positions off the labels.

## Main definitions

* `LabelData`, `Word`, `InsnInfo`, `Sequence` — the data of the two passes.
* `countElem`, `emitElem` — one element in the first and in the second pass.
* `iseqSetSequence`, `iseqSetExceptionTable`, `iseqSetOptargsTable` — the functions.
-/

namespace MacRuby

/-- The fields of a `LABEL` that laying out reads and writes. -/
structure LabelData where
  position : ℕ
  set : Bool
  sp : ℤ
  deriving DecidableEq, Repr

/-- The state of all labels. -/
abbrev Labels := Label → LabelData

/-- The labels as `new_label_body` makes them. -/
def newLabels : Labels := fun _ => ⟨0, false, -1⟩

/-- A word of `generated_iseq`. Offsets are relative to the end of their instruction; a case
dispatch table maps literals to such offsets. -/
inductive Word (V : Type*)
  | op (i : InsnId)
  | offset (d : ℤ)
  | cdhash (map : List (V × ℤ))
  | num (n : ℤ)
  | iseq (body : Option ℕ)
  | value (o : Operand V)
  | ic
  | id (sym : ℕ)
  | gentry (entry : ℕ)

/-- `struct iseq_insn_info_entry`. -/
structure InsnInfo where
  position : ℕ
  lineNo : ℤ
  sp : ℤ
  deriving DecidableEq, Repr

/-- How laying out fails. `badOperand` stands for an operand of another kind than its type, which
C reads as garbage. -/
inductive SeqError
  | operandSizeMiss (lineNo : ℤ) (size : ℕ) (len : ℕ)
  | unknownLabel (lineNo : ℤ)
  | unknownOperandType (lineNo : ℤ) (type : OpType)
  | adjustBug
  | badOperand
  deriving DecidableEq, Repr

variable {V : Type*}

/-! ## The first pass -/

/-- What the first pass counts: entries `k`, words `pos`, and the labels' positions. -/
structure Count where
  k : ℕ
  pos : ℕ
  labels : Labels

/-- One element of the first pass. -/
def countElem (c : Count) : Elem V → Count
  | .insn i => { c with pos := c.pos + i.dataLength, k := c.k + 1 }
  | .label l =>
      { c with labels :=
          Function.update c.labels l { c.labels l with position := c.pos, set := true } }
  | .none => c
  | .adjust _ lineNo => if lineNo ≠ -1 then { c with pos := c.pos + 2, k := c.k + 1 } else c

/-- The first pass. -/
def setLabelPosition (es : List (Elem V)) (labels : Labels) : Count :=
  es.foldl countElem ⟨0, 0, labels⟩

/-! ## The second pass -/

/-- The state of the second pass. -/
structure Emit (V : Type*) where
  iseq : List (Word V)
  info : List InsnInfo
  pos : ℕ
  sp : ℤ
  stackMax : ℤ
  labels : Labels

/-- The table of a case dispatch whose instruction ends at `next`: the literals are stored one
after another, a later one over an earlier one that is `eql?` to it. -/
def cdhashTable (eql : V → V → Bool) (labels : Labels) (lineNo : ℤ) (next : ℤ) :
    List (V × Label) → List (V × ℤ) → Except SeqError (List (V × ℤ))
  | [], map => .ok map
  | (obj, l) :: ps, map =>
      if (labels l).set then
        cdhashTable eql labels lineNo next ps
          (Assoc.store eql map obj ((labels l).position - next))
      else .error (.unknownLabel lineNo)

/-- The word of one operand; a label that is jumped to before it is reached takes the depth of the
jump. -/
def genOperand (eql : V → V → Bool) (lineNo sp next : ℤ) (labels : Labels) :
    OpType → Operand V → Except SeqError (Word V × Labels)
  | .offset, .label l =>
      if (labels l).set then
        .ok (.offset ((labels l).position - next),
          if (labels l).sp = -1 then Function.update labels l { labels l with sp := sp }
          else labels)
      else .error (.unknownLabel lineNo)
  | .cdhash, .lits ps => do
      let map ← cdhashTable eql labels lineNo next ps []
      return (.cdhash map, labels)
  | .lindex, .num n | .dindex, .num n | .num, .num n => .ok (.num n, labels)
  | .iseq, .iseq body => .ok (.iseq body, labels)
  | .value, o => .ok (.value o, labels)
  | .ic, _ => .ok (.ic, labels)
  | .id, .id sym => .ok (.id sym, labels)
  | .gentry, .gentry entry => .ok (.gentry entry, labels)
  | .funcptr, _ => .error (.unknownOperandType lineNo .funcptr)
  | _, _ => .error .badOperand

/-- The words of the operands, in order. -/
def genOperands (eql : V → V → Bool) (lineNo sp next : ℤ) :
    Labels → List OpType → List (Operand V) → Except SeqError (List (Word V) × Labels)
  | labels, [], _ => .ok ([], labels)
  | labels, t :: ts, o :: os => do
      let (w, labels) ← genOperand eql lineNo sp next labels t o
      let (ws, labels) ← genOperands eql lineNo sp next labels ts os
      return (w :: ws, labels)
  | _, _ :: _, [] => .error .badOperand

/-- One instruction of the second pass. -/
def emitInsn (eql : V → V → Bool) (st : Emit V) (i : Insn V) : Except SeqError (Emit V) := do
  let some sp := calcSpDepth st.sp i | .error .badOperand
  let len := insnLen i.insnId
  if i.operands.length ≠ len - 1 then
    .error (.operandSizeMiss i.lineNo i.operands.length (len - 1))
  else
    let (ws, labels) ← genOperands eql i.lineNo sp (st.pos + len) st.labels
      (insnOpTypes i.insnId) i.operands
    return { iseq := st.iseq ++ .op i.insnId :: ws
             info := st.info ++ [⟨st.pos, i.lineNo, sp⟩]
             pos := st.pos + len
             sp := sp
             stackMax := max st.stackMax sp
             labels := labels }

/-- One label of the second pass: it takes the depth of the stack, or gives it. -/
def emitLabel (st : Emit V) (l : Label) : Emit V :=
  if (st.labels l).sp = -1 then
    { st with labels := Function.update st.labels l { st.labels l with sp := st.sp } }
  else { st with sp := (st.labels l).sp }

/-- One stack adjustment of the second pass: the surplus is dropped, or where there is none a
jump to the next instruction fills the words counted for it. -/
def emitAdjust (st : Emit V) (label : Option Label) (lineNo : ℤ) : Except SeqError (Emit V) :=
  let sp := match label with
    | some l => (st.labels l).sp
    | none => 0
  if lineNo = -1 then .ok { st with sp := sp }
  else if 0 < st.sp - sp then
    .ok { st with
      sp := sp
      info := st.info ++ [⟨st.pos, lineNo, sp⟩]
      iseq := st.iseq ++ [.op .adjuststack, .num (st.sp - sp)]
      pos := st.pos + 2 }
  else if st.sp - sp = 0 then
    .ok { st with
      sp := sp
      info := st.info ++ [⟨st.pos, lineNo, sp⟩]
      iseq := st.iseq ++ [.op .jump, .offset 0]
      pos := st.pos + 2 }
  else .error .adjustBug

/-- One element of the second pass. -/
def emitElem (eql : V → V → Bool) (st : Emit V) : Elem V → Except SeqError (Emit V)
  | .insn i => emitInsn eql st i
  | .label l => .ok (emitLabel st l)
  | .adjust label lineNo => emitAdjust st label lineNo
  | .none => .ok st

/-- The second pass. -/
def emitElems (eql : V → V → Bool) : Emit V → List (Elem V) → Except SeqError (Emit V)
  | st, [] => .ok st
  | st, e :: es => do
      let st ← emitElem eql st e
      emitElems eql st es

/-- What `iseq_set_sequence` leaves: the two buffers with the sizes the first pass allocated for
them, the sizes the second pass stored, and the labels. -/
structure Sequence (V : Type*) where
  allocIseq : ℕ
  allocInfo : ℕ
  iseq : List (Word V)
  iseqSize : ℕ
  insnInfoTable : List InsnInfo
  stackMax : ℤ
  labels : Labels

/-- `iseq_set_sequence`. -/
def iseqSetSequence (eql : V → V → Bool) (anchor : Anchor V) :
    Except SeqError (Sequence V) := do
  let c := setLabelPosition anchor.elems newLabels
  let st ← emitElems eql ⟨[], [], 0, 0, 0, c.labels⟩ anchor.elems
  return { allocIseq := c.pos
           allocInfo := c.k
           iseq := st.iseq
           iseqSize := st.pos
           insnInfoTable := st.info
           stackMax := st.stackMax
           labels := st.labels }

/-! ## Catch table and optional arguments -/

/-- The `CATCH_TYPE_*` constants. -/
inductive CatchType
  | rescue | ensure | retry | break | redo | next
  deriving DecidableEq, Repr

/-- An entry of `catch_table_ary`; `flag` is bit `0x10000` of its type word. -/
structure CatchEntry where
  type : CatchType
  flag : Bool
  start : Label
  stop : Label
  iseq : Option ℕ
  cont : Option Label

/-- `struct iseq_catch_table_entry`. -/
structure CatchTableEntry where
  type : CatchType
  start : ℕ
  stop : ℕ
  iseq : Option ℕ
  cont : ℕ
  sp : ℤ
  deriving DecidableEq, Repr

/-- One entry of `iseq_set_exception_table`. The depth of an entry without a continuation is left
as it was allocated, here zero. -/
def setCatchEntry (labels : Labels) (a : CatchEntry) : CatchTableEntry where
  type := a.type
  start := (labels a.start).position
  stop := (labels a.stop).position
  iseq := a.iseq
  cont := match a.cont with
    | some l => (labels l).position
    | none => 0
  sp := match a.cont with
    | some l =>
        if a.type = .rescue ∨ a.type = .break ∨ (a.flag = false ∧ a.type = .next) then
          (labels l).sp - 1
        else (labels l).sp
    | none => 0

/-- `iseq_set_exception_table`. -/
def iseqSetExceptionTable (labels : Labels) (ary : List CatchEntry) : List CatchTableEntry :=
  ary.map (setCatchEntry labels)

/-- `iseq_set_optargs_table`. -/
def iseqSetOptargsTable (labels : Labels) (argOptTable : List Label) : List ℕ :=
  argOptTable.map fun l => (labels l).position

end MacRuby
