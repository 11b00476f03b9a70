import Mathlib.Data.Int.Bitwise
import MacRuby.Compile.Element
import MacRuby.Lib.Result
import MacRuby.Lib.Simulation

/-!
# The peephole optimiser

`iseq_optimize` walks a list of elements once and rewrites it in place: it removes a jump to the
next instruction, retargets jumps and branches to jumps, copies a `leave` to the jump to it, and
inverts a branch over a jump. The walk is a zipper here, with the elements already passed kept
nearest first. A pointer to an element is what stands from that element on, so two pointers into
one list are equal when these are of equal length, and `[]` is the null pointer.

The meaning of a list is what its run does outside jumps: the instructions it executes, the values
its branches test and how it ends, whatever the environment answers.

## Main definitions

* `afterLabel`, `getDestinationInsn`, `getNextInsn`, `getPrevInsn` — the searches.
* `jumpRewrite`, `iseqPeepholeOptimize`, `iseqOptimize` — the pass.
* `listMove` — the machine that runs a list.
* `SameMeaning` — two lists do the same from their start and from every label.
-/

namespace MacRuby

open Simulation

variable {V : Type}

/-! ## Searches -/

/-- What stands after a label of the list. -/
def afterLabel (l : Label) : List (Elem V) → Option (List (Elem V))
  | [] => none
  | .label l' :: es => if l' = l then some es else afterLabel l es
  | _ :: es => afterLabel l es

attribute [grind =] afterLabel

/-- The elements the searches stop at. -/
def Elem.isInsn : Elem V → Bool
  | .insn _ | .adjust _ _ => true
  | _ => false

/-- The loop shared by the searches: go on to an instruction or an adjustment. -/
def skipToInsn (es : List (Elem V)) : List (Elem V) := es.dropWhile fun e => !e.isInsn

/-- `get_destination_insn`, of the label in operand 0. A label that is in no list has no next
element. -/
def getDestinationInsn (es : List (Elem V)) (l : Label) : List (Elem V) :=
  skipToInsn ((afterLabel l es).getD [])

/-- `get_next_insn`. -/
def getNextInsn (rest : List (Elem V)) : List (Elem V) := skipToInsn rest

/-- `get_prev_insn`, on the elements before an instruction, nearest first. -/
def getPrevInsn (before : List (Elem V)) : List (Elem V) := skipToInsn before

/-! ## The pass -/

/-- Why the pass has no result: it follows a null pointer or reads a field an element does not
have, or it does not leave its `again` loop. -/
inductive OptFault
  | undefined
  | diverges
  deriving DecidableEq, Repr

/-- The instruction at a pointer. -/
def insnAt : List (Elem V) → Except OptFault (Insn V)
  | .insn i :: _ => .ok i
  | _ => .error .undefined

/-- `OPERAND_AT(i, 0)` of a jump or branch. -/
def Insn.target (i : Insn V) : Except OptFault Label :=
  match i.operands with
  | .label l :: _ => .ok l
  | _ => .error .undefined

/-- `OPERAND_AT(i, 0) = l`. -/
def Insn.setTarget (i : Insn V) (l : Label) : Insn V :=
  { i with operands := i.operands.set 0 (.label l) }

/-- Is it a `branchif` or a `branchunless`? -/
def InsnId.isBranch (i : InsnId) : Bool := i == .branchif || i == .branchunless

/-- The opposite branch. -/
def InsnId.invert (i : InsnId) : InsnId := if i = .branchif then .branchunless else .branchif

/-- A branch inverted and sent to the label of the jump behind it. -/
def Insn.invertTo (i : Insn V) (l : Label) : Insn V :=
  { i with insnId := i.insnId.invert }.setTarget l

/-- The branches of the test on a jump. -/
inductive JumpRewrite (V : Type)
  | remove
  | again (l : Label)
  | leave (diobj : Insn V)
  | invert (piobj : Insn V) (front : List (Elem V))
  | keep

/-- Which rewrite applies to the jump `iobj`. -/
def jumpRewrite (before : List (Elem V)) (iobj : Insn V) (rest : List (Elem V)) :
    Except OptFault (JumpRewrite V) := do
  let es := before.reverse ++ .insn iobj :: rest
  let l ← iobj.target
  let diobj := getDestinationInsn es l
  let niobj := getNextInsn rest
  if diobj.length = niobj.length then
    return .remove
  let d ← insnAt diobj
  if diobj.length ≠ rest.length + 1 ∧ d.insnId = .jump then
    let l' ← d.target
    if l ≠ l' then return .again l' else return .keep
  else if d.insnId = .leave then
    return .leave d
  else
    match getPrevInsn before with
    | [] => return .keep
    | piobj :: front =>
        let p ← insnAt [piobj]
        if p.insnId.isBranch then
          let lp ← p.target
          if (getDestinationInsn es lp).length = niobj.length then return .invert p front
          else return .keep
        else return .keep

/-- The elements between an instruction and the one before it. -/
def sincePrevInsn (before : List (Elem V)) : List (Elem V) := before.takeWhile fun e => !e.isInsn

/-- The part of `iseq_peephole_optimize` for a jump: the elements before the next one, nearest
first. The fuel bounds the `again` loop. -/
def peepholeJump : ℕ → List (Elem V) → Insn V → List (Elem V) → Except OptFault (List (Elem V))
  | 0, _, _, _ => .error .diverges
  | fuel + 1, before, iobj, rest => do
      match ← jumpRewrite before iobj rest with
      | .remove => return before
      | .again l => peepholeJump fuel before (iobj.setTarget l) rest
      | .leave diobj =>
          return .insn ⟨.pop, iobj.lineNo, []⟩ :: .insn ⟨.leave, iobj.lineNo, diobj.operands⟩ ::
            before
      | .invert piobj front =>
          let l ← iobj.target
          return sincePrevInsn before ++ .insn (piobj.invertTo l) :: front
      | .keep => return .insn iobj :: before

/-- The part of `iseq_peephole_optimize` for a branch. -/
def peepholeBranch (before : List (Elem V)) (iobj : Insn V) (rest : List (Elem V)) :
    Except OptFault (Insn V) := do
  let l ← iobj.target
  let nobj ← insnAt (getDestinationInsn (before.reverse ++ .insn iobj :: rest) l)
  if nobj.insnId = .jump then
    let l' ← nobj.target
    return iobj.setTarget l'
  else return iobj

/-- `VM_CALL_TAILCALL_BIT`. -/
def vmCallTailcallBit : ℤ := 32

/-- The part of `iseq_peephole_optimize` for a `leave` under the tail-call option: a call without
a block before it becomes a tail call. -/
def peepholeTailcall (before : List (Elem V)) : Except OptFault (List (Elem V)) := do
  match getPrevInsn before with
  | [] => throw .undefined
  | piobj :: front =>
      let p ← insnAt [piobj]
      if p.insnId ≠ .send then return before
      match p.operands with
      | [mid, argc, .iseq none, .num flag, ic] =>
          let operands := [mid, argc, .iseq none, .num (flag.lor vmCallTailcallBit), ic]
          return sincePrevInsn before ++ .insn { p with operands := operands } :: front
      | [_, _, .iseq (some _), _, _] => return before
      | _ => throw .undefined

/-- `iseq_peephole_optimize`: the elements before the next one, nearest first. -/
def iseqPeepholeOptimize (doTailcallopt : Bool) (fuel : ℕ) (before : List (Elem V))
    (iobj : Insn V) (rest : List (Elem V)) : Except OptFault (List (Elem V)) := do
  if iobj.insnId = .jump then
    peepholeJump fuel before iobj rest
  else if iobj.insnId.isBranch then
    let iobj ← peepholeBranch before iobj rest
    return .insn iobj :: before
  else if doTailcallopt ∧ iobj.insnId = .leave then
    let before ← peepholeTailcall before
    return .insn iobj :: before
  else return .insn iobj :: before

/-- `iseq_optimize` with the peephole option alone, from the elements passed and those to come. -/
def iseqOptimize (doTailcallopt : Bool) (fuel : ℕ) :
    List (Elem V) → List (Elem V) → Except OptFault (List (Elem V))
  | before, [] => .ok before.reverse
  | before, .insn iobj :: rest => do
      let before ← iseqPeepholeOptimize doTailcallopt fuel before iobj rest
      iseqOptimize doTailcallopt fuel before rest
  | before, e :: rest => iseqOptimize doTailcallopt fuel (e :: before) rest

attribute [grind =] iseqOptimize

/-! ## The meaning of a list -/

/-- A point of a run: before an element, out of the frame by `leave`, or at a label that is not in
the list. -/
inductive Point (V : Type)
  | at (es : List (Elem V))
  | left
  | lost

/-- How a run ends. -/
inductive RunEnd
  | left
  | lost
  | fellOff
  deriving DecidableEq, Repr

/-- What the environment answers to an instruction: the value on the stack if it is a branch, and
for any other where to go on, at a label (a dispatch, a cache hit, a catch entry) or behind it. -/
structure Reply (V : Type) where
  value : V
  goto : Option Label

/-- What is seen of a run. -/
inductive Event (V : Type)
  | exec (insnId : InsnId) (operands : List (Operand V))
  | adjust (l : Option Label)
  | test (v : V)

/-- The point after a label. -/
def enter (es : List (Elem V)) (l : Label) : Point V :=
  match afterLabel l es with
  | some k => .at k
  | none => .lost

/-- The point a jump or branch goes to. -/
def Insn.destination (es : List (Elem V)) (i : Insn V) : Point V :=
  match i.target with
  | .ok l => enter es l
  | .error _ => .lost

/-- The move of an instruction with `k` behind it. -/
def insnMove (rtest : V → Bool) (es : List (Elem V)) (i : Insn V) (k : List (Elem V)) :
    Move (Point V) (Reply V) (Event V) RunEnd :=
  match i.insnId with
  | .jump => .silent (i.destination es)
  | .branchif => .act fun r => (.test r.value, if rtest r.value then i.destination es else .at k)
  | .branchunless =>
      .act fun r => (.test r.value, if rtest r.value then .at k else i.destination es)
  | .leave => .act fun _ => (.exec .leave i.operands, .left)
  | id => .act fun r => (.exec id i.operands, (r.goto.map (enter es)).getD (.at k))

/-- The machine that runs a list; `rtest` is the truth of a value. -/
def listMove (rtest : V → Bool) (es : List (Elem V)) :
    Point V → Move (Point V) (Reply V) (Event V) RunEnd
  | .at [] => .halt .fellOff
  | .at (.insn i :: k) => insnMove rtest es i k
  | .at (.adjust l _ :: k) => .act fun _ => (.adjust l, .at k)
  | .at (_ :: k) => .silent (.at k)
  | .left => .halt .left
  | .lost => .halt .lost

attribute [grind =] listMove

/-- All that can be observed of a run of a list from a point. -/
def observed (rtest : V → Bool) (o : ℕ → Reply V) (es : List (Elem V)) (p : Point V) :
    Set (List (Event V) × Option RunEnd) :=
  observations (listMove rtest es) o p

/-- Two lists do the same from their first element and from each label, whatever the environment
answers. -/
def SameMeaning (rtest : V → Bool) (es es' : List (Elem V)) : Prop :=
  ∀ o, observed rtest o es (.at es) = observed rtest o es' (.at es') ∧
    ∀ l, observed rtest o es (enter es l) = observed rtest o es' (enter es' l)

/-! ## When the walk loses no entry -/

/-- No label stands between a branch and the jump over which it is inverted. -/
def CleanJump : ℕ → List (Elem V) → Insn V → List (Elem V) → Prop
  | 0, _, _, _ => True
  | fuel + 1, before, iobj, rest =>
      match jumpRewrite before iobj rest with
      | .ok (.again l) => CleanJump fuel before (iobj.setTarget l) rest
      | .ok (.invert _ _) => labelsOf (sincePrevInsn before) = []
      | _ => True

/-- No step of the walk inverts a branch over a jump behind a label. -/
def CleanWalk (doTailcallopt : Bool) (fuel : ℕ) : List (Elem V) → List (Elem V) → Prop
  | _, [] => True
  | before, .insn iobj :: rest =>
      (iobj.insnId = .jump → CleanJump fuel before iobj rest) ∧
        match iseqPeepholeOptimize doTailcallopt fuel before iobj rest with
        | .ok before' => CleanWalk doTailcallopt fuel before' rest
        | .error _ => True
  | before, e :: rest => CleanWalk doTailcallopt fuel (e :: before) rest

end MacRuby
