import MacRuby.Compile.Layout
import MacRuby.String.Object

/-!
# Compiling case expressions

A `case` whose `when` values are all symbol, numeric or string literals is compiled twice over: as
a sequence of `===` tests, and before it a table from the literals to the labels of their bodies,
which `opt_case_dispatch` looks the subject up in. This module has the compiler's side and a
machine that runs the tests and the dispatch on the words laid out.

## Main definitions

* `CaseValue`, `ValueOps`, `eqq`, `eql` — values and their two equalities.
* `whenVals`, `compileCase` — the compiler.
* `vmStep`, `vmRun` — the machine.
-/

namespace MacRuby

/-! ## Values -/

/-- Values as `case` sees them. `F` is the type of floating point numbers, `O` that of all other
objects. -/
inductive CaseValue (F O : Type)
  | nil
  | bool (b : Bool)
  | symbol (id : ℕ)
  | integer (n : ℤ)
  | float (x : F)
  | string (s : StringObject)
  | object (o : O)
  deriving DecidableEq

variable {F O : Type}

/-- `eql?` of two literals: of the same class and equal. -/
def eqlLit (feq : F → F → Bool) (strEql : StringObject → StringObject → Bool) :
    CaseValue F O → CaseValue F O → Bool
  | .symbol i, .symbol j => i == j
  | .integer n, .integer k => n == k
  | .float x, .float y => feq x y
  | .string a, .string b => strEql a b
  | _, _ => false

/-- What the two equalities call: conversion to and comparison of C doubles, `rb_str_equal` and
`rb_str_eql`, which may differ where a string has byte data, and the methods `==` and `eql?` of
other objects. Comparison of doubles is symmetric and transitive, as is `rb_str_eql`, and `eql?` of
an object must fit that of the literals for the objects to be keys of one map. -/
structure ValueOps (F O : Type) where
  ofInt : ℤ → F
  feq : F → F → Bool
  strEqual : StringObject → StringObject → Bool
  strEql : StringObject → StringObject → Bool
  objEq : O → CaseValue F O → Bool
  objEql : O → CaseValue F O → Bool
  feq_symm : ∀ x y, feq x y = feq y x
  feq_trans : ∀ x y z, feq x y = true → feq y z = true → feq x z = true
  strEql_symm : ∀ a b, strEql a b = strEql b a
  strEql_trans : ∀ a b c, strEql a b = true → strEql b c = true → strEql a c = true
  objEql_congr : ∀ o l l', eqlLit feq strEql l l' = true → objEql o l = objEql o l'
  objEql_inj : ∀ o l l', objEql o l = true → objEql o l' = true →
    eqlLit feq strEql l l' = true

/-- The literals a table can hold. -/
def CaseValue.isLiteral : CaseValue F O → Bool
  | .symbol _ | .integer _ | .float _ | .string _ => true
  | _ => false

/-- `lit === v` for a literal `lit`: `rb_equal`, with `fix_equal`, `rb_big_eq`, `flo_eq`,
`rb_str_equal` and the identity of symbols. Other receivers are not modelled. -/
def eqq (ops : ValueOps F O) : CaseValue F O → CaseValue F O → Option Bool
  | .symbol i, .symbol j => some (i == j)
  | .symbol _, _ => some false
  | .integer n, .integer k => some (n == k)
  | .integer n, .float y => some (ops.feq (ops.ofInt n) y)
  | .integer n, .object o => some (ops.objEq o (.integer n))
  | .integer _, _ => some false
  | .float x, .integer k => some (ops.feq x (ops.ofInt k))
  | .float x, .float y => some (ops.feq x y)
  | .float x, .object o => some (ops.objEq o (.float x))
  | .float _, _ => some false
  | .string a, .string b => some (ops.strEqual a b)
  | .string a, .object o => some (ops.objEq o (.string a))
  | .string _, _ => some false
  | _, _ => none

/-- `eql?`, by which the table compares its keys with the subject. -/
def eql (ops : ValueOps F O) (lit : CaseValue F O) : CaseValue F O → Bool
  | .object o => lit.isLiteral && ops.objEql o lit
  | v => eqlLit ops.feq ops.strEql lit v

/-! ## The compiler -/

/-- `idEqq`. -/
def idEqq : ℕ := 326

/-- A `when` value: a `NODE_LIT`, a `NODE_STR` or another expression, compiled. -/
inductive WhenVal (F O : Type)
  | lit (line : ℤ) (v : CaseValue F O)
  | str (line : ℤ) (s : StringObject)
  | expr (line : ℤ) (code : List (Elem (CaseValue F O)))

/-- The line of a `when` value. -/
def WhenVal.line : WhenVal F O → ℤ
  | .lit line _ => line
  | .str line _ => line
  | .expr line _ => line

/-- `case_when_optimizable_literal`. -/
def caseWhenOptimizableLiteral : WhenVal F O → Option (CaseValue F O)
  | .lit _ (.symbol id) => some (.symbol id)
  | .lit _ (.integer n) => some (.integer n)
  | .lit _ (.float x) => some (.float x)
  | .str _ s => some (.string s)
  | _ => none

/-- `COMPILE(cond_seq, "when cond", val)`. -/
def WhenVal.code : WhenVal F O → List (Elem (CaseValue F O))
  | .lit line v => [.insn ⟨.putobject, line, [.value v]⟩]
  | .str line s => [.insn ⟨.putstring, line, [.value (.string s)]⟩]
  | .expr _ code => code

/-- `ADD_SEND(cond_seq, line, ID2SYM(idEqq), INT2FIX(1))`. -/
def sendEqq (line : ℤ) : Elem (CaseValue F O) :=
  .insn ⟨.send, line, [.id idEqq, .num 1, .iseq none, .num 0, .cache]⟩

/-- One test of the sequence. -/
def whenCond (l1 : Label) (val : WhenVal F O) : List (Elem (CaseValue F O)) :=
  val.code ++ [.insn ⟨.topn, val.line, [.num 1]⟩, sendEqq val.line,
    .insn ⟨.branchif, val.line, [.label l1]⟩]

/-- A literal is added to those collected so far; another value ends the collection for good. -/
def addLiteral (l1 : Label) (special : Option (List (CaseValue F O × Label)))
    (val : WhenVal F O) : Option (List (CaseValue F O × Label)) :=
  match special, caseWhenOptimizableLiteral val with
  | some lits, some lit => some (lits ++ [(lit, l1)])
  | _, _ => none

/-- `when_vals`: the tests of one clause, and the literals collected so far, if all values were
literals. -/
def whenVals (l1 : Label) : List (WhenVal F O) → Option (List (CaseValue F O × Label)) →
    List (Elem (CaseValue F O)) × Option (List (CaseValue F O × Label))
  | [], special => ([], special)
  | val :: vals, special =>
      let rest := whenVals l1 vals (addLiteral l1 special val)
      (whenCond l1 val ++ rest.1, rest.2)

/-- A clause, with its body compiled. -/
structure WhenClause (F O : Type) where
  line : ℤ
  label : Label
  vals : List (WhenVal F O)
  body : List (Elem (CaseValue F O))

/-- The body of a clause in `body_seq`. -/
def WhenClause.bodySeq (endlabel : Label) (c : WhenClause F O) : List (Elem (CaseValue F O)) :=
  [.label c.label, .insn ⟨.pop, c.line, []⟩] ++ c.body ++
    [.insn ⟨.jump, c.line, [.label endlabel]⟩]

/-- The `while (type == NODE_WHEN)` loop: `cond_seq` and the literals. -/
def compileWhens : List (WhenClause F O) → Option (List (CaseValue F O × Label)) →
    List (Elem (CaseValue F O)) × Option (List (CaseValue F O × Label))
  | [], special => ([], special)
  | c :: cs, special =>
      let cond := whenVals c.label c.vals special
      let rest := compileWhens cs cond.2
      (cond.1 ++ rest.1, rest.2)

/-- `NODE_CASE` with a subject: the subject, the clauses and the code of the `else` branch. The
labels are those `NEW_LABEL` made. -/
structure CaseNode (F O : Type) where
  line : ℤ
  endlabel : Label
  elselabel : Label
  head : List (Elem (CaseValue F O))
  clauses : List (WhenClause F O)
  els : List (Elem (CaseValue F O))

/-- `dup` and `opt_case_dispatch`, if all values were literals. -/
def CaseNode.dispatch (node : CaseNode F O) : List (Elem (CaseValue F O)) :=
  match (compileWhens node.clauses (some [])).2 with
  | some lits => [.insn ⟨.dup, node.line, []⟩,
      .insn ⟨.optCaseDispatch, node.line, [.lits lits, .label node.elselabel]⟩]
  | none => []

/-- The tests in sequence. -/
def CaseNode.condSeq (node : CaseNode F O) : List (Elem (CaseValue F O)) :=
  (compileWhens node.clauses (some [])).1

/-- The `else` branch and the bodies. -/
def CaseNode.branches (node : CaseNode F O) : List (Elem (CaseValue F O)) :=
  [.label node.elselabel, .insn ⟨.pop, node.line, []⟩] ++ node.els ++
    [.insn ⟨.jump, node.line, [.label node.endlabel]⟩] ++
    node.clauses.flatMap (WhenClause.bodySeq node.endlabel) ++ [.label node.endlabel]

/-- `iseq_compile_each` of a `NODE_CASE`. -/
def compileCase (node : CaseNode F O) : List (Elem (CaseValue F O)) :=
  node.head ++ node.dispatch ++ node.condSeq ++ node.branches

/-! ## The machine -/

/-- `RTEST`. -/
def CaseValue.test : CaseValue F O → Bool
  | .nil => false
  | .bool b => b
  | _ => true

/-- The program counter and the operand stack, top first. -/
structure VmState (F O : Type) where
  pc : ℕ
  stack : List (CaseValue F O)

/-- `JUMP` from the end of an instruction. -/
def jumpTo (next : ℕ) (offset : ℤ) : ℕ := ((next : ℤ) + offset).toNat

/-- One instruction of the tests or of the dispatch; the machine stops at any other. -/
def vmStep (ops : ValueOps F O) (iseq : List (Word (CaseValue F O))) (st : VmState F O) :
    Option (VmState F O) :=
  match iseq[st.pc]?, iseq[st.pc + 1]?, st.stack with
  | some (.op .putobject), some (.value (.value v)), stack => some ⟨st.pc + 2, v :: stack⟩
  | some (.op .putstring), some (.value (.value v)), stack => some ⟨st.pc + 2, v :: stack⟩
  | some (.op .topn), some (.num n), stack => do
      let v ← stack[n.toNat]?
      return ⟨st.pc + 2, v :: stack⟩
  | some (.op .send), some (.id sym), arg :: recv :: stack => do
      let r ← eqq ops recv arg
      if sym = idEqq then return ⟨st.pc + 6, .bool r :: stack⟩ else none
  | some (.op .branchif), some (.offset d), v :: stack =>
      some ⟨if v.test then jumpTo (st.pc + 2) d else st.pc + 2, stack⟩
  | some (.op .dup), _, v :: stack => some ⟨st.pc + 1, v :: v :: stack⟩
  | some (.op .optCaseDispatch), some (.cdhash map), key :: stack => do
      let .offset elseOffset ← iseq[st.pc + 2]? | none
      return ⟨jumpTo (st.pc + 3) ((Assoc.lookup (eql ops) map key).getD elseOffset), stack⟩
  | _, _, _ => none

/-- Run until the machine stops, given up after `n` instructions. -/
def vmRun (ops : ValueOps F O) (iseq : List (Word (CaseValue F O))) : ℕ → VmState F O →
    Option (VmState F O)
  | 0, _ => none
  | n + 1, st =>
      match vmStep ops iseq st with
      | none => some st
      | some st' => vmRun ops iseq n st'

attribute [grind =] vmRun

end MacRuby
