import MacRuby.Compile.Condition
import MacRuby.Vm.Insns

/-!
# Lists of expressions

`compile_array_` compiles the elements of an array one after another; the other places where a
list of expressions is compiled do the same, but may drop some of the values. An array of literals
is made when it is compiled and only copied when it runs.

## Main definitions

* `compileAll`, `evalAll` — expressions one after another.
* `Node`, `compileArray` — literals and arrays.

## Main results

* `reaches_compileAll` — the values are evaluated in order and those wanted stay on the stack.
* `runs_compileArray` — the code of an array makes the array of the values.
-/

namespace MacRuby

open Machine

section Lists

variable {V S E : Type}

/-- The code of expressions one after another, from number `i` on; `poped` says which of them are
not used. -/
def compileAll (compile : E → Bool → ℕ → List (Elem V) × ℕ) (poped : ℕ → Bool) :
    ℕ → List E → ℕ → List (Elem V) × ℕ
  | _, [], no => ([], no)
  | i, e :: es, no =>
      let c := compile e (poped i) no
      let d := compileAll compile poped (i + 1) es c.2
      (c.1 ++ d.1, d.2)

/-- The values of expressions, evaluated once each from left to right. -/
def evalAll (eval : E → S → V × S) : List E → S → List V × S
  | [], s => ([], s)
  | e :: es, s =>
      let r := eval e s
      let t := evalAll eval es r.2
      (r.1 :: t.1, t.2)

/-- The stack with those values on it that are used. -/
def pushedAll (poped : ℕ → Bool) : ℕ → List V → List V → List V
  | _, [], stack => stack
  | i, v :: vs, stack => pushedAll poped (i + 1) vs (pushed (poped i) v stack)

attribute [grind =] pushedAll

theorem length_evalAll (eval : E → S → V × S) (es : List E) (s : S) :
    (evalAll eval es s).1.length = es.length := by
  induction es generalizing s with
  | nil => rfl
  | cons e es ih => simp [evalAll, ih]

theorem pushedAll_false (i : ℕ) (vs stack : List V) :
    pushedAll (fun _ => false) i vs stack = vs.reverse ++ stack := by
  induction vs generalizing i stack with
  | nil => rfl
  | cons v vs ih => simp [pushedAll, ih, pushed]

/-- Of the values only the first `n` stay on the stack. -/
theorem pushedAll_le (n i : ℕ) (vs stack : List V) :
    pushedAll (fun i => decide (n ≤ i)) i vs stack = (vs.take (n - i)).reverse ++ stack := by
  induction vs generalizing i stack with
  | nil => simp [pushedAll]
  | cons v vs ih =>
      rw [pushedAll, ih]
      by_cases h : n ≤ i
      · rw [Nat.sub_eq_zero_of_le h, Nat.sub_eq_zero_of_le (by omega)]
        simp [pushed, h]
      · rw [show n - i = n - (i + 1) + 1 by omega, List.take_succ_cons]
        simp [pushed, h]

/-- **Expressions one after another are evaluated in order**, and the values wanted stay on the
stack. -/
theorem reaches_compileAll {m : Machine V S} {eval : E → S → V × S}
    {compile : E → Bool → ℕ → List (Elem V) × ℕ} (h : Compiles m eval compile) (poped : ℕ → Bool)
    (i : ℕ) (exprs : List E) (no : ℕ) {es back : List (Elem V)} (front : List (Elem V))
    (stack : List V) (s : S) (hnodup : (labelsOf es).Nodup)
    (hes : es = front ++ ((compileAll compile poped i exprs no).1 ++ back)) :
    m.Reaches es ⟨(compileAll compile poped i exprs no).1 ++ back, stack, s⟩
      ⟨back, pushedAll poped i (evalAll eval exprs s).1 stack, (evalAll eval exprs s).2⟩ := by
  induction exprs generalizing i no front stack s with
  | nil => exact .refl
  | cons e exprs ih =>
      simp only [compileAll, List.append_assoc] at hes ⊢
      refine (h e (poped i) no front stack s hnodup hes).trans ?_
      exact ih (i + 1) _ (front ++ (compile e (poped i) no).1) _ _ (by simpa using hes)

end Lists

variable {E O : Type}

/-- An expression: a literal or any other node. -/
inductive Node (E : Type)
  | lit (line : ℤ) (lit : Value)
  | other (e : E)

/-- `nd_lit` of a literal. -/
def Node.lit? : Node E → Option Value
  | .lit _ v => some v
  | .other _ => none

section Compile

-- `COMPILE_(ret, desc, node, poped)` for the nodes that are not literals
variable (compile : E → Bool → ℕ → List (Elem Value) × ℕ)

/-- `NODE_LIT`, and any other node. -/
def compileNode : Node E → Bool → ℕ → List (Elem Value) × ℕ
  | .lit line v, poped, no => (if poped then [] else [.insn ⟨.putobject, line, [.value v]⟩], no)
  | .other e, poped, no => compile e poped no

/-- `compile_array_(iseq, ret, node_root, opt_p, poped)` on a list of elements. The code of the
elements is made in any case, and dropped where the array is. -/
def compileArray (line : ℤ) (elems : List (Node E)) (optP poped : Bool) (no : ℕ) :
    List (Elem Value) × ℕ :=
  let anchor := compileAll (compileNode compile) (fun _ => poped) 0 elems no
  match (if optP then elems.mapM Node.lit? else none) with
  | some lits =>
      (if poped then [] else [.insn ⟨.duparray, line, [.value (.array lits)]⟩], anchor.2)
  | none =>
      (anchor.1 ++ (if poped then [] else [.insn ⟨.newarray, line, [.num elems.length]⟩]), anchor.2)

end Compile

/-- The value of a literal, or of any other node. -/
def evalNode (eval : E → World O → Value × World O) : Node E → World O → Value × World O
  | .lit _ v, w => (v, w)
  | .other e, w => eval e w

variable {o : Objects O} {lfp : ℕ} {eval : E → World O → Value × World O}
  {compile : E → Bool → ℕ → List (Elem Value) × ℕ}

theorem compiles_compileNode (h : Compiles (o.machine lfp) eval compile) :
    Compiles (o.machine lfp) (evalNode eval) (compileNode compile) := by
  intro node poped no
  cases node with
  | other e => exact h e poped no
  | lit line v =>
      intro es back front stack w _ _
      cases poped with
      | true => exact .refl
      | false => exact reaches_putobject line v

/-- Literals are evaluated to themselves. -/
theorem evalAll_of_lits {elems : List (Node E)} {lits : List Value}
    (h : elems.mapM Node.lit? = some lits) (w : World O) :
    evalAll (evalNode eval) elems w = (lits, w) := by
  induction elems generalizing lits with
  | nil =>
      obtain rfl : [] = lits := by simpa using h
      rfl
  | cons node elems ih =>
      rw [List.mapM_cons] at h
      cases node with
      | other e => simp [Node.lit?] at h
      | lit line v =>
          cases hrest : elems.mapM Node.lit? with
          | none => simp [Node.lit?, hrest] at h
          | some rest =>
              obtain rfl : v :: rest = lits := by simpa [Node.lit?, hrest] using h
              simp [evalAll, evalNode, ih hrest]

/-- **The code of an array makes the array of its values**, whether it is made of literals or
not. -/
theorem runs_compileArray (h : Compiles (o.machine lfp) eval compile) (line : ℤ)
    (elems : List (Node E)) (optP : Bool) (no : ℕ) :
    (o.machine lfp).Runs false (compileArray compile line elems optP false no).1 fun w =>
      (.array (evalAll (evalNode eval) elems w).1, (evalAll (evalNode eval) elems w).2) := by
  intro es back front stack w hnodup hes
  rw [compileArray] at hes ⊢
  cases hlits : (if optP then elems.mapM Node.lit? else none) with
  | some lits =>
      have hmap : elems.mapM Node.lit? = some lits := by
        split at hlits
        · exact hlits
        · cases hlits
      simp only [evalAll_of_lits hmap]
      exact reaches_duparray line _
  | none =>
      simp only [hlits, Bool.false_eq_true, if_false, List.append_assoc] at hes ⊢
      refine (reaches_compileAll (compiles_compileNode h) _ 0 elems no front stack w hnodup
        hes).trans ?_
      rw [pushedAll_false, ← length_evalAll (evalNode eval) elems w]
      exact reaches_newarray line _

end MacRuby
