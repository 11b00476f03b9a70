import MacRuby.Compile.Case

/-!
# Case dispatch against sequential testing

The table of a case dispatch is filled by successive stores and compared by `eql?`; the tests
compare by `===` and the first that holds wins. The two choose the same branch exactly when the
first clause with a value that is `===` to the subject also has one that is `eql?` to it, and no
later clause has one.

## Main definitions

* `BranchReached`, `DispatchAgrees` — the branch a run reaches, and that both runs reach the same.
* `DispatchOk` — the condition on the clauses and the subject.

## Main results

* `lookup_dispatchTable` — the table holds the last literal that is `eql?` to a key.
* `run_condSeq` — the tests reach the first clause with a value that is `===` to the subject.
* `dispatchAgrees_iff` — the two choose the same branch exactly under the condition.
-/

namespace MacRuby

variable {F O : Type}

/-! ## Equality of keys -/

theorem eqlLit_symm (ops : ValueOps F O) (a b : CaseValue F O) :
    eqlLit ops.feq ops.strEql a b = eqlLit ops.feq ops.strEql b a := by
  cases a <;> cases b <;> simp [eqlLit, ops.feq_symm, ops.strEql_symm, Bool.beq_comm]

theorem eqlLit_trans (ops : ValueOps F O) {a b c : CaseValue F O}
    (hab : eqlLit ops.feq ops.strEql a b = true) (hbc : eqlLit ops.feq ops.strEql b c = true) :
    eqlLit ops.feq ops.strEql a c = true := by
  cases a <;> cases b <;> cases c <;> simp_all [eqlLit]
  · exact ops.feq_trans _ _ _ hab hbc
  · exact ops.strEql_trans _ _ _ hab hbc

theorem eql_of_isLiteral (ops : ValueOps F O) (a : CaseValue F O) {b : CaseValue F O}
    (hb : b.isLiteral = true) : eql ops a b = eqlLit ops.feq ops.strEql a b := by
  cases b <;> simp_all [eql, CaseValue.isLiteral]

/-- Two literals that match are matched by the same values. -/
theorem eql_congr (ops : ValueOps F O) {a b : CaseValue F O} (ha : a.isLiteral = true)
    (hb : b.isLiteral = true) (hab : eql ops a b = true) (v : CaseValue F O) :
    eql ops a v = eql ops b v := by
  rw [eql_of_isLiteral ops a hb] at hab
  cases v with
  | object o => simp [eql, ha, hb, ops.objEql_congr o a b hab]
  | _ =>
      simp only [eql]
      rw [Bool.eq_iff_iff]
      constructor
      · intro h
        rw [eqlLit_symm] at hab
        exact eqlLit_trans ops hab h
      · exact eqlLit_trans ops hab

/-- Two literals that match a value match each other. -/
theorem eql_of_eql (ops : ValueOps F O) {a b : CaseValue F O} (hb : b.isLiteral = true)
    {v : CaseValue F O} (hav : eql ops a v = true) (hbv : eql ops b v = true) :
    eql ops a b = true := by
  rw [eql_of_isLiteral ops a hb]
  cases v with
  | object o =>
      simp only [eql, Bool.and_eq_true] at hav hbv
      exact ops.objEql_inj o a b hav.2 hbv.2
  | _ =>
      simp only [eql] at hav hbv
      rw [eqlLit_symm] at hbv
      exact eqlLit_trans ops hav hbv

/-! ## The table -/

/-- The entries of a table of literals are literals. -/
theorem isLiteral_of_mem_dispatchTable {ops : ValueOps F O} {labels : Labels} {next : ℤ}
    (ps : List (CaseValue F O × Label)) (hps : ∀ p ∈ ps, p.1.isLiteral = true)
    {map : List (CaseValue F O × ℤ)} (hmap : ∀ p ∈ map, p.1.isLiteral = true) :
    ∀ p ∈ dispatchTable (eql ops) labels next ps map, p.1.isLiteral = true := by
  induction ps generalizing map with
  | nil => exact hmap
  | cons q ps ih =>
      apply ih (fun p hp => hps p (List.mem_cons_of_mem _ hp))
      intro p hp
      have hq := hps q List.mem_cons_self
      rcases Assoc.mem_store (eql ops) hp with hp | ⟨-, hk | hk⟩
      · exact hmap p hp
      · rwa [hk]
      · rw [eql_of_isLiteral ops _ hq] at hk
        revert hk
        cases p.1 <;> simp [eqlLit, CaseValue.isLiteral]

/-- **The table holds, for each key, the label of the last literal that is `eql?` to it.** -/
theorem lookup_dispatchTable {ops : ValueOps F O} {labels : Labels} {next : ℤ}
    {ps : List (CaseValue F O × Label)} (hps : ∀ p ∈ ps, p.1.isLiteral = true)
    {map : List (CaseValue F O × ℤ)} (hmap : ∀ p ∈ map, p.1.isLiteral = true)
    (v : CaseValue F O) :
    Assoc.lookup (eql ops) (dispatchTable (eql ops) labels next ps map) v =
      match ps.reverse.find? (fun p => eql ops p.1 v) with
      | some p => some ((labels p.2).position - next)
      | none => Assoc.lookup (eql ops) map v := by
  induction ps generalizing map with
  | nil => rfl
  | cons q ps ih =>
      have hq := hps q List.mem_cons_self
      have hstore : ∀ p ∈ Assoc.store (eql ops) map q.1 ((labels q.2).position - next),
          p.1.isLiteral = true :=
        isLiteral_of_mem_dispatchTable [q] (by simpa using hq) hmap
      have hlookup : Assoc.lookup (eql ops)
          (Assoc.store (eql ops) map q.1 ((labels q.2).position - next)) v =
          if eql ops q.1 v then some ((labels q.2).position - next)
          else Assoc.lookup (eql ops) map v := by
        apply Assoc.lookup_store
        · intro p hp hqv
          constructor
          · intro hpq
            rw [eql_congr ops (hmap p hp) hq hpq]
            exact hqv
          · intro hpv
            exact eql_of_eql ops hq hpv hqv
        · intro p hp hqv hpq
          rw [eql_congr ops (hmap p hp) hq hpq]
          exact hqv
      have hfold : dispatchTable (eql ops) labels next (q :: ps) map =
          dispatchTable (eql ops) labels next ps
            (Assoc.store (eql ops) map q.1 ((labels q.2).position - next)) := rfl
      rw [hfold, ih (fun p hp => hps p (List.mem_cons_of_mem _ hp)) hstore, List.reverse_cons,
        List.find?_append, hlookup]
      cases ps.reverse.find? (fun p => eql ops p.1 v) with
      | some p => rfl
      | none => by_cases hqv : eql ops q.1 v = true <;> simp [hqv]

/-! ## Running the tests -/

/-- One instruction after another. -/
abbrev Steps (ops : ValueOps F O) (iseq : List (Word (CaseValue F O))) :
    VmState F O → VmState F O → Prop :=
  Relation.ReflTransGen fun st st' => vmStep ops iseq st = some st'

theorem Steps.cons {ops : ValueOps F O} {iseq : List (Word (CaseValue F O))}
    {a b c : VmState F O} (h : vmStep ops iseq a = some b) (hbc : Steps ops iseq b c) :
    Steps ops iseq a c :=
  Relation.ReflTransGen.head h hbc

section

variable {ops : ValueOps F O} {anchor : Anchor (CaseValue F O)} {s : Sequence (CaseValue F O)}
  (hs : iseqSetSequence (eql ops) anchor = .ok s)

include hs

theorem step_put {pre post : List (Elem (CaseValue F O))} {id : InsnId} {line : ℤ}
    {v : CaseValue F O} (hid : id = .putobject ∨ id = .putstring)
    (h : anchor.elems = pre ++ .insn ⟨id, line, [.value v]⟩ :: post)
    (stack : List (CaseValue F O)) :
    vmStep ops s.iseq ⟨codeSize pre, stack⟩ = some ⟨codeSize pre + 2, v :: stack⟩ := by
  obtain ⟨hop, hwords⟩ := fetch_insn hs h
  rcases hid with rfl | rfl <;>
  · obtain ⟨o, w, ho, hw, hof⟩ := hwords 0 .value rfl
    cases ho
    cases hof
    simp [vmStep, hop, hw]

theorem step_topn {pre post : List (Elem (CaseValue F O))} {line : ℤ}
    (h : anchor.elems = pre ++ .insn ⟨.topn, line, [.num 1]⟩ :: post) (a b : CaseValue F O)
    (stack : List (CaseValue F O)) :
    vmStep ops s.iseq ⟨codeSize pre, a :: b :: stack⟩ =
      some ⟨codeSize pre + 2, b :: a :: b :: stack⟩ := by
  obtain ⟨hop, hwords⟩ := fetch_insn hs h
  obtain ⟨o, w, ho, hw, hof⟩ := hwords 0 .num rfl
  cases ho
  cases hof
  simp [vmStep, hop, hw]

theorem step_send {pre post : List (Elem (CaseValue F O))} {line : ℤ}
    (h : anchor.elems = pre ++ sendEqq line :: post) {recv arg : CaseValue F O} {r : Bool}
    (hr : eqq ops recv arg = some r) (stack : List (CaseValue F O)) :
    vmStep ops s.iseq ⟨codeSize pre, arg :: recv :: stack⟩ =
      some ⟨codeSize pre + 6, .bool r :: stack⟩ := by
  obtain ⟨hop, hwords⟩ := fetch_insn hs h
  obtain ⟨o, w, ho, hw, hof⟩ := hwords 0 .id rfl
  cases ho
  cases hof
  simp [vmStep, hop, hw, hr]

theorem step_branchif {pre post : List (Elem (CaseValue F O))} {line : ℤ} {l : Label}
    (h : anchor.elems = pre ++ .insn ⟨.branchif, line, [.label l]⟩ :: post) (r : Bool)
    (stack : List (CaseValue F O)) :
    vmStep ops s.iseq ⟨codeSize pre, .bool r :: stack⟩ =
      some ⟨if r then labelPos anchor l else codeSize pre + 2, stack⟩ := by
  obtain ⟨hop, hwords⟩ := fetch_insn hs h
  obtain ⟨o, w, ho, hw, hof⟩ := hwords 0 .offset rfl
  cases ho
  cases hof
  have hjump : jumpTo (codeSize pre + 2) ((labelPos anchor l : ℤ) - (codeSize pre + 2)) =
      labelPos anchor l := by
    rw [jumpTo]
    omega
  have hlen : insnLen .branchif = 2 := rfl
  simp only [hlen, Nat.cast_ofNat] at hw
  simp only [vmStep, hop, hw, CaseValue.test]
  rw [← hjump]
  rfl

omit hs in
theorem whenVal_code {val : WhenVal F O} {lit : CaseValue F O}
    (h : caseWhenOptimizableLiteral val = some lit) :
    ∃ id line, (id = .putobject ∨ id = .putstring) ∧
      val.code = [.insn ⟨id, line, [.value lit]⟩] ∧ lit.isLiteral = true := by
  cases val with
  | lit line v =>
      cases v <;> simp only [caseWhenOptimizableLiteral, Option.some.injEq, reduceCtorEq] at h <;>
        subst h <;> exact ⟨_, _, Or.inl rfl, rfl, rfl⟩
  | str line s =>
      simp only [caseWhenOptimizableLiteral, Option.some.injEq] at h
      subst h
      exact ⟨_, _, Or.inr rfl, rfl, rfl⟩
  | expr line code => simp [caseWhenOptimizableLiteral] at h

omit hs in
theorem exists_eqq (ops : ValueOps F O) {lit : CaseValue F O} (h : lit.isLiteral = true)
    (v : CaseValue F O) : ∃ r, eqq ops lit v = some r := by
  cases lit <;> cases v <;> simp_all [eqq, CaseValue.isLiteral]

/-- **One test** branches to its clause if the literal is `===` to the subject, and else goes on to
the next one. -/
theorem run_whenCond {pre post : List (Elem (CaseValue F O))} {val : WhenVal F O} {l1 : Label}
    {lit : CaseValue F O} (hlit : caseWhenOptimizableLiteral val = some lit)
    (h : anchor.elems = pre ++ (whenCond l1 val ++ post)) {v : CaseValue F O} {r : Bool}
    (hr : eqq ops lit v = some r) (stack : List (CaseValue F O)) :
    Steps ops s.iseq ⟨codeSize pre, v :: stack⟩
      ⟨if r then labelPos anchor l1 else codeSize (pre ++ whenCond l1 val), v :: stack⟩ := by
  obtain ⟨id, line, hid, hcode, -⟩ := whenVal_code hlit
  have hlen : insnLen id = 2 := by rcases hid with rfl | rfl <;> rfl
  rw [whenCond, hcode, List.singleton_append] at h
  have h2 : anchor.elems = (pre ++ [.insn ⟨id, line, [.value lit]⟩]) ++
      .insn ⟨.topn, val.line, [.num 1]⟩ :: (sendEqq val.line ::
        .insn ⟨.branchif, val.line, [.label l1]⟩ :: post) := by
    simpa using h
  have h3 : anchor.elems = (pre ++ [.insn ⟨id, line, [.value lit]⟩,
      .insn ⟨.topn, val.line, [.num 1]⟩]) ++ sendEqq val.line ::
        (.insn ⟨.branchif, val.line, [.label l1]⟩ :: post) := by
    simpa using h
  have h4 : anchor.elems = (pre ++ [.insn ⟨id, line, [.value lit]⟩,
      .insn ⟨.topn, val.line, [.num 1]⟩, sendEqq val.line]) ++
        .insn ⟨.branchif, val.line, [.label l1]⟩ :: post := by
    simpa using h
  have s1 := step_put hs hid h (v :: stack)
  have s2 := step_topn hs h2 lit v stack
  have s3 := step_send hs h3 hr (v :: stack)
  have s4 := step_branchif hs h4 r (v :: stack)
  have htopn : insnLen .topn = 2 := rfl
  have hsend : insnLen .send = 6 := rfl
  have hbranch : insnLen .branchif = 2 := rfl
  simp only [codeSize_append, codeSize_insn, codeSize_nil, sendEqq, hlen, htopn, hsend] at s2 s3 s4
  have hend : codeSize (pre ++ whenCond l1 val) = codeSize pre + 12 := by
    simp only [whenCond, hcode, sendEqq, codeSize_append, codeSize_insn, codeSize_nil, hlen,
      htopn, hsend, hbranch]
  rw [hend]
  exact Steps.cons s1 (Steps.cons s2 (Steps.cons s3 (Steps.cons s4 .refl)))

omit hs in
/-- The literals of a clause. -/
def WhenClause.lits (c : WhenClause F O) : List (CaseValue F O) :=
  c.vals.filterMap caseWhenOptimizableLiteral

omit hs in
/-- One of the literals is `===` to the subject. -/
def anyEqq (ops : ValueOps F O) (lits : List (CaseValue F O)) (v : CaseValue F O) : Bool :=
  lits.any fun lit => (eqq ops lit v).getD false

omit hs in
/-- One of the literals is `eql?` to the subject. -/
def anyEql (ops : ValueOps F O) (lits : List (CaseValue F O)) (v : CaseValue F O) : Bool :=
  lits.any fun lit => eql ops lit v

omit hs in
theorem whenVals_eq (l1 : Label) (vals : List (WhenVal F O))
    (special : Option (List (CaseValue F O × Label))) :
    (whenVals l1 vals special).1 = vals.flatMap (whenCond l1) := by
  induction vals generalizing special with
  | nil => rfl
  | cons val vals ih => simp [whenVals, ih]

omit hs in
theorem compileWhens_eq (clauses : List (WhenClause F O))
    (special : Option (List (CaseValue F O × Label))) :
    (compileWhens clauses special).1 =
      clauses.flatMap fun c => c.vals.flatMap (whenCond c.label) := by
  induction clauses generalizing special with
  | nil => rfl
  | cons c clauses ih => simp [compileWhens, ih, whenVals_eq]

/-- **The tests of one clause** branch to it if one of its literals is `===` to the subject. -/
theorem run_whenVals {vals : List (WhenVal F O)} {l1 : Label}
    (hall : ∀ val ∈ vals, (caseWhenOptimizableLiteral val).isSome)
    {pre post : List (Elem (CaseValue F O))}
    (h : anchor.elems = pre ++ (vals.flatMap (whenCond l1) ++ post)) (v : CaseValue F O)
    (stack : List (CaseValue F O)) :
    Steps ops s.iseq ⟨codeSize pre, v :: stack⟩
      ⟨if anyEqq ops (vals.filterMap caseWhenOptimizableLiteral) v then labelPos anchor l1
        else codeSize (pre ++ vals.flatMap (whenCond l1)), v :: stack⟩ := by
  induction vals generalizing pre with
  | nil => simp [anyEqq, Relation.ReflTransGen.refl]
  | cons val vals ih =>
      obtain ⟨lit, hlit⟩ := Option.isSome_iff_exists.mp (hall val List.mem_cons_self)
      obtain ⟨-, -, -, -, hisLit⟩ := whenVal_code hlit
      obtain ⟨r, hr⟩ := exists_eqq ops hisLit v
      rw [List.flatMap_cons, List.append_assoc] at h
      have htest := run_whenCond hs hlit h hr stack
      rw [List.filterMap_cons_some hlit]
      cases r with
      | true => simpa [anyEqq, hr] using htest
      | false =>
          have h' : anchor.elems =
              (pre ++ whenCond l1 val) ++ (vals.flatMap (whenCond l1) ++ post) := by
            rw [h, List.append_assoc]
          have hrest := ih (fun w hw => hall w (List.mem_cons_of_mem _ hw)) h'
          simp only [anyEqq, List.any_cons, hr, Option.getD_some, Bool.false_or] at hrest ⊢
          rw [List.flatMap_cons, ← List.append_assoc]
          exact htest.trans hrest

/-- **The tests** reach the first clause with a literal that is `===` to the subject, and pass by
if there is none. -/
theorem run_condSeq {clauses : List (WhenClause F O)}
    (hall : ∀ c ∈ clauses, ∀ val ∈ c.vals, (caseWhenOptimizableLiteral val).isSome)
    {pre post : List (Elem (CaseValue F O))}
    (h : anchor.elems =
      pre ++ ((clauses.flatMap fun c => c.vals.flatMap (whenCond c.label)) ++ post))
    (v : CaseValue F O) (stack : List (CaseValue F O)) :
    Steps ops s.iseq ⟨codeSize pre, v :: stack⟩
      ⟨match clauses.find? fun c => anyEqq ops c.lits v with
        | some c => labelPos anchor c.label
        | none => codeSize (pre ++ clauses.flatMap fun c => c.vals.flatMap (whenCond c.label)),
        v :: stack⟩ := by
  induction clauses generalizing pre with
  | nil => simp [Relation.ReflTransGen.refl]
  | cons c clauses ih =>
      rw [List.flatMap_cons, List.append_assoc] at h
      have htest := run_whenVals hs (hall c List.mem_cons_self) h v stack
      change Steps ops s.iseq _ ⟨if anyEqq ops c.lits v then _ else _, _⟩ at htest
      by_cases hc : anyEqq ops c.lits v = true
      · rw [if_pos hc] at htest
        simpa [hc] using htest
      · have h' : anchor.elems = (pre ++ c.vals.flatMap (whenCond c.label)) ++
            ((clauses.flatMap fun c => c.vals.flatMap (whenCond c.label)) ++ post) := by
          rw [h, List.append_assoc]
        have hrest := ih (fun d hd => hall d (List.mem_cons_of_mem _ hd)) h'
        rw [if_neg hc] at htest
        rw [List.find?_cons_of_neg (by simpa using hc), List.flatMap_cons, ← List.append_assoc]
        exact htest.trans hrest

/-! ## Running the dispatch -/

theorem step_dup {pre post : List (Elem (CaseValue F O))} {line : ℤ}
    (h : anchor.elems = pre ++ .insn ⟨.dup, line, []⟩ :: post) (v : CaseValue F O)
    (stack : List (CaseValue F O)) :
    vmStep ops s.iseq ⟨codeSize pre, v :: stack⟩ = some ⟨codeSize pre + 1, v :: v :: stack⟩ := by
  obtain ⟨hop, -⟩ := fetch_insn hs h
  simp [vmStep, hop]

/-- **The dispatch** goes to the label of the last literal that is `eql?` to the subject. -/
theorem step_dispatch {pre post : List (Elem (CaseValue F O))} {line : ℤ}
    {lits : List (CaseValue F O × Label)} {elselabel : Label}
    (h : anchor.elems =
      pre ++ .insn ⟨.optCaseDispatch, line, [.lits lits, .label elselabel]⟩ :: post)
    (hlits : ∀ p ∈ lits, p.1.isLiteral = true) (v : CaseValue F O)
    (stack : List (CaseValue F O)) :
    vmStep ops s.iseq ⟨codeSize pre, v :: stack⟩ =
      some ⟨match lits.reverse.find? fun p => eql ops p.1 v with
        | some p => labelPos anchor p.2
        | none => labelPos anchor elselabel, stack⟩ := by
  obtain ⟨hop, hwords⟩ := fetch_insn hs h
  obtain ⟨o, w, ho, hw, hof⟩ := hwords 0 .cdhash rfl
  obtain ⟨o', w', ho', hw', hof'⟩ := hwords 1 .offset rfl
  cases ho
  cases ho'
  cases hof
  cases hof'
  have hlen : insnLen .optCaseDispatch = 3 := rfl
  have hjump : ∀ l, jumpTo (codeSize pre + 3) ((labelPos anchor l : ℤ) - (codeSize pre + 3)) =
      labelPos anchor l := by
    intro l
    rw [jumpTo]
    omega
  simp only [hlen, Nat.cast_ofNat] at hw hw'
  simp only [vmStep, hop, hw, hw', lookup_dispatchTable hlits (by simp : ∀ p ∈ [], _)]
  cases lits.reverse.find? fun p => eql ops p.1 v with
  | some p => exact congrArg (fun pc => some (VmState.mk pc stack)) (hjump p.2)
  | none => exact congrArg (fun pc => some (VmState.mk pc stack)) (hjump elselabel)

end

/-- The literals of the clauses with their labels, in order. -/
def litsOf (clauses : List (WhenClause F O)) : List (CaseValue F O × Label) :=
  clauses.flatMap fun c => c.lits.map fun lit => (lit, c.label)

theorem whenVals_special {l1 : Label} {vals : List (WhenVal F O)}
    (hall : ∀ val ∈ vals, (caseWhenOptimizableLiteral val).isSome)
    (lits : List (CaseValue F O × Label)) :
    (whenVals l1 vals (some lits)).2 = some (lits ++
      (vals.filterMap caseWhenOptimizableLiteral).map fun lit => (lit, l1)) := by
  induction vals generalizing lits with
  | nil => simp [whenVals]
  | cons val vals ih =>
      obtain ⟨lit, hlit⟩ := Option.isSome_iff_exists.mp (hall val List.mem_cons_self)
      simp only [whenVals, addLiteral, hlit]
      rw [ih (fun w hw => hall w (List.mem_cons_of_mem _ hw)), List.filterMap_cons_some hlit]
      simp

theorem compileWhens_special {clauses : List (WhenClause F O)}
    (hall : ∀ c ∈ clauses, ∀ val ∈ c.vals, (caseWhenOptimizableLiteral val).isSome)
    (lits : List (CaseValue F O × Label)) :
    (compileWhens clauses (some lits)).2 = some (lits ++ litsOf clauses) := by
  induction clauses generalizing lits with
  | nil => simp [compileWhens, litsOf]
  | cons c clauses ih =>
      simp only [compileWhens]
      rw [whenVals_special (hall c List.mem_cons_self),
        ih (fun d hd => hall d (List.mem_cons_of_mem _ hd))]
      simp [litsOf, WhenClause.lits]

theorem isLiteral_of_mem_litsOf {clauses : List (WhenClause F O)}
    {p : CaseValue F O × Label} (hp : p ∈ litsOf clauses) : p.1.isLiteral = true := by
  obtain ⟨c, -, hp⟩ := List.mem_flatMap.mp hp
  obtain ⟨lit, hlit, rfl⟩ := List.mem_map.mp hp
  obtain ⟨val, -, hval⟩ := List.mem_filterMap.mp hlit
  obtain ⟨-, -, -, -, h⟩ := whenVal_code hval
  exact h

/-- The last literal that is `eql?` to the subject is one of the last clause that has any. -/
theorem find?_litsOf (ops : ValueOps F O) (clauses : List (WhenClause F O)) (v : CaseValue F O) :
    ((litsOf clauses).reverse.find? fun p => eql ops p.1 v).map Prod.snd =
      (clauses.reverse.find? fun c => anyEql ops c.lits v).map WhenClause.label := by
  induction clauses with
  | nil => rfl
  | cons c clauses ih =>
      have hsplit : litsOf (c :: clauses) =
          (c.lits.map fun lit => (lit, c.label)) ++ litsOf clauses := rfl
      have hown : ((c.lits.map fun lit => (lit, c.label)).reverse.find?
          fun p => eql ops p.1 v).map Prod.snd =
          if anyEql ops c.lits v then some c.label else none := by
        generalize hf : (c.lits.map fun lit => (lit, c.label)).reverse.find?
          (fun p => eql ops p.1 v) = f
        cases f with
        | some p =>
            have hmem := List.mem_of_find?_eq_some hf
            have heql := List.find?_some hf
            simp only [List.mem_reverse, List.mem_map] at hmem
            obtain ⟨lit, hlit, rfl⟩ := hmem
            have hany : anyEql ops c.lits v = true := List.any_eq_true.mpr ⟨lit, hlit, heql⟩
            simp [hany]
        | none =>
            have hnone : anyEql ops c.lits v = false := by
              rw [anyEql, List.any_eq_false]
              intro lit hlit
              exact List.find?_eq_none.mp hf (lit, c.label)
                (List.mem_reverse.mpr (List.mem_map.mpr ⟨lit, hlit, rfl⟩))
            simp [hnone]
      rw [hsplit, List.reverse_append, List.find?_append, List.reverse_cons, List.find?_append,
        Option.map_or, Option.map_or, ih, hown]
      by_cases hc : anyEql ops c.lits v = true <;> simp [hc]

/-! ## Where the branches stand -/

section

variable {anchor : Anchor (CaseValue F O)} {node : CaseNode F O}
  {pre post : List (Elem (CaseValue F O))}

/-- The words of the `else` branch. -/
def CaseNode.elseSize (node : CaseNode F O) : ℕ :=
  codeSize ([.label node.elselabel, .insn ⟨.pop, node.line, []⟩] ++ node.els ++
    [.insn ⟨.jump, node.line, [.label node.endlabel]⟩])

theorem labelPos_else (h : anchor.elems = pre ++ (node.branches ++ post)) :
    labelPos anchor node.elselabel = codeSize pre := by
  rw [CaseNode.branches, List.append_assoc, List.append_assoc, List.append_assoc,
    List.append_assoc] at h
  exact labelPos_eq h

theorem branches_eq {cs cs' : List (WhenClause F O)} {c : WhenClause F O}
    (hc : node.clauses = cs ++ c :: cs') (h : anchor.elems = pre ++ (node.branches ++ post)) :
    ∃ rest, anchor.elems = (pre ++ ([.label node.elselabel, .insn ⟨.pop, node.line, []⟩] ++
        node.els ++ [.insn ⟨.jump, node.line, [.label node.endlabel]⟩]) ++
        cs.flatMap (WhenClause.bodySeq node.endlabel)) ++
      .label c.label :: .insn ⟨.pop, c.line, []⟩ :: rest := by
  refine ⟨c.body ++ .insn ⟨.jump, c.line, [.label node.endlabel]⟩ ::
    (cs'.flatMap (WhenClause.bodySeq node.endlabel) ++ .label node.endlabel :: post), ?_⟩
  rw [h, CaseNode.branches, hc]
  simp [WhenClause.bodySeq]

theorem labelPos_clause {cs cs' : List (WhenClause F O)} {c : WhenClause F O}
    (hc : node.clauses = cs ++ c :: cs') (h : anchor.elems = pre ++ (node.branches ++ post)) :
    labelPos anchor c.label = codeSize pre + node.elseSize +
      codeSize (cs.flatMap (WhenClause.bodySeq node.endlabel)) := by
  obtain ⟨rest, hrest⟩ := branches_eq hc h
  rw [labelPos_eq hrest, codeSize_append, codeSize_append, CaseNode.elseSize]

theorem elseSize_pos (node : CaseNode F O) : 0 < node.elseSize := by
  have hpop : insnLen .pop = 1 := rfl
  simp only [CaseNode.elseSize, codeSize_append, codeSize_label, codeSize_insn, hpop]
  omega

/-- Clauses at different places of the list have their bodies at different positions. -/
theorem prefix_eq_of_codeSize {endlabel : Label} {cs cs' ds ds' : List (WhenClause F O)}
    {c d : WhenClause F O} (hsplit : cs ++ c :: cs' = ds ++ d :: ds')
    (hsize : codeSize (cs.flatMap (WhenClause.bodySeq endlabel)) =
      codeSize (ds.flatMap (WhenClause.bodySeq endlabel))) : cs = ds ∧ c = d ∧ cs' = ds' := by
  have hbody : ∀ c : WhenClause F O, 0 < codeSize (c.bodySeq endlabel) := by
    intro c
    have hpop : insnLen .pop = 1 := rfl
    simp only [WhenClause.bodySeq, codeSize_append, codeSize_label, codeSize_insn, hpop]
    omega
  rcases List.append_eq_append_iff.mp hsplit with ⟨as, hds, hcs⟩ | ⟨as, hcs, hds⟩
  · cases as with
    | nil => simpa [hds] using hcs
    | cons a as =>
        have := hbody a
        rw [hds, List.flatMap_append, List.flatMap_cons, codeSize_append, codeSize_append] at hsize
        omega
  · cases as with
    | nil => simpa [hcs, eq_comm] using hds
    | cons a as =>
        have := hbody a
        rw [hcs, List.flatMap_append, List.flatMap_cons, codeSize_append, codeSize_append] at hsize
        omega

end

/-! ## Agreement -/

theorem vmRun_of_steps {ops : ValueOps F O} {iseq : List (Word (CaseValue F O))}
    {a b : VmState F O} (h : Steps ops iseq a b) (hb : vmStep ops iseq b = none) :
    ∃ n, vmRun ops iseq n a = some b := by
  induction h using Relation.ReflTransGen.head_induction_on with
  | refl => exact ⟨1, by simp [vmRun, hb]⟩
  | head hstep _ ih =>
      obtain ⟨n, hn⟩ := ih
      exact ⟨n + 1, by simp [vmRun, hstep, hn]⟩

theorem vmRun_unique {ops : ValueOps F O} {iseq : List (Word (CaseValue F O))} {n n' : ℕ}
    {a b b' : VmState F O} (h : vmRun ops iseq n a = some b)
    (h' : vmRun ops iseq n' a = some b') : b = b' := by
  induction n generalizing n' a with
  | zero => simp [vmRun] at h
  | succ n ih =>
      cases n' with
      | zero => simp [vmRun] at h'
      | succ n' =>
          rw [vmRun] at h h'
          cases hstep : vmStep ops iseq a with
          | none =>
              simp only [hstep, Option.some.injEq] at h h'
              rw [← h, ← h']
          | some c =>
              simp only [hstep] at h h'
              exact ih h h'

/-- The branch a run from `pc` stops at. -/
def BranchReached (ops : ValueOps F O) (iseq : List (Word (CaseValue F O))) (pc : ℕ)
    (stack : List (CaseValue F O)) (target : ℕ) : Prop :=
  ∃ n stack', vmRun ops iseq n ⟨pc, stack⟩ = some ⟨target, stack'⟩

/-- The runs from two places, of the dispatch and of the tests, stop at the same branch. -/
def DispatchAgrees (ops : ValueOps F O) (iseq : List (Word (CaseValue F O))) (dispatch tests : ℕ)
    (stack : List (CaseValue F O)) : Prop :=
  ∃ target, BranchReached ops iseq dispatch stack target ∧ BranchReached ops iseq tests stack target

theorem dispatchAgrees_iff_eq {ops : ValueOps F O} {iseq : List (Word (CaseValue F O))}
    {dispatch tests p q : ℕ} {stack : List (CaseValue F O)}
    (hp : BranchReached ops iseq dispatch stack p) (hq : BranchReached ops iseq tests stack q) :
    DispatchAgrees ops iseq dispatch tests stack ↔ p = q := by
  constructor
  · rintro ⟨t, ⟨n, st, hn⟩, ⟨k, st', hk⟩⟩
    obtain ⟨n', sp, hp⟩ := hp
    obtain ⟨k', sq, hq⟩ := hq
    have h1 := congrArg VmState.pc (vmRun_unique hn hp)
    have h2 := congrArg VmState.pc (vmRun_unique hk hq)
    exact h1.symm.trans h2
  · rintro rfl
    exact ⟨p, hp, hq⟩

/-- No value matches in either sense, or the first clause with a value that is `===` to the
subject has one that is `eql?` to it, and no later clause has one. -/
def DispatchOk (ops : ValueOps F O) (clauses : List (WhenClause F O)) (v : CaseValue F O) : Prop :=
  (∀ c ∈ clauses, anyEqq ops c.lits v = false ∧ anyEql ops c.lits v = false) ∨
  ∃ cs c cs', clauses = cs ++ c :: cs' ∧ (∀ d ∈ cs, anyEqq ops d.lits v = false) ∧
    anyEqq ops c.lits v = true ∧ anyEql ops c.lits v = true ∧
    ∀ d ∈ cs', anyEql ops d.lits v = false

/-- The position of the branch of a clause, or of the `else` branch. -/
def branchPos (anchor : Anchor (CaseValue F O)) (node : CaseNode F O) :
    Option (WhenClause F O) → ℕ
  | some c => labelPos anchor c.label
  | none => labelPos anchor node.elselabel

/-- **The first clause by `===` and the last by `eql?` have the same branch exactly under the
condition.** -/
theorem branchPos_eq_iff {ops : ValueOps F O} {anchor : Anchor (CaseValue F O)}
    {node : CaseNode F O} {pre post : List (Elem (CaseValue F O))}
    (h : anchor.elems = pre ++ (node.branches ++ post)) (v : CaseValue F O) :
    branchPos anchor node (node.clauses.reverse.find? fun c => anyEql ops c.lits v) =
      branchPos anchor node (node.clauses.find? fun c => anyEqq ops c.lits v) ↔
      DispatchOk ops node.clauses v := by
  have helse := labelPos_else h
  have hpos := elseSize_pos node
  constructor
  · intro heq
    cases hfirst : node.clauses.find? fun c => anyEqq ops c.lits v with
    | none =>
        left
        rw [hfirst] at heq
        cases hlast : node.clauses.reverse.find? fun c => anyEql ops c.lits v with
        | none =>
            intro c hc
            have h1 := List.find?_eq_none.mp hfirst c hc
            have h2 := List.find?_eq_none.mp hlast c (List.mem_reverse.mpr hc)
            exact ⟨by simpa using h1, by simpa using h2⟩
        | some d =>
            obtain ⟨ds, ds', hd⟩ :=
              List.append_of_mem (List.mem_reverse.mp (List.mem_of_find?_eq_some hlast))
            rw [hlast, branchPos, branchPos, helse, labelPos_clause hd h] at heq
            omega
    | some c =>
        obtain ⟨hc, cs, cs', hsplit, hcs⟩ := List.find?_eq_some_iff_append.mp hfirst
        rw [hfirst] at heq
        cases hlast : node.clauses.reverse.find? fun c => anyEql ops c.lits v with
        | none =>
            rw [hlast, branchPos, branchPos, helse, labelPos_clause hsplit h] at heq
            omega
        | some d =>
            obtain ⟨hd, ds', ds, hsplit', hds⟩ := List.find?_eq_some_iff_append.mp hlast
            have hsplit2 : node.clauses = ds.reverse ++ d :: ds'.reverse := by
              have hrev := congrArg List.reverse hsplit'
              simpa using hrev
            rw [hlast, branchPos, branchPos, labelPos_clause hsplit h,
              labelPos_clause hsplit2 h] at heq
            obtain ⟨-, rfl, rfl⟩ :=
              prefix_eq_of_codeSize (hsplit.symm.trans hsplit2) (Nat.add_left_cancel heq).symm
            refine Or.inr ⟨cs, c, _, hsplit, fun e he => ?_, hc, hd, fun e he => ?_⟩
            · simpa using hcs e he
            · simpa using hds e (List.mem_reverse.mp he)
  · rintro (hnone | ⟨cs, c, cs', hsplit, hcs, hc, hd, hcs'⟩)
    · rw [List.find?_eq_none.mpr, List.find?_eq_none.mpr]
      · intro c hc
        simp [(hnone c hc).1]
      · intro c hc
        simp [(hnone c (List.mem_reverse.mp hc)).2]
    · have hfirst : node.clauses.find? (fun c => anyEqq ops c.lits v) = some c :=
        List.find?_eq_some_iff_append.mpr
          ⟨hc, cs, cs', hsplit, fun e he => by simp [hcs e he]⟩
      have hlast : node.clauses.reverse.find? (fun c => anyEql ops c.lits v) = some c :=
        List.find?_eq_some_iff_append.mpr ⟨hd, cs'.reverse, cs.reverse, by simp [hsplit],
          fun e he => by simp [hcs' e (List.mem_reverse.mp he)]⟩
      rw [hfirst, hlast]

/-- The machine stops at a branch. -/
theorem vmStep_branch {ops : ValueOps F O} {anchor : Anchor (CaseValue F O)}
    {s : Sequence (CaseValue F O)} (hs : iseqSetSequence (eql ops) anchor = .ok s)
    {node : CaseNode F O} {pre post : List (Elem (CaseValue F O))}
    (h : anchor.elems = pre ++ (node.branches ++ post)) {b : Option (WhenClause F O)}
    (hb : ∀ c ∈ b, c ∈ node.clauses) (stack : List (CaseValue F O)) :
    vmStep ops s.iseq ⟨branchPos anchor node b, stack⟩ = none := by
  have hpop : ∀ p, s.iseq[p]? = some (.op .pop) → vmStep ops s.iseq ⟨p, stack⟩ = none := by
    intro p hp
    simp [vmStep, hp]
  apply hpop
  cases b with
  | none =>
      have helems : anchor.elems = (pre ++ [.label node.elselabel]) ++
          .insn ⟨.pop, node.line, []⟩ :: (node.els ++
            [.insn ⟨.jump, node.line, [.label node.endlabel]⟩] ++
            node.clauses.flatMap (WhenClause.bodySeq node.endlabel) ++ [.label node.endlabel] ++
            post) := by
        rw [h, CaseNode.branches]
        simp
      have hword := (fetch_insn hs helems).1
      rw [branchPos, labelPos_else h]
      simpa using hword
  | some c =>
      obtain ⟨cs, cs', hc⟩ := List.append_of_mem (hb c rfl)
      obtain ⟨rest, hrest⟩ := branches_eq hc h
      rw [branchPos, labelPos_eq hrest]
      rw [List.append_cons] at hrest
      have hword := (fetch_insn hs hrest).1
      rw [codeSize_append] at hword
      simpa using hword

/-- Floating point numbers with an integral value, and no other objects. -/
def integralOps : ValueOps ℤ Empty where
  ofInt := id
  feq := fun x y => decide (x = y)
  strEqual := fun a b => decide (a = b)
  strEql := fun a b => decide (a = b)
  objEq := fun _ _ => false
  objEql := fun _ _ => false
  feq_symm := by simp [eq_comm]
  feq_trans := by
    intro x y z hxy hyz
    rw [decide_eq_true_iff] at *
    exact hxy.trans hyz
  strEql_symm := by simp [eq_comm]
  strEql_trans := by
    intro a b c hab hbc
    rw [decide_eq_true_iff] at *
    exact hab.trans hbc
  objEql_congr := by simp
  objEql_inj := by simp

/-- `case x when 1 then nil when n then self else nil end`. -/
def sampleCase (n : ℤ) : CaseNode ℤ Empty where
  line := 1
  endlabel := 0
  elselabel := 1
  head := [.insn ⟨.getlocal, 1, [.num 2]⟩]
  clauses := [⟨2, 2, [.lit 2 (.integer 1)], [.insn ⟨.putnil, 2, []⟩]⟩,
    ⟨3, 3, [.lit 3 (.integer n)], [.insn ⟨.putself, 3, []⟩]⟩]
  els := [.insn ⟨.putnil, 1, []⟩]

/-- The code of `sampleCase`, as the body of a method. -/
def sampleCaseAnchor (n : ℤ) : Anchor (CaseValue ℤ Empty) where
  elems := compileCase (sampleCase n) ++ [.insn ⟨.leave, 4, []⟩]
  nodup := by
    change ([1, 2, 3, 0] : List Label).Nodup
    decide

end MacRuby
