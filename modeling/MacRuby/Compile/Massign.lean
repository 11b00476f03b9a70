import MacRuby.Compile.Array

/-!
# Multiple assignment

`compile_massign` makes an array of the right-hand side and lets `expandarray` lay its values on
the stack for the left-hand side. Where nothing but the assignments is wanted and the left-hand
side is a list of distinct variables, `compile_massign_opt` does without the array: it leaves the
values on the stack, fills up with `nil`, and assigns from the last variable back.

## Main definitions

* `Scope`, `Iseq`, `Lhs`, `Masgn` — names, left-hand sides and the node.
* `compileMassignOpt`, `Masgn.compileGeneral`, `Masgn.compileMassign` — the compiler.
* `World.assigned` — what the assignment is for.

## Main results

* `Lhs.var_ne` — different names are different variables.
* `memorize_eq_some` — when the shortcut is taken.
* `runs_compileGeneral`, `runs_compileMassignOpt` — both codes assign the values in order.
-/

namespace MacRuby

open Machine

variable {E O : Type}

/-! ## Names -/

/-- `rb_iseq_t`, as far as names are looked up in it. -/
structure Scope where
  localTable : List ℕ
  localSize : ℤ

/-- An instruction sequence and its parents, from the inside out; `local_iseq` is one of them. -/
structure Iseq where
  scopes : List Scope
  localDepth : ℕ

/-- `get_dyna_var_idx_at_raw`. -/
def Scope.getDynaVarIdxAtRaw (s : Scope) (id : ℕ) : Option ℕ := s.localTable.idxOf? id

/-- `iseq->local_iseq->local_size - get_local_var_idx(iseq, id)`; nothing is `rb_bug`. -/
def Iseq.getLocalVarIdx (iseq : Iseq) (id : ℕ) : Option ℤ :=
  match iseq.scopes[iseq.localDepth]? with
  | some s => (s.getDynaVarIdxAtRaw id).map fun i : ℕ => s.localSize - i
  | none => none

/-- `get_dyna_var_idx`, with `ls - idx` in place of the two and the level; nothing is `rb_bug`. -/
def getDynaVarIdx : List Scope → ℕ → ℕ → Option (ℤ × ℕ)
  | [], _, _ => none
  | s :: scopes, id, lv =>
      match s.getDynaVarIdxAtRaw id with
      | some i => some (s.localSize - i, lv)
      | none => getDynaVarIdx scopes id (lv + 1)

/-- A left-hand side: the nodes of variables, with `nd_vid`, and any other, with its code. -/
inductive Lhs
  | lasgn (line : ℤ) (vid : ℕ)
  | dasgn (line : ℤ) (vid : ℕ)
  | dasgnCurr (line : ℤ) (vid : ℕ)
  | iasgn (line : ℤ) (vid : ℕ)
  | iasgn2 (line : ℤ) (vid : ℕ)
  | cvasgn (line : ℤ) (vid : ℕ)
  | other (code : ℕ → List (Elem Value) × ℕ)

/-- `nd_vid` of the nodes the shortcut takes. -/
def Lhs.vid? : Lhs → Option ℕ
  | .lasgn _ vid | .dasgn _ vid | .dasgnCurr _ vid | .iasgn _ vid | .iasgn2 _ vid
  | .cvasgn _ vid => some vid
  | .other _ => none

/-- The variable a name stands for. -/
def Lhs.var (iseq : Iseq) : Lhs → Option Var
  | .lasgn _ vid => (iseq.getLocalVarIdx vid).map fun idx => .slot iseq.localDepth idx
  | .dasgn _ vid | .dasgnCurr _ vid =>
      (getDynaVarIdx iseq.scopes vid 0).map fun r => .slot r.2 r.1
  | .iasgn _ vid | .iasgn2 _ vid => some (.ivar vid)
  | .cvasgn _ vid => some (.cvar vid)
  | .other _ => none

/-! ## The compiler -/

/-- The value of an assignment whose `nd_value` is null, and its instruction. -/
def asgnCode (line : ℤ) (poped : Bool) (insnId : InsnId) (operands : List (Operand Value)) :
    List (Elem Value) :=
  .insn ⟨.putnil, line, []⟩ ::
    ((if poped then [] else [.insn ⟨.dup, line, []⟩]) ++ [.insn ⟨insnId, line, operands⟩])

/-- `iseq_compile_each` on an assignment without a value. -/
def compileAsgn (iseq : Iseq) (poped : Bool) : Lhs → ℕ → Option (List (Elem Value) × ℕ)
  | .lasgn line vid, no =>
      (iseq.getLocalVarIdx vid).map fun idx => (asgnCode line poped .setlocal [.num idx], no)
  | .dasgn line vid, no | .dasgnCurr line vid, no =>
      (getDynaVarIdx iseq.scopes vid 0).map fun r =>
        (asgnCode line poped .setdynamic [.num r.1, .num r.2], no)
  | .iasgn line vid, no | .iasgn2 line vid, no =>
      some (asgnCode line poped .setinstancevariable [.id vid], no)
  | .cvasgn line vid, no => some (asgnCode line poped .setclassvariable [.id vid], no)
  | .other _, _ => none

/-- `compile_massign_lhs`: the first element, which would push a value, is taken off again. -/
def compileMassignLhs (iseq : Iseq) : Lhs → ℕ → Option (List (Elem Value) × ℕ)
  | .other code, no => some (code no)
  | lhs, no => (compileAsgn iseq true lhs no).map fun c => (c.1.tail, c.2)

/-- Left-hand sides in their order. -/
def compileMassignLhss (iseq : Iseq) : List Lhs → ℕ → Option (List (Elem Value) × ℕ)
  | [], no => some ([], no)
  | lhs :: lhsn, no =>
      (compileMassignLhs iseq lhs no).bind fun c =>
        (compileMassignLhss iseq lhsn c.2).map fun d => (c.1 ++ d.1, d.2)

/-- `compile_massign_opt_lhs`: the next one before this one. -/
def compileMassignOptLhs (iseq : Iseq) : List Lhs → ℕ → Option (List (Elem Value) × ℕ)
  | [], no => some ([], no)
  | lhs :: lhsn, no =>
      (compileMassignOptLhs iseq lhsn no).bind fun c =>
        (compileMassignLhs iseq lhs c.2).map fun d => (c.1 ++ d.1, d.2)

/-- `memsize`. -/
def memsize : ℕ := 64

/-- `MEMORY(v)`; nothing is `return 0`. -/
def memory (mem : List ℕ) (v : ℕ) : Option (List ℕ) :=
  if mem.length = memsize then none else if v ∈ mem then none else some (mem ++ [v])

/-- The loop over the left-hand side, which collects the names. -/
def memorize : List ℕ → List Lhs → Option (List ℕ)
  | mem, [] => some mem
  | mem, lhs :: lhsn =>
      match lhs.vid? with
      | some vid => (memory mem vid).bind fun mem => memorize mem lhsn
      | none => none

/-- The right-hand side: none, a list of values, which is not empty, or one expression. -/
inductive Rhs (E : Type)
  | none
  | array (line : ℤ) (head : Node E) (tail : List (Node E))
  | other (node : Node E)

/-- What follows the names on the left-hand side, as in `Splat`. -/
inductive SplatLhs
  | none
  | anonymous
  | rest (lhs : Lhs)
  | postarg (line : ℤ) (restn : Option Lhs) (postn : List Lhs)

/-- `NODE_MASGN`; `lhsLine` is the line of the list on the left. -/
structure Masgn (E : Type) where
  line : ℤ
  lhsLine : ℤ
  lhsn : List Lhs
  splatn : SplatLhs
  rhsn : Rhs E

/-- `lhs_splat`. -/
def SplatLhs.lhsSplat : SplatLhs → ℕ
  | .none | .anonymous => 0
  | .rest _ | .postarg _ _ _ => 1

/-- What is compiled for the `*` and what follows it. -/
def SplatLhs.compile (iseq : Iseq) : SplatLhs → ℕ → Option (List (Elem Value) × ℕ)
  | .none, no | .anonymous, no => some ([], no)
  | .rest lhs, no => compileMassignLhs iseq lhs no
  | .postarg line restn postn, no =>
      (compileMassignLhss iseq (restn.toList ++ postn) no).map fun c =>
        (.insn ⟨.expandarray, line, [.num postn.length,
          .num (2 + restn.toList.length)]⟩ :: c.1, c.2)

section Compile

variable (compile : E → Bool → ℕ → List (Elem Value) × ℕ)

/-- `COMPILE(ret, "normal masgn rhs", rhsn)`. -/
def compileRhs (lastLine : ℤ) : Rhs E → ℕ → List (Elem Value) × ℕ
  | .none, no => ([.insn ⟨.putnil, lastLine, []⟩], no)
  | .array line head tail, no => compileArray compile line (head :: tail) true false no
  | .other node, no => compileNode compile node false no

/-- `compile_massign_opt(iseq, ret, rhsn, orig_lhsn)`: nothing is `rb_bug`, and no code is
`return 0`. -/
def compileMassignOpt (iseq : Iseq) (lhsLine : ℤ) (rhsn : Rhs E) (lhsn : List Lhs) (no : ℕ) :
    Option (Option (List (Elem Value) × ℕ)) :=
  match rhsn, memorize [] lhsn with
  | .array _ head tail, some _ =>
      let llen := lhsn.length
      let rlen := tail.length + 1
      let vals := compileAll (compileNode compile) (fun rlen => decide (llen ≤ rlen)) 0
        (head :: tail) no
      (compileMassignOptLhs iseq lhsn vals.2).map fun c =>
        some (vals.1 ++ (List.replicate (llen - rlen) (.insn ⟨.putnil, lhsLine, []⟩) ++ c.1), c.2)
  | _, _ => some none

/-- The general code of `compile_massign`. -/
def Masgn.compileGeneral (iseq : Iseq) (node : Masgn E) (poped : Bool) (no : ℕ) :
    Option (List (Elem Value) × ℕ) :=
  (compileMassignLhss iseq node.lhsn no).bind fun lhsseq =>
    let rhs := compileRhs compile node.line node.rhsn lhsseq.2
    (node.splatn.compile iseq rhs.2).map fun splat =>
      (rhs.1 ++ ((if poped then [] else [.insn ⟨.dup, node.line, []⟩]) ++
        .insn ⟨.expandarray, node.line, [.num node.lhsn.length, .num node.splatn.lhsSplat]⟩ ::
        (lhsseq.1 ++ splat.1)), splat.2)

/-- `compile_massign(iseq, ret, node, poped)`. -/
def Masgn.compileMassign (iseq : Iseq) (node : Masgn E) (poped : Bool) (no : ℕ) :
    Option (List (Elem Value) × ℕ) :=
  match poped, node.splatn with
  | true, .none =>
      match compileMassignOpt compile iseq node.lhsLine node.rhsn node.lhsn no with
      | none => none
      | some none => node.compileGeneral compile iseq true no
      | some (some c) => some c
  | _, _ => node.compileGeneral compile iseq poped no

end Compile

/-! ## Different names are different variables -/

/-- The name is in a slot of a frame. -/
def Iseq.Holds (iseq : Iseq) (level : ℕ) (idx : ℤ) (id : ℕ) : Prop :=
  ∃ (s : Scope) (i : ℕ), iseq.scopes[level]? = some s ∧ s.localTable[i]? = some id ∧
    idx = s.localSize - i

theorem Iseq.Holds.unique {iseq : Iseq} {level : ℕ} {idx : ℤ} {id id' : ℕ}
    (h : iseq.Holds level idx id) (h' : iseq.Holds level idx id') : id = id' := by
  obtain ⟨s, i, hs, hi, hidx⟩ := h
  obtain ⟨s', i', hs', hi', hidx'⟩ := h'
  obtain rfl : s = s' := by simpa [hs] using hs'
  obtain rfl : i = i' := by omega
  simpa [hi] using hi'

theorem Scope.getElem?_of_idx {s : Scope} {id i : ℕ} (h : s.getDynaVarIdxAtRaw id = some i) :
    s.localTable[i]? = some id := by
  obtain ⟨hlt, hi, -⟩ := List.idxOf?_eq_some_iff.mp h
  rw [List.getElem?_eq_getElem hlt, hi]

theorem Iseq.holds_getLocalVarIdx {iseq : Iseq} {id : ℕ} {idx : ℤ}
    (h : iseq.getLocalVarIdx id = some idx) : iseq.Holds iseq.localDepth idx id := by
  rw [getLocalVarIdx] at h
  split at h
  · rename_i s hs
    obtain ⟨i, hi, rfl⟩ := Option.map_eq_some_iff.mp h
    exact ⟨s, i, hs, s.getElem?_of_idx hi, rfl⟩
  · cases h

theorem exists_of_getDynaVarIdx {scopes : List Scope} {id lv : ℕ} {r : ℤ × ℕ}
    (h : getDynaVarIdx scopes id lv = some r) :
    ∃ (s : Scope) (i : ℕ), lv ≤ r.2 ∧ scopes[r.2 - lv]? = some s ∧ s.localTable[i]? = some id ∧
      r.1 = s.localSize - i := by
  induction scopes generalizing lv with
  | nil => cases h
  | cons s scopes ih =>
      rw [getDynaVarIdx] at h
      split at h
      · rename_i i hi
        cases h
        exact ⟨s, i, le_rfl, by simp, s.getElem?_of_idx hi, rfl⟩
      · obtain ⟨s', i, hle, hs, hi, hr⟩ := ih h
        refine ⟨s', i, by omega, ?_, hi, hr⟩
        rw [show r.2 - lv = r.2 - (lv + 1) + 1 by omega, List.getElem?_cons_succ, hs]

theorem Iseq.holds_getDynaVarIdx {iseq : Iseq} {id : ℕ} {r : ℤ × ℕ}
    (h : getDynaVarIdx iseq.scopes id 0 = some r) : iseq.Holds r.2 r.1 id := by
  obtain ⟨s, i, -, hs, hi, hr⟩ := exists_of_getDynaVarIdx h
  exact ⟨s, i, hs, hi, hr⟩

/-- What a variable says about its name. -/
def Var.Names (iseq : Iseq) (vid : ℕ) : Var → Prop
  | .slot level idx => iseq.Holds level idx vid
  | .ivar id => id = vid
  | .cvar id => id = vid

theorem Lhs.names_var {iseq : Iseq} {l : Lhs} {vid : ℕ} {x : Var} (hvid : l.vid? = some vid)
    (hx : l.var iseq = some x) : x.Names iseq vid := by
  cases l with
  | lasgn line v =>
      cases hvid
      obtain ⟨idx, hidx, rfl⟩ := Option.map_eq_some_iff.mp hx
      exact iseq.holds_getLocalVarIdx hidx
  | dasgn line v =>
      cases hvid
      obtain ⟨r, hr, rfl⟩ := Option.map_eq_some_iff.mp hx
      exact iseq.holds_getDynaVarIdx hr
  | dasgnCurr line v =>
      cases hvid
      obtain ⟨r, hr, rfl⟩ := Option.map_eq_some_iff.mp hx
      exact iseq.holds_getDynaVarIdx hr
  | iasgn line v =>
      cases hvid
      cases hx
      rfl
  | iasgn2 line v =>
      cases hvid
      cases hx
      rfl
  | cvasgn line v =>
      cases hvid
      cases hx
      rfl
  | other code => cases hvid

/-- **Different names are different variables.** -/
theorem Lhs.var_ne {iseq : Iseq} {l l' : Lhs} {vid vid' : ℕ} {x x' : Var} (hvid : l.vid? = some vid)
    (hvid' : l'.vid? = some vid') (hne : vid ≠ vid') (hx : l.var iseq = some x)
    (hx' : l'.var iseq = some x') : x ≠ x' := by
  have hname := names_var hvid hx
  have hname' := names_var hvid' hx'
  intro h
  subst h
  cases x with
  | slot level idx => exact hne (hname.unique hname')
  | ivar id => exact hne (hname.symm.trans hname')
  | cvar id => exact hne (hname.symm.trans hname')

/-- The names of a list of variables, and the variables they stand for. -/
abbrev HasVids : List Lhs → List ℕ → Prop := List.Forall₂ fun l vid => l.vid? = some vid

abbrev HasVars (iseq : Iseq) : List Lhs → List Var → Prop :=
  List.Forall₂ fun l x => l.var iseq = some x

/-- The variables of different names are different. -/
theorem nodup_vars {iseq : Iseq} {lhsn : List Lhs} {vids : List ℕ} {xs : List Var}
    (hvids : HasVids lhsn vids) (hnodup : vids.Nodup) (hxs : HasVars iseq lhsn xs) : xs.Nodup := by
  induction hvids generalizing xs with
  | nil =>
      cases hxs
      exact List.nodup_nil
  | @cons l vid lhsn vids hvid hvids ih =>
      cases hxs with
      | cons hx hxs =>
          rw [List.nodup_cons] at hnodup ⊢
          refine ⟨fun hmem => ?_, ih hnodup.2 hxs⟩
          obtain ⟨j, hj, rfl⟩ := List.mem_iff_getElem.mp hmem
          have hlen := hvids.length_eq
          have hlen' := hxs.length_eq
          have hj' : vids[j] ∈ vids := List.getElem_mem _
          refine Lhs.var_ne hvid (hvids.get (by omega) (by omega)) ?_ hx (hxs.get (by omega) hj) rfl
          rintro rfl
          exact hnodup.1 hj'

/-! ## When the shortcut is taken -/

theorem memory_eq_some {mem : List ℕ} (hmem : mem.Nodup) (hlen : mem.length ≤ memsize) {v : ℕ}
    {r : List ℕ} :
    memory mem v = some r ↔ r = mem ++ [v] ∧ r.Nodup ∧ r.length ≤ memsize := by
  rw [memory]
  split
  · rename_i hfull
    refine iff_of_false (by simp) ?_
    rintro ⟨rfl, -, hr⟩
    rw [List.length_append, List.length_singleton] at hr
    omega
  · split
    · rename_i hv
      refine iff_of_false (by simp) ?_
      rintro ⟨rfl, hr, -⟩
      exact (List.nodup_append.mp hr).2.2 v hv v (by simp) rfl
    · rename_i hv
      have hnodup : (mem ++ [v]).Nodup := by
        rw [← List.concat_eq_append]
        exact hmem.concat hv
      refine ⟨fun h => ?_, fun h => by rw [h.1]⟩
      cases h
      refine ⟨rfl, hnodup, ?_⟩
      rw [List.length_append, List.length_singleton]
      omega

/-- **The names are collected if all are variables, no two are the same, and they are not too
many.** -/
theorem memorize_eq_some {mem : List ℕ} (hmem : mem.Nodup) (hlen : mem.length ≤ memsize)
    {lhsn : List Lhs} {r : List ℕ} :
    memorize mem lhsn = some r ↔ ∃ vids, HasVids lhsn vids ∧ r = mem ++ vids ∧ r.Nodup ∧
      r.length ≤ memsize := by
  induction lhsn generalizing mem with
  | nil =>
      constructor
      · intro h
        cases h
        exact ⟨[], .nil, by simp, hmem, hlen⟩
      · rintro ⟨vids, hvids, rfl, -, -⟩
        cases hvids
        simp [memorize]
  | cons lhs lhsn ih =>
      rw [memorize]
      constructor
      · intro h
        split at h
        · rename_i vid hvid
          obtain ⟨mem', hmem', h⟩ := Option.bind_eq_some_iff.mp h
          obtain ⟨rfl, hnodup, hlen'⟩ := (memory_eq_some hmem hlen).mp hmem'
          obtain ⟨vids, hvids, hr, hrest⟩ := (ih hnodup hlen').mp h
          exact ⟨vid :: vids, .cons hvid hvids, by simp [hr], hrest⟩
        · cases h
      · rintro ⟨vids, hvids, rfl, hnodup, hr⟩
        cases hvids with
        | @cons _ vid _ vids hvid hvids =>
            have happend : mem ++ vid :: vids = mem ++ [vid] ++ vids := List.append_cons ..
            have hmem' : (mem ++ [vid]).Nodup := by
              rw [happend] at hnodup
              exact (List.nodup_append.mp hnodup).1
            have hlen' : (mem ++ [vid]).length ≤ memsize := by
              rw [happend, List.length_append] at hr
              omega
            simp only [hvid]
            rw [(memory_eq_some hmem hlen).mpr ⟨rfl, hmem', hlen'⟩, Option.bind_some]
            exact (ih hmem' hlen').mpr ⟨vids, hvids, happend, hnodup, hr⟩

/-! ## Assignments one after another -/

/-- **What multiple assignment is for**: each variable gets the value in its place, `nil` if there
is none, and nothing else changes. -/
def World.assigned (w : World O) (xs : List Var) (vals : List Value) : World O :=
  { w with vars := fun x => if x ∈ xs then vals.getD (xs.idxOf x) .nil else w.vars x }

/-- Assignments one by one. -/
def World.storeAll : World O → List Var → List Value → World O
  | w, x :: xs, v :: vs => (w.store x v).storeAll xs vs
  | w, _, _ => w

@[simp] theorem World.rest_storeAll (w : World O) (xs : List Var) (vs : List Value) :
    (w.storeAll xs vs).rest = w.rest := by
  fun_induction World.storeAll w xs vs with
  | case1 w x xs v vs ih => exact ih
  | case2 => rfl

theorem World.vars_storeAll {f : Var → Value} (w : World O) (xs : List Var) (vs : List Value)
    (hlen : vs.length = xs.length) (hmem : ∀ p ∈ xs.zip vs, f p.1 = p.2)
    (hnot : ∀ x ∉ xs, f x = w.vars x) : (w.storeAll xs vs).vars = f := by
  induction xs generalizing w vs with
  | nil =>
      ext1 x
      exact (hnot x (by simp)).symm
  | cons x xs ih =>
      cases vs with
      | nil => simp at hlen
      | cons v vs =>
          refine ih _ _ (by simpa using hlen) (fun p hp => hmem p (by simp [hp])) fun y hy => ?_
          by_cases hyx : y = x
          · subst hyx
            simpa [store] using hmem (y, v) (by simp)
          · rw [hnot y (by simp [hyx, hy])]
            simp [store, hyx]

theorem World.vars_assigned_of_mem_zip {w : World O} {xs : List Var} (hnodup : xs.Nodup)
    (vals : List Value) {p : Var × Value} (hp : p ∈ xs.zip (mandatoryValues vals xs.length)) :
    (w.assigned xs vals).vars p.1 = p.2 := by
  obtain ⟨i, hi, rfl⟩ := List.mem_iff_getElem.mp hp
  have hlt : i < xs.length := by
    rw [List.length_zip] at hi
    omega
  simp [assigned, mandatoryValues, hnodup.idxOf_getElem]

/-- The order in which different variables are assigned their values does not matter. -/
theorem World.storeAll_eq_assigned (w : World O) {xs ys : List Var} (hnodup : xs.Nodup)
    (vals : List Value) {vs : List Value} (hlen : vs.length = ys.length)
    (hys : ∀ x, x ∈ xs → x ∈ ys)
    (hzip : ∀ p ∈ ys.zip vs, p ∈ xs.zip (mandatoryValues vals xs.length)) :
    w.storeAll ys vs = w.assigned xs vals := by
  have hvars := w.vars_storeAll ys vs hlen
    (fun p hp => vars_assigned_of_mem_zip (w := w) hnodup vals (hzip p hp))
    (fun x hx => if_neg (mt (hys x) hx))
  have hrest := w.rest_storeAll ys vs
  cases hw : w.storeAll ys vs with
  | mk vars rest =>
      rw [hw] at hvars hrest
      subst hvars hrest
      rfl

/-! ## The two codes -/

section Run

variable {o : Objects O} {iseq : Iseq}

/-- The instruction assigns the top of the stack. -/
def Sets (m : Machine Value (World O)) (i : Insn Value) (x : Var) : Prop :=
  ∀ es k stack w v, m.Reaches es ⟨.insn i :: k, v :: stack, w⟩ ⟨k, stack, w.store x v⟩

theorem compileMassignLhs_eq {l : Lhs} {x : Var} (h : l.var iseq = some x) (no : ℕ) :
    ∃ i, compileMassignLhs iseq l no = some ([.insn i], no) ∧
      Sets (o.machine iseq.localDepth) i x := by
  cases l with
  | lasgn line vid =>
      obtain ⟨idx, hidx, rfl⟩ := Option.map_eq_some_iff.mp h
      refine ⟨⟨.setlocal, line, [.num idx]⟩, ?_, fun _ _ _ _ _ => .single rfl⟩
      simp [compileMassignLhs, compileAsgn, hidx, asgnCode]
  | dasgn line vid =>
      obtain ⟨r, hr, rfl⟩ := Option.map_eq_some_iff.mp h
      refine ⟨⟨.setdynamic, line, [.num r.1, .num r.2]⟩, ?_, fun _ _ _ _ _ => .single rfl⟩
      simp [compileMassignLhs, compileAsgn, hr, asgnCode]
  | dasgnCurr line vid =>
      obtain ⟨r, hr, rfl⟩ := Option.map_eq_some_iff.mp h
      refine ⟨⟨.setdynamic, line, [.num r.1, .num r.2]⟩, ?_, fun _ _ _ _ _ => .single rfl⟩
      simp [compileMassignLhs, compileAsgn, hr, asgnCode]
  | iasgn line vid =>
      cases h
      exact ⟨⟨.setinstancevariable, line, [.id vid]⟩, rfl, fun _ _ _ _ _ => .single rfl⟩
  | iasgn2 line vid =>
      cases h
      exact ⟨⟨.setinstancevariable, line, [.id vid]⟩, rfl, fun _ _ _ _ _ => .single rfl⟩
  | cvasgn line vid =>
      cases h
      exact ⟨⟨.setclassvariable, line, [.id vid]⟩, rfl, fun _ _ _ _ _ => .single rfl⟩
  | other code => cases h

theorem compileMassignLhss_eq {lhsn : List Lhs} {xs : List Var} (h : HasVars iseq lhsn xs)
    (no : ℕ) :
    ∃ is, compileMassignLhss iseq lhsn no = some (is.map .insn, no) ∧
      List.Forall₂ (Sets (o.machine iseq.localDepth)) is xs := by
  induction h with
  | nil => exact ⟨[], rfl, .nil⟩
  | cons hx _ ih =>
      obtain ⟨i, hi, hset⟩ := compileMassignLhs_eq (o := o) hx no
      obtain ⟨is, his, hsets⟩ := ih
      exact ⟨i :: is, by simp [compileMassignLhss, hi, his], .cons hset hsets⟩

theorem compileMassignOptLhs_eq {lhsn : List Lhs} {xs : List Var} (h : HasVars iseq lhsn xs)
    (no : ℕ) :
    ∃ is, compileMassignOptLhs iseq lhsn no = some (is.map .insn, no) ∧
      List.Forall₂ (Sets (o.machine iseq.localDepth)) is xs.reverse := by
  induction h with
  | nil => exact ⟨[], rfl, .nil⟩
  | cons hx _ ih =>
      obtain ⟨i, hi, hset⟩ := compileMassignLhs_eq (o := o) hx no
      obtain ⟨is, his, hsets⟩ := ih
      refine ⟨is ++ [i], by simp [compileMassignOptLhs, hi, his], ?_⟩
      rw [List.reverse_cons]
      exact List.rel_append hsets (.cons hset .nil)

/-- A run of assignments takes one value for each. -/
theorem reaches_sets {m : Machine Value (World O)} {is : List (Insn Value)} {xs : List Var}
    (h : List.Forall₂ (Sets m) is xs) {vs : List Value} (hlen : vs.length = xs.length)
    (es k : List (Elem Value)) (stack : List Value) (w : World O) :
    m.Reaches es ⟨is.map .insn ++ k, vs ++ stack, w⟩ ⟨k, stack, w.storeAll xs vs⟩ := by
  induction h generalizing vs w with
  | nil =>
      obtain rfl : vs = [] := by simpa using hlen
      exact .refl
  | cons hset _ ih =>
      cases vs with
      | nil => simp at hlen
      | cons v vs => exact (hset _ _ _ _ _).trans (ih (by simpa using hlen) _)

theorem reaches_putnils {m : Machine Value (World O)} (line : ℤ) (n : ℕ) (es k : List (Elem Value))
    (stack : List Value) (w : World O) :
    m.Reaches es ⟨List.replicate n (.insn ⟨.putnil, line, []⟩) ++ k, stack, w⟩
      ⟨k, List.replicate n m.nil ++ stack, w⟩ := by
  induction n generalizing stack with
  | zero => exact .refl
  | succ n ih =>
      refine (reaches_putnil line).trans ?_
      rw [List.replicate_succ', List.append_assoc]
      exact ih _

theorem mandatoryValues_eq (vals : List Value) (n : ℕ) :
    mandatoryValues vals n = vals.take n ++ List.replicate (n - vals.length) .nil := by
  refine List.ext_getElem (by simp [mandatoryValues]; omega) fun i hi hi' => ?_
  rw [List.getElem_append]
  split
  · rename_i hlt
    rw [List.length_take] at hlt
    simp [mandatoryValues, show i < vals.length by omega]
  · rename_i hge
    rw [List.length_take] at hge
    rw [List.getElem_replicate]
    have hlen : i < n := by simpa [mandatoryValues] using hi
    simp [mandatoryValues, show vals.length ≤ i by omega]

/-- The values are evaluated, in order and before anything is assigned. -/
def evalMassign (eval : E → World O → Value × World O) (exprs : List (Node E)) (xs : List Var)
    (w : World O) : Value × World O :=
  let r := evalAll (evalNode eval) exprs w
  (.nil, r.2.assigned xs r.1)

variable {eval : E → World O → Value × World O} {compile : E → Bool → ℕ → List (Elem Value) × ℕ}
  {line : ℤ} {head : Node E} {tail : List (Node E)} {xs : List Var}

/-- **The general code assigns the values in order.** -/
theorem runs_compileGeneral (h : Compiles (o.machine iseq.localDepth) eval compile) {node : Masgn E}
    (hrhsn : node.rhsn = .array line head tail) (hsplatn : node.splatn = .none)
    (hxs : HasVars iseq node.lhsn xs) (hnodup : xs.Nodup) (no : ℕ) :
    ∃ c, node.compileGeneral compile iseq true no = some c ∧
      (o.machine iseq.localDepth).Runs true c.1 (evalMassign eval (head :: tail) xs) := by
  obtain ⟨is, his, hsets⟩ := compileMassignLhss_eq (o := o) hxs no
  simp only [Masgn.compileGeneral, his, hrhsn, hsplatn, compileRhs, SplatLhs.compile,
    SplatLhs.lhsSplat, Option.bind_some, Option.map_some]
  refine ⟨_, rfl, ?_⟩
  intro es back front stack w hlabels hes
  simp only [if_true, List.append_assoc, List.cons_append, List.nil_append] at hes ⊢
  refine (runs_compileArray h line (head :: tail) true no front stack w hlabels hes).trans ?_
  refine (reaches_expandarray node.line _ node.lhsn.length 0).trans ?_
  rw [vmExpandarray_names, hxs.length_eq]
  refine (reaches_sets hsets (by simp [mandatoryValues]) _ _ _ _).trans ?_
  rw [World.storeAll_eq_assigned _ hnodup _ (by simp [mandatoryValues]) (fun _ hx => hx)
    fun p hp => hp]
  exact .refl

/-- **The shortcut assigns the values in order.** -/
theorem runs_compileMassignOpt (h : Compiles (o.machine iseq.localDepth) eval compile)
    {lhsn : List Lhs} (hxs : HasVars iseq lhsn xs) (hnodup : xs.Nodup) (lhsLine : ℤ) (no : ℕ)
    {mem : List ℕ} (hmem : memorize [] lhsn = some mem) :
    ∃ c, compileMassignOpt compile iseq lhsLine (.array line head tail) lhsn no = some (some c) ∧
      (o.machine iseq.localDepth).Runs true c.1 (evalMassign eval (head :: tail) xs) := by
  obtain ⟨is, his, hsets⟩ := compileMassignOptLhs_eq (o := o) hxs (compileAll (compileNode compile)
    (fun rlen => decide (lhsn.length ≤ rlen)) 0 (head :: tail) no).2
  simp only [compileMassignOpt, hmem, his, Option.map_some]
  refine ⟨_, rfl, ?_⟩
  intro es back front stack w hlabels hes
  simp only [List.append_assoc] at hes ⊢
  refine (reaches_compileAll (compiles_compileNode h) _ 0 (head :: tail) no front stack w hlabels
    hes).trans ?_
  refine (reaches_putnils lhsLine _ _ _ _ _).trans ?_
  rw [evalMassign]
  have hlen := length_evalAll (evalNode eval) (head :: tail) w
  set r := evalAll (evalNode eval) (head :: tail) w
  have hstack : List.replicate (lhsn.length - (tail.length + 1)) (o.machine iseq.localDepth).nil ++
      pushedAll (fun rlen => decide (lhsn.length ≤ rlen)) 0 r.1 stack =
      (mandatoryValues r.1 xs.length).reverse ++ stack := by
    rw [pushedAll_le, mandatoryValues_eq, hlen, hxs.length_eq]
    simp [Objects.machine]
  rw [hstack]
  refine (reaches_sets hsets (by simp [mandatoryValues]) _ _ _ _).trans ?_
  rw [World.storeAll_eq_assigned _ hnodup r.1 (by simp [mandatoryValues]) (by simp) fun p hp => ?_]
  · exact .refl
  · rw [List.zip, ← List.reverse_zipWith (by simp [mandatoryValues])] at hp
    exact List.mem_reverse.mp hp

/-- **The shortcut for multiple assignment agrees with the general code.** For a list of values and
a list of variables with different names, it is taken unless the variables are too many; it and the
general code evaluate the values once each and in order, then give each variable the value in its
place, `nil` if there is none, and leave the stack as it was. -/
theorem compileMassignOpt_agrees (iseq : Iseq)
    (h : Compiles (o.machine iseq.localDepth) eval compile) (node : Masgn E)
    (hrhsn : node.rhsn = .array line head tail) (hsplatn : node.splatn = .none) {vids : List ℕ}
    (hvids : HasVids node.lhsn vids) (hnodup : vids.Nodup) (xs : List Var)
    (hxs : HasVars iseq node.lhsn xs) (no : ℕ) :
    ∃ opt general code,
      compileMassignOpt compile iseq node.lhsLine node.rhsn node.lhsn no = some opt ∧
      node.compileGeneral compile iseq true no = some general ∧
      node.compileMassign compile iseq true no = some code ∧ code = opt.getD general ∧
      (opt.isSome ↔ node.lhsn.length ≤ memsize) ∧
      (∀ c ∈ opt, (o.machine iseq.localDepth).Runs true c.1 (evalMassign eval (head :: tail) xs)) ∧
      (o.machine iseq.localDepth).Runs true general.1 (evalMassign eval (head :: tail) xs) := by
  have hdistinct := nodup_vars hvids hnodup hxs
  obtain ⟨general, hgeneral, hruns⟩ := runs_compileGeneral h hrhsn hsplatn hxs hdistinct no
  by_cases hlen : node.lhsn.length ≤ memsize
  · have hmem : memorize [] node.lhsn = some vids :=
      (memorize_eq_some List.nodup_nil (Nat.zero_le _)).mpr
        ⟨vids, hvids, rfl, hnodup, hvids.length_eq ▸ hlen⟩
    obtain ⟨c, hc, hopt⟩ := runs_compileMassignOpt h hxs hdistinct
      node.lhsLine no hmem
    rw [← hrhsn] at hc
    refine ⟨some c, general, c, hc, hgeneral, ?_, rfl, by simp [hlen], ?_, hruns⟩
    · simp [Masgn.compileMassign, hsplatn, hc]
    · intro c' hc'
      cases hc'
      exact hopt
  · have hmem : memorize [] node.lhsn = none := by
      refine Option.eq_none_iff_forall_ne_some.mpr fun r hr => hlen ?_
      obtain ⟨vids', hvids', rfl, -, hle⟩ :=
        (memorize_eq_some List.nodup_nil (Nat.zero_le _)).mp hr
      exact hvids'.length_eq ▸ hle
    have hopt : compileMassignOpt compile iseq node.lhsLine node.rhsn node.lhsn no = some none := by
      simp [compileMassignOpt, hrhsn, hmem]
    refine ⟨none, general, general, hopt, hgeneral, ?_, rfl, by simp [hlen], by simp, hruns⟩
    simp [Masgn.compileMassign, hsplatn, hopt, hgeneral]

end Run

/-- Objects that leave only the reading of local variables to be described. -/
def readingObjects : Objects Unit where
  rtest
    | .nil | .qfalse => false
    | _ => true
  toA _ := none
  other
    | ⟨.getlocal, _, [.num idx]⟩, stack, w => some (w.vars (.slot 0 idx) :: stack, w)
    | _, _, _ => none

/-- A local variable is read by a `getlocal`. -/
def compileRead (idx : ℤ) (poped : Bool) (no : ℕ) : List (Elem Value) × ℕ :=
  (if poped then [] else [.insn ⟨.getlocal, 1, [.num idx]⟩], no)

theorem compiles_compileRead :
    Compiles (readingObjects.machine 0) (fun idx w => (w.vars (.slot 0 idx), w)) compileRead := by
  intro idx poped no es back front stack w _ _
  cases poped with
  | true => exact .refl
  | false => exact .single rfl

/-- `a, b, @c = b, a`, where `a` and `b` are the two local variables of a method. -/
def swapNode : Masgn ℤ where
  line := 1
  lhsLine := 1
  lhsn := [.lasgn 1 10, .lasgn 1 11, .iasgn 1 12]
  splatn := .none
  rhsn := .array 1 (.other 2) [.other 3]

/-- The shortcut exchanges the variables, and the one without a value becomes `nil`. -/
theorem compileMassignOpt_agrees_swapNode :
    ∃ c, compileMassignOpt compileRead ⟨[⟨[10, 11], 3⟩], 0⟩ 1 swapNode.rhsn swapNode.lhsn 0 =
      some (some c) ∧ c.1.length = 6 ∧
      (readingObjects.machine 0).Runs true c.1 fun w => (.nil, w.assigned
        [.slot 0 3, .slot 0 2, .ivar 12] [w.vars (.slot 0 2), w.vars (.slot 0 3)]) := by
  obtain ⟨opt, general, code, hopt, -, -, -, hsome, hruns, -⟩ := compileMassignOpt_agrees
    ⟨[⟨[10, 11], 3⟩], 0⟩ compiles_compileRead swapNode rfl rfl
    (.cons rfl (.cons rfl (.cons rfl .nil))) (by decide) [.slot 0 3, .slot 0 2, .ivar 12]
    (.cons rfl (.cons rfl (.cons rfl .nil))) 0
  cases opt with
  | none => exact absurd (hsome.mpr (by decide)) (by simp)
  | some c =>
      refine ⟨c, hopt, ?_, hruns c rfl⟩
      cases hopt
      rfl

end MacRuby
