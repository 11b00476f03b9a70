import MacRuby.Compile.Sequence
import MacRuby.Lib.Result

/-!
# The layout resolves every reference

Each element becomes one block of words, so the code is the blocks one after another and the
general facts about such layouts apply. The second pass moves its position by the length of the
block it emits and leaves positions of labels alone, which ties every operand to the positions of
the first pass.

## Main definitions

* `Emits`, `WordOf` — the block of an element and the word of an operand.
* `LaidOut` — the code is a layout of the elements in which every reference is resolved.

## Main results

* `emitElems_spec` — what the second pass emits, from any state.
* `iseqSetSequence_laidOut` — the claim for every list of elements that is laid out.
-/

namespace MacRuby

variable {V : Type*}

/-! ## Blocks and words -/

/-- The words an element takes. -/
def Elem.size : Elem V → ℕ
  | .insn i => insnLen i.insnId
  | .label _ | .none => 0
  | .adjust _ lineNo => if lineNo ≠ -1 then 2 else 0

/-- The information entries an element takes. -/
def Elem.entries : Elem V → ℕ
  | .insn _ => 1
  | .label _ | .none => 0
  | .adjust _ lineNo => if lineNo ≠ -1 then 1 else 0

/-- The block of words an element becomes. -/
inductive Emits : Elem V → List (Word V) → Prop
  | insn (i : Insn V) (ws : List (Word V)) (h : ws.length + 1 = insnLen i.insnId) :
      Emits (.insn i) (.op i.insnId :: ws)
  | label (l : Label) : Emits (.label l) []
  | none : Emits .none []
  | restore (l : Option Label) : Emits (.adjust l (-1)) []
  | drop (l : Option Label) (lineNo n : ℤ) (h : lineNo ≠ -1) (hn : 0 < n) :
      Emits (.adjust l lineNo) [.op .adjuststack, .num n]
  | jump (l : Option Label) (lineNo : ℤ) (h : lineNo ≠ -1) :
      Emits (.adjust l lineNo) [.op .jump, .offset 0]

theorem Emits.length_eq {e : Elem V} {b : List (Word V)} (h : Emits e b) : b.length = e.size := by
  cases h with
  | insn i ws h => simpa [Elem.size] using h
  | label l => rfl
  | none => rfl
  | restore l => simp [Elem.size]
  | drop l lineNo n h hn => simp [Elem.size, h]
  | jump l lineNo h => simp [Elem.size, h]

theorem Emits.entries_eq {e : Elem V} {b : List (Word V)} (h : Emits e b) :
    e.entries = if b = [] then 0 else 1 := by
  cases h with
  | insn i ws h => rfl
  | label l => rfl
  | none => rfl
  | restore l => simp [Elem.entries]
  | drop l lineNo n h hn => simp [Elem.entries, h]
  | jump l lineNo h => simp [Elem.entries, h]

/-- The case dispatch table of `ps` for an instruction that ends at `next`. -/
def dispatchTable (eql : V → V → Bool) (labels : Labels) (next : ℤ) (ps : List (V × Label))
    (map : List (V × ℤ)) : List (V × ℤ) :=
  ps.foldl (fun map p => Assoc.store eql map p.1 ((labels p.2).position - next)) map

/-- The word an operand becomes in an instruction that ends at `next`. -/
inductive WordOf (eql : V → V → Bool) (labels : Labels) (next : ℤ) :
    OpType → Operand V → Word V → Prop
  | offset (l : Label) (h : (labels l).set = true) :
      WordOf eql labels next .offset (.label l) (.offset ((labels l).position - next))
  | cdhash (ps : List (V × Label)) (h : ∀ p ∈ ps, (labels p.2).set = true) :
      WordOf eql labels next .cdhash (.lits ps) (.cdhash (dispatchTable eql labels next ps []))
  | lindex (n : ℤ) : WordOf eql labels next .lindex (.num n) (.num n)
  | dindex (n : ℤ) : WordOf eql labels next .dindex (.num n) (.num n)
  | num (n : ℤ) : WordOf eql labels next .num (.num n) (.num n)
  | iseq (body : Option ℕ) : WordOf eql labels next .iseq (.iseq body) (.iseq body)
  | value (o : Operand V) : WordOf eql labels next .value o (.value o)
  | ic (o : Operand V) : WordOf eql labels next .ic o .ic
  | id (sym : ℕ) : WordOf eql labels next .id (.id sym) (.id sym)
  | gentry (entry : ℕ) : WordOf eql labels next .gentry (.gentry entry) (.gentry entry)

/-- Two states of the labels with the same positions. -/
def Agree (labels labels' : Labels) : Prop :=
  ∀ l, (labels' l).position = (labels l).position ∧ (labels' l).set = (labels l).set

theorem Agree.refl (labels : Labels) : Agree labels labels := fun _ => ⟨rfl, rfl⟩

theorem Agree.trans {a b c : Labels} (h : Agree a b) (h' : Agree b c) : Agree a c := fun l =>
  ⟨(h' l).1.trans (h l).1, (h' l).2.trans (h l).2⟩

theorem Agree.updateSp (labels : Labels) (l : Label) (sp : ℤ) :
    Agree labels (Function.update labels l { labels l with sp := sp }) := by
  intro l'
  by_cases h : l' = l
  · subst h
    simp
  · simp [Function.update_of_ne h]

theorem dispatchTable_congr {eql : V → V → Bool} {labels labels' : Labels} {next : ℤ}
    (h : Agree labels labels') (ps : List (V × Label)) (map : List (V × ℤ)) :
    dispatchTable eql labels' next ps map = dispatchTable eql labels next ps map := by
  simp only [dispatchTable, (h _).1]

theorem WordOf.congr {eql : V → V → Bool} {labels labels' : Labels} {next : ℤ} {t : OpType}
    {o : Operand V} {w : Word V} (h : Agree labels labels') (hw : WordOf eql labels' next t o w) :
    WordOf eql labels next t o w := by
  cases hw with
  | offset l hs =>
      rw [(h l).1]
      exact .offset l ((h l).2 ▸ hs)
  | cdhash ps hs =>
      rw [dispatchTable_congr h]
      exact .cdhash ps fun p hp => (h p.2).2 ▸ hs p hp
  | lindex n => exact .lindex n
  | dindex n => exact .dindex n
  | num n => exact .num n
  | iseq body => exact .iseq body
  | value o => exact .value o
  | ic o => exact .ic o
  | id sym => exact .id sym
  | gentry entry => exact .gentry entry

/-! ## The second pass -/

theorem cdhashTable_spec {eql : V → V → Bool} {labels : Labels} {lineNo next : ℤ}
    {ps : List (V × Label)} {map map' : List (V × ℤ)}
    (h : cdhashTable eql labels lineNo next ps map = .ok map') :
    map' = dispatchTable eql labels next ps map ∧ ∀ p ∈ ps, (labels p.2).set = true := by
  induction ps generalizing map with
  | nil =>
      simp only [cdhashTable, Except.ok.injEq] at h
      exact ⟨h.symm, by simp⟩
  | cons p ps ih =>
      by_cases hs : (labels p.2).set = true
      · rw [cdhashTable, if_pos hs] at h
        obtain ⟨heq, hset⟩ := ih h
        refine ⟨heq, ?_⟩
        rintro q (_ | ⟨_, hq⟩)
        · exact hs
        · exact hset q hq
      · rw [cdhashTable, if_neg hs] at h
        cases h

theorem genOperand_spec {eql : V → V → Bool} {lineNo sp next : ℤ} {labels labels' : Labels}
    {t : OpType} {o : Operand V} {w : Word V}
    (h : genOperand eql lineNo sp next labels t o = .ok (w, labels')) :
    WordOf eql labels next t o w ∧ Agree labels labels' := by
  fun_cases genOperand eql lineNo sp next labels t o with
  | case1 l hs =>
      rw [genOperand, if_pos hs] at h
      cases h
      refine ⟨.offset l hs, ?_⟩
      split
      · exact Agree.updateSp labels l sp
      · exact Agree.refl labels
  | case2 l hs =>
      rw [genOperand, if_neg hs] at h
      cases h
  | case3 ps =>
      rw [genOperand] at h
      obtain ⟨map, hm, h⟩ := Result.bind_eq_ok.mp h
      cases h
      obtain ⟨rfl, hs⟩ := cdhashTable_spec hm
      exact ⟨.cdhash ps hs, Agree.refl labels⟩
  | case4 n => cases h; exact ⟨.lindex n, Agree.refl labels⟩
  | case5 n => cases h; exact ⟨.dindex n, Agree.refl labels⟩
  | case6 n => cases h; exact ⟨.num n, Agree.refl labels⟩
  | case7 body => cases h; exact ⟨.iseq body, Agree.refl labels⟩
  | case8 => cases h; exact ⟨.value o, Agree.refl labels⟩
  | case9 => cases h; exact ⟨.ic o, Agree.refl labels⟩
  | case10 sym => cases h; exact ⟨.id sym, Agree.refl labels⟩
  | case11 entry => cases h; exact ⟨.gentry entry, Agree.refl labels⟩
  | case12 => cases h
  | case13 => simp_all [genOperand]

/-- The operands of an instruction become one word each. -/
theorem genOperands_spec {eql : V → V → Bool} {lineNo sp next : ℤ} {labels labels' : Labels}
    {ts : List OpType} {os : List (Operand V)} {ws : List (Word V)}
    (h : genOperands eql lineNo sp next labels ts os = .ok (ws, labels')) :
    ws.length = ts.length ∧ Agree labels labels' ∧
      ∀ (j : ℕ) (t : OpType), ts[j]? = some t → ∃ o w, os[j]? = some o ∧ ws[j]? = some w ∧
        WordOf eql labels next t o w := by
  induction ts generalizing labels os ws with
  | nil =>
      cases h
      exact ⟨rfl, Agree.refl _, by simp⟩
  | cons t ts ih =>
      cases os with
      | nil => cases h
      | cons o os =>
          rw [genOperands] at h
          obtain ⟨⟨w, labels1⟩, h1, h⟩ := Result.bind_eq_ok.mp h
          obtain ⟨⟨ws1, labels2⟩, h2, h⟩ := Result.bind_eq_ok.mp h
          cases h
          obtain ⟨hw, hag⟩ := genOperand_spec h1
          obtain ⟨hlen, hag', hws⟩ := ih h2
          refine ⟨by simp [hlen], hag.trans hag', ?_⟩
          rintro (_ | j) t' ht
          · simp only [List.getElem?_cons_zero, Option.some.injEq] at ht
            subst ht
            exact ⟨o, w, rfl, rfl, hw⟩
          · obtain ⟨o', w', ho, hw', hword⟩ := hws j t' (by simpa using ht)
            exact ⟨o', w', by simpa using ho, by simpa using hw', hword.congr hag⟩

/-- The block of an element at `pos`, its operands resolved against `labels`. -/
structure EmitsAt (eql : V → V → Bool) (labels : Labels) (pos : ℕ) (e : Elem V)
    (b : List (Word V)) : Prop where
  emits : Emits e b
  words : ∀ i, e = .insn i → ∀ j t, (insnOpTypes i.insnId)[j]? = some t →
    ∃ o w, i.operands[j]? = some o ∧ b[j + 1]? = some w ∧
      WordOf eql labels (pos + insnLen i.insnId) t o w

theorem EmitsAt.congr {eql : V → V → Bool} {labels labels' : Labels} {pos : ℕ} {e : Elem V}
    {b : List (Word V)} (h : Agree labels labels') (he : EmitsAt eql labels' pos e b) :
    EmitsAt eql labels pos e b := by
  refine ⟨he.emits, fun i hi j t ht => ?_⟩
  obtain ⟨o, w, ho, hw, hword⟩ := he.words i hi j t ht
  exact ⟨o, w, ho, hw, hword.congr h⟩

/-- What emitting a block does to the state. -/
structure Emitted (st st' : Emit V) (b : List (Word V)) : Prop where
  iseq_eq : st'.iseq = st.iseq ++ b
  pos_eq : st'.pos = st.pos + b.length
  info_eq : st'.info.map InsnInfo.position =
    st.info.map InsnInfo.position ++ if b = [] then [] else [st.pos]
  agree : Agree st.labels st'.labels

theorem emitInsn_spec {eql : V → V → Bool} {st st' : Emit V} {i : Insn V}
    (h : emitInsn eql st i = .ok st') :
    ∃ b, EmitsAt eql st.labels st.pos (.insn i) b ∧ Emitted st st' b := by
  cases hsp : calcSpDepth st.sp i with
  | none => simp [emitInsn, hsp] at h
  | some sp =>
      by_cases hsize : i.operands.length ≠ insnLen i.insnId - 1
      · simp [emitInsn, hsp, if_pos hsize] at h
      · simp only [emitInsn, hsp, if_neg hsize] at h
        obtain ⟨⟨ws, labels⟩, hops, h⟩ := Result.bind_eq_ok.mp h
        cases h
        obtain ⟨hlen, hag, hws⟩ := genOperands_spec hops
        have hlen' : ws.length + 1 = insnLen i.insnId := by rw [insnLen_eq, hlen]
        refine ⟨.op i.insnId :: ws, ⟨.insn i ws hlen', ?_⟩, ⟨rfl, ?_, by simp, hag⟩⟩
        · rintro i' hi j t ht
          cases hi
          obtain ⟨o, w, ho, hw, hword⟩ := hws j t ht
          exact ⟨o, w, ho, by simpa using hw, hword⟩
        · simp [hlen']

theorem emitAdjust_spec {eql : V → V → Bool} {st st' : Emit V} {l : Option Label} {lineNo : ℤ}
    (h : emitAdjust st l lineNo = .ok st') :
    ∃ b, EmitsAt eql st.labels st.pos (.adjust l lineNo) b ∧ Emitted st st' b := by
  simp only [emitAdjust] at h
  split_ifs at h with hline hdrop hjump
  · cases h
    subst hline
    exact ⟨[], ⟨.restore l, by simp⟩, by simp, by simp, by simp, Agree.refl _⟩
  · cases h
    exact ⟨_, ⟨.drop l lineNo _ hline hdrop, by simp⟩, rfl, rfl, by simp, Agree.refl _⟩
  · cases h
    exact ⟨_, ⟨.jump l lineNo hline, by simp⟩, rfl, rfl, by simp, Agree.refl _⟩

/-- **One element of the second pass emits the element's block.** -/
theorem emitElem_spec {eql : V → V → Bool} {st st' : Emit V} {e : Elem V}
    (h : emitElem eql st e = .ok st') :
    ∃ b, EmitsAt eql st.labels st.pos e b ∧ Emitted st st' b := by
  cases e with
  | insn i => exact emitInsn_spec h
  | adjust l lineNo => exact emitAdjust_spec h
  | none =>
      cases h
      exact ⟨[], ⟨.none, by simp⟩, by simp, by simp, by simp, Agree.refl _⟩
  | label l =>
      cases h
      refine ⟨[], ⟨.label l, by simp⟩, ?_, ?_, ?_, ?_⟩ <;> rw [emitLabel] <;> split <;>
        simp [Agree.updateSp, Agree.refl]

/-- **The second pass emits the elements' blocks one after another.** -/
theorem emitElems_spec {eql : V → V → Bool} {st st' : Emit V} {es : List (Elem V)}
    (h : emitElems eql st es = .ok st') :
    ∃ bs : List (List (Word V)), bs.length = es.length ∧
      st'.iseq = st.iseq ++ bs.flatten ∧ st'.pos = st.pos + bs.flatten.length ∧
      st'.info.map InsnInfo.position =
        st.info.map InsnInfo.position ++ Blocks.starts st.pos bs ∧
      Agree st.labels st'.labels ∧
      ∀ n e, es[n]? = some e → ∃ b, bs[n]? = some b ∧
        EmitsAt eql st.labels (st.pos + Blocks.start bs n) e b := by
  induction es generalizing st with
  | nil =>
      cases h
      exact ⟨[], rfl, by simp, by simp, by simp [Blocks.starts], Agree.refl _, by simp⟩
  | cons e es ih =>
      rw [emitElems] at h
      obtain ⟨st1, h1, h⟩ := Result.bind_eq_ok.mp h
      obtain ⟨b, hb, hst⟩ := emitElem_spec h1
      obtain ⟨bs, hlen, hiseq, hpos, hinfo, hag, hblocks⟩ := ih h
      refine ⟨b :: bs, by simp [hlen], ?_, ?_, ?_, hst.agree.trans hag, ?_⟩
      · simp [hiseq, hst.iseq_eq]
      · simp only [hpos, hst.pos_eq, List.flatten_cons, List.length_append]
        omega
      · rw [hinfo, hst.info_eq, hst.pos_eq]
        cases b <;> simp [Blocks.starts]
      · rintro (_ | n) e' he
        · simp only [List.getElem?_cons_zero, Option.some.injEq] at he
          subst he
          exact ⟨b, rfl, by simpa using hb⟩
        · obtain ⟨b', hb', hat⟩ := hblocks n e' (by simpa using he)
          refine ⟨b', by simpa using hb', ?_⟩
          have haddr : st.pos + Blocks.start (b :: bs) (n + 1) =
              st1.pos + Blocks.start bs n := by
            simp only [Blocks.start, List.take_succ_cons, List.flatten_cons,
              List.length_append, hst.pos_eq]
            omega
          rw [haddr]
          exact hat.congr hst.agree

/-! ## The first pass -/

/-- The words a list of elements takes. -/
def codeSize (es : List (Elem V)) : ℕ := (es.map Elem.size).sum

theorem pos_foldl_countElem (es : List (Elem V)) (c : Count) :
    (es.foldl countElem c).pos = c.pos + codeSize es := by
  induction es generalizing c with
  | nil => rfl
  | cons e es ih =>
      have hstep : (countElem c e).pos = c.pos + e.size := by
        cases e <;> simp only [countElem, Elem.size, Insn.dataLength]
        · rfl
        · split <;> rfl
        · rfl
      rw [List.foldl_cons, ih, hstep, codeSize, codeSize, List.map_cons, List.sum_cons,
        Nat.add_assoc]

theorem k_foldl_countElem (es : List (Elem V)) (c : Count) :
    (es.foldl countElem c).k = c.k + (es.map Elem.entries).sum := by
  induction es generalizing c with
  | nil => rfl
  | cons e es ih =>
      have hstep : (countElem c e).k = c.k + e.entries := by
        cases e <;> simp only [countElem, Elem.entries]
        · rfl
        · split <;> rfl
        · rfl
      rw [List.foldl_cons, ih, hstep, List.map_cons, List.sum_cons, Nat.add_assoc]

theorem labels_countElem_of_ne {e : Elem V} {l : Label} (c : Count) (h : e.label? ≠ some l) :
    (countElem c e).labels l = c.labels l := by
  cases e with
  | insn i => rfl
  | none => rfl
  | adjust l' lineNo =>
      rw [countElem]
      split <;> rfl
  | label l' =>
      simp only [countElem]
      apply Function.update_of_ne
      rintro rfl
      exact h rfl

theorem labels_foldl_countElem {es : List (Elem V)} {l : Label} (c : Count)
    (h : l ∉ labelsOf es) : (es.foldl countElem c).labels l = c.labels l := by
  induction es generalizing c with
  | nil => rfl
  | cons e es ih =>
      rw [List.foldl_cons, ih, labels_countElem_of_ne]
      · intro he
        exact h (List.mem_filterMap.mpr ⟨e, List.mem_cons_self, he⟩)
      · intro hl
        rw [mem_labelsOf] at h hl
        exact h (List.mem_cons_of_mem _ hl)

/-- A label stands at the words of the elements before it. -/
theorem setLabelPosition_label {pre post : List (Elem V)} {l : Label} (labels : Labels)
    (h : (labelsOf (pre ++ .label l :: post)).Nodup) :
    ((setLabelPosition (pre ++ .label l :: post) labels).labels l).position = codeSize pre := by
  have hpost : l ∉ labelsOf post := by
    have hsplit : labelsOf (pre ++ .label l :: post) = labelsOf pre ++ l :: labelsOf post := by
      simp [labelsOf, Elem.label?]
    rw [hsplit, List.nodup_append] at h
    exact (List.nodup_cons.mp h.2.1).1
  rw [setLabelPosition, List.foldl_append, List.foldl_cons, labels_foldl_countElem _ hpost]
  simp only [countElem, Function.update_self, pos_foldl_countElem, Nat.zero_add]

/-- A label that got a position is one of the list. -/
theorem mem_of_set {es : List (Elem V)} {l : Label}
    (h : ((setLabelPosition es newLabels).labels l).set = true) : .label l ∈ es := by
  rw [← mem_labelsOf]
  by_contra hl
  rw [setLabelPosition, labels_foldl_countElem _ hl] at h
  cases h

/-! ## The whole layout -/

/-- The code is a layout of the elements, one block each, in which every reference is resolved:
positions of labels are those of the first instruction emitted after them. -/
structure LaidOut (eql : V → V → Bool) (es : List (Elem V)) (s : Sequence V)
    (bs : List (List (Word V))) : Prop where
  /-- Each element became its block. -/
  emits : List.Forall₂ Emits es bs
  /-- The code is the blocks, and has the words the first pass counted. -/
  iseq_eq : s.iseq = bs.flatten
  iseq_length : s.iseq.length = s.allocIseq
  iseqSize_eq : s.iseqSize = s.allocIseq
  /-- The information table has the entries the first pass counted: the positions of the emitted
  instructions. -/
  info_length : s.insnInfoTable.length = s.allocInfo
  info_positions : s.insnInfoTable.map InsnInfo.position = Blocks.starts 0 bs
  info_increasing : (s.insnInfoTable.map InsnInfo.position).Pairwise (· < ·)
  /-- A label's position is that of the first instruction emitted after it, or the end. -/
  label_position : ∀ m l, es[m]? = some (.label l) → (s.labels l).position = Blocks.next bs m
  /-- Offsets lead to the labels they refer to. -/
  offset : ∀ n i j, es[n]? = some (.insn i) → (insnOpTypes i.insnId)[j]? = some .offset →
    ∃ b l d m, bs[n]? = some b ∧ i.operands[j]? = some (.label l) ∧
      b[j + 1]? = some (.offset d) ∧ es[m]? = some (.label l) ∧
      (Blocks.start bs n : ℤ) + insnLen i.insnId + d = Blocks.next bs m
  /-- So do the entries of case dispatch tables. -/
  dispatch : ∀ n i j, es[n]? = some (.insn i) → (insnOpTypes i.insnId)[j]? = some .cdhash →
    ∃ b ps map, bs[n]? = some b ∧ i.operands[j]? = some (.lits ps) ∧
      b[j + 1]? = some (.cdhash map) ∧
      ∀ p ∈ map, ∃ q ∈ ps, (p.1 = q.1 ∨ eql p.1 q.1 = true) ∧
        ∃ m, es[m]? = some (.label q.2) ∧
          (Blocks.start bs n : ℤ) + insnLen i.insnId + p.2 = Blocks.next bs m

/-- An entry of a dispatch table comes from one of the literals stored. -/
theorem mem_dispatchTable {eql : V → V → Bool} {labels : Labels} {next : ℤ}
    {ps : List (V × Label)} {map : List (V × ℤ)} {p : V × ℤ}
    (h : p ∈ dispatchTable eql labels next ps map) :
    p ∈ map ∨ ∃ q ∈ ps, (p.1 = q.1 ∨ eql p.1 q.1 = true) ∧
      p.2 = (labels q.2).position - next := by
  induction ps generalizing map with
  | nil => exact Or.inl h
  | cons q ps ih =>
      rw [dispatchTable, List.foldl_cons] at h
      rcases ih h with h | ⟨q', hq', h⟩
      · rcases Assoc.mem_store eql h with h | ⟨hv, hk⟩
        · exact Or.inl h
        · exact Or.inr ⟨q, List.mem_cons_self, hk, hv⟩
      · exact Or.inr ⟨q', List.mem_cons_of_mem _ hq', h⟩

/-- The blocks take the words the elements take. -/
theorem length_flatten_of_emits {es : List (Elem V)} {bs : List (List (Word V))}
    (h : List.Forall₂ Emits es bs) : bs.flatten.length = codeSize es := by
  induction h with
  | nil => rfl
  | cons hb _ ih =>
      rw [List.flatten_cons, List.length_append, ih, hb.length_eq, codeSize, codeSize,
        List.map_cons, List.sum_cons]

/-- The blocks that hold something are the entries counted. -/
theorem length_starts_of_emits {es : List (Elem V)} {bs : List (List (Word V))}
    (h : List.Forall₂ Emits es bs) (pos : ℕ) :
    (Blocks.starts pos bs).length = (es.map Elem.entries).sum := by
  induction h generalizing pos with
  | nil => rfl
  | @cons e b es bs hb _ ih =>
      rw [List.map_cons, List.sum_cons, hb.entries_eq]
      cases b with
      | nil => simpa [Blocks.starts] using ih pos
      | cons w ws => simp [Blocks.starts, ih, Nat.add_comm]

/-- A block stands at the words of the elements before its own. -/
theorem start_eq_codeSize {es : List (Elem V)} {bs : List (List (Word V))}
    (h : List.Forall₂ Emits es bs) (m : ℕ) : Blocks.start bs m = codeSize (es.take m) := by
  rw [Blocks.start]
  exact length_flatten_of_emits (List.forall₂_take m h)

/-- A label of the list stands where its block does. -/
theorem position_eq_next {es : List (Elem V)} {bs : List (List (Word V))}
    (hnodup : (labelsOf es).Nodup) (h : List.Forall₂ Emits es bs) {m : ℕ} {l : Label}
    (hl : es[m]? = some (.label l)) :
    ((setLabelPosition es newLabels).labels l).position = Blocks.next bs m := by
  obtain ⟨hm, hget⟩ := List.getElem?_eq_some_iff.mp hl
  have hsplit : es = es.take m ++ .label l :: es.drop (m + 1) := by
    rw [← hget, List.getElem_cons_drop, List.take_append_drop]
  rw [Blocks.next_eq_start, start_eq_codeSize h]
  rw [hsplit] at hnodup
  have hpos := setLabelPosition_label newLabels hnodup
  rw [← hsplit] at hpos
  exact hpos

/-- What `iseq_set_sequence` leaves, with the labels of the first pass. -/
theorem iseqSetSequence_eq_ok {eql : V → V → Bool} {anchor : Anchor V} {s : Sequence V}
    (h : iseqSetSequence eql anchor = .ok s) :
    ∃ bs, List.Forall₂ Emits anchor.elems bs ∧
      s.allocIseq = codeSize anchor.elems ∧
      s.allocInfo = (anchor.elems.map Elem.entries).sum ∧
      s.iseq = bs.flatten ∧ s.iseqSize = bs.flatten.length ∧
      s.insnInfoTable.map InsnInfo.position = Blocks.starts 0 bs ∧
      Agree (setLabelPosition anchor.elems newLabels).labels s.labels ∧
      ∀ n e, anchor.elems[n]? = some e → ∃ b, bs[n]? = some b ∧
        EmitsAt eql (setLabelPosition anchor.elems newLabels).labels (Blocks.start bs n) e b := by
  rw [iseqSetSequence] at h
  obtain ⟨st, hst, h⟩ := Result.bind_eq_ok.mp h
  cases h
  obtain ⟨bs, hlen, hiseq, hpos, hinfo, hag, hblocks⟩ := emitElems_spec hst
  refine ⟨bs, ?_, ?_, ?_, by simpa using hiseq, by simpa using hpos, by simpa using hinfo, hag,
    by simpa using hblocks⟩
  · rw [List.forall₂_iff_get]
    refine ⟨hlen.symm, fun n hn hb => ?_⟩
    obtain ⟨b, hbn, hat⟩ := hblocks n _ (List.getElem?_eq_getElem hn)
    rw [List.getElem?_eq_getElem hb, Option.some.injEq] at hbn
    rw [List.get_eq_getElem, List.get_eq_getElem, hbn]
    exact hat.emits
  · rw [setLabelPosition, pos_foldl_countElem, Nat.zero_add]
  · rw [setLabelPosition, k_foldl_countElem, Nat.zero_add]

/-- **Laying out resolves every reference.** -/
theorem laidOut_of_eq_ok {eql : V → V → Bool} {anchor : Anchor V} {s : Sequence V}
    (h : iseqSetSequence eql anchor = .ok s) : ∃ bs, LaidOut eql anchor.elems s bs := by
  obtain ⟨bs, hemits, hpos, hk, hiseq, hsize, hinfo, hag, hblocks⟩ := iseqSetSequence_eq_ok h
  have hlen := length_flatten_of_emits hemits
  -- a label that is set is one of the list, and its position is that of its block
  have hlabel : ∀ l, ((setLabelPosition anchor.elems newLabels).labels l).set = true →
      ∃ m, anchor.elems[m]? = some (.label l) ∧
        ((setLabelPosition anchor.elems newLabels).labels l).position = Blocks.next bs m := by
    intro l hl
    obtain ⟨m, hm⟩ := List.mem_iff_getElem?.mp (mem_of_set hl)
    exact ⟨m, hm, position_eq_next anchor.nodup hemits hm⟩
  refine ⟨bs, hemits, hiseq, ?_, ?_, ?_, hinfo, ?_, ?_, ?_, ?_⟩
  · rw [hiseq, hlen, hpos]
  · rw [hsize, hlen, hpos]
  · rw [hk, ← length_starts_of_emits hemits 0, ← hinfo, List.length_map]
  · rw [hinfo]
    exact Blocks.starts_pairwise 0 bs
  · intro m l hl
    rw [(hag l).1]
    exact position_eq_next anchor.nodup hemits hl
  · intro n i j hn ht
    obtain ⟨b, hb, hat⟩ := hblocks n _ hn
    obtain ⟨o, w, ho, hw, hword⟩ := hat.words i rfl j _ ht
    cases hword with
    | offset l hl =>
        obtain ⟨m, hm, hposl⟩ := hlabel l hl
        refine ⟨b, l, _, m, hb, ho, hw, hm, ?_⟩
        rw [hposl]
        ring
  · intro n i j hn ht
    obtain ⟨b, hb, hat⟩ := hblocks n _ hn
    obtain ⟨o, w, ho, hw, hword⟩ := hat.words i rfl j _ ht
    cases hword with
    | cdhash ps hl =>
        refine ⟨b, ps, _, hb, ho, hw, fun p hp => ?_⟩
        rcases mem_dispatchTable hp with hp | ⟨q, hq, hk, hv⟩
        · cases hp
        · obtain ⟨m, hm, hposl⟩ := hlabel q.2 (hl q hq)
          refine ⟨q, hq, hk, m, hm, ?_⟩
          rw [hv, hposl]
          ring

/-! ## Reading code back -/

@[simp] theorem codeSize_append (es fs : List (Elem V)) :
    codeSize (es ++ fs) = codeSize es + codeSize fs := by
  simp [codeSize]

@[simp] theorem codeSize_insn (i : Insn V) (es : List (Elem V)) :
    codeSize (.insn i :: es) = insnLen i.insnId + codeSize es := by
  simp [codeSize, Elem.size]

@[simp] theorem codeSize_label (l : Label) (es : List (Elem V)) :
    codeSize (.label l :: es) = codeSize es := by
  simp [codeSize, Elem.size]

@[simp] theorem codeSize_nil : codeSize ([] : List (Elem V)) = 0 := rfl

/-- The positions the first pass gave the labels of a list. -/
def labelPos (anchor : Anchor V) (l : Label) : ℕ :=
  ((setLabelPosition anchor.elems newLabels).labels l).position

theorem labelPos_eq {anchor : Anchor V} {pre post : List (Elem V)} {l : Label}
    (h : anchor.elems = pre ++ .label l :: post) : labelPos anchor l = codeSize pre := by
  have hnodup := anchor.nodup
  rw [h] at hnodup
  rw [labelPos, h]
  exact setLabelPosition_label newLabels hnodup

/-- The words of an instruction of the list stand at the words of the elements before it. -/
theorem fetch_insn {eql : V → V → Bool} {anchor : Anchor V} {s : Sequence V}
    (hs : iseqSetSequence eql anchor = .ok s) {pre post : List (Elem V)} {i : Insn V}
    (h : anchor.elems = pre ++ .insn i :: post) :
    s.iseq[codeSize pre]? = some (.op i.insnId) ∧
      ∀ j t, (insnOpTypes i.insnId)[j]? = some t →
        ∃ o w, i.operands[j]? = some o ∧ s.iseq[codeSize pre + (j + 1)]? = some w ∧
          WordOf eql (setLabelPosition anchor.elems newLabels).labels
            (codeSize pre + insnLen i.insnId) t o w := by
  obtain ⟨bs, hemits, -, -, hiseq, -, -, -, hblocks⟩ := iseqSetSequence_eq_ok hs
  have hpre : Blocks.start bs pre.length = codeSize pre := by
    rw [start_eq_codeSize hemits, h, List.take_left]
  obtain ⟨b, hb, hat⟩ := hblocks pre.length (.insn i) (by rw [h]; simp)
  rw [hpre] at hat
  have hword : ∀ j w, b[j]? = some w → s.iseq[codeSize pre + j]? = some w := by
    intro j w hw
    rw [hiseq, ← hpre, Blocks.getElem?_flatten hb (List.getElem?_eq_some_iff.mp hw).1, hw]
  constructor
  · apply hword 0
    cases hat.emits
    rfl
  · intro j t ht
    obtain ⟨o, w, ho, hw, hof⟩ := hat.words i rfl j t ht
    exact ⟨o, w, ho, hword _ _ hw, hof⟩

/-- The positions of a catch table entry are those of its labels, wherever these stand in the
list. -/
def CatchResolved (es : List (Elem V)) (bs : List (List (Word V))) (a : CatchEntry)
    (c : CatchTableEntry) : Prop :=
  (∀ m, es[m]? = some (.label a.start) → c.start = Blocks.next bs m) ∧
  (∀ m, es[m]? = some (.label a.stop) → c.stop = Blocks.next bs m) ∧
  ∀ l m, a.cont = some l → es[m]? = some (.label l) → c.cont = Blocks.next bs m

/-- A backward jump over a dispatch and a stack adjustment. -/
def loopCode : Anchor ℕ where
  elems := [.label 0, .insn ⟨.putnil, 1, []⟩, .insn ⟨.dup, 1, []⟩,
    .insn ⟨.optCaseDispatch, 1, [.lits [(7, 0), (8, 1)], .label 1]⟩,
    .adjust (some 0) 2, .insn ⟨.jump, 2, [.label 0]⟩, .label 1, .insn ⟨.leave, 3, []⟩]
  nodup := by decide

end MacRuby
