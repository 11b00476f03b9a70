import MacRuby.Marshal.Reads

/-!
# Reading objects back

An object is read back from what `w_object` has written of it, if what it refers to is. While the
writer goes through what the object refers to, the reader puts the images of these one by one into
the object, which it has entered before: the loops on both sides go on together, and what has been
put in so far is a part of the object that was written.

What is not written is lost, so objects are taken here that have nothing of it: a regular
expression, a float or a bignum of a class of its own, or an instance variable that is called
`encoding`. A text that is not ASCII may be loaded with blanks behind it, and one with a NUL has
byte data where the dumped one had none, so texts are plain ones here.

## Main definitions

* `Cell.Sound` — an object all of which is written.
* `ReadsBack`, `Makes` — a value is read back, and an object is made.

## Main results

* `makes_each` — a loop that puts one item after the other into an object.
* `makes_cell` — an object is made from what `w_object` has written of it.
-/

namespace MacRuby.Marshal

variable {κ F : Type} {L : LongSize} [DecidableEq κ] (E : Classes κ F) (h : Heap κ F L)

/-! ## Objects all of which is written -/

/-- The names in a value are plain texts. -/
def Value.Plain : Value κ L → Prop
  | .symbol id => id.Plain
  | .module c => (E.path c).Plain
  | _ => True

/-- A class whose name is a plain text. -/
def Named (c : κ) : Prop := E.isModule c = false ∧ (E.path c).Plain

/-- The class of the objects of a type, or a named one that inherits from it. -/
def Inherits (ty : Ty) (c : κ) : Prop :=
  c = E.builtin ty ∨ Named E c ∧ E.inherits c (E.builtin ty) = true

/-- A key that is compared by its bytes or digits, or that is equal only to itself. -/
def Atomic (v : Value κ L) : Prop :=
  ∀ r, v = .object r → ∃ cell, h r = some cell ∧
    (cell.body.ty = .string ∨ cell.body.ty = .bignum ∨ cell.body.ty = .object)

/-- What an object of a class holds is all written, and is accepted again. -/
def Body.Sound (c : κ) : Body κ F L → Prop
  | .string s => Inherits E .string c ∧ PlainText s
  | .regexp s options =>
      c = E.builtin .regexp ∧ PlainText s ∧ E.regNew s options = .ok ()
  | .float d =>
      c = E.builtin .float ∧ (E.floatText d).length < 2 ^ 31 ∧ ¬ HasHigh (E.floatText d) ∧
        E.textFloat (E.floatText d) = d
  | .bignum x => c = E.builtin .bignum ∧ shorts x.digits < 2 ^ 31 ∧ ∃ o : BigObject L, o.big = x
  | .array elems => Inherits E .array c ∧ (elems.length : ℤ) ≤ L.longMax / L.bytes
  | .hash pairs =>
      Inherits E .hash c ∧ (∀ p ∈ pairs, Atomic h p.1) ∧
        pairs.Pairwise fun p q => keyOf h p.1 ≠ keyOf h q.1
  | .struct _ => Named E c ∧ E.alloc c = .ok .struct ∧ ∀ mem ∈ E.members c, mem.Plain
  | .object => Named E c ∧ E.alloc c = .ok .object

/-- An object all of which is written. -/
structure Cell.Sound (cell : Cell κ F L) : Prop where
  body : cell.body.Sound E h cell.klass
  values : ∀ v ∈ cell.children, v.Plain E
  ivars : cell.body.ty = .object ∨ cell.ivars = []
  distinct : (cell.ivars.map Prod.fst).Nodup
  names : ∀ iv ∈ cell.ivars, iv.1.Plain ∧ iv.1 ≠ idEncoding
  extended : cell.extended = []

/-! ## Reading back -/

/-- A value is read back from what was written of it. -/
def ReadsBack (fuel : ℕ) (v : Value κ L) (s : DumpArg κ L) (out : List UInt8)
    (s' : DumpArg κ L) : Prop :=
  ∀ d, Agree h s.data d → ∃ d', Agree h s'.data d' ∧ Grows h s.data d s'.data d' ∧
    Covered s'.data v ∧ ∀ extmod t, rObject0 E fuel extmod ⟨out ++ t, s.symbols, d⟩ =
      .ok (v.map (numberOf s'.data), extmod, ⟨t, s'.symbols, d'⟩)

/-- The object `r`, which the writer has entered at the end of `data`, is made from what was written
of it. -/
def Makes (fuel r : ℕ) (data : List (Option (Value κ L))) (d : List (Entry κ F L))
    (s : DumpArg κ L) (out : List UInt8) (s' : DumpArg κ L) (part : Cell κ F L) : Prop :=
  ∃ d', Making h r data d s'.data d' part ∧
    ∀ extmod t, rObject0 E fuel extmod ⟨out ++ t, s.symbols, d⟩ =
      .ok (.object d.length, extmod, ⟨t, s'.symbols, d'⟩)

variable {E h} {fuel r : ℕ} {data : List (Option (Value κ L))} {d : List (Entry κ F L)}
  {s s' s'' : DumpArg κ L} {out cls : List UInt8}

/-- `r_object0`, of a type that stands before the object itself. -/
theorem rObject0_type {type : Tag} (htype : type ≠ .ivar ∧ type ≠ .extendedR ∧ type ≠ .uclass)
    (extmod : List κ) (src : List UInt8) (symbols : List Ident) :
    rObject0 E (fuel + 1) extmod ⟨type.byte :: src, symbols, d⟩ =
      rType E (toReader (rObject0 E fuel)) fuel type ⟨src, symbols, d⟩ >>= fun p =>
        .ok (p.1, extmod, p.2) := by
  have hread : LoadArg.read rByte (⟨type.byte :: src, symbols, d⟩ : LoadArg κ F L) =
      .ok (type.byte, ⟨src, symbols, d⟩) := LoadArg.read_eq rfl
  rw [rObject0, hread, Result.ok_bind]
  dsimp only
  rw [Tag.ofByte_byte]
  obtain ⟨h0, h1, h2⟩ := htype
  cases type <;> first | rfl | contradiction

/-- `r_object`, of what is read back. -/
theorem ReadsBack.object {v : Value κ L} (hv : ReadsBack E h fuel v s out s')
    (hagree : Agree h s.data d) : ∃ d', Agree h s'.data d' ∧ Grows h s.data d s'.data d' ∧
      Covered s'.data v ∧ ∀ t, toReader (rObject0 E fuel) ⟨out ++ t, s.symbols, d⟩ =
        .ok (v.map (numberOf s'.data), ⟨t, s'.symbols, d'⟩) := by
  obtain ⟨d', hagree', hgrows, hcovered, hread⟩ := hv d hagree
  refine ⟨d', hagree', hgrows, hcovered, fun t => ?_⟩
  rw [toReader, hread, Result.ok_bind]

/-! ## Loops -/

/-- **A loop that puts one item after the other into an object** is gone through by the reader as it
was by the writer, if one turn is. -/
theorem makes_each {α : Type} {w : α → DumpArg κ L → Except Stop (List UInt8 × DumpArg κ L)}
    {rbody : LoadArg κ F L → Except Stop (LoadArg κ F L)} (part : List α → Cell κ F L)
    {xs pre post : List α} {d' : List (Entry κ F L)} (hxs : pre ++ post = xs)
    (hstep : ∀ pre x post s out s' d', pre ++ x :: post = xs → w x s = .ok (out, s') →
      Making h r data d s.data d' (part pre) → ∃ d'', Making h r data d s'.data d''
        (part (pre ++ [x])) ∧ ∀ t, rbody ⟨out ++ t, s.symbols, d'⟩ = .ok ⟨t, s'.symbols, d''⟩)
    (hw : wEach w post s = .ok (out, s')) (hm : Making h r data d s.data d' (part pre)) :
    ∃ d'', Making h r data d s'.data d'' (part xs) ∧
      ∀ t, times rbody post.length ⟨out ++ t, s.symbols, d'⟩ = .ok ⟨t, s'.symbols, d''⟩ := by
  induction post generalizing pre s out d' with
  | nil =>
      cases hw
      rw [← hxs, List.append_nil]
      exact ⟨d', hm, fun t => rfl⟩
  | cons x post ih =>
      obtain ⟨⟨o1, s1⟩, h1, hw⟩ := Result.bind_eq_ok.mp hw
      obtain ⟨⟨o2, s2⟩, h2, hw⟩ := Result.bind_eq_ok.mp hw
      cases hw
      obtain ⟨d1, hm1, hr1⟩ := hstep pre x post s o1 s1 d' hxs h1 hm
      obtain ⟨d2, hm2, hr2⟩ := ih ((List.append_assoc pre [x] post).trans hxs) h2 hm1
      refine ⟨d2, hm2, fun t => ?_⟩
      rw [List.length_cons, times, List.append_assoc, hr1, Result.ok_bind, hr2]

/-! ## Turns of the loops -/

section Turns

variable {w : Value κ L → DumpArg κ L → Except Stop (List UInt8 × DumpArg κ L)} {c : κ}
  {d' : List (Entry κ F L)}

/-- An element of an array is read. -/
theorem rPush_step {pre : List (Value κ L)} {x : Value κ L} (hx : ReadsBack E h fuel x s out s')
    (hm : Making h r data d s.data d' ⟨c, .array pre, [], []⟩) :
    ∃ d'', Making h r data d s'.data d'' ⟨c, .array (pre ++ [x]), [], []⟩ ∧
      ∀ t, rPush (toReader (rObject0 E fuel)) (.object d.length) ⟨out ++ t, s.symbols, d'⟩ =
        .ok ⟨t, s'.symbols, d''⟩ := by
  obtain ⟨d1, hagree1, hgrows, hcovered, hread⟩ := hx.object hm.agree
  have hm1 := hm.child hgrows hagree1
  refine ⟨_, hm1.modify (f := onBody (aryPush (x.map (numberOf s'.data)))) ?_ rfl ?_,
    fun t => ?_⟩
  · simp [Cell.map, Body.map, onBody, aryPush]
  · intro v hv
    simp only [Cell.children, Body.children, List.map_nil, List.append_nil, List.mem_append,
      List.mem_singleton] at hv
    rcases hv with hv | rfl
    · exact hm1.covered v (by simpa [Cell.children, Body.children] using hv)
    · exact hcovered
  · rw [rPush, hread, Result.ok_bind]
    rfl

/-- A pair of a hash is read, whose key is not there yet. -/
theorem rPair_step {pre : List (Value κ L × Value κ L)} {x : Value κ L × Value κ L}
    (hchild : ∀ v s out s', w v s = .ok (out, s') → v.Plain E → ReadsBack E h fuel v s out s')
    (hx : hashEach w x s = .ok (out, s')) (hshort : x.1.Plain E ∧ x.2.Plain E)
    (hnew : ∀ q ∈ pre, keyOf h q.1 ≠ keyOf h x.1)
    (hm : Making h r data d s.data d' ⟨c, .hash pre, [], []⟩) :
    ∃ d'', Making h r data d s'.data d'' ⟨c, .hash (pre ++ [x]), [], []⟩ ∧
      ∀ t, rPair (toReader (rObject0 E fuel)) (.object d.length) ⟨out ++ t, s.symbols, d'⟩ =
        .ok ⟨t, s'.symbols, d''⟩ := by
  obtain ⟨⟨o1, s1⟩, h1, hx⟩ := Result.bind_eq_ok.mp hx
  obtain ⟨⟨o2, s2⟩, h2, hx⟩ := Result.bind_eq_ok.mp hx
  cases hx
  obtain ⟨d1, hagree1, hgrows1, hkey, hread1⟩ := (hchild _ _ _ _ h1 hshort.1).object hm.agree
  obtain ⟨d2, hagree2, hgrows2, hvalue, hread2⟩ := (hchild _ _ _ _ h2 hshort.2).object hagree1
  have hm2 := (hm.child hgrows1 hagree1).child hgrows2 hagree2
  have hcovered : ∀ q ∈ pre, Covered s'.data q.1 ∧ Covered s'.data q.2 := by
    intro q hq
    refine ⟨hm2.covered q.1 ?_, hm2.covered q.2 ?_⟩
    · exact List.mem_append_left _ (List.mem_flatMap.mpr ⟨q, hq, by simp⟩)
    · exact List.mem_append_left _ (List.mem_flatMap.mpr ⟨q, hq, by simp⟩)
  have hkey2 := hkey.mono hgrows2.more
  have habsent : ∀ p ∈ pre.map (fun p => (p.1.map (numberOf s'.data), p.2.map (numberOf s'.data))),
      decide (keyOf (heapOf d2) p.1 = keyOf (heapOf d2) (x.1.map (numberOf s'.data))) = false := by
    intro p hp
    obtain ⟨q, hq, rfl⟩ := List.mem_map.mp hp
    exact decide_eq_false fun heq => hnew q hq (hagree2.keyOf_inj (hcovered q hq).1 hkey2 heq)
  refine ⟨_, hm2.modify (f := onBody (hashAset (heapOf d2) (x.1.map (numberOf s'.data))
    (x.2.map (numberOf s'.data)))) ?_ rfl ?_, fun t => ?_⟩
  · simp only [Cell.map, Body.map, onBody, hashAset, List.map_nil, List.map_append,
      List.map_cons]
    rw [Assoc.store_absent habsent]
  · intro v hv
    simp only [Cell.children, Body.children, List.map_nil, List.append_nil, List.flatMap_append,
      List.mem_append, List.flatMap_singleton, List.mem_cons, List.not_mem_nil, or_false] at hv
    rcases hv with hv | rfl | rfl
    · exact hm2.covered v (List.mem_append_left _ hv)
    · exact hkey2
    · exact hvalue
  · rw [rPair, List.append_assoc, hread1, Result.ok_bind]
    dsimp only
    rw [hread2, Result.ok_bind, ← hkey.map_eq hgrows2.more]
    rfl

/-- An instance variable is read, whose name is not there yet. -/
theorem rIvarEach_step {pre : List (Ident × Value κ L)} {x : Ident × Value κ L}
    (hchild : ∀ v s out s', w v s = .ok (out, s') → v.Plain E → ReadsBack E h fuel v s out s')
    (hx : wObjEach w x s = .ok (out, s')) (hname : x.1.Plain ∧ x.1 ≠ idEncoding)
    (hshort : x.2.Plain E) (hnew : ∀ q ∈ pre, q.1 ≠ x.1)
    (hm : Making h r data d s.data d' ⟨c, .object, pre, []⟩) :
    ∃ d'', Making h r data d s'.data d'' ⟨c, .object, pre ++ [x], []⟩ ∧
      ∀ t, rIvarEach E (toReader (rObject0 E fuel)) (.object d.length) ⟨out ++ t, s.symbols, d'⟩ =
        .ok ⟨t, s'.symbols, d''⟩ := by
  rw [wObjEach, if_neg hname.2] at hx
  obtain ⟨⟨o1, s1⟩, h1, hx⟩ := Result.bind_eq_ok.mp hx
  obtain ⟨⟨o2, s2⟩, h2, hx⟩ := Result.bind_eq_ok.mp hx
  cases hx
  have hread1 := rSymbol_wSymbol E.enc (d := d') h1 hname.1
  rw [← wSymbol_data h1] at hm
  obtain ⟨d2, hagree2, hgrows, hvalue, hread2⟩ := (hchild _ _ _ _ h2 hshort).object hm.agree
  have hm2 := hm.child hgrows hagree2
  have habsent : ∀ p ∈ pre.map (fun iv => (iv.1, iv.2.map (numberOf s'.data))),
      decide (p.1 = x.1) = false := by
    intro p hp
    obtain ⟨q, hq, rfl⟩ := List.mem_map.mp hp
    exact decide_eq_false (hnew q hq)
  refine ⟨_, hm2.modify (f := ivarSet x.1 (x.2.map (numberOf s'.data))) ?_ rfl ?_, fun t => ?_⟩
  · simp only [Cell.map, Body.map, ivarSet, List.map_append, List.map_cons, List.map_nil]
    rw [Assoc.store_absent habsent]
  · intro v hv
    simp only [Cell.children, Body.children, List.nil_append, List.map_append, List.map_cons,
      List.map_nil, List.mem_append, List.mem_singleton] at hv
    rcases hv with hv | rfl
    · exact hm2.covered v hv
    · exact hvalue
  · rw [rIvarEach, List.append_assoc, hread1, Result.ok_bind]
    dsimp only
    rw [hread2, Result.ok_bind]
    rfl

/-- The members of a struct are read. -/
theorem rMembers_wEach {mem : List Ident} {values : List (Value κ L)}
    (hchild : ∀ v s out s', w v s = .ok (out, s') → v.Plain E → ReadsBack E h fuel v s out s')
    (hlen : mem.length = values.length) (hmem : ∀ m ∈ mem, m.Plain)
    (hvalues : ∀ v ∈ values, v.Plain E)
    (hw : wEach (wMember w) (mem.zip values) s = .ok (out, s')) (hagree : Agree h s.data d') :
    ∃ d'', Agree h s'.data d'' ∧ Grows h s.data d' s'.data d'' ∧
      (∀ v ∈ values, Covered s'.data v) ∧
      ∀ t, rMembers E (toReader (rObject0 E fuel)) c mem ⟨out ++ t, s.symbols, d'⟩ =
        .ok (values.map (Value.map (numberOf s'.data)), ⟨t, s'.symbols, d''⟩) := by
  induction mem generalizing values s out d' with
  | nil =>
      cases values with
      | cons v values => cases hlen
      | nil =>
          cases hw
          exact ⟨d', hagree, .refl hagree, by simp, fun t => rfl⟩
  | cons m mem ih =>
      cases values with
      | nil => cases hlen
      | cons v values =>
          rw [List.forall_mem_cons] at hmem hvalues
          obtain ⟨⟨o, s3⟩, hx, hw⟩ := Result.bind_eq_ok.mp hw
          obtain ⟨⟨o3, s4⟩, h3, hw⟩ := Result.bind_eq_ok.mp hw
          cases hw
          obtain ⟨⟨o1, s1⟩, h1, hx⟩ := Result.bind_eq_ok.mp hx
          obtain ⟨⟨o2, s2⟩, h2, hx⟩ := Result.bind_eq_ok.mp hx
          cases hx
          have hread1 := rSymbol_wSymbol E.enc (d := d') h1 hmem.1
          rw [← wSymbol_data h1] at hagree ⊢
          obtain ⟨d2, hagree2, hgrows2, hv, hread2⟩ := (hchild _ _ _ _ h2 hvalues.1).object hagree
          obtain ⟨d3, hagree3, hgrows3, hvs, hread3⟩ :=
            ih (Nat.succ.inj hlen) hmem.2 hvalues.2 h3 hagree2
          refine ⟨d3, hagree3, hgrows2.trans hagree hagree2 hgrows3,
            List.forall_mem_cons.mpr ⟨hv.mono hgrows3.more, hvs⟩, fun t => ?_⟩
          rw [rMembers, List.append_assoc, List.append_assoc, hread1, Result.ok_bind]
          dsimp only
          rw [if_neg (not_not.mpr rfl), hread2, Result.ok_bind]
          dsimp only
          rw [hread3, Result.ok_bind, List.map_cons, ← hv.map_eq hgrows3.more]

end Turns

/-! ## What objects hold -/

section Types

variable {w : Value κ L → DumpArg κ L → Except Stop (List UInt8 × DumpArg κ L)} {cell : Cell κ F L}
  {len : List UInt8}

/-- An object that holds no others is made as soon as it is entered. -/
theorem makes_leaf {type : Tag} {part : Cell κ F L}
    (htype : type ≠ .ivar ∧ type ≠ .extendedR ∧ type ≠ .uclass)
    (hread : ∀ t, rType E (toReader (rObject0 E fuel)) fuel type ⟨out ++ t, s.symbols, d⟩ =
      .ok (rEntry part ⟨t, s.symbols, d⟩))
    (hagree : Agree h data d) (hs : s.data = data ++ [some (.object r)]) (hr : h r = some cell)
    (hkey : part.body.key? = cell.body.key?) (hpart : ∀ f, part.map f = part)
    (hchildren : part.children = []) :
    Makes E h (fuel + 1) r data d s (type.byte :: out) s part := by
  refine ⟨d ++ [.object part], ?_, fun extmod t => ?_⟩
  · rw [hs]
    exact .start hagree hr hkey hpart (by simp [hchildren])
  · rw [List.cons_append, rObject0_type htype, hread, Result.ok_bind]
    rfl

/-- An array is made. -/
theorem makes_array {elems : List (Value κ L)}
    (hchild : ∀ v s out s', w v s = .ok (out, s') → v.Plain E → ReadsBack E h fuel v s out s')
    (hagree : Agree h data d) (hs : s.data = data ++ [some (.object r)]) (hr : h r = some cell)
    (hkey : cell.body.key? = none) (hshort : ∀ v ∈ elems, v.Plain E)
    (hmax : (elems.length : ℤ) ≤ L.longMax / L.bytes)
    (hlen : wCount L elems.length = .ok len) (hout : wEach w elems s = .ok (out, s')) :
    Makes E h (fuel + 1) r data d s (Tag.array.byte :: (len ++ out)) s'
      ⟨E.builtin .array, .array elems, [], []⟩ := by
  have hstart : Making h r data d s.data (d ++ [.object ⟨E.builtin .array, .array [], [], []⟩])
      ⟨E.builtin .array, .array [], [], []⟩ := by
    rw [hs]
    exact .start hagree hr hkey.symm (fun f => rfl) (fun v hv => absurd hv List.not_mem_nil)
  obtain ⟨d', hm, hloop⟩ := makes_each (fun elems => ⟨E.builtin .array, .array elems, [], []⟩)
    (List.nil_append elems) (fun pre x post s out s' d' hxs hx hm =>
      rPush_step (hchild x s out s' hx (hshort x (by simp [← hxs]))) hm) hout hstart
  obtain ⟨x, hx, -, hcount⟩ := rLong_wCount hlen
  refine ⟨d', hm, fun extmod t => ?_⟩
  rw [List.cons_append, rObject0_type (by decide), rType, rArray, List.append_assoc,
    LoadArg.read_eq (hcount _), Result.ok_bind]
  dsimp only
  rw [hx, if_neg (by omega), if_neg (by omega), Int.toNat_natCast]
  dsimp only [rEntry]
  rw [hloop]
  rfl

/-- A hash is made. -/
theorem makes_hash {pairs : List (Value κ L × Value κ L)}
    (hchild : ∀ v s out s', w v s = .ok (out, s') → v.Plain E → ReadsBack E h fuel v s out s')
    (hagree : Agree h data d) (hs : s.data = data ++ [some (.object r)]) (hr : h r = some cell)
    (hkey : cell.body.key? = none) (hshort : ∀ p ∈ pairs, p.1.Plain E ∧ p.2.Plain E)
    (hkeys : pairs.Pairwise fun p q => keyOf h p.1 ≠ keyOf h q.1)
    (hlen : wCount L pairs.length = .ok len) (hout : wEach (hashEach w) pairs s = .ok (out, s')) :
    Makes E h (fuel + 1) r data d s (Tag.hash.byte :: (len ++ out)) s'
      ⟨E.builtin .hash, .hash pairs, [], []⟩ := by
  have hstart : Making h r data d s.data (d ++ [.object ⟨E.builtin .hash, .hash [], [], []⟩])
      ⟨E.builtin .hash, .hash [], [], []⟩ := by
    rw [hs]
    exact .start hagree hr hkey.symm (fun f => rfl) (fun v hv => absurd hv List.not_mem_nil)
  obtain ⟨d', hm, hloop⟩ := makes_each (fun pairs => ⟨E.builtin .hash, .hash pairs, [], []⟩)
    (List.nil_append pairs) (fun pre x post s out s' d' hxs hx hm => by
      rw [← hxs] at hkeys
      exact rPair_step hchild hx (hshort x (by simp [← hxs]))
        (fun q hq => (List.pairwise_append.mp hkeys).2.2 q hq x List.mem_cons_self) hm) hout hstart
  obtain ⟨x, hx, -, hcount⟩ := rLong_wCount hlen
  refine ⟨d', hm, fun extmod t => ?_⟩
  rw [List.cons_append, rObject0_type (by decide), rType, rHash, List.append_assoc,
    LoadArg.read_eq (hcount _), Result.ok_bind]
  dsimp only [rEntry]
  rw [hx, whileLen, if_pos (by omega), Int.toNat_natCast, hloop]
  rfl

/-- A plain object is made. -/
theorem makes_object {c : κ} {ivars : List (Ident × Value κ L)}
    (hchild : ∀ v s out s', w v s = .ok (out, s') → v.Plain E → ReadsBack E h fuel v s out s')
    (hagree : Agree h data d) (hs : s.data = data ++ [some (.object r)]) (hr : h r = some cell)
    (hkey : cell.body.key? = none) (hshort : ∀ iv ∈ ivars, iv.2.Plain E)
    (hdistinct : (ivars.map Prod.fst).Nodup)
    (hnames : ∀ iv ∈ ivars, iv.1.Plain ∧ iv.1 ≠ idEncoding) (hc : Named E c)
    (halloc : E.alloc c = .ok .object) (hcls : wClass E .object c s = .ok (cls, s''))
    (hlen : wCount L ivars.length = .ok len) (hout : wEach (wObjEach w) ivars s'' = .ok (out, s')) :
    Makes E h (fuel + 1) r data d s (cls ++ (len ++ out)) s' ⟨c, .object, ivars, []⟩ := by
  have hdata := wClass_data hcls
  obtain ⟨sym, rfl, hsym⟩ := rClass_wClass (d := d) hcls hc.1 hc.2
  have hstart : Making h r data d s''.data (d ++ [.object ⟨c, .object, [], []⟩])
      ⟨c, .object, [], []⟩ := by
    rw [hdata, hs]
    exact .start hagree hr hkey.symm (fun f => rfl) (fun v hv => absurd hv List.not_mem_nil)
  obtain ⟨d', hm, hloop⟩ := makes_each (fun ivars => ⟨c, .object, ivars, []⟩)
    (List.nil_append ivars) (fun pre x post s out s' d' hxs hx hm => by
      rw [← hxs, List.map_append, List.nodup_append] at hdistinct
      exact rIvarEach_step hchild hx (hnames x (by simp [← hxs])) (hshort x (by simp [← hxs]))
        (fun q hq => hdistinct.2.2 _ (List.mem_map_of_mem hq) _ (by simp)) hm) hout hstart
  obtain ⟨x, hx, -, hcount⟩ := rLong_wCount hlen
  refine ⟨d', hm, fun extmod t => ?_⟩
  have hivar : rIvar E (toReader (rObject0 E fuel)) (.object d.length)
      ⟨len ++ (out ++ t), s''.symbols, d ++ [.object ⟨c, .object, [], []⟩]⟩ =
        .ok ⟨t, s'.symbols, d'⟩ := by
    rw [rIvar, LoadArg.read_eq (hcount _), Result.ok_bind]
    dsimp only
    rw [hx, Int.toNat_natCast]
    split
    · exact hloop t
    · have hnil : ivars.length = 0 := by omega
      rw [← hloop t, hnil, times]
  rw [List.cons_append, List.cons_append, rObject0_type (by decide), rType, rPlain,
    List.append_assoc, List.append_assoc, hsym, Result.ok_bind]
  dsimp only
  rw [halloc, raising, Result.ok_bind, if_neg (not_not.mpr rfl)]
  dsimp only [rEntry]
  rw [hivar]
  rfl

/-- A struct is made. -/
theorem makes_struct {c : κ} {values : List (Value κ L)}
    (hchild : ∀ v s out s', w v s = .ok (out, s') → v.Plain E → ReadsBack E h fuel v s out s')
    (hagree : Agree h data d) (hs : s.data = data ++ [some (.object r)]) (hr : h r = some cell)
    (hkey : cell.body.key? = none) (hshort : ∀ v ∈ values, v.Plain E)
    (hmem : ∀ mem ∈ E.members c, mem.Plain) (hsize : (E.members c).length = values.length)
    (hc : Named E c) (halloc : E.alloc c = .ok .struct)
    (hcls : wClass E .struct c s = .ok (cls, s'')) (hlen : wCount L values.length = .ok len)
    (hout : wEach (wMember w) ((E.members c).zip values) s'' = .ok (out, s')) :
    Makes E h (fuel + 1) r data d s (cls ++ (len ++ out)) s' ⟨c, .struct values, [], []⟩ := by
  have hdata := wClass_data hcls
  obtain ⟨sym, rfl, hsym⟩ := rClass_wClass (d := d) hcls hc.1 hc.2
  let fresh : Cell κ F L := ⟨c, .struct ((E.members c).map fun _ => .nil), [], []⟩
  have hnil : ∀ v ∈ fresh.children, v = .nil := by
    intro v hv
    simp only [fresh, Cell.children, Body.children, List.map_nil, List.append_nil,
      List.mem_map] at hv
    obtain ⟨_, _, rfl⟩ := hv
    rfl
  have hstart : Making h r data d s''.data (d ++ [.object fresh]) fresh := by
    rw [hdata, hs]
    refine .start hagree hr hkey.symm (fun f => ?_) fun v hv => ?_
    · simp [fresh, Cell.map, Body.map, Value.map]
    · rw [hnil v hv]
      intro r hr
      cases hr
  obtain ⟨d1, hagree1, hgrows, hcovered, hread⟩ :=
    rMembers_wEach (c := c) hchild hsize hmem hshort hout hstart.agree
  have hm : Making h r data d s'.data _ ⟨c, .struct values, [], []⟩ :=
    (hstart.child hgrows hagree1).modify (f := onBody fun _ => .struct
      (values.map (Value.map (numberOf s'.data)))) rfl rfl
      (fun v hv => hcovered v (by simpa [Cell.children, Body.children] using hv))
  obtain ⟨x, hx, -, hcount⟩ := rLong_wCount hlen
  refine ⟨_, hm, fun extmod t => ?_⟩
  rw [List.cons_append, List.cons_append, rObject0_type (by decide), rType, rStruct,
    List.append_assoc, List.append_assoc, hsym, Result.ok_bind]
  dsimp only
  rw [LoadArg.read_eq (hcount _), Result.ok_bind]
  dsimp only
  rw [halloc, raising, Result.ok_bind, if_neg (not_not.mpr rfl), hx, hsize,
    if_neg (not_not.mpr rfl)]
  dsimp only [rEntry]
  rw [hread]
  rfl

/-- An object whose class is written before it is made. -/
theorem makes_uclass (part : Cell κ F L) {c : κ} {n : ℕ} (hc : Inherits E part.body.ty c)
    (hpart : part.klass = E.builtin part.body.ty) (hobject : part.body.ty ≠ .object)
    (hcls : wUclass E c (decide (c = E.builtin part.body.ty)) s = .ok (cls, s''))
    (hmakes : ∀ fuel, n ≤ fuel → Makes E h fuel r data d s'' out s' part) (hfuel : n < fuel) :
    Makes E h fuel r data d s (cls ++ out) s' { part with klass := c } := by
  by_cases hpure : c = E.builtin part.body.ty
  · rw [wUclass, decide_eq_true hpure, if_pos rfl] at hcls
    cases hcls
    rw [hpure, ← hpart]
    exact hmakes fuel hfuel.le
  · obtain ⟨⟨hmodule, hshort⟩, hinherits⟩ := hc.resolve_left hpure
    rw [wUclass, decide_eq_false hpure, if_neg Bool.false_ne_true] at hcls
    obtain ⟨sym, rfl, hsym⟩ := rClass_wClass (d := d) hcls hmodule hshort
    obtain ⟨f, rfl⟩ := Nat.exists_eq_add_of_lt hfuel
    obtain ⟨d', hm, hread⟩ := hmakes (n + f) (Nat.le_add_right n f)
    have hm' : Making h r data d s'.data _ { part with klass := c } :=
      hm.modify (f := fun cell => { cell with klass := c }) rfl rfl hm.covered
    refine ⟨_, hm', fun extmod t => ?_⟩
    have hbyte : LoadArg.read rByte (⟨Tag.uclass.byte :: (sym ++ (out ++ t)), s.symbols, d⟩ :
        LoadArg κ F L) = .ok (Tag.uclass.byte, ⟨sym ++ (out ++ t), s.symbols, d⟩) :=
      LoadArg.read_eq rfl
    have hheap : heapOf d' d.length = some (part.map (numberOf s'.data)) := by
      rw [heapOf, hm.here]
      rfl
    have hty : (part.map (numberOf s'.data)).body.ty = part.body.ty := Body.ty_map _ _
    have hinherits' : E.inherits c (part.map (numberOf s'.data)).klass = true := by
      rw [← hpart] at hinherits
      exact hinherits
    rw [List.cons_append, List.cons_append, List.append_assoc, rObject0, hbyte, Result.ok_bind]
    dsimp only
    rw [Tag.ofByte_byte]
    dsimp only
    rw [hsym, Result.ok_bind]
    dsimp only
    rw [hread, Result.ok_bind]
    dsimp only [setUserClass]
    rw [hheap]
    dsimp only
    rw [if_neg (hty ▸ hobject), if_pos hinherits']
    rfl

/-- **An object is made from what `w_object` has written of it.** -/
theorem makes_cell
    (hchild : ∀ f, fuel ≤ f → ∀ v s out s', w v s = .ok (out, s') → v.Plain E →
      ReadsBack E h f v s out s')
    (hagree : Agree h data d) (hs : s.data = data ++ [some (.object r)]) (hr : h r = some cell)
    (hsound : cell.Sound E h) (hw : wCell E w cell s = .ok (out, s')) {f : ℕ} (hf : fuel + 1 < f) :
    Makes E h f r data d s out s' cell := by
  obtain ⟨c, body, ivars, extended⟩ := cell
  obtain ⟨hbody, hvalues, hivars, hdistinct, hnames, hextended⟩ := hsound
  dsimp only at hextended
  subst hextended
  have hplain : ∀ f', fuel + 1 ≤ f' → ∃ k, f' = k + 1 ∧ fuel ≤ k := fun f' hf' =>
    ⟨f' - 1, by omega, by omega⟩
  cases body with
  | string str =>
      obtain rfl : ivars = [] := hivars.resolve_left (by simp [Body.ty])
      obtain ⟨⟨cls, s1⟩, hcls, hw⟩ := Result.bind_eq_ok.mp hw
      obtain ⟨o, ho, hw⟩ := Result.bind_eq_ok.mp hw
      cases hw
      refine makes_uclass ⟨E.builtin .string, .string str, [], []⟩ hbody.1 rfl
        (by simp [Body.ty]) hcls (fun f' hf' => ?_) hf
      obtain ⟨k, rfl, hk⟩ := hplain f' hf'
      refine makes_leaf (by decide) (fun t => ?_) hagree ?_ hr rfl (fun f => rfl) rfl
      · rw [rType, rString, rBytes_wBytes (raising_eq_ok.mp ho) hbody.2.short hbody.2.not_hasHigh,
          Result.ok_bind]
      · rw [wUclass_data hcls, hs]
  | regexp str options =>
      obtain rfl : ivars = [] := hivars.resolve_left (by simp [Body.ty])
      obtain ⟨rfl, htext, hreg⟩ := hbody
      obtain ⟨⟨cls, s1⟩, hcls, hw⟩ := Result.bind_eq_ok.mp hw
      obtain ⟨o, ho, hw⟩ := Result.bind_eq_ok.mp hw
      cases hcls
      cases hw
      obtain ⟨k, rfl, hk⟩ := hplain f hf.le
      refine makes_leaf (by decide) (fun t => ?_) hagree hs hr rfl (fun f => rfl) rfl
      rw [rType, rRegexp, List.append_assoc,
        rBytes_wBytes (raising_eq_ok.mp ho) htext.short htext.not_hasHigh, Result.ok_bind]
      dsimp only
      rw [LoadArg.read_eq (rfl : rByte ([options] ++ t) = .ok (options, t)), Result.ok_bind]
      dsimp only
      rw [hreg, raising, Result.ok_bind]
      rfl
  | float x =>
      obtain rfl : ivars = [] := hivars.resolve_left (by simp [Body.ty])
      obtain ⟨rfl, hshort, hascii, htext⟩ := hbody
      obtain ⟨o, ho, hw⟩ := Result.bind_eq_ok.mp hw
      cases hw
      obtain ⟨k, rfl, hk⟩ := hplain f hf.le
      refine makes_leaf (by decide) (fun t => ?_) hagree hs hr rfl (fun f => rfl) rfl
      rw [rType, rFloat, rBytes_wBytes (raising_eq_ok.mp ho) hshort hascii, Result.ok_bind]
      dsimp only
      rw [htext]
  | bignum x =>
      obtain rfl : ivars = [] := hivars.resolve_left (by simp [Body.ty])
      obtain ⟨rfl, hshorts, big, rfl⟩ := hbody
      obtain ⟨o, ho, hw⟩ := Result.bind_eq_ok.mp hw
      cases hw
      obtain ⟨k, rfl, hk⟩ := hplain f hf.le
      refine makes_leaf (by decide) (fun t => ?_) hagree hs hr rfl (fun f => rfl) rfl
      have hread : rBignum L E.enc (o ++ t) = .ok (.bignum big.big, t) := by
        rw [rBignum_wBignum (raising_eq_ok.mp ho), rBignumData_shortlen big hshorts]
      rw [rType, rBig, LoadArg.read_eq hread, Result.ok_bind]
  | array elems =>
      obtain rfl : ivars = [] := hivars.resolve_left (by simp [Body.ty])
      obtain ⟨⟨cls, s1⟩, hcls, hw⟩ := Result.bind_eq_ok.mp hw
      obtain ⟨len, hlen, hw⟩ := Result.bind_eq_ok.mp hw
      obtain ⟨⟨o, s2⟩, hout, hw⟩ := Result.bind_eq_ok.mp hw
      cases hw
      refine makes_uclass ⟨E.builtin .array, .array elems, [], []⟩ hbody.1 rfl
        (by simp [Body.ty]) hcls (fun f' hf' => ?_) hf
      obtain ⟨k, rfl, hk⟩ := hplain f' hf'
      refine makes_array (hchild k hk) hagree ?_ hr rfl ?_ hbody.2 (raising_eq_ok.mp hlen) hout
      · rw [wUclass_data hcls, hs]
      · intro v hv
        exact hvalues v (by simpa [Cell.children, Body.children] using hv)
  | hash pairs =>
      obtain rfl : ivars = [] := hivars.resolve_left (by simp [Body.ty])
      obtain ⟨⟨cls, s1⟩, hcls, hw⟩ := Result.bind_eq_ok.mp hw
      obtain ⟨len, hlen, hw⟩ := Result.bind_eq_ok.mp hw
      obtain ⟨⟨o, s2⟩, hout, hw⟩ := Result.bind_eq_ok.mp hw
      cases hw
      refine makes_uclass ⟨E.builtin .hash, .hash pairs, [], []⟩ hbody.1 rfl
        (by simp [Body.ty]) hcls (fun f' hf' => ?_) hf
      obtain ⟨k, rfl, hk⟩ := hplain f' hf'
      refine makes_hash (hchild k hk) hagree ?_ hr rfl ?_ hbody.2.2 (raising_eq_ok.mp hlen) hout
      · rw [wUclass_data hcls, hs]
      · intro p hp
        have hmem : ∀ v ∈ [p.1, p.2], v.Plain E := fun v hv =>
          hvalues v (List.mem_append_left _ (List.mem_flatMap.mpr ⟨p, hp, hv⟩))
        exact ⟨hmem p.1 (by simp), hmem p.2 (by simp)⟩
  | struct values =>
      obtain rfl : ivars = [] := hivars.resolve_left (by simp [Body.ty])
      obtain ⟨hnamed, halloc, hmem⟩ := hbody
      obtain ⟨⟨cls, s1⟩, hcls, hw⟩ := Result.bind_eq_ok.mp hw
      obtain ⟨len, hlen, hw⟩ := Result.bind_eq_ok.mp hw
      dsimp only at hw
      split at hw
      · cases hw
      · rename_i hsize
        obtain ⟨⟨o, s2⟩, hout, hw⟩ := Result.bind_eq_ok.mp hw
        cases hw
        obtain ⟨k, rfl, hk⟩ := hplain f hf.le
        refine makes_struct (hchild k hk) hagree hs hr rfl ?_ hmem (not_not.mp hsize) hnamed halloc
          hcls (raising_eq_ok.mp hlen) hout
        intro v hv
        exact hvalues v (by simpa [Cell.children, Body.children] using hv)
  | object =>
      obtain ⟨⟨cls, s1⟩, hcls, hw⟩ := Result.bind_eq_ok.mp hw
      obtain ⟨len, hlen, hw⟩ := Result.bind_eq_ok.mp hw
      obtain ⟨⟨o, s2⟩, hout, hw⟩ := Result.bind_eq_ok.mp hw
      cases hw
      obtain ⟨k, rfl, hk⟩ := hplain f hf.le
      refine makes_object (hchild k hk) hagree hs hr rfl ?_ hdistinct hnames hbody.1 hbody.2 hcls
        (raising_eq_ok.mp hlen) hout
      intro iv hiv
      exact hvalues iv.2 (List.mem_append_right _ (List.mem_map_of_mem hiv))

end Types

end MacRuby.Marshal
