import MacRuby.Marshal.Load

/-!
# What a dump becomes

The objects that are loaded are numbered in the order in which the writer has entered those that
were dumped, so each object goes over to its number. While one side writes and the other reads, the
tables agree: at each number there is an object for an object, and a class for the same class. An
object that has been read is the image of the one that was written; one that is being read has so
far a part of what it will refer to.

## Main definitions

* `Cell.map`, `Cell.children` — objects with their references changed, and what they refer to.
* `numberOf`, `Covered` — where an object goes, and that it has been entered.
* `Agree`, `Done`, `Grows` — the tables of both sides, before and after something is read.
* `Making` — the tables while an object is being read.

## Main results

* `Making.start`, `Making.child`, `Making.modify`, `Making.finish` — how an object comes about.
* `Agree.keyOf_inj` — keys of hashes stay different.
-/

namespace MacRuby.Marshal

variable {κ F : Type} {L : LongSize}

/-! ## Images -/

/-- A value with its reference changed. -/
def Value.map (f : ℕ → ℕ) : Value κ L → Value κ L
  | .object r => .object (f r)
  | v => v

/-- What an object holds, with the references changed. -/
def Body.map (f : ℕ → ℕ) : Body κ F L → Body κ F L
  | .array elems => .array (elems.map (Value.map f))
  | .hash pairs => .hash (pairs.map fun p => (p.1.map f, p.2.map f))
  | .struct values => .struct (values.map (Value.map f))
  | body => body

/-- An object with its references changed. -/
def Cell.map (f : ℕ → ℕ) (cell : Cell κ F L) : Cell κ F L :=
  { cell with
    body := cell.body.map f
    ivars := cell.ivars.map fun iv => (iv.1, iv.2.map f) }

/-- What an object holds refers to. -/
def Body.children : Body κ F L → List (Value κ L)
  | .array elems => elems
  | .hash pairs => pairs.flatMap fun p => [p.1, p.2]
  | .struct values => values
  | _ => []

/-- What an object refers to. -/
def Cell.children (cell : Cell κ F L) : List (Value κ L) :=
  cell.body.children ++ cell.ivars.map Prod.snd

@[simp] theorem Body.key?_map (f : ℕ → ℕ) (body : Body κ F L) : (body.map f).key? = body.key? := by
  cases body <;> rfl

@[simp] theorem Cell.key?_map (f : ℕ → ℕ) (cell : Cell κ F L) :
    (cell.map f).body.key? = cell.body.key? := Body.key?_map f cell.body

@[simp] theorem Body.ty_map (f : ℕ → ℕ) (body : Body κ F L) : (body.map f).ty = body.ty := by
  cases body <;> rfl

theorem Value.map_congr {f g : ℕ → ℕ} {v : Value κ L} (h : ∀ r, v = .object r → f r = g r) :
    v.map f = v.map g := by
  cases v with
  | object r => exact congrArg Value.object (h r rfl)
  | _ => rfl

section Tables

variable [DecidableEq κ] {h : Heap κ F L} {data data' data'' : List (Option (Value κ L))}
  {d d' d'' : List (Entry κ F L)} {v : Value κ L} {r k : ℕ}

/-- The number under which an object was entered. -/
def numberOf (data : List (Option (Value κ L))) (r : ℕ) : ℕ := data.idxOf (some (.object r))

/-- If the value is an object, it has been entered. -/
def Covered (data : List (Option (Value κ L))) (v : Value κ L) : Prop :=
  ∀ r, v = .object r → some (.object r) ∈ data

omit [DecidableEq κ] in
theorem Covered.mono (hv : Covered data v) (hmore : data <+: data') : Covered data' v :=
  fun r hr => hmore.subset (hv r hr)

theorem numberOf_eq (hmore : data <+: data') (hr : some (.object r) ∈ data) :
    numberOf data' r = numberOf data r := by
  obtain ⟨rest, rfl⟩ := hmore
  exact List.idxOf_append_of_mem hr

/-- The image of a value does not change as the table grows. -/
theorem Covered.map_eq (hv : Covered data v) (hmore : data <+: data') :
    v.map (numberOf data') = v.map (numberOf data) :=
  Value.map_congr fun r hr => numberOf_eq hmore (hv r hr)

/-- The image of an object does not change either. -/
theorem Cell.map_eq {cell : Cell κ F L} (hcell : ∀ v ∈ cell.children, Covered data v)
    (hmore : data <+: data') : cell.map (numberOf data') = cell.map (numberOf data) := by
  obtain ⟨klass, body, ivars, extended⟩ := cell
  have hbody : ∀ v ∈ body.children, v.map (numberOf data') = v.map (numberOf data) :=
    fun v hv => (hcell v (List.mem_append_left _ hv)).map_eq hmore
  have hivars : ∀ iv ∈ ivars, iv.2.map (numberOf data') = iv.2.map (numberOf data) :=
    fun iv hiv => (hcell iv.2 (List.mem_append_right _ (List.mem_map_of_mem hiv))).map_eq hmore
  simp only [Cell.map, Cell.mk.injEq, true_and, and_true]
  refine ⟨?_, List.map_congr_left fun iv hiv => by rw [hivars iv hiv]⟩
  cases body with
  | array elems => exact congrArg Body.array (List.map_congr_left hbody)
  | struct values => exact congrArg Body.struct (List.map_congr_left hbody)
  | hash pairs =>
      refine congrArg Body.hash (List.map_congr_left fun p hp => ?_)
      rw [hbody p.1 (List.mem_flatMap.mpr ⟨p, hp, by simp⟩),
        hbody p.2 (List.mem_flatMap.mpr ⟨p, hp, by simp⟩)]
  | _ => rfl

/-! ## The tables of both sides -/

/-- What is entered at a number on both sides. -/
inductive Matches (h : Heap κ F L) : Option (Value κ L) → Entry κ F L → Prop
  | object {r : ℕ} {cell cell' : Cell κ F L} (hr : h r = some cell)
      (hkey : cell'.body.key? = cell.body.key?) : Matches h (some (.object r)) (.object cell')
  | module (c : κ) : Matches h (some (.module c)) (.value (.module c))
  | made (n : Fixnum L) : Matches h none (.value (.fixnum n))

/-- The tables agree. -/
structure Agree (h : Heap κ F L) (data : List (Option (Value κ L))) (d : List (Entry κ F L)) :
    Prop where
  length_eq : data.length = d.length
  matches_at : ∀ {k : ℕ} {o : Option (Value κ L)} {e : Entry κ F L},
    data[k]? = some o → d[k]? = some e → Matches h o e

/-- The object at number `k` is the image of `r`. -/
def Done (h : Heap κ F L) (data : List (Option (Value κ L))) (d : List (Entry κ F L))
    (k r : ℕ) : Prop :=
  ∃ cell, h r = some cell ∧ (∀ v ∈ cell.children, Covered data v) ∧
    d[k]? = some (.object (cell.map (numberOf data)))

/-- Between one state of the tables and another, new objects have been read, and no old one has
changed. -/
structure Grows (h : Heap κ F L) (data : List (Option (Value κ L))) (d : List (Entry κ F L))
    (data' : List (Option (Value κ L))) (d' : List (Entry κ F L)) : Prop where
  more : data <+: data'
  kept : ∀ k < d.length, d'[k]? = d[k]?
  made : ∀ k, d.length ≤ k → ∀ r, data'[k]? = some (some (.object r)) → Done h data' d' k r

/-- The object `r` is being read: it is the last one that was entered when the tables were `data`
and `d`, and it is now the image of `part`. -/
structure Making (h : Heap κ F L) (r : ℕ) (data : List (Option (Value κ L)))
    (d : List (Entry κ F L)) (data' : List (Option (Value κ L))) (d' : List (Entry κ F L))
    (part : Cell κ F L) : Prop where
  agree : Agree h data' d'
  more : data ++ [some (.object r)] <+: data'
  kept : ∀ k < d.length, d'[k]? = d[k]?
  made : ∀ k, d.length < k → ∀ r, data'[k]? = some (some (.object r)) → Done h data' d' k r
  covered : ∀ v ∈ part.children, Covered data' v
  here : d'[d.length]? = some (.object (part.map (numberOf data')))

theorem Done.mono (hdone : Done h data d k r) (hmore : data <+: data') (hk : d'[k]? = d[k]?) :
    Done h data' d' k r := by
  obtain ⟨cell, hr, hcovered, hcell⟩ := hdone
  refine ⟨cell, hr, fun v hv => (hcovered v hv).mono hmore, ?_⟩
  rw [hk, hcell, Cell.map_eq hcovered hmore]

theorem Grows.refl (hagree : Agree h data d) : Grows h data d data d where
  more := List.prefix_rfl
  kept _ _ := rfl
  made k hk r hr := by
    rw [List.getElem?_eq_none (hagree.length_eq ▸ hk)] at hr
    cases hr

theorem Grows.length_le (hg : Grows h data d data' d') (hagree : Agree h data d)
    (hagree' : Agree h data' d') : d.length ≤ d'.length := by
  rw [← hagree.length_eq, ← hagree'.length_eq]
  exact hg.more.length_le

theorem Grows.trans (hagree : Agree h data d) (hagree' : Agree h data' d')
    (hg : Grows h data d data' d') (hg' : Grows h data' d' data'' d'') :
    Grows h data d data'' d'' where
  more := hg.more.trans hg'.more
  kept k hk := by
    rw [hg'.kept k (hk.trans_le (hg.length_le hagree hagree')), hg.kept k hk]
  made k hk r hr := by
    rcases Nat.lt_or_ge k d'.length with hlt | hge
    · rw [← hagree'.length_eq] at hlt
      refine (hg.made k hk r ?_).mono hg'.more (hg'.kept k (hagree'.length_eq ▸ hlt))
      rw [← hr, List.prefix_iff_getElem?.mp hg'.more k hlt, List.getElem?_eq_getElem hlt]
    · exact hg'.made k hge r hr

/-! ## Entering -/

omit [DecidableEq κ] in
theorem Agree.nil : Agree h [] [] where
  length_eq := rfl
  matches_at h := by simp at h

omit [DecidableEq κ] in
/-- Something is entered on both sides. -/
theorem Agree.concat {o : Option (Value κ L)} {e : Entry κ F L} (hagree : Agree h data d)
    (he : Matches h o e) : Agree h (data ++ [o]) (d ++ [e]) where
  length_eq := by simp [hagree.length_eq]
  matches_at {k o' e'} ho' he' := by
    rcases Nat.lt_or_ge k data.length with hlt | hge
    · rw [List.getElem?_append_left hlt] at ho'
      rw [List.getElem?_append_left (hagree.length_eq ▸ hlt)] at he'
      exact hagree.matches_at ho' he'
    · have hk : k = data.length := by
        have := (List.getElem?_eq_some_iff.mp ho').1
        simp at this
        omega
      rw [hk, List.getElem?_concat_length] at ho'
      rw [hk, hagree.length_eq, List.getElem?_concat_length] at he'
      cases ho'
      cases he'
      exact he

omit [DecidableEq κ] in
/-- What is done to an object keeps the tables in agreement, if it stays the same key. -/
theorem Agree.modify {f : Cell κ F L → Cell κ F L} (hagree : Agree h data d)
    (hf : ∀ cell, d[k]? = some (.object cell) → (f cell).body.key? = cell.body.key?) :
    Agree h data (d.modify k (Entry.modify f)) where
  length_eq := by simp [hagree.length_eq]
  matches_at {j o e} hj he := by
    rw [List.getElem?_modify, Option.map_eq_map, Option.map_eq_some_iff] at he
    obtain ⟨e', he', rfl⟩ := he
    have hmatch := hagree.matches_at hj he'
    split
    · subst k
      cases hmatch with
      | object hr hkey => exact .object hr ((hf _ he').trans hkey)
      | module c => exact .module c
      | made n => exact .made n
    · exact hmatch

/-- What is not an object is entered. -/
theorem Grows.concat {o : Option (Value κ L)} {e : Entry κ F L} (hagree : Agree h data d)
    (ho : ∀ r, o ≠ some (.object r)) : Grows h data d (data ++ [o]) (d ++ [e]) where
  more := List.prefix_append _ _
  kept k hk := List.getElem?_append_left hk
  made k hk r hr := by
    rw [← hagree.length_eq] at hk
    rw [List.getElem?_append_right hk, List.getElem?_singleton] at hr
    split at hr
    · exact absurd (Option.some.inj hr) (ho r)
    · cases hr

/-! ## Keys -/

theorem getElem?_numberOf (hr : some (.object r) ∈ data) :
    data[numberOf data r]? = some (some (.object r)) := by
  have hlt := List.idxOf_lt_length_of_mem hr
  rw [numberOf, List.getElem?_eq_getElem hlt, List.getElem_idxOf hlt]

/-- Different values stay different. -/
theorem Covered.map_inj {w : Value κ L} (hv : Covered data v) (hw : Covered data w)
    (heq : v.map (numberOf data) = w.map (numberOf data)) : v = w := by
  cases v with
  | object r =>
      cases w with
      | object r' =>
          have hr := getElem?_numberOf (hv r rfl)
          rw [Value.object.inj heq, getElem?_numberOf (hw r' rfl)] at hr
          exact (Option.some.inj (Option.some.inj hr)).symm
      | _ => cases heq
  | _ => cases w <;> first | exact heq | cases heq

/-- An object that has been entered is the same key on both sides. -/
theorem Agree.heapOf (hagree : Agree h data d) (hr : some (.object r) ∈ data) :
    ∃ cell cell', h r = some cell ∧ Marshal.heapOf d (numberOf data r) = some cell' ∧
      cell'.body.key? = cell.body.key? := by
  have hat := getElem?_numberOf hr
  have hlt : numberOf data r < d.length := hagree.length_eq ▸ List.idxOf_lt_length_of_mem hr
  have hmatch := hagree.matches_at hat (List.getElem?_eq_getElem hlt)
  generalize hd : d[numberOf data r] = e at hmatch
  cases hmatch with
  | object hcell hkey =>
      refine ⟨_, _, hcell, ?_, hkey⟩
      rw [Marshal.heapOf, List.getElem?_eq_getElem hlt, hd]
      rfl

/-- A key with its reference changed. -/
def Key.map (f : ℕ → ℕ) : Key κ L → Key κ L
  | .value v => .value (v.map f)
  | key => key

omit [DecidableEq κ] in
theorem Body.key?_ne_value {body : Body κ F L} {w : Value κ L} :
    body.key? ≠ some (.value w) := by
  cases body <;> simp [Body.key?]

theorem Agree.keyOf_map (hagree : Agree h data d) (hv : Covered data v) :
    keyOf (Marshal.heapOf d) (v.map (numberOf data)) = (keyOf h v).map (numberOf data) := by
  cases v with
  | object r =>
      obtain ⟨cell, cell', hr, hd, hkey⟩ := hagree.heapOf (hv r rfl)
      simp only [Value.map, keyOf, hr, hd, Option.bind_some, hkey]
      cases cell.body <;> rfl
  | _ => rfl

omit [DecidableEq κ] in
/-- The value that is a key has been entered. -/
theorem Covered.of_keyOf {w : Value κ L} (hv : Covered data v) (hkey : keyOf h v = .value w) :
    Covered data w := by
  cases v with
  | object r =>
      simp only [keyOf] at hkey
      cases hk : (h r).bind fun cell => cell.body.key? with
      | none =>
          rw [hk] at hkey
          cases hkey
          exact hv
      | some key =>
          obtain ⟨cell, -, hcell⟩ := Option.bind_eq_some_iff.mp hk
          rw [hk, Option.getD_some] at hkey
          exact absurd (hkey ▸ hcell) Body.key?_ne_value
  | _ =>
      cases hkey
      exact hv

/-- **Keys of hashes stay different.** -/
theorem Agree.keyOf_inj {w : Value κ L} (hagree : Agree h data d) (hv : Covered data v)
    (hw : Covered data w) (heq : keyOf (Marshal.heapOf d) (v.map (numberOf data)) =
      keyOf (Marshal.heapOf d) (w.map (numberOf data))) : keyOf h v = keyOf h w := by
  rw [hagree.keyOf_map hv, hagree.keyOf_map hw] at heq
  cases hkv : keyOf h v with
  | value v' =>
      cases hkw : keyOf h w with
      | value w' =>
          rw [hkv, hkw] at heq
          rw [(hv.of_keyOf hkv).map_inj (hw.of_keyOf hkw) (Key.value.inj heq)]
      | _ =>
          rw [hkv, hkw] at heq
          cases heq
  | _ =>
      cases hkw : keyOf h w <;> rw [hkv, hkw] at heq <;> first | exact heq | cases heq

/-! ## An object that is being read -/

section Making

variable {part part' cell : Cell κ F L}

theorem Making.length_lt (hm : Making h r data d data' d' part) : d.length < d'.length :=
  (List.getElem?_eq_some_iff.mp hm.here).1

/-- The object is at its number. -/
theorem Making.object_at (hm : Making h r data d data' d' part) (hagree : Agree h data d) :
    data'[d.length]? = some (some (.object r)) := by
  have hlt : data.length < (data ++ [some (.object r)] : List (Option (Value κ L))).length := by
    simp
  rw [← hagree.length_eq, List.prefix_iff_getElem?.mp hm.more _ hlt, List.getElem_concat_length rfl]

/-- An object is entered. -/
theorem Making.start (hagree : Agree h data d) (hr : h r = some cell)
    (hkey : part.body.key? = cell.body.key?) (hmap : ∀ f, part.map f = part)
    (hpart : ∀ v ∈ part.children, Covered data v) :
    Making h r data d (data ++ [some (.object r)]) (d ++ [.object part]) part where
  agree := hagree.concat (.object hr hkey)
  more := List.prefix_rfl
  kept k hk := List.getElem?_append_left hk
  made k hk r' hr' := by
    rw [← hagree.length_eq] at hk
    rw [List.getElem?_eq_none (by simpa using hk)] at hr'
    cases hr'
  covered v hv := (hpart v hv).mono (List.prefix_append _ _)
  here := by simp [hmap]

/-- Something that the object refers to is read. -/
theorem Making.child (hm : Making h r data d data' d' part) (hg : Grows h data' d' data'' d'')
    (hagree : Agree h data'' d'') : Making h r data d data'' d'' part where
  agree := hagree
  more := hm.more.trans hg.more
  kept k hk := by rw [hg.kept k (hk.trans hm.length_lt), hm.kept k hk]
  made k hk r' hr' := by
    rcases Nat.lt_or_ge k d'.length with hlt | hge
    · rw [← hm.agree.length_eq] at hlt
      refine (hm.made k hk r' ?_).mono hg.more (hg.kept k (hm.agree.length_eq ▸ hlt))
      rw [← hr', List.prefix_iff_getElem?.mp hg.more k hlt, List.getElem?_eq_getElem hlt]
    · exact hg.made k hge r' hr'
  covered v hv := (hm.covered v hv).mono hg.more
  here := by rw [hg.kept _ hm.length_lt, hm.here, Cell.map_eq hm.covered hg.more]

/-- What has been read is put into the object. -/
theorem Making.modify (hm : Making h r data d data' d' part)
    {f : Cell κ F L → Cell κ F L}
    (hf : f (part.map (numberOf data')) = part'.map (numberOf data'))
    (hkey : part'.body.key? = part.body.key?) (hcovered : ∀ v ∈ part'.children, Covered data' v) :
    Making h r data d data' (d'.modify d.length (Entry.modify f)) part' where
  agree := by
    refine hm.agree.modify fun cell hcell => ?_
    rw [hm.here] at hcell
    cases hcell
    rw [hf, Cell.key?_map, hkey, Cell.key?_map]
  more := hm.more
  kept k hk := by
    rw [List.getElem?_modify_ne _ _ hk.ne', hm.kept k hk]
  made k hk r' hr' := by
    refine (hm.made k hk r' hr').mono List.prefix_rfl ?_
    rw [List.getElem?_modify_ne _ _ hk.ne]
  covered := hcovered
  here := by
    rw [List.getElem?_modify_eq, hm.here]
    exact congrArg (fun c => some (Entry.object c)) hf

/-- The object has been read. -/
theorem Making.finish (hm : Making h r data d data' d' part) (hagree : Agree h data d)
    (hr : h r = some part) : Grows h data d data' d' where
  more := (List.prefix_append _ _).trans hm.more
  kept := hm.kept
  made k hk r' hr' := by
    rcases hk.lt_or_eq with hlt | heq
    · exact hm.made k hlt r' hr'
    · subst heq
      rw [hm.object_at hagree] at hr'
      cases hr'
      exact ⟨part, hr, hm.covered, hm.here⟩

theorem Making.covered_self (hm : Making h r data d data' d' part) :
    Covered data' (.object r) := by
  intro r' hr'
  cases hr'
  exact hm.more.subset (by simp)

theorem Making.numberOf_eq (hm : Making h r data d data' d' part) (hagree : Agree h data d)
    (hnew : some (.object r) ∉ data) : numberOf data' r = d.length := by
  have hmem : some (.object r) ∈ data ++ [some (.object r)] := by simp
  rw [Marshal.numberOf_eq hm.more hmem, numberOf, List.idxOf_append_of_notMem hnew,
    ← hagree.length_eq]
  simp

end Making

end Tables

end MacRuby.Marshal
