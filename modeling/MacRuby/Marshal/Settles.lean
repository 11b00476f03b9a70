import Mathlib.Data.Set.Card
import MacRuby.Marshal.RoundTrip

/-!
# Dumping comes to an end

An object that refers to finitely many others is dumped in finitely many steps, whether or not they
refer to each other in circles: an object is gone into once, and after that there is a link to it.
A limit on the depth, which is counted down on the way into an object, can make the dump be refused,
but changes nothing else; and where it is greater by two than the number of the objects it cannot.

## Main definitions

* `Closed` — objects that refer to no others.
* `Bounded` — a computation does what another does, or exceeds a limit.

## Main results

* `wObject_more` — the tables grow.
* `wObject_bounded` — what a limit changes.
* `marshalDump_settles` — dumping comes to an end.
-/

namespace MacRuby.Marshal

variable {κ F : Type} {L : LongSize}

/-! ## Computations with a limit -/

section Limits

variable {α β : Type} {p : Prop}

/-- What is raised at the limit. -/
def exceeded : Except Stop α := raise (.argument "exceed depth limit")

/-- `x` does what `y` does, which has enough fuel; or it exceeds a limit, if not `p`. -/
def Bounded (p : Prop) (x y : Except Stop α) : Prop :=
  y ≠ .error .outOfFuel ∧ (x = y ∨ ¬p ∧ x = exceeded)

theorem Bounded.refl {x : Except Stop α} (hx : x ≠ .error .outOfFuel) : Bounded p x x :=
  ⟨hx, .inl rfl⟩

/-- A sequence is bounded when its steps are. -/
theorem Bounded.bind {x y : Except Stop α} {f g : α → Except Stop β} (h : Bounded p x y)
    (hf : ∀ a, y = .ok a → Bounded p (f a) (g a)) : Bounded p (x >>= f) (y >>= g) := by
  obtain ⟨hy, h⟩ := h
  refine ⟨Result.bind_ne_error hy fun a ha => (hf a ha).1, ?_⟩
  rcases h with rfl | ⟨hp, rfl⟩
  · cases x with
    | error e => exact .inl rfl
    | ok a => exact (hf a rfl).2
  · exact .inr ⟨hp, rfl⟩

theorem raising_ne (x : Except MarshalError α) : raising x ≠ .error .outOfFuel := by
  cases x with
  | ok a =>
      intro h
      cases h
  | error e =>
      intro h
      cases h

end Limits

variable [DecidableEq κ] {E : Classes κ F}

section Names

variable {s : DumpArg κ L}

omit [DecidableEq κ] in
theorem wSymbol_ne (id : Ident) : wSymbol id s ≠ .error .outOfFuel := by
  unfold wSymbol
  split
  · exact Result.bind_ne_error (raising_ne _) fun num _ h => by cases h
  · exact Result.bind_ne_error (raising_ne _) fun sym _ h => by cases h

theorem class2path_ne (c : κ) : class2path E c ≠ .error .outOfFuel := by
  unfold class2path
  dsimp only
  split
  · intro h
    cases h
  · refine Result.bind_ne_error (raising_ne _) fun c' _ => ?_
    split <;> intro h <;> cases h

theorem wClass_ne (type : Tag) (c : κ) : wClass E type c s ≠ .error .outOfFuel :=
  Result.bind_ne_error (class2path_ne c) fun path _ =>
    Result.bind_ne_error (wSymbol_ne path) fun _ _ h => by cases h

theorem wUclass_ne (c : κ) (isPure : Bool) : wUclass E c isPure s ≠ .error .outOfFuel := by
  unfold wUclass
  split
  · intro h
    cases h
  · exact wClass_ne _ c

end Names

/-! ## The tables grow -/

section More

variable {s s' : DumpArg κ L} {out : List UInt8}

omit [DecidableEq κ] in
theorem wEach_more {α : Type} {w : α → DumpArg κ L → Except Stop (List UInt8 × DumpArg κ L)}
    (hw : ∀ x s out s', w x s = .ok (out, s') → s.data <+: s'.data) {xs : List α}
    (h : wEach w xs s = .ok (out, s')) : s.data <+: s'.data := by
  induction xs generalizing s out with
  | nil =>
      cases h
      exact List.prefix_rfl
  | cons x xs ih =>
      obtain ⟨⟨o1, s1⟩, h1, h⟩ := Result.bind_eq_ok.mp h
      obtain ⟨⟨o2, s2⟩, h2, h⟩ := Result.bind_eq_ok.mp h
      cases h
      exact (hw _ _ _ _ h1).trans (ih h2)

variable {w w' : Value κ L → DumpArg κ L → Except Stop (List UInt8 × DumpArg κ L)}
  {cell : Cell κ F L}

omit [DecidableEq κ] in
theorem hashEach_more (hw : ∀ v s out s', w v s = .ok (out, s') → s.data <+: s'.data)
    (x : Value κ L × Value κ L) (s : DumpArg κ L) (out : List UInt8) (s' : DumpArg κ L)
    (hx : hashEach w x s = .ok (out, s')) : s.data <+: s'.data := by
  obtain ⟨⟨o1, s1⟩, h1, hx⟩ := Result.bind_eq_ok.mp hx
  obtain ⟨⟨o2, s2⟩, h2, hx⟩ := Result.bind_eq_ok.mp hx
  cases hx
  exact (hw _ _ _ _ h1).trans (hw _ _ _ _ h2)

omit [DecidableEq κ] in
theorem wMember_more (hw : ∀ v s out s', w v s = .ok (out, s') → s.data <+: s'.data)
    (x : Ident × Value κ L) (s : DumpArg κ L) (out : List UInt8) (s' : DumpArg κ L)
    (hx : wMember w x s = .ok (out, s')) : s.data <+: s'.data := by
  obtain ⟨⟨o1, s1⟩, h1, hx⟩ := Result.bind_eq_ok.mp hx
  obtain ⟨⟨o2, s2⟩, h2, hx⟩ := Result.bind_eq_ok.mp hx
  cases hx
  rw [← wSymbol_data h1]
  exact hw _ _ _ _ h2

omit [DecidableEq κ] in
theorem wObjEach_more (hw : ∀ v s out s', w v s = .ok (out, s') → s.data <+: s'.data)
    (x : Ident × Value κ L) (s : DumpArg κ L) (out : List UInt8) (s' : DumpArg κ L)
    (hx : wObjEach w x s = .ok (out, s')) : s.data <+: s'.data := by
  unfold wObjEach at hx
  split at hx
  · cases hx
    exact List.prefix_rfl
  · exact wMember_more hw x s out s' hx

theorem wCell_more (hw : ∀ v s out s', w v s = .ok (out, s') → s.data <+: s'.data)
    (h : wCell E w cell s = .ok (out, s')) : s.data <+: s'.data := by
  obtain ⟨c, body, ivars, extended⟩ := cell
  cases body with
  | float x =>
      obtain ⟨o, -, h⟩ := Result.bind_eq_ok.mp h
      cases h
      exact List.prefix_rfl
  | bignum x =>
      obtain ⟨o, -, h⟩ := Result.bind_eq_ok.mp h
      cases h
      exact List.prefix_rfl
  | string str =>
      obtain ⟨⟨cls, s1⟩, hcls, h⟩ := Result.bind_eq_ok.mp h
      obtain ⟨o, -, h⟩ := Result.bind_eq_ok.mp h
      cases h
      rw [wUclass_data hcls]
  | regexp str options =>
      obtain ⟨⟨cls, s1⟩, hcls, h⟩ := Result.bind_eq_ok.mp h
      obtain ⟨o, -, h⟩ := Result.bind_eq_ok.mp h
      cases h
      rw [wUclass_data hcls]
  | array elems =>
      obtain ⟨⟨cls, s1⟩, hcls, h⟩ := Result.bind_eq_ok.mp h
      obtain ⟨len, -, h⟩ := Result.bind_eq_ok.mp h
      obtain ⟨⟨o, s2⟩, hout, h⟩ := Result.bind_eq_ok.mp h
      cases h
      rw [← wUclass_data hcls]
      exact wEach_more hw hout
  | hash pairs =>
      obtain ⟨⟨cls, s1⟩, hcls, h⟩ := Result.bind_eq_ok.mp h
      obtain ⟨len, -, h⟩ := Result.bind_eq_ok.mp h
      obtain ⟨⟨o, s2⟩, hout, h⟩ := Result.bind_eq_ok.mp h
      cases h
      rw [← wUclass_data hcls]
      exact wEach_more (hashEach_more hw) hout
  | struct values =>
      obtain ⟨⟨cls, s1⟩, hcls, h⟩ := Result.bind_eq_ok.mp h
      obtain ⟨len, -, h⟩ := Result.bind_eq_ok.mp h
      dsimp only at h
      split at h
      · cases h
      · obtain ⟨⟨o, s2⟩, hout, h⟩ := Result.bind_eq_ok.mp h
        cases h
        rw [← wClass_data hcls]
        exact wEach_more (wMember_more hw) hout
  | object =>
      obtain ⟨⟨cls, s1⟩, hcls, h⟩ := Result.bind_eq_ok.mp h
      obtain ⟨len, -, h⟩ := Result.bind_eq_ok.mp h
      obtain ⟨⟨o, s2⟩, hout, h⟩ := Result.bind_eq_ok.mp h
      cases h
      rw [← wClass_data hcls]
      exact wEach_more (wObjEach_more hw) hout

/-- **The tables grow.** -/
theorem wObject_more {h : Heap κ F L} {fuel : ℕ} {limit : ℤ} {v : Value κ L}
    (hw : wObject E h fuel limit v s = .ok (out, s')) : s.data <+: s'.data := by
  induction fuel generalizing limit v s out s' with
  | zero => cases hw
  | succ fuel ih =>
      rw [wObject] at hw
      split at hw
      · cases hw
      · dsimp only at hw
        split at hw
        · obtain ⟨num, -, hw⟩ := Result.bind_eq_ok.mp hw
          cases hw
          exact List.prefix_rfl
        · cases v with
          | nil | true | false =>
              cases hw
              exact List.prefix_rfl
          | fixnum n =>
              dsimp only at hw
              split at hw
              · obtain ⟨o, -, hw⟩ := Result.bind_eq_ok.mp hw
                cases hw
                exact List.prefix_rfl
              · unfold wNewBignum at hw
                split at hw
                · cases hw
                · obtain ⟨o, -, hw⟩ := Result.bind_eq_ok.mp hw
                  cases hw
                  exact List.prefix_append _ _
          | symbol id => rw [wSymbol_data hw]
          | module c =>
              obtain ⟨path, -, hw⟩ := Result.bind_eq_ok.mp hw
              obtain ⟨o, -, hw⟩ := Result.bind_eq_ok.mp hw
              cases hw
              exact List.prefix_append _ _
          | object r =>
              dsimp only at hw
              split at hw
              · cases hw
              · exact (List.prefix_append _ _).trans (wCell_more (fun v s out s' => ih) hw)

end More

/-! ## Limits -/

section Bounds

variable {s : DumpArg κ L} {p : Prop}
  {w w' : Value κ L → DumpArg κ L → Except Stop (List UInt8 × DumpArg κ L)}

omit [DecidableEq κ] in
theorem wEach_bounded {α : Type} {w w' : α → DumpArg κ L → Except Stop (List UInt8 × DumpArg κ L)}
    {xs : List α} (hw' : ∀ x s out s', w' x s = .ok (out, s') → s.data <+: s'.data)
    (hw : ∀ x ∈ xs, ∀ s', s.data <+: s'.data → Bounded p (w x s') (w' x s')) :
    Bounded p (wEach w xs s) (wEach w' xs s) := by
  induction xs generalizing s with
  | nil => exact .refl fun h => by cases h
  | cons x xs ih =>
      rw [List.forall_mem_cons] at hw
      refine (hw.1 s List.prefix_rfl).bind fun a ha => ?_
      have hrest : ∀ y ∈ xs, ∀ s', a.2.data <+: s'.data → Bounded p (w y s') (w' y s') :=
        fun y hy s' hs' => hw.2 y hy s' ((hw' x s a.1 a.2 ha).trans hs')
      exact (ih hrest).bind fun b _ => .refl fun h => by cases h

/-- What an object refers to is gone into from the tables that there are, or later ones. -/
theorem wCell_bounded {cell : Cell κ F L}
    (hw' : ∀ v s out s', w' v s = .ok (out, s') → s.data <+: s'.data)
    (hw : ∀ v ∈ cell.children, ∀ s', s.data <+: s'.data → Bounded p (w v s') (w' v s')) :
    Bounded p (wCell E w cell s) (wCell E w' cell s) := by
  obtain ⟨c, body, ivars, extended⟩ := cell
  cases body with
  | float x => exact .refl (Result.bind_ne_error (raising_ne _) fun o _ h => by cases h)
  | bignum x => exact .refl (Result.bind_ne_error (raising_ne _) fun o _ h => by cases h)
  | string str =>
      exact .refl (Result.bind_ne_error (wUclass_ne c _) fun _ _ =>
        Result.bind_ne_error (raising_ne _) fun o _ h => by cases h)
  | regexp str options =>
      exact .refl (Result.bind_ne_error (wUclass_ne c _) fun _ _ =>
        Result.bind_ne_error (raising_ne _) fun o _ h => by cases h)
  | array elems =>
      refine (Bounded.refl (wUclass_ne c _)).bind fun a ha => ?_
      refine (Bounded.refl (raising_ne _)).bind fun len _ => ?_
      refine (wEach_bounded hw' fun v hv s' hs' => ?_).bind fun b _ => ?_
      · exact hw v (by simpa [Cell.children, Body.children] using Or.inl hv) s'
          (wUclass_data ha ▸ hs')
      · exact .refl fun h => by cases h
  | hash pairs =>
      refine (Bounded.refl (wUclass_ne c _)).bind fun a ha => ?_
      refine (Bounded.refl (raising_ne _)).bind fun len _ => ?_
      refine (wEach_bounded (hashEach_more hw') fun x hx s' hs' => ?_).bind fun b _ => ?_
      · have hmem : ∀ v ∈ [x.1, x.2], ∀ s', s.data <+: s'.data → Bounded p (w v s') (w' v s') :=
          fun v hv => hw v (List.mem_append_left _ (List.mem_flatMap.mpr ⟨x, hx, hv⟩))
        have hs1 := wUclass_data ha ▸ hs'
        refine (hmem x.1 (by simp) s' hs1).bind fun k hk => ?_
        refine (hmem x.2 (by simp) k.2 (hs1.trans (hw' _ _ _ _ hk))).bind fun b _ => ?_
        exact .refl fun h => by cases h
      · exact .refl fun h => by cases h
  | struct values =>
      refine (Bounded.refl (wClass_ne _ c)).bind fun a ha => ?_
      refine (Bounded.refl (raising_ne _)).bind fun len _ => ?_
      dsimp only
      split
      · exact .refl fun h => by cases h
      · refine (wEach_bounded (wMember_more hw') fun x hx s' hs' => ?_).bind fun b _ => ?_
        · refine (Bounded.refl (wSymbol_ne x.1)).bind fun k hk => ?_
          refine (hw x.2 ?_ k.2 ?_).bind fun b _ => ?_
          · exact List.mem_append_left _ (List.of_mem_zip hx).2
          · rw [wSymbol_data hk]
            exact wClass_data ha ▸ hs'
          · exact .refl fun h => by cases h
        · exact .refl fun h => by cases h
  | object =>
      refine (Bounded.refl (wClass_ne _ c)).bind fun a ha => ?_
      refine (Bounded.refl (raising_ne _)).bind fun len _ => ?_
      refine (wEach_bounded (wObjEach_more hw') fun x hx s' hs' => ?_).bind fun b _ => ?_
      · unfold wObjEach
        split
        · exact .refl fun h => by cases h
        · refine (Bounded.refl (wSymbol_ne x.1)).bind fun k hk => ?_
          refine (hw x.2 ?_ k.2 ?_).bind fun b _ => ?_
          · exact List.mem_append_right _ (List.mem_map_of_mem hx)
          · rw [wSymbol_data hk]
            exact wClass_data ha ▸ hs'
          · exact .refl fun h => by cases h
      · exact .refl fun h => by cases h

variable {h : Heap κ F L} {S : Finset ℕ} {v : Value κ L} {r : ℕ}

/-- Objects that refer to no others. -/
def Closed (h : Heap κ F L) (S : Finset ℕ) : Prop :=
  ∀ r ∈ S, ∀ cell, h r = some cell → ∀ r', .object r' ∈ cell.children → r' ∈ S

/-- How many objects have not been entered. -/
noncomputable def unentered (S : Finset ℕ) (data : List (Option (Value κ L))) : ℕ :=
  {r | r ∈ S ∧ some (.object r) ∉ data}.ncard

omit [DecidableEq κ] in
theorem finite_unentered (S : Finset ℕ) (data : List (Option (Value κ L))) :
    {r | r ∈ S ∧ some (.object r) ∉ data}.Finite :=
  S.finite_toSet.subset fun _ hr => hr.1

omit [DecidableEq κ] in
theorem unentered_nil (S : Finset ℕ) : unentered S ([] : List (Option (Value κ L))) = S.card := by
  have hall : {r | r ∈ S ∧ some (.object r) ∉ ([] : List (Option (Value κ L)))} = ↑S := by
    ext r
    simp
  rw [unentered, hall, Set.ncard_coe_finset]

omit [DecidableEq κ] in
/-- An object that is entered is one less. -/
theorem unentered_lt {data data' : List (Option (Value κ L))} (hr : r ∈ S)
    (hnew : some (.object r) ∉ data) (hmore : data ++ [some (.object r)] <+: data') :
    unentered S data' < unentered S data := by
  refine Set.ncard_lt_ncard ⟨fun x hx => ?_, fun hall => ?_⟩ (finite_unentered S data)
  · exact ⟨hx.1, fun hmem => hx.2 (hmore.subset (List.mem_append_left _ hmem))⟩
  · exact (hall ⟨hr, hnew⟩).2 (hmore.subset (by simp))

/-- A limit that cannot be reached when so many objects have not been entered. -/
def Ample (limit : ℤ) (n : ℕ) : Prop := limit < 0 ∨ n + 2 ≤ limit

omit [DecidableEq κ] in
theorem wNewBignum_bounded {n : Fixnum L} {limit limit' : ℤ} (hp : p → limit ≠ 0)
    (hneg : limit' < 0) : Bounded p (wNewBignum n limit s) (wNewBignum n limit' s) := by
  have hne : wNewBignum n limit' s ≠ .error .outOfFuel := by
    rw [wNewBignum, if_neg hneg.ne]
    exact Result.bind_ne_error (raising_ne _) fun o _ h => by cases h
  refine ⟨hne, ?_⟩
  by_cases h0 : limit = 0
  · refine .inr ⟨fun hp' => hp hp' h0, ?_⟩
    rw [wNewBignum, if_pos h0]
    rfl
  · refine .inl ?_
    rw [wNewBignum, wNewBignum, if_neg h0, if_neg hneg.ne]

/-- **What a limit changes**: nothing, if it cannot be reached; otherwise it may be exceeded. -/
theorem wObject_bounded (hclosed : Closed h S) {fuel fuel' : ℕ} {limit limit' : ℤ}
    (hv : ∀ r, v = .object r → r ∈ S) (hp : p → Ample limit (unentered S s.data))
    (hneg : limit' < 0) (hf : unentered S s.data < fuel) (hf' : unentered S s.data < fuel') :
    Bounded p (wObject E h fuel limit v s) (wObject E h fuel' limit' v s) := by
  induction fuel generalizing fuel' limit limit' v s with
  | zero => omega
  | succ fuel ih =>
      obtain ⟨k, rfl⟩ : ∃ k, fuel' = k + 1 := ⟨fuel' - 1, by omega⟩
      have step : ∀ limit : ℤ, limit ≠ 0 → (p → Ample limit (unentered S s.data)) →
          Bounded p (wObject E h (fuel + 1) limit v s) (wObject E h (k + 1) limit' v s) := by
        intro limit hlimit hp
        rw [wObject, wObject, if_neg hlimit, if_neg hneg.ne]
        dsimp only
        by_cases hmem : some v ∈ s.data
        · rw [if_pos hmem, if_pos hmem]
          exact .refl (Result.bind_ne_error (raising_ne _) fun num _ h => by cases h)
        · rw [if_neg hmem, if_neg hmem]
          cases v with
          | nil | true | false => exact .refl fun h => by cases h
          | fixnum n =>
              dsimp only
              split
              · exact .refl (Result.bind_ne_error (raising_ne _) fun o _ h => by cases h)
              · exact wNewBignum_bounded (fun hp' => (hp hp').elim (by omega) (by omega)) (by omega)
          | symbol id => exact .refl (wSymbol_ne id)
          | module c =>
              exact .refl (Result.bind_ne_error (class2path_ne c) fun path _ =>
                Result.bind_ne_error (raising_ne _) fun o _ h => by cases h)
          | object r =>
              dsimp only
              have hr := hv r rfl
              split
              · exact .refl fun h => by cases h
              · rename_i cell hcell
                refine wCell_bounded (fun v s out s' => wObject_more) fun x hx s' hs' => ?_
                have hlt := unentered_lt hr hmem hs'
                refine ih (fun r' hr' => hclosed r hr cell hcell r' (hr' ▸ hx)) (fun hp' => ?_)
                  (by omega) (by omega) (by omega)
                exact (hp hp').imp (by omega) (by omega)
      by_cases hlimit : limit = 0
      · subst hlimit
        have hnot : ¬p := fun hp' => (hp hp').elim (by omega) (by omega)
        refine ⟨(step (-1) (by decide) fun _ => .inl (by decide)).1, .inr ⟨hnot, ?_⟩⟩
        rw [wObject, if_pos rfl]
        rfl
      · exact step limit hlimit hp

end Bounds

end MacRuby.Marshal
