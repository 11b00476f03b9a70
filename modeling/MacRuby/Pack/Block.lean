import MacRuby.Pack.Unpack

/-!
# `String#unpack` with a block

The block gets what the array would get, unless a count is larger than the string allows, where
the missing elements are appended to an array that is not there, or digits are extracted, which
the block sees before they are written.

## Main definitions

* `FormsAgree` — the form with a block does what the form without one returns.
* `TurnPads`, `TurnDigits` — the turns that make a difference.

## Main results

* `pushNil_mem_iff`, `pushBlank_mem_iff` — which turns hand over which outputs.
* `formsAgree_iff` — the forms agree exactly in the runs without such turns.
-/

namespace MacRuby.Pack

variable {L : LongSize} {d : ByteString L} {s : ℤ}

/-- The form with a block yields what the form without one returns, in the same order and not only
after the calls, and raises exactly when that does. -/
def FormsAgree (d : ByteString L) (fmt : List UInt8) : Prop :=
  (∀ vs, packUnpack d fmt = .ok vs →
    packUnpackBlock d fmt = ⟨vs.map fun v => ⟨v, v⟩, .returned⟩) ∧
    ((∃ e, packUnpack d fmt = .error e) ↔ ∃ e, (packUnpackBlock d fmt).ending = .raised e)

/-! ## The outputs of a directive -/

/-- All elements are handed over by `UNPACK_PUSH`, and finished. -/
def Effect.Pushes (e : Effect L) : Prop := ∀ o ∈ e.outputs, ∃ v, o = .push v

theorem Effect.pushes_raise (e : UnpackError) : (Effect.raise (L := L) e).Pushes := nofun

theorem Effect.pushes_done (s : ℤ) : (Effect.done (L := L) s).Pushes := nofun

theorem Effect.pushes_single (v : Value L) (r : Except UnpackError ℤ) :
    (⟨[.push v], r⟩ : Effect L).Pushes := by
  intro o ho
  exact ⟨v, List.mem_singleton.mp ho⟩

theorem Effect.Pushes.cons {e : Effect L} (h : e.Pushes) (v : Value L) :
    (e.cons (.push v)).Pushes := by
  intro o ho
  rcases List.mem_cons.mp ho with rfl | ho
  · exact ⟨v, rfl⟩
  · exact h o ho

theorem strNew_pushes {len : ℤ} {k : ℕ → Effect L} (h : ∀ n, (k n).Pushes) :
    (strNew len k).Pushes := by
  rw [strNew]
  split_ifs
  · exact Effect.pushes_raise _
  · exact h _

theorem utf8Loop_pushes (n : ℕ) (s : ℤ) : (utf8Loop d n s).Pushes := by
  induction n generalizing s with
  | zero => exact Effect.pushes_done s
  | succ n ih =>
      rw [utf8Loop]
      split_ifs
      · split
        · exact Effect.pushes_raise _
        · exact (ih _).cons _
      · exact Effect.pushes_done s

theorem unpackPointer_pushes {e : Effect L} (h : e.Pushes) : (unpackPointer d s e).Pushes := by
  rw [unpackPointer]
  split_ifs
  · exact Effect.pushes_raise _
  · exact h.cons _

theorem pointerLoop_pushes (n : ℕ) (s : ℤ) : (pointerLoop d n s).Pushes := by
  induction n generalizing s with
  | zero => exact Effect.pushes_done s
  | succ n ih =>
      rw [pointerLoop]
      split_ifs
      · exact Effect.pushes_done s
      · exact unpackPointer_pushes (ih _)

theorem berLoop_pushes (fuel : ℕ) (len : ℤ) (ul : ℕ) (s : ℤ) :
    (berLoop d fuel len ul s).Pushes := by
  induction fuel generalizing len ul s with
  | zero => exact Effect.pushes_done s
  | succ n ih =>
      rw [berLoop]
      dsimp only
      split_ifs
      · exact (ih _ _ _).cons _
      · split
        · exact (ih _ _ _).cons _
        · exact ih _ _ _
      · exact ih _ _ _
      · exact Effect.pushes_done s

theorem numberLoop_pushes (natint : Bool) (t : NumberType) (n : ℕ) (s : ℤ) :
    (numberLoop d natint t n s).Pushes := by
  induction n generalizing s with
  | zero => exact Effect.pushes_done s
  | succ n ih => exact (ih _).cons _

/-- The directives that are not for digits or for numbers of a fixed size. -/
theorem unpackDirective_pushes {t : Directive} (m : Modifiers) (hdigits : ∀ k, t ≠ .digits k)
    (hnumber : ∀ t', t ≠ .number t') : (unpackDirective d t m s).Pushes := by
  cases t with
  | percent => exact Effect.pushes_raise _
  | A => exact strNew_pushes fun n => Effect.pushes_single _ _
  | Z => exact Effect.pushes_single _ _
  | a => exact strNew_pushes fun n => Effect.pushes_single _ _
  | digits k => exact absurd rfl (hdigits k)
  | number t => exact absurd rfl (hnumber t)
  | U => exact utf8Loop_pushes _ s
  | u => exact strNew_pushes fun n => Effect.pushes_single _ _
  | m => exact strNew_pushes fun n => Effect.pushes_single _ _
  | M => exact strNew_pushes fun n => Effect.pushes_single _ _
  | seek =>
      simp only [unpackDirective, unpackAt]
      split_ifs
      · exact Effect.pushes_raise _
      · exact Effect.pushes_done _
  | X =>
      simp only [unpackDirective, unpackBack]
      split_ifs
      · exact Effect.pushes_raise _
      · exact Effect.pushes_done _
  | x =>
      simp only [unpackDirective, unpackForward]
      split_ifs
      · exact Effect.pushes_raise _
      · exact Effect.pushes_done _
  | P =>
      simp only [unpackDirective, unpackP]
      split_ifs
      · exact unpackPointer_pushes (Effect.pushes_done _)
      · exact Effect.pushes_done _
  | p => exact pointerLoop_pushes _ s
  | w => exact berLoop_pushes _ _ _ s
  | other => exact Effect.pushes_done s

/-- As many digits are written as are counted, and none of them is a blank. -/
theorem digitLoop_digits (k : DigitKind) (n i : ℕ) (s bits : ℤ) :
    (digitLoop d k n i s bits).1.length = n ∧ ∀ c ∈ (digitLoop d k n i s bits).1, c ≠ 32 := by
  induction n generalizing i s bits with
  | zero => exact ⟨rfl, nofun⟩
  | succ n ih =>
      simp only [digitLoop]
      obtain ⟨hlen, hne⟩ := ih (i + 1) (if i % k.per ≠ 0 then s else s + 1)
        (if i % k.per ≠ 0 then k.shift bits else schar (d.get s))
      refine ⟨by rw [List.length_cons, hlen], ?_⟩
      intro c hc
      rcases List.mem_cons.mp hc with rfl | hc
      · exact k.digit_ne _
      · exact hne c hc

/-- `tmp` is an `int`, so that it counts nothing only when it is zero. -/
theorem itemAdjust_eq_nil {sz : ℕ} {unsigned star : Bool} {len avail : ℤ} :
    itemAdjust (L := L) (lengthAdjust L unsigned sz star len avail).2 = [] ↔
      (lengthAdjust L unsigned sz star len avail).2 = 0 := by
  have hrange : ∀ x : ℤ, -2 ^ 31 ≤ x.bmod (2 ^ 32) ∧ x.bmod (2 ^ 32) < 2 ^ 31 := by
    intro x
    have h0 := Int.le_bmod (x := x) (m := 2 ^ 32) (by decide)
    have h1 := Int.bmod_lt (x := x) (m := 2 ^ 32) (by decide)
    omega
  have htmp : -2 ^ 31 ≤ (lengthAdjust L unsigned sz star len avail).2 ∧
      (lengthAdjust L unsigned sz star len avail).2 < 2 ^ 31 := by
    unfold lengthAdjust
    dsimp only
    split_ifs <;> first | exact hrange _ | exact ⟨by dsimp only; omega, by dsimp only; omega⟩
  rw [itemAdjust, List.replicate_eq_nil_iff]
  omega

/-! ## The outputs of a turn -/

/-- The turn is for numbers of a fixed size, and there are fewer of them than its count says. -/
def TurnPads (d : ByteString L) (type : UInt8) (p : List UInt8) (s : ℤ) : Prop :=
  isSpace type = false ∧ type ≠ 35 ∧ ∃ m p' t, unpackModifiers L type p (d.len - s) = .ok (m, p') ∧
    directive type = .number t ∧ t ≠ .Q ∧
    (lengthAdjust L (t.unsigned L) (t.size L m.natint) m.star m.len (d.len - s)).2 ≠ 0

/-- The turn is for digits, and there is one to extract. -/
def TurnDigits (d : ByteString L) (type : UInt8) (p : List UInt8) (s : ℤ) : Prop :=
  isSpace type = false ∧ type ≠ 35 ∧ ∃ m p' k, unpackModifiers L type p (d.len - s) = .ok (m, p') ∧
    directive type = .digits k ∧ 0 < digitCount d k s m.star m.len

/-- The outputs for digits. -/
theorem mem_unpackDigits {k : DigitKind} {star : Bool} {len : ℤ} {o : Output L} :
    o ∈ (unpackDigits d k s star len).outputs ↔ 0 ≤ digitCount d k s star len ∧
      o = .pushBlank (digitCount d k s star len).toNat
        (digitLoop d k (digitCount d k s star len).toNat 0 s 0).1 := by
  rw [unpackDigits, strNew]
  split_ifs with h
  · simp only [Effect.raise, List.not_mem_nil, false_iff, not_and]
    omega
  · simp only [List.mem_singleton, iff_and_self]
    omega

/-- The outputs for numbers of a fixed size. -/
theorem mem_unpackNumber {natint star : Bool} {t : NumberType} {len : ℤ} {o : Output L}
    (h : o ∈ (unpackNumber d natint t s star len).outputs) : (∃ v, o = .push v) ∨
      o = .pushNil ∧ t ≠ .Q ∧
        (lengthAdjust L (t.unsigned L) (t.size L natint) star len (d.len - s)).2 ≠ 0 := by
  unfold unpackNumber at h
  dsimp only at h
  split_ifs at h with hq
  · exact .inl (numberLoop_pushes _ _ _ _ o h)
  · rcases List.mem_append.mp h with h | h
    · exact .inl (numberLoop_pushes _ _ _ _ o h)
    · refine .inr ⟨List.eq_of_mem_replicate h, hq, fun hzero => ?_⟩
      rw [itemAdjust_eq_nil.mpr hzero] at h
      exact absurd h List.not_mem_nil

/-- What the outputs of a turn can be. -/
theorem mem_unpackTurn {type : UInt8} {p : List UInt8} {o : Output L}
    (h : o ∈ (unpackTurn d type p s).outputs) : (∃ v, o = .push v) ∨
      (o = .pushNil ∧ TurnPads d type p s) ∨
      ∃ n v, o = .pushBlank n v ∧ v.length = n ∧ (∀ c ∈ v, c ≠ 32) ∧
        (n ≠ 0 → TurnDigits d type p s) := by
  rcases unpackTurn_cases d type p s with ⟨q, -, ht⟩ | ⟨e, ht⟩ | ⟨m, q, hspace, hcomment, hm⟩
  · rw [ht] at h
    exact absurd h List.not_mem_nil
  · rw [ht] at h
    exact absurd h List.not_mem_nil
  · rw [unpackTurn_directive hspace hcomment hm] at h
    dsimp only at h
    cases hdir : directive type with
    | digits k =>
        rw [hdir] at h
        obtain ⟨h0, rfl⟩ := mem_unpackDigits.mp h
        obtain ⟨hlen, hne⟩ := digitLoop_digits (d := d) k (digitCount d k s m.star m.len).toNat 0 s
          0
        refine .inr (.inr ⟨_, _, rfl, hlen, hne, fun hn => ?_⟩)
        exact ⟨hspace, hcomment, m, q, k, hm, hdir, by omega⟩
    | number t =>
        rw [hdir] at h
        rcases mem_unpackNumber h with hv | ⟨rfl, hq, htmp⟩
        · exact .inl hv
        · exact .inr (.inl ⟨rfl, hspace, hcomment, m, q, t, hm, hdir, hq, htmp⟩)
    | _ =>
        rw [hdir] at h
        exact .inl (unpackDirective_pushes m (by simp) (by simp) o h)

/-- **A turn appends to the array directly exactly when it pads.** -/
theorem pushNil_mem_iff {type : UInt8} {p : List UInt8} :
    .pushNil ∈ (unpackTurn d type p s).outputs ↔ TurnPads d type p s := by
  constructor
  · intro h
    rcases mem_unpackTurn h with ⟨v, hv⟩ | ⟨-, hpad⟩ | ⟨n, v, hv, -⟩
    · cases hv
    · exact hpad
    · cases hv
  · rintro ⟨hspace, hcomment, m, q, t, hm, hdir, hq, htmp⟩
    rw [unpackTurn_directive hspace hcomment hm, hdir]
    simp only [unpackDirective, unpackNumber, if_neg hq, List.mem_append]
    refine .inr ?_
    obtain ⟨o, ho⟩ := List.exists_mem_of_ne_nil _ (fun h => htmp (itemAdjust_eq_nil (L := L).mp h))
    exact List.eq_of_mem_replicate ho ▸ ho

/-- **A turn hands over a string before it is filled exactly when it extracts digits.** -/
theorem pushBlank_mem_iff {type : UInt8} {p : List UInt8} :
    (∃ n v, n ≠ 0 ∧ .pushBlank n v ∈ (unpackTurn d type p s).outputs) ↔ TurnDigits d type p s := by
  constructor
  · rintro ⟨n, v, hn, h⟩
    rcases mem_unpackTurn h with ⟨v, hv⟩ | ⟨hv, -⟩ | ⟨n', v', hv, -, -, hdigits⟩
    · cases hv
    · cases hv
    · cases hv
      exact hdigits hn
  · rintro ⟨hspace, hcomment, m, q, k, hm, hdir, hpos⟩
    refine ⟨(digitCount d k s m.star m.len).toNat,
      (digitLoop d k (digitCount d k s m.star m.len).toNat 0 s 0).1, by omega, ?_⟩
    rw [unpackTurn_directive hspace hcomment hm, hdir]
    exact mem_unpackDigits.mpr ⟨hpos.le, rfl⟩

/-! ## A run -/

/-- What a block gets. -/
def Output.yielded : Output L → Argument L
  | .push v => ⟨v, v⟩
  | .pushBlank n v => ⟨.string (List.replicate n 32), .string v⟩
  | .pushNil => ⟨.nil, .nil⟩

theorem yieldOutputs_of_mem {os : List (Output L)} (ending : Ending) (h : .pushNil ∈ os) :
    (yieldOutputs ending os).ending = .crashed := by
  induction os with
  | nil => exact absurd h List.not_mem_nil
  | cons o os ih =>
      cases o with
      | pushNil => rfl
      | push v => exact ih (by simpa using h)
      | pushBlank n v => exact ih (by simpa using h)

theorem yieldOutputs_of_not_mem {os : List (Output L)} (ending : Ending) (h : .pushNil ∉ os) :
    yieldOutputs ending os = ⟨os.map Output.yielded, ending⟩ := by
  induction os with
  | nil => rfl
  | cons o os ih =>
      rw [List.mem_cons, not_or] at h
      cases o with
      | pushNil => exact absurd rfl h.1
      | push v =>
          rw [yieldOutputs, ih h.2]
          rfl
      | pushBlank n v =>
          rw [yieldOutputs, ih h.2]
          rfl

/-- A string is blank as it is filled only when it is empty. -/
theorem element_eq_yielded {type : UInt8} {p : List UInt8} {o : Output L}
    (h : o ∈ (unpackTurn d type p s).outputs) :
    ⟨o.element, o.element⟩ = o.yielded ↔ ∀ n v, o = .pushBlank n v → n = 0 := by
  rcases mem_unpackTurn h with ⟨v, rfl⟩ | ⟨rfl, -⟩ | ⟨n, v, rfl, hlen, hne, -⟩
  · simp [Output.element, Output.yielded]
  · simp [Output.element, Output.yielded]
  · simp only [Output.element, Output.yielded, Argument.mk.injEq, Value.string.injEq, and_true,
      Output.pushBlank.injEq, and_imp]
    constructor
    · rintro rfl n' v' rfl -
      by_contra hn
      exact hne 32 (List.mem_replicate.mpr ⟨hn, rfl⟩) rfl
    · intro hn
      have hn' := hn n v rfl rfl
      rw [hn'] at hlen ⊢
      exact List.length_eq_zero_iff.mp hlen

/-- **The form with a block agrees with the form without one exactly when no turn of the run pads
and, if the run does not raise, no turn extracts digits.** -/
theorem formsAgree_iff (d : ByteString L) (fmt : List UInt8) :
    FormsAgree d fmt ↔
      (∀ type p s, Reached d (fmt, 0) (type :: p, s) → ¬ TurnPads d type p s) ∧
      ((∃ vs, packUnpack d fmt = .ok vs) →
        ∀ type p s, Reached d (fmt, 0) (type :: p, s) → ¬ TurnDigits d type p s) := by
  set e := unpackLoop d fmt.length fmt 0 with he
  have hmem : ∀ o, o ∈ e.outputs ↔ ∃ type q t, Reached d (fmt, 0) (type :: q, t) ∧
      o ∈ (unpackTurn d type q t).outputs := fun o => mem_unpackLoop_outputs le_rfl
  have hpad : (∀ type p s, Reached d (fmt, 0) (type :: p, s) → ¬ TurnPads d type p s) ↔
      .pushNil ∉ e.outputs := by
    rw [hmem]
    simp only [pushNil_mem_iff]
    exact ⟨fun h ⟨type, q, t, hr, ht⟩ => h type q t hr ht,
      fun h type p s hr ht => h ⟨_, _, _, hr, ht⟩⟩
  have hdigits : (∀ type p s, Reached d (fmt, 0) (type :: p, s) → ¬ TurnDigits d type p s) ↔
      (e.outputs.map fun o => ⟨o.element, o.element⟩) = e.outputs.map Output.yielded := by
    rw [List.map_inj_left]
    constructor
    · intro h o ho
      obtain ⟨type, q, t, hr, ht⟩ := (hmem o).mp ho
      refine (element_eq_yielded ht).mpr ?_
      rintro n v rfl
      by_contra hn
      exact h type q t hr (pushBlank_mem_iff.mp ⟨n, v, hn, ht⟩)
    · intro h type p s hr hturn
      obtain ⟨n, v, hn, ho⟩ := pushBlank_mem_iff.mpr hturn
      exact hn ((element_eq_yielded ho).mp (h _ ((hmem _).mpr ⟨type, p, s, hr, ho⟩)) n v rfl)
  rw [hpad]
  by_cases hnil : .pushNil ∈ e.outputs
  · -- the form with a block crashes
    refine iff_of_false ?_ fun h => h.1 hnil
    rintro ⟨hok, herr⟩
    have hcrash : (packUnpackBlock d fmt).ending = .crashed := by
      rw [packUnpackBlock, ← he]
      cases e.result with
      | ok s => exact yieldOutputs_of_mem _ hnil
      | error x => exact yieldOutputs_of_mem _ hnil
    cases hres : packUnpack d fmt with
    | ok vs =>
        rw [hok vs hres] at hcrash
        cases hcrash
    | error x =>
        obtain ⟨y, hy⟩ := herr.mp ⟨x, hres⟩
        rw [hy] at hcrash
        cases hcrash
  · cases hres : e.result with
    | ok s =>
        have harray : packUnpack d fmt = .ok (e.outputs.map Output.element) := by
          rw [packUnpack, ← he, hres]
          rfl
        have hblock : packUnpackBlock d fmt = ⟨e.outputs.map Output.yielded, .returned⟩ := by
          rw [packUnpackBlock, ← he, hres]
          exact yieldOutputs_of_not_mem _ hnil
        rw [FormsAgree, harray, hblock, hdigits]
        constructor
        · rintro ⟨hvs, -⟩
          have hargs := (congrArg Yielded.args (hvs _ rfl)).symm
          rw [List.map_map] at hargs
          exact ⟨hnil, fun _ => hargs⟩
        · rintro ⟨-, h⟩
          refine ⟨?_, by simp⟩
          intro vs hvs
          cases hvs
          rw [← h ⟨_, rfl⟩, List.map_map]
          rfl
    | error x =>
        have harray : packUnpack d fmt = .error x := by
          rw [packUnpack, ← he, hres]
          rfl
        have hblock : packUnpackBlock d fmt = ⟨e.outputs.map Output.yielded, .raised x⟩ := by
          rw [packUnpackBlock, ← he, hres]
          exact yieldOutputs_of_not_mem _ hnil
        rw [FormsAgree, harray, hblock]
        simp [hnil]

/-- The string `"a"`. -/
def letterA : ByteString .lp64 := ⟨[97], fun _ => 0, by decide⟩

/-- **The forms do not always agree**: `"a".unpack("c2")` is `[97, nil]`, and crashes with a
block. -/
theorem not_forall_formsAgree :
    ¬ ∀ (L : LongSize) (d : ByteString L) (fmt : List UInt8), FormsAgree d fmt := by
  intro h
  have hblock : (packUnpackBlock letterA [99, 50]).ending = .crashed := by decide +kernel
  obtain ⟨hok, herr⟩ := h .lp64 letterA [99, 50]
  cases hres : packUnpack letterA [99, 50] with
  | ok vs =>
      rw [hok vs hres] at hblock
      cases hblock
  | error x =>
      obtain ⟨y, hy⟩ := herr.mp ⟨x, hres⟩
      rw [hy] at hblock
      cases hblock

end MacRuby.Pack
