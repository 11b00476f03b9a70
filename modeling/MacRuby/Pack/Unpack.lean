import MacRuby.Pack.Directive
import Mathlib.Logic.Relation

/-!
# `String#unpack`

The loop of `pack_unpack` over the format, and its two forms. Without a block the elements become
an array. With a block they are yielded one by one; the array is then nil, and appending to it is
an access through the word 4.

## Main definitions

* `unpackCount`, `unpackModifiers` — what may stand after a type.
* `unpackTurn` — one turn of the loop.
* `unpackLoop` — the whole loop.
* `packUnpack`, `packUnpackBlock` — the two forms.
* `Reached` — the places that the loop comes to.
-/

namespace MacRuby.Pack

variable {L : LongSize} (d : ByteString L)

/-- `strchr(natstr, type)`; the NUL at the end of `natstr` is found too. -/
def isNative (type : UInt8) : Bool :=
  type = 0 || (Char.ofNat type.toNat) ∈ ['s', 'S', 'i', 'I', 'l', 'L']

/-- The count of a directive, and the rest of the format; `avail` is `send - s`. -/
def unpackCount (L : LongSize) (type : UInt8) (natint : Bool) (p : List UInt8) (avail : ℤ) :
    Except UnpackError (Modifiers × List UInt8) :=
  match p with
  | [] => .ok (⟨natint, false, 1⟩, [])
  | c :: cs =>
      if c = 42 then .ok (⟨natint, true, avail⟩, cs)
      else if isDigit c then
        let r := rubyStrtoul L p 10
        if r.errno.isSome then .error .lengthTooBig
        else .ok (⟨natint, false, L.toLong r.value⟩, p.drop (r.endptr.getD 0))
      else .ok (⟨natint, false, if type = 64 then 0 else 1⟩, p)

/-- The modifiers after a type, and the rest of the format. -/
def unpackModifiers (L : LongSize) (type : UInt8) (p : List UInt8) (avail : ℤ) :
    Except UnpackError (Modifiers × List UInt8) :=
  let c := p.headD 0
  if c = 95 ∨ c = 33 then
    if isNative type then unpackCount L type true (p.drop 1) avail else .error (.notNative c)
  else unpackCount L type false p avail

/-- What a turn of the loop does: its outputs, and the rest of the format with the new cursor. -/
structure Turn (L : LongSize) where
  outputs : List (Output L)
  result : Except UnpackError (List UInt8 × ℤ)

/-- One turn of the loop, for a type and what stands after it. -/
def unpackTurn (type : UInt8) (p : List UInt8) (s : ℤ) : Turn L :=
  if isSpace type then ⟨[], .ok (p, s)⟩
  else if type = 35 then ⟨[], .ok (p.dropWhile (· ≠ 10), s)⟩
  else
    match unpackModifiers L type p (d.len - s) with
    | .error e => ⟨[], .error e⟩
    | .ok (m, p) =>
        let e := unpackDirective d (directive type) m s
        ⟨e.outputs, e.result.map fun s => (p, s)⟩

/-- The loop of `pack_unpack`. Every turn takes a byte of the format at least, so that its length
is enough fuel. -/
def unpackLoop : ℕ → List UInt8 → ℤ → Effect L
  | _, [], s => .done s
  | 0, _, s => .done s
  | fuel + 1, type :: p, s =>
      let t := unpackTurn d type p s
      match t.result with
      | .error e => ⟨t.outputs, .error e⟩
      | .ok (p, s) =>
          let e := unpackLoop fuel p s
          ⟨t.outputs ++ e.outputs, e.result⟩

/-- The element that an output leaves in the array. -/
def Output.element : Output L → Value L
  | .push v => v
  | .pushBlank _ v => .string v
  | .pushNil => .nil

/-- `pack_unpack(str, fmt)` without a block. -/
def packUnpack (fmt : List UInt8) : Except UnpackError (List (Value L)) :=
  let e := unpackLoop d fmt.length fmt 0
  e.result.map fun _ => e.outputs.map Output.element

/-- How a call with a block ends. -/
inductive Ending
  | returned
  | raised (e : UnpackError)
  /-- The array that is nil was appended to. -/
  | crashed
  deriving DecidableEq, Repr

/-- What a block is called with: the element at the time of the call, and what the object is when
`unpack` is done with it. -/
structure Argument (L : LongSize) where
  atCall : Value L
  later : Value L

/-- A call with a block: what the block was called with, and how the call ended. -/
structure Yielded (L : LongSize) where
  args : List (Argument L)
  ending : Ending

/-- The outputs with a block; `rb_str_new(0, n)` is a string of blanks, which is filled when the
block has returned. -/
def yieldOutputs (ending : Ending) : List (Output L) → Yielded L
  | [] => ⟨[], ending⟩
  | .pushNil :: _ => ⟨[], .crashed⟩
  | .push v :: os =>
      let r := yieldOutputs ending os
      ⟨⟨v, v⟩ :: r.args, r.ending⟩
  | .pushBlank n v :: os =>
      let r := yieldOutputs ending os
      ⟨⟨.string (List.replicate n 32), .string v⟩ :: r.args, r.ending⟩

/-- `pack_unpack(str, fmt)` with a block; the value that it returns is nil. -/
def packUnpackBlock (fmt : List UInt8) : Yielded L :=
  let e := unpackLoop d fmt.length fmt 0
  match e.result with
  | .ok _ => yieldOutputs .returned e.outputs
  | .error x => yieldOutputs (.raised x) e.outputs

/-- A turn of the loop leads from a rest of the format and a cursor to others. -/
def Step (x y : List UInt8 × ℤ) : Prop :=
  ∃ type p, x.1 = type :: p ∧ (unpackTurn d type p x.2).result = .ok y

/-- The loop comes from `x` to `y`. -/
def Reached : List UInt8 × ℤ → List UInt8 × ℤ → Prop := Relation.ReflTransGen (Step d)

/-! ## Turns -/

section Turns

variable {d} {s : ℤ} {type : UInt8} {p p' : List UInt8}

/-- What the count can be, and that the rest of the format does not grow. -/
theorem unpackModifiers_cases {avail : ℤ} {m : Modifiers}
    (h : unpackModifiers L type p avail = .ok (m, p')) :
    p'.length ≤ p.length ∧
      (m.len = 0 ∨ m.len = 1 ∨ m.star = true ∧ m.len = avail ∨ ∃ n, m.len = L.toLong n) := by
  have hcount : ∀ {natint : Bool} {q : List UInt8}, q.length ≤ p.length →
      unpackCount L type natint q avail = .ok (m, p') → p'.length ≤ p.length ∧
        (m.len = 0 ∨ m.len = 1 ∨ m.star = true ∧ m.len = avail ∨ ∃ n, m.len = L.toLong n) := by
    intro natint q hq hc
    unfold unpackCount at hc
    split at hc
    · cases hc
      exact ⟨by simp, .inr (.inl rfl)⟩
    · rename_i c cs
      rw [List.length_cons] at hq
      split_ifs at hc with h1 h2 h3
      · cases hc
        exact ⟨by omega, .inr (.inr (.inl ⟨rfl, rfl⟩))⟩
      · dsimp only at hc
        split_ifs at hc with h4
        · cases hc
          refine ⟨?_, .inr (.inr (.inr ⟨_, rfl⟩))⟩
          rw [List.length_drop, List.length_cons]
          omega
      · cases hc
        exact ⟨by rwa [List.length_cons], .inl rfl⟩
      · cases hc
        exact ⟨by rwa [List.length_cons], .inr (.inl rfl)⟩
  unfold unpackModifiers at h
  dsimp only at h
  split_ifs at h
  · exact hcount (by simp) h
  · exact hcount le_rfl h

/-- What a turn is, apart from spaces and comments. -/
theorem unpackTurn_directive {m : Modifiers}
    (hspace : isSpace type = false) (hcomment : type ≠ 35)
    (hm : unpackModifiers L type p (d.len - s) = .ok (m, p')) :
    unpackTurn d type p s = ⟨(unpackDirective d (directive type) m s).outputs,
      (unpackDirective d (directive type) m s).result.map fun s => (p', s)⟩ := by
  rw [unpackTurn, if_neg (by simp [hspace]), if_neg hcomment, hm]

/-- What a turn can be. -/
theorem unpackTurn_cases (d : ByteString L) (type : UInt8) (p : List UInt8) (s : ℤ) :
    (∃ p', p'.length ≤ p.length ∧ unpackTurn d type p s = ⟨[], .ok (p', s)⟩) ∨
    (∃ e, unpackTurn d type p s = ⟨[], .error e⟩) ∨
    ∃ m p', isSpace type = false ∧ type ≠ 35 ∧
      unpackModifiers L type p (d.len - s) = .ok (m, p') := by
  by_cases hspace : isSpace type = true
  · exact .inl ⟨p, le_rfl, by rw [unpackTurn, if_pos hspace]⟩
  by_cases hcomment : type = 35
  · refine .inl ⟨p.dropWhile (· ≠ 10), (List.dropWhile_suffix _).length_le, ?_⟩
    rw [unpackTurn, if_neg hspace, if_pos hcomment]
  rw [Bool.not_eq_true] at hspace
  cases hm : unpackModifiers L type p (d.len - s) with
  | error e =>
      refine .inr (.inl ⟨e, ?_⟩)
      rw [unpackTurn, if_neg (by simp [hspace]), if_neg hcomment, hm]
  | ok r => exact .inr (.inr ⟨r.1, r.2, hspace, hcomment, rfl⟩)

/-- A turn takes the type at least. -/
theorem unpackTurn_length {y : List UInt8 × ℤ} (h : (unpackTurn d type p s).result = .ok y) :
    y.1.length ≤ p.length := by
  rcases unpackTurn_cases d type p s with ⟨q, hq, ht⟩ | ⟨e, ht⟩ | ⟨m, q, hspace, hcomment, hm⟩
  · rw [ht] at h
    cases h
    exact hq
  · rw [ht] at h
    cases h
  · rw [unpackTurn_directive hspace hcomment hm] at h
    dsimp only at h
    cases hres : (unpackDirective d (directive type) m s).result with
    | error e =>
        rw [hres] at h
        cases h
    | ok t =>
        rw [hres] at h
        cases h
        exact (unpackModifiers_cases hm).1

/-- The loop goes on from the end of a turn. -/
theorem reached_cons_iff {y : List UInt8 × ℤ} : Reached d (type :: p, s) y ↔
    y = (type :: p, s) ∨ ∃ x, (unpackTurn d type p s).result = .ok x ∧ Reached d x y := by
  constructor
  · intro h
    rcases Relation.ReflTransGen.cases_head h with h | ⟨x, ⟨type', p', heq, hturn⟩, hx⟩
    · exact .inl h.symm
    · obtain ⟨rfl, rfl⟩ := List.cons.inj heq
      exact .inr ⟨x, hturn, hx⟩
  · rintro (rfl | ⟨x, hturn, hx⟩)
    · exact .refl
    · exact .head ⟨type, p, rfl, hturn⟩ hx

theorem reached_nil_iff {y : List UInt8 × ℤ} : Reached d ([], s) y ↔ y = ([], s) := by
  constructor
  · intro h
    rcases Relation.ReflTransGen.cases_head h with h | ⟨x, ⟨type', p', heq, hturn⟩, hx⟩
    · exact h.symm
    · cases heq
  · rintro rfl
    exact .refl

/-- **The outputs of the loop are those of the turns it comes to.** -/
theorem mem_unpackLoop_outputs {fuel : ℕ} {o : Output L} (hfuel : p.length ≤ fuel) :
    o ∈ (unpackLoop d fuel p s).outputs ↔ ∃ type q t, Reached d (p, s) (type :: q, t) ∧
      o ∈ (unpackTurn d type q t).outputs := by
  induction fuel generalizing p s with
  | zero =>
      obtain rfl : p = [] := List.length_eq_zero_iff.mp (by omega)
      simp [unpackLoop, Effect.done, reached_nil_iff]
  | succ n ih =>
      cases p with
      | nil => simp [unpackLoop, Effect.done, reached_nil_iff]
      | cons type p =>
          rw [List.length_cons] at hfuel
          rw [unpackLoop]
          dsimp only
          cases hres : (unpackTurn d type p s).result with
          | error e =>
              simp only [reached_cons_iff, hres, reduceCtorEq, false_and, exists_false, or_false,
                Prod.mk.injEq, List.cons.injEq]
              constructor
              · intro h
                exact ⟨type, p, s, ⟨⟨rfl, rfl⟩, rfl⟩, h⟩
              · rintro ⟨_, _, _, ⟨⟨rfl, rfl⟩, rfl⟩, h⟩
                exact h
          | ok y =>
              have hlen := unpackTurn_length hres
              simp only [reached_cons_iff, hres, Except.ok.injEq, exists_eq_left', Prod.mk.injEq,
                List.cons.injEq, List.mem_append, ih (s := y.2) (show y.1.length ≤ n by omega)]
              constructor
              · rintro (h | ⟨type', q, t, hr, h⟩)
                · exact ⟨type, p, s, .inl ⟨⟨rfl, rfl⟩, rfl⟩, h⟩
                · exact ⟨type', q, t, .inr hr, h⟩
              · rintro ⟨type', q, t, ⟨⟨rfl, rfl⟩, rfl⟩ | hr, h⟩
                · exact .inl h
                · exact .inr ⟨type', q, t, hr, h⟩

end Turns

end MacRuby.Pack
