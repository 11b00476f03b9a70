import MacRuby.Pack.RoundTrip

/-!
# Numbers of which too few bytes are left

A directive for numbers of a fixed size with an explicit count reads the numbers for which there are
enough bytes, and appends nil for every other one, so that what the next directives read stands at
its place in the array. The directive `Q` does not append nil.

## Main definitions

* `CountedField` — a directive for numbers with an explicit count.
* `readFields` — the array for a list of them; a parameter tells which directives append nil.
* `Enough` — there are enough bytes for each directive `Q`.
* `Aligned` — each directive has as many elements as its count.

## Main results

* `unpackNumber_field` — what a directive does.
* `packUnpack_fields` — what `unpack` returns.
* `aligned_iff` — when every directive has as many elements as its count.
-/

namespace MacRuby.Pack

variable {L : LongSize} {d : ByteString L} {s : ℤ} {u : List UInt8}

/-! ## Formats -/

/-- A directive for numbers of a fixed size with an explicit count below 2^31, in its native size if
it has a modifier. -/
structure CountedField where
  type : NumberType
  modifier : List UInt8
  modifier_spec : modifier = [] ∨ isNative type.letter = true ∧ (modifier = [95] ∨ modifier = [33])
  digits : List UInt8
  digits_ne_nil : digits ≠ []
  isDigit_of_mem : ∀ c ∈ digits, isDigit c = true
  count_lt : numeral 10 0 digits < 2 ^ 31

namespace CountedField

variable (f : CountedField)

/-- The count that the digits stand for. -/
def count : ℕ := numeral 10 0 f.digits

def natint : Bool := !f.modifier.isEmpty

/-- The bytes that a number takes. -/
def size (L : LongSize) : ℕ := f.type.size L f.natint

/-- The text of a directive. -/
def text : List UInt8 := f.type.letter :: (f.modifier ++ f.digits)

/-- The numbers for which there are enough bytes. -/
def available (L : LongSize) (u : List UInt8) : ℕ := min f.count (u.length / f.size L)

theorem size_pos (L : LongSize) : 0 < f.size L := NumberType.size_pos L f.type f.natint

theorem available_mul_le (L : LongSize) (u : List UInt8) :
    f.available L u * f.size L ≤ u.length :=
  (Nat.le_div_iff_mul_le (f.size_pos L)).mp (min_le_right _ _)

end CountedField

/-- The text of a list of directives. -/
def formatOf (fs : List CountedField) : List UInt8 := fs.flatMap CountedField.text

/-! ## The array -/

/-- The first `n` numbers. -/
def numbers (L : LongSize) (natint : Bool) (t : NumberType) : ℕ → List UInt8 → List (Value L)
  | 0, _ => []
  | n + 1, u => t.decode L natint (u.take (t.size L natint))
      :: numbers L natint t n (u.drop (t.size L natint))

@[simp] theorem length_numbers (L : LongSize) (natint : Bool) (t : NumberType) (n : ℕ)
    (u : List UInt8) : (numbers L natint t n u).length = n := by
  induction n generalizing u with
  | zero => rfl
  | succ n ih => rw [numbers, List.length_cons, ih]

/-- The array for a list of directives: the numbers of each of them for which there are enough
bytes, and nil for the others if the directive `pads`. -/
def readFields (L : LongSize) (pads : NumberType → Bool) :
    List CountedField → List UInt8 → List (Value L)
  | [], _ => []
  | f :: fs, u =>
      let n := f.available L u
      numbers L f.natint f.type n u
        ++ List.replicate (if pads f.type then f.count - n else 0) .nil
        ++ readFields L pads fs (u.drop (n * f.size L))

attribute [grind =] readFields

/-- There are enough bytes for each directive `Q`. -/
def Enough (L : LongSize) : List CountedField → List UInt8 → Prop
  | [], _ => True
  | f :: fs, u => (f.type = .Q → f.count * f.size L ≤ u.length) ∧
      Enough L fs (u.drop (f.available L u * f.size L))

/-- Where every directive pads, the array has as many elements as the counts say. -/
theorem length_readFields (L : LongSize) (fs : List CountedField) (u : List UInt8) :
    (readFields L (fun _ => true) fs u).length = (fs.map CountedField.count).sum := by
  induction fs generalizing u with
  | nil => rfl
  | cons f fs ih =>
      have hle : f.available L u ≤ f.count := min_le_left _ _
      simp only [readFields, if_true, List.length_append, length_numbers, List.length_replicate, ih,
        List.map_cons, List.sum_cons]
      omega

theorem length_readFields_le (L : LongSize) (pads : NumberType → Bool) (fs : List CountedField)
    (u : List UInt8) :
    (readFields L pads fs u).length ≤ (readFields L (fun _ => true) fs u).length := by
  induction fs generalizing u with
  | nil => exact le_rfl
  | cons f fs ih =>
      have hrest := ih (u.drop (f.available L u * f.size L))
      simp only [readFields, if_true, List.length_append, length_numbers, List.length_replicate]
      split_ifs <;> omega

/-- **Without the nils of `Q` the array is the same exactly if there are enough bytes for each
`Q`.** -/
theorem readFields_eq_iff (L : LongSize) (fs : List CountedField) (u : List UInt8) :
    readFields L (fun t => t ≠ .Q) fs u = readFields L (fun _ => true) fs u ↔ Enough L fs u := by
  induction fs generalizing u with
  | nil => exact iff_of_true rfl trivial
  | cons f fs ih =>
      have hrest := length_readFields_le L (fun t => t ≠ .Q) fs
        (u.drop (f.available L u * f.size L))
      have henough : f.available L u = f.count ↔ f.count * f.size L ≤ u.length := by
        rw [CountedField.available, min_eq_left_iff, Nat.le_div_iff_mul_le (f.size_pos L)]
      have hle : f.available L u ≤ f.count := min_le_left _ _
      rw [readFields, readFields, Enough]
      simp only [decide_eq_true_eq, if_true, List.append_assoc, List.append_cancel_left_eq]
      by_cases hshort : f.type = .Q ∧ f.available L u ≠ f.count
      · -- a nil is missing
        refine iff_of_false ?_ ?_
        · intro h
          have hlen := congrArg List.length h
          rw [if_neg (not_not.mpr hshort.1)] at hlen
          simp only [List.length_append, List.length_replicate] at hlen
          omega
        · intro h
          exact hshort.2 (henough.mpr (h.1 hshort.1))
      · have hsame : (if f.type ≠ .Q then f.count - f.available L u else 0)
            = f.count - f.available L u := by
          split_ifs with hQ
          · rfl
          · rw [not_and, not_not] at hshort
            rw [hshort (not_not.mp hQ), Nat.sub_self]
        have hfirst : f.type = .Q → f.count * f.size L ≤ u.length := by
          intro hQ
          rw [not_and, not_not] at hshort
          exact henough.mp (hshort hQ)
        rw [hsame, List.append_cancel_left_eq, ih]
        exact ⟨fun h => ⟨hfirst, h⟩, fun h => h.2⟩

/-! ## `unpack` -/

/-- What follows a count is the end of the format or a letter. -/
theorem not_isDigitOf_formatOf (fs : List CountedField) :
    ∀ c ∈ (formatOf fs).head?, ¬ IsDigitOf 10 c := by
  intro c hc
  cases fs with
  | nil => cases hc
  | cons f fs =>
      cases hc
      exact (letter_ne f.type).2.2

/-- What `unpack` makes of the modifier and the count of a directive. -/
theorem unpackModifiers_field (f : CountedField) (fs : List CountedField) (avail : ℤ) :
    unpackModifiers L f.type.letter (f.modifier ++ f.digits ++ formatOf fs) avail
      = .ok (⟨f.natint, false, f.count⟩, formatOf fs) := by
  have hword : (2 : ℤ) ^ 31 ≤ 2 ^ (L.bits - 1) := by cases L <;> decide
  have hlt : (numeral 10 0 f.digits : ℤ) < 2 ^ (L.bits - 1) := by
    have h : (numeral 10 0 f.digits : ℤ) < 2 ^ 31 := by exact_mod_cast f.count_lt
    omega
  have hend := not_isDigitOf_formatOf fs
  have hmodified : ∀ c : UInt8, isNative f.type.letter = true → (c = 95 ∨ c = 33) →
      unpackModifiers L f.type.letter (c :: (f.digits ++ formatOf fs)) avail
        = .ok (⟨true, false, f.count⟩, formatOf fs) := by
    intro c hnative hc
    have hcount := unpackCount_digits f.type.letter true f.digits_ne_nil f.isDigit_of_mem hend hlt
      avail
    simp only [unpackModifiers, List.headD_cons, hc, if_true, hnative, List.drop_one,
      List.tail_cons]
    exact hcount
  rcases f.modifier_spec with hnone | ⟨hnative, hline | hbang⟩
  · have hnatint : f.natint = false := by simp [CountedField.natint, hnone]
    rw [hnatint, hnone, List.nil_append]
    exact unpackModifiers_digits f.type.letter f.digits_ne_nil f.isDigit_of_mem hend hlt avail
  · have hnatint : f.natint = true := by simp [CountedField.natint, hline]
    rw [hnatint, hline]
    exact hmodified 95 hnative (.inl rfl)
  · have hnatint : f.natint = true := by simp [CountedField.natint, hbang]
    rw [hnatint, hbang]
    exact hmodified 33 hnative (.inr rfl)

/-- **`PACK_LENGTH_ADJUST_SIZE`** for an explicit count: what is read, and what is missing. -/
theorem lengthAdjust_count (unsigned : Bool) (sz : ℕ) {n avail : ℕ} (hn : n < 2 ^ 31)
    (havail : (avail : ℤ) < 2 ^ (L.bits - 1)) : lengthAdjust L unsigned sz false n avail
      = (((min n (avail / sz) : ℕ) : ℤ), ((n - min n (avail / sz) : ℕ) : ℤ)) := by
  have hbits := two_pow_bits L
  have hword : (2 : ℤ) ^ 31 ≤ 2 ^ (L.bits - 1) := by cases L <;> decide
  have hq : (if unsigned then (avail : ℤ) % 2 ^ L.bits / sz else (avail : ℤ).tdiv sz)
      = (avail / sz : ℕ) := by
    rw [Int.tdiv_eq_ediv_of_nonneg (by omega), Int.emod_eq_of_lt (by omega) (by omega), ite_self]
    push_cast
    rfl
  have hl : (if unsigned then (n : ℤ) % 2 ^ L.bits else (n : ℤ)) = n := by
    rw [Int.emod_eq_of_lt (by omega) (by omega), ite_self]
  have hle : avail / sz ≤ avail := Nat.div_le_self _ _
  rw [lengthAdjust, hq, hl]
  generalize avail / sz = q at hle
  rcases Nat.lt_or_ge q n with hlt | hge
  · have hmiss : ((n : ℤ) - q).bmod (2 ^ 32) = n - q :=
      Int.bmod_eq_of_le (by push_cast; omega) (by push_cast; omega)
    rw [if_pos (by exact_mod_cast hlt), if_neg (by decide), hmiss,
      L.toLong_eq (by omega) (by omega),
      min_eq_right hlt.le]
    congr 1
    omega
  · rw [if_neg (by omega), min_eq_left hge, Nat.sub_self]
    rfl

/-- The loop over the numbers. -/
theorem numberLoop_numbers (natint : Bool) (t : NumberType) {n : ℕ} (h : Reads d s u)
    (hn : n * t.size L natint ≤ u.length) :
    (numberLoop d natint t n s).outputs = (numbers L natint t n u).map .push := by
  induction n generalizing s u with
  | zero => rfl
  | succ n ih =>
      rw [Nat.succ_mul] at hn
      have hlen : (u.take (t.size L natint)).length = t.size L natint := by
        rw [List.length_take, min_eq_left (by omega)]
      have hsplit : Reads d s (u.take (t.size L natint) ++ u.drop (t.size L natint)) := by
        rwa [List.take_append_drop]
      have hslice : d.slice s (t.size L natint) = u.take (t.size L natint) := by
        obtain ⟨pre, hbytes, rfl⟩ := hsplit
        rw [← List.append_assoc] at hbytes
        have hmiddle := slice_append hbytes
        rwa [hlen] at hmiddle
      have hnext := hsplit.skip
      rw [hlen] at hnext
      have hroom : n * t.size L natint ≤ (u.drop (t.size L natint)).length := by
        rw [List.length_drop]
        omega
      rw [numberLoop, numbers, Effect.cons, ih hnext hroom, hslice]
      rfl

/-- **What a directive does**: it reads the numbers for which there are enough bytes, and appends
nil for the others unless it is `Q`. -/
theorem unpackNumber_field (f : CountedField) (h : Reads d s u) :
    (unpackNumber d f.natint f.type s false f.count).outputs.map Output.element
        = numbers L f.natint f.type (f.available L u) u
          ++ List.replicate (if f.type ≠ .Q then f.count - f.available L u else 0) .nil ∧
      (unpackNumber d f.natint f.type s false f.count).result
        = .ok (s + f.available L u * f.size L) := by
  have hlen : d.len - s = u.length := by rw [h.len_eq, add_sub_cancel_left]
  have havail : (u.length : ℤ) < 2 ^ (L.bits - 1) := by
    have h0 := d.len_lt
    have h1 := h.nonneg
    omega
  have hadjust := lengthAdjust_count (f.type.unsigned L) (f.size L) f.count_lt havail
  have hloop := numberLoop_numbers f.natint f.type h (f.available_mul_le L u)
  have hcursor := numberLoop_cursor (d := d) f.natint f.type (f.available L u) s
  have hpush : ((numbers L f.natint f.type (f.available L u) u).map Output.push).map Output.element
      = numbers L f.natint f.type (f.available L u) u := by
    rw [List.map_map]
    exact List.map_id _
  have hle : f.available L u ≤ f.count := min_le_left _ _
  have hcount := f.count_lt
  have hnil : (itemAdjust (L := L) ((f.count - f.available L u : ℕ) : ℤ)).map Output.element
      = List.replicate (f.count - f.available L u) .nil := by
    have hmod : (((f.count - f.available L u : ℕ) : ℤ) % 2 ^ 32).toNat
        = f.count - f.available L u := by
      rw [Int.emod_eq_of_lt (by omega) (by rw [CountedField.count] at *; omega), Int.toNat_natCast]
    rw [itemAdjust, hmod, List.map_replicate]
    rfl
  have heffect : unpackNumber d f.natint f.type s false f.count
      = if f.type = .Q then numberLoop d f.natint f.type (f.available L u) s
        else { numberLoop d f.natint f.type (f.available L u) s with
          outputs := (numberLoop d f.natint f.type (f.available L u) s).outputs
            ++ itemAdjust ((f.count - f.available L u : ℕ) : ℤ) } := by
    rw [unpackNumber, hlen]
    have hsame : lengthAdjust L (f.type.unsigned L) (f.type.size L f.natint) false f.count u.length
        = (((f.available L u : ℕ) : ℤ), ((f.count - f.available L u : ℕ) : ℤ)) := hadjust
    rw [hsame]
    simp only [Int.toNat_natCast]
  rw [heffect]
  by_cases hQ : f.type = .Q
  · rw [if_pos hQ, if_neg (not_not.mpr hQ), hloop, hpush, List.replicate_zero, List.append_nil]
    exact ⟨rfl, hcursor⟩
  · rw [if_neg hQ, if_pos hQ, List.map_append, hloop, hpush, hnil]
    exact ⟨rfl, hcursor⟩

/-- **The loop over the directives.** -/
theorem unpackLoop_fields (fs : List CountedField) {fuel : ℕ} (h : Reads d s u)
    (hfuel : (formatOf fs).length ≤ fuel) :
    (∃ s', (unpackLoop d fuel (formatOf fs) s).result = .ok s') ∧
      (unpackLoop d fuel (formatOf fs) s).outputs.map Output.element
        = readFields L (fun t => t ≠ .Q) fs u := by
  induction fs generalizing s u fuel with
  | nil => cases fuel <;> exact ⟨⟨s, rfl⟩, rfl⟩
  | cons f fs ih =>
      have htext : formatOf (f :: fs)
          = f.type.letter :: (f.modifier ++ f.digits ++ formatOf fs) := rfl
      rw [htext, List.length_cons, List.length_append] at hfuel
      obtain ⟨fuel, rfl⟩ : ∃ k, fuel = k + 1 := ⟨fuel - 1, by omega⟩
      obtain ⟨hspace, hcomment, -⟩ := letter_ne f.type
      obtain ⟨houtputs, hresult⟩ := unpackNumber_field f h
      have hturn := unpackTurn_directive (d := d) (s := s) hspace hcomment
        (unpackModifiers_field f fs (d.len - s))
      rw [directive_letter, unpackDirective, hresult] at hturn
      have hsplit : Reads d s (u.take (f.available L u * f.size L)
          ++ u.drop (f.available L u * f.size L)) := by rwa [List.take_append_drop]
      have hnext := hsplit.skip
      rw [List.length_take, min_eq_left (f.available_mul_le L u)] at hnext
      push_cast at hnext
      obtain ⟨⟨s', hs'⟩, hrest⟩ := ih hnext (show (formatOf fs).length ≤ fuel by omega)
      rw [htext, unpackLoop, hturn]
      refine ⟨⟨s', hs'⟩, ?_⟩
      simp only [Except.map]
      rw [List.map_append, houtputs, hrest, readFields]
      simp only [decide_eq_true_eq]

/-- **What `unpack` returns.** -/
theorem packUnpack_fields (d : ByteString L) (fs : List CountedField) :
    packUnpack d (formatOf fs) = .ok (readFields L (fun t => t ≠ .Q) fs d.bytes) := by
  obtain ⟨⟨s', hs'⟩, houtputs⟩ := unpackLoop_fields fs (reads_start d) le_rfl
  rw [packUnpack, hs', ← houtputs]
  rfl

/-- Each directive has as many elements as its count: the numbers for which there are enough bytes,
and nil for the others. -/
def Aligned (d : ByteString L) (fs : List CountedField) : Prop :=
  ∃ vs, packUnpack d (formatOf fs) = .ok vs ∧
    vs.length = (fs.map CountedField.count).sum ∧ vs = readFields L (fun _ => true) fs d.bytes

/-- **When this is so**: there must be enough bytes for each `Q`. -/
theorem aligned_iff (d : ByteString L) (fs : List CountedField) :
    Aligned d fs ↔ Enough L fs d.bytes := by
  rw [← readFields_eq_iff]
  constructor
  · rintro ⟨vs, hvs, -, hpadded⟩
    rw [packUnpack_fields] at hvs
    rw [Except.ok.inj hvs, hpadded]
  · intro h
    exact ⟨_, packUnpack_fields d fs, by rw [h, length_readFields], h⟩

/-- A directive with a count of one. -/
def oneOf (t : NumberType) : CountedField where
  type := t
  modifier := []
  modifier_spec := .inl rfl
  digits := [49]
  digits_ne_nil := by decide
  isDigit_of_mem := List.all_eq_true.mp (by decide)
  count_lt := by decide

/-- The byte behind a quad that is missing takes its place. -/
theorem not_aligned_quad :
    ¬ Aligned (L := .lp64) ⟨[1], fun _ => 0, by decide⟩ [oneOf .Q, oneOf .C] := by
  rintro ⟨vs, hvs, hlen, -⟩
  rw [packUnpack_fields] at hvs
  rw [← Except.ok.inj hvs] at hlen
  exact absurd hlen (by decide)

end MacRuby.Pack
