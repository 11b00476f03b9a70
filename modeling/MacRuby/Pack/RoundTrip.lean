import MacRuby.Pack.Reads
import MacRuby.Pack.Words

/-!
# `unpack` after `pack`

A format of directives for Integers, each with an explicit count, packs a list of Integers into a
string from which the same format reads the Integers again, each reduced to the width of its
directive, unless the bytes that are appended make characters of the string into byte data.

## Main definitions

* `Field` — a directive for Integers with its count.
* `format` — the text of a list of fields.
* `types` — the directive of each element.
* `chunks`, `encodeAll` — the bytes of a list of elements with their directives.
* `IntegersRoundTrip` — what is packed is as long as the widths together, and is read as the
  Integers.

## Main results

* `packLoop_format` — what `pack` writes for a format.
* `unpackLoop_format` — what `unpack` reads with it.
* `integersRoundTrip_iff` — both together.
-/

namespace MacRuby.Pack

variable {L : LongSize}

/-! ## Formats -/

/-- The letter of a directive. -/
def NumberType.letter : NumberType → UInt8
  | .c => 'c'.toNat.toUInt8
  | .C => 'C'.toNat.toUInt8
  | .s => 's'.toNat.toUInt8
  | .S => 'S'.toNat.toUInt8
  | .i => 'i'.toNat.toUInt8
  | .I => 'I'.toNat.toUInt8
  | .l => 'l'.toNat.toUInt8
  | .L => 'L'.toNat.toUInt8
  | .q => 'q'.toNat.toUInt8
  | .Q => 'Q'.toNat.toUInt8
  | .n => 'n'.toNat.toUInt8
  | .N => 'N'.toNat.toUInt8
  | .v => 'v'.toNat.toUInt8
  | .V => 'V'.toNat.toUInt8
  | .f => 'f'.toNat.toUInt8
  | .F => 'F'.toNat.toUInt8
  | .e => 'e'.toNat.toUInt8
  | .E => 'E'.toNat.toUInt8
  | .D => 'D'.toNat.toUInt8
  | .d => 'd'.toNat.toUInt8
  | .g => 'g'.toNat.toUInt8
  | .G => 'G'.toNat.toUInt8

@[simp] theorem directive_letter (t : NumberType) : directive t.letter = .number t := by
  cases t <;> rfl

/-- A letter is no space, no comment and no digit. -/
theorem letter_ne (t : NumberType) :
    isSpace t.letter = false ∧ t.letter ≠ 35 ∧ ¬ IsDigitOf 10 t.letter := by
  cases t <;> exact ⟨by decide, by decide, fun h => absurd h.2 (by decide)⟩

/-- A directive for Integers with an explicit count. -/
structure Field where
  type : NumberType
  integer : type.isInteger = true
  digits : List UInt8
  digits_ne_nil : digits ≠ []
  isDigit_of_mem : ∀ c ∈ digits, isDigit c = true

namespace Field

/-- The count that the digits stand for. -/
def count (f : Field) : ℕ := numeral 10 0 f.digits

/-- The text of a field. -/
def text (f : Field) : List UInt8 := f.type.letter :: f.digits

/-- The bytes that the elements of a field take. -/
def width (L : LongSize) (f : Field) : ℕ := f.count * f.type.size L false

end Field

/-- The text of a list of fields. -/
def format (fs : List Field) : List UInt8 := fs.flatMap Field.text

/-- The directive of each element. -/
def types (fs : List Field) : List NumberType := fs.flatMap fun f => List.replicate f.count f.type

/-- The elements that the fields take. -/
def total (fs : List Field) : ℕ := (fs.map Field.count).sum

/-- What follows a count is the end of the format or a letter. -/
theorem not_isDigitOf_format (fs : List Field) : ∀ c ∈ (format fs).head?, ¬ IsDigitOf 10 c := by
  intro c hc
  cases fs with
  | nil => cases hc
  | cons f fs =>
      cases hc
      exact (letter_ne f.type).2.2

/-- What `pack` makes of the count of a field. -/
theorem packModifiers_count {ε : Type} {f : Field} (hf : f.count < 2 ^ (L.bits - 1))
    (fs : List Field) (items : ℤ) :
    (packModifiers L f.type.letter (f.digits ++ format fs) items : Except (PackError ε) _)
      = .ok (⟨false, false, f.count⟩, format fs) :=
  packModifiers_digits f.type.letter f.digits_ne_nil f.isDigit_of_mem (not_isDigitOf_format fs)
    (by exact_mod_cast hf) items

/-- What `unpack` makes of it. -/
theorem unpackModifiers_count {f : Field} (hf : f.count < 2 ^ (L.bits - 1)) (fs : List Field)
    (avail : ℤ) : unpackModifiers L f.type.letter (f.digits ++ format fs) avail
      = .ok (⟨false, false, f.count⟩, format fs) :=
  unpackModifiers_digits f.type.letter f.digits_ne_nil f.isDigit_of_mem (not_isDigitOf_format fs)
    (by exact_mod_cast hf) avail

/-! ## Elements -/

/-- The bytes that are appended for each of several elements with their directives. -/
def chunks (ps : List (NumberType × Inum L)) : List (List UInt8) :=
  ps.map fun p => p.1.encode false p.2

theorem chunks_append (ps qs : List (NumberType × Inum L)) :
    chunks (ps ++ qs) = chunks ps ++ chunks qs := List.map_append

/-- All these bytes. -/
def encodeAll (ps : List (NumberType × Inum L)) : List UInt8 :=
  ps.flatMap fun p => p.1.encode false p.2

@[simp] theorem encodeAll_append (ps qs : List (NumberType × Inum L)) :
    encodeAll (ps ++ qs) = encodeAll ps ++ encodeAll qs := List.flatMap_append

theorem flatten_chunks (ps : List (NumberType × Inum L)) : (chunks ps).flatten = encodeAll ps :=
  List.flatMap_def.symm

/-- The elements of the first field come first. -/
theorem types_zip (f : Field) (fs : List Field) {ys : List (Inum L)} (hys : ys.length = f.count)
    (zs : List (Inum L)) : (types (f :: fs)).zip (ys ++ zs)
      = ys.map (Prod.mk f.type) ++ (types fs).zip zs := by
  have hmap : ∀ ys : List (Inum L),
      (List.replicate ys.length f.type).zip ys = ys.map (Prod.mk f.type) := by
    intro ys
    induction ys with
    | nil => rfl
    | cons y ys ih => simp [List.replicate_succ, ih]
  rw [types, List.flatMap_cons, List.zip_append (by simp [hys]), ← hys, hmap]
  rfl

/-- The elements that a field takes, and those that are left. -/
theorem exists_split {f : Field} {fs : List Field} {xs : List (Inum L)}
    (h : xs.length = total (f :: fs)) :
    ∃ ys zs, xs = ys ++ zs ∧ ys.length = f.count ∧ zs.length = total fs := by
  rw [total, List.map_cons, List.sum_cons] at h
  refine ⟨xs.take f.count, xs.drop f.count, (List.take_append_drop _ _).symm, ?_, ?_⟩
  · rw [List.length_take]
    omega
  · rw [List.length_drop, total]
    omega

/-- The bytes of elements of one directive. -/
theorem length_encodeAll_map {t : NumberType} (ht : t.isInteger = true) (ys : List (Inum L)) :
    (encodeAll (ys.map (Prod.mk t))).length = ys.length * t.size L false := by
  induction ys with
  | nil => simp [encodeAll]
  | cons y ys ih =>
      rw [List.map_cons, encodeAll, List.flatMap_cons, List.length_append, length_encode ht]
      rw [encodeAll] at ih
      rw [ih, List.length_cons]
      ring

/-- The bytes of a list of elements are those of its fields. -/
theorem length_encodeAll (fs : List Field) {xs : List (Inum L)} (h : xs.length = total fs) :
    (encodeAll ((types fs).zip xs)).length = (fs.map (Field.width L)).sum := by
  induction fs generalizing xs with
  | nil => rfl
  | cons f fs ih =>
      obtain ⟨ys, zs, rfl, hys, hzs⟩ := exists_split h
      rw [types_zip f fs hys, encodeAll_append, List.length_append,
        length_encodeAll_map f.integer, ih hzs, hys, List.map_cons, List.sum_cons, Field.width]

/-! ## `pack` -/

section Pack

variable {ε : Type} (chars : ByteChars)
  (others : UInt8 → Modifiers → PackState L → Except ε (PackState L))

/-- A directive appends the bytes of the elements it takes. -/
theorem packInteger_append (t : NumberType) (ys zs : List (Inum L)) (res : StringBuffer) :
    (packInteger chars false t ys.length ⟨ys ++ zs, res⟩ : Except (PackError ε) _)
      = .ok ⟨zs, appendAll chars res (chunks (ys.map (Prod.mk t)))⟩ := by
  induction ys generalizing res with
  | nil => rfl
  | cons y ys ih =>
      rw [List.length_cons, packInteger]
      dsimp only [List.cons_append]
      rw [ih]
      rfl

/-- **What `pack` writes for a format.** -/
theorem packLoop_format (fs : List Field) {xs : List (Inum L)} (hlen : xs.length = total fs)
    (hlong : xs.length < 2 ^ (L.bits - 1)) {fuel : ℕ} (hfuel : (format fs).length ≤ fuel)
    (res : StringBuffer) : packLoop chars others fuel (format fs) ⟨xs, res⟩
      = .ok ⟨[], appendAll chars res (chunks ((types fs).zip xs))⟩ := by
  induction fs generalizing xs res fuel with
  | nil =>
      obtain rfl : xs = [] := List.eq_nil_of_length_eq_zero hlen
      cases fuel <;> rfl
  | cons f fs ih =>
      obtain ⟨ys, zs, rfl, hys, hzs⟩ := exists_split hlen
      have hcount : f.count < 2 ^ (L.bits - 1) := by
        rw [List.length_append] at hlong
        omega
      obtain ⟨hspace, hcomment, -⟩ := letter_ne f.type
      have htext : format (f :: fs) = f.type.letter :: (f.digits ++ format fs) := rfl
      rw [htext, List.length_cons, List.length_append] at hfuel
      obtain ⟨fuel, rfl⟩ : ∃ k, fuel = k + 1 := ⟨fuel - 1, by omega⟩
      rw [htext, packLoop]
      simp only [hspace, hcomment, packModifiers_count hcount, if_false, Bool.false_eq_true]
      have hdir : packDirective chars others f.type.letter ⟨false, false, f.count⟩ ⟨ys ++ zs, res⟩
          = .ok ⟨zs, appendAll chars res (chunks (ys.map (Prod.mk f.type)))⟩ := by
        rw [packDirective, directive_letter]
        simp only [f.integer, if_true, Int.toNat_natCast, ← hys]
        exact packInteger_append chars f.type ys zs res
      rw [hdir]
      dsimp only
      rw [ih hzs (by rw [List.length_append] at hlong; omega) (by omega), types_zip f fs hys,
        chunks_append, appendAll_append]

end Pack

/-! ## `unpack` -/

section Unpack

variable {d : ByteString L}

/-- The bytes of a string in its middle. -/
theorem slice_append {a b c : List UInt8} (h : d.bytes = a ++ b ++ c) :
    d.slice a.length b.length = b := by
  have hlen : d.len = a.length + b.length + c.length := by
    rw [ByteString.len, h]
    simp [add_assoc]
  refine List.ext_getElem (by simp [ByteString.slice]) ?_
  intro i hi hb
  have hget : (a ++ b ++ c).getD (a.length + i) 0 = b[i] := by
    rw [List.getD_eq_getElem?_getD, List.append_assoc, List.getElem?_append_right (by omega),
      List.getElem?_append_left (by omega), Nat.add_sub_cancel_left, List.getElem?_eq_getElem hb,
      Option.getD_some]
  simp only [ByteString.slice, List.getElem_map, List.getElem_range, ByteString.get]
  rw [if_pos (by omega), h, ← hget]
  congr 1

/-- A count for which there are enough bytes is left as it is. -/
theorem lengthAdjust_eq (unsigned : Bool) {sz n : ℕ} {avail : ℤ} (hsz : 0 < sz)
    (hn : (n * sz : ℤ) ≤ avail) (h1 : avail < 2 ^ (L.bits - 1)) :
    lengthAdjust L unsigned sz false n avail = ((n : ℤ), 0) := by
  have hbits := two_pow_bits L
  have hsz' : (0 : ℤ) < sz := by exact_mod_cast hsz
  have h0 : 0 ≤ avail := le_trans (by positivity) hn
  have hle : (n : ℤ) ≤ avail / sz := (Int.le_ediv_iff_mul_le hsz').mpr hn
  have hn' : (n : ℤ) ≤ avail := by nlinarith
  rw [lengthAdjust, Int.tdiv_eq_ediv_of_nonneg h0, Int.emod_eq_of_lt h0 (by omega),
    Int.emod_eq_of_lt (by omega) (by omega)]
  simp only [ite_self]
  exact if_neg (by omega)

/-- The element that `unpack` makes of the bytes of an Integer. -/
def reread (p : NumberType × Inum L) : Value L := p.1.decode L false (p.1.encode false p.2)

/-- The loop over the numbers reads the elements of a directive. -/
theorem numberLoop_encodeAll {t : NumberType} (ht : t.isInteger = true) {ys : List (Inum L)}
    {a c : List UInt8} (h : d.bytes = a ++ encodeAll (ys.map (Prod.mk t)) ++ c) :
    (numberLoop d false t ys.length a.length).outputs
      = ys.map fun y => .push (reread (t, y)) := by
  induction ys generalizing a with
  | nil => rfl
  | cons y ys ih =>
      have hsplit : d.bytes = a ++ t.encode false y ++ (encodeAll (ys.map (Prod.mk t)) ++ c) := by
        rw [h, List.map_cons, encodeAll, encodeAll, List.flatMap_cons]
        simp
      have hslice := slice_append hsplit
      rw [length_encode ht] at hslice
      have hnext := ih (a := a ++ t.encode false y) (by rw [hsplit]; simp)
      rw [List.length_append, length_encode ht] at hnext
      push_cast at hnext
      rw [List.length_cons, numberLoop, Effect.cons, hnext, hslice]
      rfl

/-- A directive reads its elements, and leaves the cursor after them. -/
theorem unpackNumber_encodeAll {t : NumberType} (ht : t.isInteger = true) {ys : List (Inum L)}
    {a c : List UInt8} (h : d.bytes = a ++ encodeAll (ys.map (Prod.mk t)) ++ c) :
    unpackNumber d false t a.length false ys.length
      = ⟨ys.map fun y => .push (reread (t, y)),
          .ok ((a ++ encodeAll (ys.map (Prod.mk t))).length : ℕ)⟩ := by
  have hlen : d.len = a.length + ys.length * t.size L false + c.length := by
    rw [ByteString.len, h]
    simp [length_encodeAll_map ht, add_assoc]
  have havail : d.len - a.length < 2 ^ (L.bits - 1) := by
    have : d.len < 2 ^ (L.bits - 1) := d.length_lt
    omega
  have hadjust := lengthAdjust_eq (L := L) (t.unsigned L) (n := ys.length)
    (NumberType.size_pos L t false) (by omega) havail
  have hcursor := numberLoop_cursor (d := d) false t ys.length a.length
  have houtputs := numberLoop_encodeAll ht h
  rw [unpackNumber, hadjust, List.length_append, length_encodeAll_map ht]
  simp only [Int.toNat_natCast, itemAdjust, Int.zero_emod, Int.toNat_zero, List.replicate_zero,
    List.append_nil, ite_self]
  push_cast
  rw [← hcursor, ← houtputs]

/-- **What `unpack` reads with a format.** -/
theorem unpackLoop_format (fs : List Field) {xs : List (Inum L)} (hlen : xs.length = total fs)
    (hlong : xs.length < 2 ^ (L.bits - 1)) {fuel : ℕ} (hfuel : (format fs).length ≤ fuel)
    {a : List UInt8} (h : d.bytes = a ++ encodeAll ((types fs).zip xs)) :
    (unpackLoop d fuel (format fs) a.length).result = .ok d.len ∧
      (unpackLoop d fuel (format fs) a.length).outputs
        = ((types fs).zip xs).map fun p => .push (reread p) := by
  induction fs generalizing xs a fuel with
  | nil =>
      have hd : d.len = a.length := by
        rw [ByteString.len, h]
        simp [types, encodeAll]
      cases fuel <;> simp [format, unpackLoop, types, Effect.done, hd]
  | cons f fs ih =>
      obtain ⟨ys, zs, rfl, hys, hzs⟩ := exists_split hlen
      have hcount : f.count < 2 ^ (L.bits - 1) := by
        rw [List.length_append] at hlong
        omega
      obtain ⟨hspace, hcomment, -⟩ := letter_ne f.type
      have htext : format (f :: fs) = f.type.letter :: (f.digits ++ format fs) := rfl
      rw [htext, List.length_cons, List.length_append] at hfuel
      obtain ⟨fuel, rfl⟩ : ∃ k, fuel = k + 1 := ⟨fuel - 1, by omega⟩
      rw [types_zip f fs hys, encodeAll_append, ← List.append_assoc] at h
      have hread := unpackNumber_encodeAll f.integer h
      have hturn : unpackTurn d f.type.letter (f.digits ++ format fs) a.length
          = ⟨ys.map fun y => .push (reread (f.type, y)),
              .ok (format fs, ((a ++ encodeAll (ys.map (Prod.mk f.type))).length : ℕ))⟩ := by
        rw [unpackTurn]
        simp only [hspace, hcomment, unpackModifiers_count hcount, if_false, Bool.false_eq_true,
          directive_letter, unpackDirective, ← hys, hread]
        rfl
      have hrest : (format fs).length ≤ fuel := by omega
      obtain ⟨hresult, houtputs⟩ := ih hzs (by rw [List.length_append] at hlong; omega) hrest h
      rw [htext, unpackLoop]
      simp only [hturn, hresult, houtputs, types_zip f fs hys, List.map_append, List.map_map]
      exact ⟨trivial, rfl⟩

end Unpack

/-! ## Both together -/

/-- A value is an Integer reduced to the width of a directive, and normalised. -/
def Value.IsReduced (p : NumberType × Inum L) (v : Value L) : Prop :=
  ∃ r : Inum L, v = .integer r ∧ r.Is (p.1.reduce L p.2.toInt)

theorem isInteger_of_mem_types {fs : List Field} {t : NumberType} (h : t ∈ types fs) :
    t.isInteger = true := by
  obtain ⟨f, -, hf⟩ := List.mem_flatMap.mp h
  rw [List.eq_of_mem_replicate hf]
  exact f.integer

theorem isReduced_reread {fs : List Field} {xs : List (Inum L)} {p : NumberType × Inum L}
    (h : p ∈ (types fs).zip xs) : Value.IsReduced p (reread p) :=
  decode_encode (isInteger_of_mem_types (List.of_mem_zip h).1) p.2

/-- What is packed is as long as the widths together, and what is read from it with the same format
is each Integer reduced to the width of its directive. -/
def IntegersRoundTrip {ε : Type} (chars : ByteChars)
    (others : UInt8 → Modifiers → PackState L → Except ε (PackState L)) (fs : List Field)
    (xs : List (Inum L)) : Prop :=
  ∃ res, packPack chars others xs (format fs) = .ok res ∧
    res.clen = (fs.map (Field.width L)).sum ∧
    ∀ d : ByteString L, d.bytes = res.cstr →
      ∃ vs, packUnpack d (format fs) = .ok vs ∧
        List.Forall₂ Value.IsReduced ((types fs).zip xs) vs

/-- **`unpack` after `pack`**, for every format of directives for Integers with explicit counts, and
every array of as many Integers: it reads them exactly when the string keeps the bytes that are
appended to it. -/
theorem integersRoundTrip_iff {ε : Type} (chars : ByteChars)
    (others : UInt8 → Modifiers → PackState L → Except ε (PackState L)) (fs : List Field)
    (xs : List (Inum L)) (hlen : xs.length = total fs) (hlong : xs.length < 2 ^ (L.bits - 1)) :
    IntegersRoundTrip chars others fs xs ↔ KeepsBytes (chunks ((types fs).zip xs)) := by
  have hpack : packPack chars others xs (format fs)
      = .ok (appendAll chars ⟨[], some []⟩ (chunks ((types fs).zip xs))) := by
    rw [packPack, packLoop_format chars others fs hlen hlong le_rfl]
    rfl
  have hwidths := length_encodeAll fs hlen
  rw [← flatten_chunks] at hwidths
  constructor
  · rintro ⟨res, hres, hclen, -⟩
    obtain rfl := Except.ok.inj (hpack.symm.trans hres)
    by_contra hkeeps
    have := lt_clen_appendAll chars hkeeps
    omega
  · intro hkeeps
    have hcstr := cstr_appendAll chars hkeeps
    refine ⟨_, hpack, by rw [StringBuffer.clen_eq, hcstr, hwidths], fun d hd => ?_⟩
    rw [hcstr, flatten_chunks] at hd
    obtain ⟨hresult, houtputs⟩ := unpackLoop_format fs hlen hlong le_rfl (a := []) (d := d) hd
    refine ⟨((types fs).zip xs).map reread, ?_, ?_⟩
    · simp only [packUnpack, List.length_nil, Nat.cast_zero] at hresult houtputs ⊢
      rw [hresult, houtputs, List.map_map]
      rfl
    · rw [List.forall₂_map_right_iff]
      exact List.forall₂_same.mpr fun p hp => isReduced_reread hp

/-- A negative number in a byte, and two quads, one of them a Bignum of three digits: the first byte
is not ASCII. -/
theorem integersRoundTrip_iff_quads : IntegersRoundTrip (L := .lp64) latin1Chars
    (fun _ _ _ => Except.error ())
    [⟨.c, rfl, [49], by simp, by simp [isDigit]⟩, ⟨.Q, rfl, [48, 50], by simp, by simp [isDigit]⟩]
    [.fixnum ⟨-1, by decide, by decide⟩, .bignum ⟨false, [5, 0, 1]⟩,
      .fixnum ⟨7, by decide, by decide⟩] :=
  (integersRoundTrip_iff latin1Chars (fun _ _ _ => Except.error ())
    [⟨.c, rfl, [49], by simp, by simp [isDigit]⟩, ⟨.Q, rfl, [48, 50], by simp, by simp [isDigit]⟩]
    [.fixnum ⟨-1, by decide, by decide⟩, .bignum ⟨false, [5, 0, 1]⟩,
      .fixnum ⟨7, by decide, by decide⟩] (by decide) (by decide)).mpr
    (.inl ⟨255, by decide, by decide⟩)

/-- An ASCII byte, another one, and four bytes of which some are NULs: `[65, 200, 128].pack('C2N')`
has an additional byte. -/
theorem not_integersRoundTrip_C2N : ¬ ∀ (fs : List Field) (xs : List (Inum .lp64)),
    xs.length = total fs → xs.length < 2 ^ (LongSize.lp64.bits - 1) →
      IntegersRoundTrip latin1Chars (fun _ _ _ => Except.error ()) fs xs := by
  intro h
  obtain ⟨res, hres, hlen, -⟩ := h
    [⟨.C, rfl, [50], by simp, by simp [isDigit]⟩, ⟨.N, rfl, [49], by simp, by simp [isDigit]⟩]
    [.fixnum ⟨65, by decide, by decide⟩, .fixnum ⟨200, by decide, by decide⟩,
      .fixnum ⟨128, by decide, by decide⟩] (by decide) (by decide)
  rw [packPack, packLoop_format _ _ _ (by decide) (by decide) le_rfl] at hres
  obtain rfl := Except.ok.inj hres
  revert hlen
  decide

end MacRuby.Pack
