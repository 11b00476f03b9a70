import MacRuby.Pack.Cursor
import MacRuby.Pack.Elements

/-!
# What stands at the cursor

The loops of `unpack` read a string from a cursor on. `Reads d s t` says that `t` is what is left
of the string there; a loop is then followed by recursion on `t`.

## Main definitions

* `Reads` — what is left of the string at a cursor.
* `Accepted` — what stands after a type is a count that `pack` accepts.
* `RoundTrips` — a string comes back through a directive.

## Main results

* `Reads.get`, `Reads.next`, `Reads.skip` — the first bytes, and what is left after them.
* `packItems_single`, `packUnpack_single` — formats of one directive.
* `packEach_append`, `packEach_error` — a directive for several elements.
-/

namespace MacRuby.Pack

variable {L : LongSize} {d : ByteString L} {s : ℤ} {c : UInt8} {t u : List UInt8}

/-- What is left of the string at the cursor is `t`. -/
def Reads (d : ByteString L) (s : ℤ) (t : List UInt8) : Prop :=
  ∃ pre, d.bytes = pre ++ t ∧ s = pre.length

theorem reads_start (d : ByteString L) : Reads d 0 d.bytes := ⟨[], rfl, rfl⟩

namespace Reads

theorem len_eq (h : Reads d s t) : d.len = s + t.length := by
  obtain ⟨pre, hbytes, rfl⟩ := h
  rw [ByteString.len, hbytes, List.length_append]
  push_cast
  rfl

theorem nonneg (h : Reads d s t) : 0 ≤ s := by
  obtain ⟨pre, -, rfl⟩ := h
  omega

theorem lt (h : Reads d s (c :: t)) : s < d.len := by
  rw [h.len_eq, List.length_cons]
  omega

/-- The first byte. -/
theorem get (h : Reads d s (c :: t)) : d.get s = c := by
  have hlt := h.lt
  have hnn := h.nonneg
  obtain ⟨pre, hbytes, rfl⟩ := h
  rw [ByteString.get, if_pos ⟨hnn, hlt⟩, hbytes]
  simp

/-- After the last byte there is a NUL. -/
theorem get_end (h : Reads d s []) : d.get s = 0 := by
  have hlen := h.len_eq
  rw [List.length_nil] at hlen
  rw [ByteString.get, if_neg (by omega), if_pos (by omega)]

theorem eq_len (h : Reads d s []) : s = d.len := by
  rw [h.len_eq, List.length_nil]
  omega

/-- The cursor moves over a list. -/
theorem skip (h : Reads d s (u ++ t)) : Reads d (s + u.length) t := by
  obtain ⟨pre, hbytes, rfl⟩ := h
  exact ⟨pre ++ u, by rw [hbytes, List.append_assoc], by simp⟩

/-- The cursor moves over a byte. -/
theorem next (h : Reads d s (c :: t)) : Reads d (s + 1) t := skip (u := [c]) h

end Reads

/-! ## Counts -/

section Counts

variable {digits rest : List UInt8}

/-- An explicit count is read as it is, if it is a `long`. -/
theorem rubyStrtoul_count (hne : digits ≠ []) (hdigits : ∀ c ∈ digits, isDigit c = true)
    (hrest : ∀ c ∈ rest.head?, ¬ IsDigitOf 10 c)
    (hlt : (numeral 10 0 digits : ℤ) < 2 ^ (L.bits - 1)) :
    rubyStrtoul L (digits ++ rest) 10 = ⟨numeral 10 0 digits, some digits.length, none⟩ ∧
      L.toLong (numeral 10 0 digits) = numeral 10 0 digits := by
  have hbits := two_pow_bits L
  have hpos : (0 : ℤ) < 2 ^ (L.bits - 1) := by positivity
  refine ⟨?_, L.toLong_eq (by omega) hlt⟩
  rw [rubyStrtoul_digits hne hdigits hrest]
  refine if_neg ?_
  intro hle
  have hle' : (2 : ℤ) ^ L.bits ≤ numeral 10 0 digits := by exact_mod_cast hle
  omega

/-- **What `pack` makes of it.** -/
theorem packModifiers_digits {ε : Type} (type : UInt8) (hne : digits ≠ [])
    (hdigits : ∀ c ∈ digits, isDigit c = true) (hrest : ∀ c ∈ rest.head?, ¬ IsDigitOf 10 c)
    (hlt : (numeral 10 0 digits : ℤ) < 2 ^ (L.bits - 1)) (items : ℤ) :
    (packModifiers L type (digits ++ rest) items : Except (PackError ε) _)
      = .ok (⟨false, false, numeral 10 0 digits⟩, rest) := by
  obtain ⟨hstrtoul, hlong⟩ := rubyStrtoul_count hne hdigits hrest hlt
  have hdrop : (digits ++ rest).drop digits.length = rest := List.drop_left
  obtain ⟨c, cs, rfl⟩ := List.exists_cons_of_ne_nil hne
  have hc : isDigit c = true := hdigits c (by simp)
  obtain ⟨-, -, -, hstar, hline, hbang⟩ := ne_of_isDigit hc
  rw [List.cons_append] at hstrtoul hdrop ⊢
  simp only [packModifiers, List.headD_cons, hline, hbang, or_self, if_false, packCount, hstar, hc,
    if_true, hstrtoul, Option.isSome_none, Bool.false_eq_true, Option.getD_some, hlong, hdrop]

/-- A count that is no `long` is refused, or it is read as a negative number. -/
theorem packModifiers_overflow {ε : Type} (type : UInt8) (hne : digits ≠ [])
    (hdigits : ∀ c ∈ digits, isDigit c = true) (hrest : ∀ c ∈ rest.head?, ¬ IsDigitOf 10 c)
    (hle : (2 : ℤ) ^ (L.bits - 1) ≤ numeral 10 0 digits) (items : ℤ) :
    (packModifiers L type (digits ++ rest) items : Except (PackError ε) _) = .error .lengthTooBig ∨
      ∃ len < 0, (packModifiers L type (digits ++ rest) items : Except (PackError ε) _)
        = .ok (⟨false, false, len⟩, rest) := by
  have hbits := two_pow_bits L
  have hstrtoul := rubyStrtoul_digits (L := L) hne hdigits hrest
  have hdrop : (digits ++ rest).drop digits.length = rest := List.drop_left
  obtain ⟨c, cs, hcs⟩ := List.exists_cons_of_ne_nil hne
  have hc : isDigit c = true := hdigits c (by simp [hcs])
  obtain ⟨-, -, -, hstar, hline, hbang⟩ := ne_of_isDigit hc
  have hcons : digits ++ rest = c :: (cs ++ rest) := by rw [hcs, List.cons_append]
  rw [hcons] at hstrtoul hdrop ⊢
  simp only [packModifiers, List.headD_cons, hline, hbang, or_self, if_false, packCount, hstar, hc,
    if_true, hstrtoul]
  split_ifs with hover h
  · exact .inl rfl
  · exact absurd rfl h
  · exact absurd ‹_› (by simp)
  · refine .inr ⟨L.toLong (numeral 10 0 digits), ?_, ?_⟩
    · have hlt : (numeral 10 0 digits : ℤ) < 2 ^ L.bits := by exact_mod_cast not_le.mp hover
      have := toLong_le_sub hle
      omega
    · rw [Option.getD_some, hdrop]

/-- **What `unpack` makes of it.** -/
theorem unpackCount_digits (type : UInt8) (natint : Bool) (hne : digits ≠ [])
    (hdigits : ∀ c ∈ digits, isDigit c = true) (hrest : ∀ c ∈ rest.head?, ¬ IsDigitOf 10 c)
    (hlt : (numeral 10 0 digits : ℤ) < 2 ^ (L.bits - 1)) (avail : ℤ) :
    unpackCount L type natint (digits ++ rest) avail
      = .ok (⟨natint, false, numeral 10 0 digits⟩, rest) := by
  obtain ⟨hstrtoul, hlong⟩ := rubyStrtoul_count hne hdigits hrest hlt
  have hdrop : (digits ++ rest).drop digits.length = rest := List.drop_left
  obtain ⟨c, cs, rfl⟩ := List.exists_cons_of_ne_nil hne
  have hc : isDigit c = true := hdigits c (by simp)
  obtain ⟨-, -, -, hstar, -⟩ := ne_of_isDigit hc
  rw [List.cons_append] at hstrtoul hdrop ⊢
  simp only [unpackCount, hstar, hc, if_true, if_false, hstrtoul, Option.isSome_none,
    Bool.false_eq_true, Option.getD_some, hlong, hdrop]

theorem unpackModifiers_digits (type : UInt8) (hne : digits ≠ [])
    (hdigits : ∀ c ∈ digits, isDigit c = true) (hrest : ∀ c ∈ rest.head?, ¬ IsDigitOf 10 c)
    (hlt : (numeral 10 0 digits : ℤ) < 2 ^ (L.bits - 1)) (avail : ℤ) :
    unpackModifiers L type (digits ++ rest) avail
      = .ok (⟨false, false, numeral 10 0 digits⟩, rest) := by
  have hcount := unpackCount_digits type false hne hdigits hrest hlt avail
  obtain ⟨c, cs, rfl⟩ := List.exists_cons_of_ne_nil hne
  obtain ⟨-, -, -, -, hline, hbang⟩ := ne_of_isDigit (hdigits c (by simp))
  rw [List.cons_append] at hcount ⊢
  simp only [unpackModifiers, List.headD_cons, hline, hbang, or_self, if_false, hcount]

end Counts

/-! ## Formats of one directive -/

section Single

variable {type : UInt8} {p : List UInt8} {m : Modifiers}

/-- What stands after a type is a count that `pack` accepts for a number of elements; it is read as
`m`, and nothing stands after it. -/
def Accepted (L : LongSize) (type : UInt8) (p : List UInt8) (items : ℤ) (m : Modifiers) : Prop :=
  (packModifiers L type p items : Except (PackError ItemError) _) = .ok (m, [])

/-- An explicit count is accepted. -/
theorem accepted_digits {digits : List UInt8} (hne : digits ≠ [])
    (hdigits : ∀ c ∈ digits, isDigit c = true)
    (hlt : (numeral 10 0 digits : ℤ) < 2 ^ (L.bits - 1)) (items : ℤ) :
    Accepted L type digits items ⟨false, false, numeral 10 0 digits⟩ := by
  have hrest : ∀ c ∈ ([] : List UInt8).head?, ¬ IsDigitOf 10 c := nofun
  simpa only [Accepted, List.append_nil] using
    packModifiers_digits type hne hdigits hrest hlt items

theorem packItems_single (chars : ByteChars) (toS : Inum L → List UInt8) (fuel : ℕ)
    (others : UInt8 → Modifiers → ItemState L → Except (PackError ItemError) (ItemState L))
    {ary : List (Item L)} (hspace : isSpace type = false) (hcomment : type ≠ 35)
    (hm : Accepted L type p ary.length m) :
    packItems chars toS fuel others ary (type :: p)
      = (packItem chars toS fuel others type m ⟨ary, []⟩).map ItemState.res := by
  have hrun := packFormat_single L (fun st : ItemState L => st.items.length)
    (packItem chars toS fuel others) ⟨ary, []⟩ hspace hcomment hm
  rw [packItems, hrun]

/-- A count that is refused. -/
theorem packItems_refused (chars : ByteChars) (toS : Inum L → List UInt8) (fuel : ℕ)
    (others : UInt8 → Modifiers → ItemState L → Except (PackError ItemError) (ItemState L))
    {ary : List (Item L)} {e : PackError ItemError} (hspace : isSpace type = false)
    (hcomment : type ≠ 35) (hm : packModifiers L type p ary.length = .error e) :
    packItems chars toS fuel others ary (type :: p) = .error e := by
  rw [packItems, List.length_cons, packFormat]
  simp only [hspace, hcomment, hm, if_false, Bool.false_eq_true]
  rfl

theorem packUnpack_single (d : ByteString L) (hspace : isSpace type = false) (hcomment : type ≠ 35)
    (hm : unpackModifiers L type p d.len = .ok (m, [])) :
    packUnpack d (type :: p) = (unpackDirective d (directive type) m 0).result.map
      fun _ => (unpackDirective d (directive type) m 0).outputs.map Output.element := by
  have hm' : unpackModifiers L type p (d.len - 0) = .ok (m, []) := by rwa [sub_zero]
  rw [packUnpack, List.length_cons, unpackLoop, unpackTurn_directive hspace hcomment hm']
  cases (unpackDirective d (directive type) m 0).result with
  | error e => rfl
  | ok s => cases p <;> simp [Except.map, unpackLoop, Effect.done]

theorem packOne_single {f : Item L → Except ItemError (List UInt8)} {x : Item L} :
    (packOne f ⟨[x], []⟩).map ItemState.res = (f x).mapError .other := by
  rw [packOne]
  cases h : f x <;> simp [h, Except.map, Except.mapError]

/-- A string comes back through a directive: `pack` makes a string of a length that is possible, and
`unpack` makes the string of it again. -/
def RoundTrips (chars : ByteChars) (toS : Inum L → List UInt8) (fuel : ℕ)
    (others : UInt8 → Modifiers → ItemState L → Except (PackError ItemError) (ItemState L))
    (type : UInt8) (p s : List UInt8) : Prop :=
  ∃ res, packItems chars toS fuel others [.string s] (type :: p) = .ok res ∧
    (res.length : ℤ) < 2 ^ (L.bits - 1) ∧
    ∀ d : ByteString L, d.bytes = res → packUnpack d [type] = .ok [.string s]

/-- A directive appends the bytes of the elements it takes. -/
theorem packEach_append {f : Item L → Except ItemError (List UInt8)} {g : Item L → List UInt8}
    {xs : List (Item L)} (h : ∀ x ∈ xs, f x = .ok (g x)) (res : List UInt8) :
    packEach f xs.length ⟨xs, res⟩ = .ok ⟨[], res ++ xs.flatMap g⟩ := by
  induction xs generalizing res with
  | nil => simp [packEach]
  | cons x xs ih =>
      rw [List.length_cons, packEach, packOne]
      simp only [h x (by simp)]
      rw [ih (fun y hy => h y (by simp [hy])), List.flatMap_cons, List.append_assoc]

/-- A directive fails on the first element that it does not take. -/
theorem packEach_error {f : Item L → Except ItemError (List UInt8)} {e : ItemError}
    {xs : List (Item L)} (h : ∀ x ∈ xs, f x = .error e ∨ ∃ b, f x = .ok b)
    (hex : ∃ x ∈ xs, f x = .error e) (res : List UInt8) :
    packEach f xs.length ⟨xs, res⟩ = .error (.other e) := by
  induction xs generalizing res with
  | nil => simp at hex
  | cons x xs ih =>
      rw [List.length_cons, packEach, packOne]
      rcases h x (by simp) with hx | ⟨b, hx⟩
      · simp only [hx]
      · simp only [hx]
        apply ih (fun y hy => h y (by simp [hy]))
        simpa [hx] using hex

end Single

end MacRuby.Pack
