import MacRuby.Lib.MixedRadix
import MacRuby.String.Basic

/-!
# The successor of a string

`String#succ` reads the letters and digits of a string as a numeral of mixed radix, whose places are
apart where there are other characters, and counts up by one.  A carry that is left over is put in
front of the string.  The characters are those of the `CFString`.

## Main definitions

* `succChars`, `rbStrSucc` — the successor.
* `form s`, `alnumValue s` — what is kept when the string counts up, and the number that it is.
* `SuccRight` — the successor is the next numeral.

## Main results

* `succChars_cases` — the successor is the next numeral, or all places are back to their first
  character and there is a further one.
* `succChars_inj` — which strings have the same successor.
* `succRight` — the successors of strings whose further character has its place.
-/

namespace MacRuby

open MixedRadix

/-- The classes of characters of the platform.  Which classes a character beyond ASCII is in depends
on the locale. -/
structure CharClasses where
  iswdigit : UniChar → Bool
  iswalpha : UniChar → Bool
  islower : UniChar → Bool
  iswdigit_ascii : ∀ c < 0x80, iswdigit c = decide (0x30 ≤ c ∧ c ≤ 0x39)
  iswalpha_ascii : ∀ c < 0x80,
    iswalpha c = decide ((0x41 ≤ c ∧ c ≤ 0x5a) ∨ (0x61 ≤ c ∧ c ≤ 0x7a))
  islower_ascii : ∀ c < 0x80, islower c = decide (0x61 ≤ c ∧ c ≤ 0x7a)

section Code

variable (cls : CharClasses)

/-- The loop of `rb_str_succ` from the place before `i` down, with the buffer, `modified` and
`carry` after it. -/
def succLoop : (i : ℕ) → (buf : List UniChar) → (modified : Bool) → (carry : UniChar) →
    List UniChar × Bool × UniChar
  | 0, buf, modified, carry => (buf, modified, carry)
  | i + 1, buf, modified, carry =>
      let c := buf.getD i 0
      if cls.iswdigit c then
        if c ≠ 0x39 then (buf.set i (c + 1), true, 0)
        else succLoop i (buf.set i 0x30) true 0x31
      else if cls.iswalpha c then
        let lower := cls.islower c
        let e : UniChar := if lower then 0x7a else 0x5a
        if c ≠ e then (buf.set i (c + 1), true, 0)
        else
          let a : UniChar := if lower then 0x61 else 0x41
          succLoop i (buf.set i a) true a
      else succLoop i buf modified carry

/-- The characters that `rb_str_succ` makes of those of a string. -/
def succChars (orig : List UniChar) : List UniChar :=
  let len := orig.length
  if len = 0 then orig
  else
    match succLoop cls len orig false 0 with
    | (buf, modified, carry) =>
        if modified = false then buf.set (len - 1) (buf.getD (len - 1) 0 + 1)
        else if carry ≠ 0 then carry :: buf
        else buf

/-- `rb_str_succ`: a new string without byte data, but for an empty string. -/
def rbStrSucc (orig : StringObject) : StringObject :=
  if orig.chars.length = 0 then orig else ⟨succChars cls orig.chars, none⟩

end Code

/-! ## Strings as numerals -/

section Meaning

/-- The letters and digits of ASCII, by how they count. -/
inductive AlnumKind
  | digit | upper | lower
  deriving DecidableEq, Repr

/-- The first character of a kind. -/
def AlnumKind.first : AlnumKind → UniChar
  | digit => 0x30
  | upper => 0x41
  | lower => 0x61

/-- How many characters a kind has. -/
def AlnumKind.radix : AlnumKind → ℕ
  | digit => 10
  | upper => 26
  | lower => 26

/-- The character for a further place. -/
def AlnumKind.one : AlnumKind → UniChar
  | digit => 0x31
  | upper => 0x41
  | lower => 0x61

/-- The kind of a character. -/
def kindOf (c : UniChar) : Option AlnumKind :=
  if 0x30 ≤ c ∧ c ≤ 0x39 then some .digit
  else if 0x41 ≤ c ∧ c ≤ 0x5a then some .upper
  else if 0x61 ≤ c ∧ c ≤ 0x7a then some .lower
  else none

/-- What is kept of a string that counts up: the kinds of its letters and digits, and the other
characters. -/
def form (s : List UniChar) : List (AlnumKind ⊕ UniChar) :=
  s.map fun c => match kindOf c with
    | some kind => .inl kind
    | none => .inr c

/-- The place of a numeral that a character is. -/
def placeOf (c : UniChar) : Option Place :=
  (kindOf c).bind fun kind =>
    if h : c.toNat - kind.first.toNat < kind.radix then
      some ⟨kind.radix, c.toNat - kind.first.toNat, h⟩
    else none

/-- The places of a string, the lowest of which is the last. -/
def places (s : List UniChar) : List Place := s.reverse.filterMap placeOf

/-- The number that the letters and digits of a string are. -/
def alnumValue (s : List UniChar) : ℕ := value (places s)

/-- How many strings have the form of this one. -/
def alnumCapacity (s : List UniChar) : ℕ := capacity (places s)

/-- The string is ASCII and has a letter or a digit. -/
def Counts (s : List UniChar) : Prop := (∀ c ∈ s, c < 0x80) ∧ ∃ c ∈ s, (kindOf c).isSome

instance (s : List UniChar) : Decidable (Counts s) :=
  @instDecidableAnd _ _ (List.decidableBAll _ s) (List.decidableBEx _ s)

/-- There is a further numeral of the form of the string, or its first character is a letter or a
digit, so that a further character has its place in front of it. -/
def HasPlace (s : List UniChar) : Prop :=
  alnumValue s + 1 < alnumCapacity s ∨ ∃ c ∈ s.head?, (kindOf c).isSome

/-- **The next numeral after `s` is `t`.**  It has the form of `s`, or is longer by a first
character of the kind of the highest place, with the other places back to their first character. -/
def NextNumeral (s t : List UniChar) : Prop :=
  (alnumValue s + 1 < alnumCapacity s → form t = form s ∧ alnumValue t = alnumValue s + 1) ∧
  (alnumValue s + 1 = alnumCapacity s → ∀ c ∈ s.head?, ∀ kind ∈ kindOf c,
    ∃ rest, t = kind.one :: rest ∧ form rest = form s ∧ alnumValue rest = 0) ∧
  s.length ≤ t.length

/-- Strings that may have the same successor: of one length they are the same, and others where a
further character has its place differ by a leading zero. -/
def SameButZero (s t : List UniChar) : Prop :=
  (s.length = t.length → s = t) ∧
  (HasPlace s → HasPlace t → s = t ∨ t = 0x30 :: s ∨ s = 0x30 :: t)

/-- **The successor is the next numeral**, and only strings that are the same but for a leading zero
have the same one.  The strings are those whose `CFString` is in step. -/
def SuccRight (cls : CharClasses) : Prop :=
  (∀ s : StringObject, s.InStep → Counts s.text → NextNumeral s.text (rbStrSucc cls s).text) ∧
  ∀ s t : StringObject, s.InStep → t.InStep → Counts s.text → Counts t.text →
    (rbStrSucc cls s).text = (rbStrSucc cls t).text → SameButZero s.text t.text

end Meaning

section Numerals

variable {c : UniChar} {kind : AlnumKind} {s t : List UniChar}

/-- The characters of a kind follow each other. -/
theorem kindOf_eq_some :
    kindOf c = some kind ↔
      kind.first.toNat ≤ c.toNat ∧ c.toNat < kind.first.toNat + kind.radix := by
  have hnat : ∀ a b : UniChar, a ≤ b ↔ a.toNat ≤ b.toNat := fun _ _ => UInt16.le_iff_toNat_le
  simp only [kindOf, hnat]
  cases kind <;> split_ifs <;> simp [AlnumKind.first, AlnumKind.radix] at * <;> omega

/-- What a letter or a digit counts. -/
theorem placeOf_of_kind (h : kindOf c = some kind) :
    ∃ hlt, placeOf c = some ⟨kind.radix, c.toNat - kind.first.toNat, hlt⟩ := by
  have hc := kindOf_eq_some.mp h
  have hlt : c.toNat - kind.first.toNat < kind.radix := by omega
  exact ⟨hlt, by simp [placeOf, h, hlt]⟩

theorem placeOf_of_none (h : kindOf c = none) : placeOf c = none := by
  simp [placeOf, h]

@[simp] theorem places_nil : places [] = [] := rfl

theorem places_append : places (s ++ t) = places t ++ places s := by
  simp [places]

/-- The last letter or digit is the lowest place. -/
theorem alnumValue_concat (h : kindOf c = some kind) :
    alnumValue (s ++ [c]) = (c.toNat - kind.first.toNat) + kind.radix * alnumValue s := by
  obtain ⟨hlt, hp⟩ := placeOf_of_kind h
  simp [alnumValue, places, hp]

theorem alnumCapacity_concat (h : kindOf c = some kind) :
    alnumCapacity (s ++ [c]) = kind.radix * alnumCapacity s := by
  obtain ⟨hlt, hp⟩ := placeOf_of_kind h
  simp [alnumCapacity, places, hp]

/-- Other characters do not count. -/
theorem places_concat_of_none (h : kindOf c = none) : places (s ++ [c]) = places s := by
  simp [places, placeOf_of_none h]

/-- The first letter or digit is the highest place. -/
theorem alnumValue_cons (h : kindOf c = some kind) :
    alnumValue (c :: s) = alnumValue s + alnumCapacity s * (c.toNat - kind.first.toNat) := by
  obtain ⟨hlt, hp⟩ := placeOf_of_kind h
  have hc : places [c] = [⟨kind.radix, c.toNat - kind.first.toNat, hlt⟩] := by
    simp [places, hp]
  have happend : places (c :: s) = places s ++ places [c] := places_append (s := [c])
  rw [alnumValue, happend, value_append, hc]
  simp [alnumValue, alnumCapacity]

theorem alnumValue_lt (s : List UniChar) : alnumValue s < alnumCapacity s :=
  value_lt_capacity _

@[simp] theorem form_nil : form [] = [] := rfl

@[simp] theorem form_append : form (s ++ t) = form s ++ form t := List.map_append

@[simp] theorem length_form : (form s).length = s.length := List.length_map _

/-- The form of a letter or a digit. -/
theorem form_of_kind (h : kindOf c = some kind) : form [c] = [.inl kind] := by
  simp [form, h]

/-- Characters with the same form are of the same kind. -/
theorem kindOf_of_form {c' : UniChar} (h : form [c] = form [c']) :
    kindOf c = kindOf c' ∧ (kindOf c = none → c = c') := by
  cases hc : kindOf c <;> cases hc' : kindOf c' <;> simp_all [form]

/-- The radices are those of the kinds in the form. -/
theorem radices_places_eq (s : List UniChar) :
    radices (places s) =
      (form s).reverse.filterMap (Sum.elim (fun kind => some kind.radix) fun _ => none) := by
  rw [radices, places, List.map_filterMap, form, ← List.map_reverse, List.filterMap_map]
  congr 1
  funext c
  cases hc : kindOf c with
  | none => simp [placeOf_of_none hc, hc]
  | some kind =>
      obtain ⟨_, hp⟩ := placeOf_of_kind hc
      simp [hp, hc]

theorem radices_places (h : form s = form t) : radices (places s) = radices (places t) := by
  rw [radices_places_eq, h, radices_places_eq]

theorem alnumCapacity_congr (h : form s = form t) : alnumCapacity s = alnumCapacity t :=
  capacity_congr (radices_places h)

/-- **A string is known by its form and the number that it is.** -/
theorem eq_of_form_of_value (hf : form s = form t) (hv : alnumValue s = alnumValue t) : s = t := by
  have hplaces : places s = places t := value_inj (radices_places hf) hv
  clear hv
  induction s using List.reverseRecOn generalizing t with
  | nil => exact (List.map_eq_nil_iff.mp hf.symm).symm
  | append_singleton s c ih =>
      cases t using List.reverseRecOn with
      | nil => simpa using congrArg List.length hf
      | append_singleton t d =>
          rw [form_append, form_append] at hf
          obtain ⟨hst, hcd⟩ := List.append_inj' hf (by simp)
          obtain ⟨hkind, hother⟩ := kindOf_of_form hcd
          cases hc : kindOf c with
          | none =>
              rw [places_concat_of_none hc, places_concat_of_none (hkind ▸ hc)] at hplaces
              rw [ih hst hplaces, hother hc]
          | some kind =>
              have hd : kindOf d = some kind := hkind ▸ hc
              obtain ⟨_, hp⟩ := placeOf_of_kind hc
              obtain ⟨_, hq⟩ := placeOf_of_kind hd
              have hc' := kindOf_eq_some.mp hc
              have hd' := kindOf_eq_some.mp hd
              have hboth : c.toNat - kind.first.toNat = d.toNat - kind.first.toNat ∧
                  places s = places t := by
                simpa [places, hp, hq] using hplaces
              have hchar : c = d := UInt16.toNat_inj.mp (by omega)
              rw [ih hst hboth.2, hchar]

end Numerals

/-! ## What the loop does -/

section Loop

variable {cls : CharClasses} {c : UniChar} {kind : AlnumKind}

/-- What is carried out of a string whose letters and digits are all the last of their kind. -/
def carryOf (k : UniChar) (s : List UniChar) : UniChar :=
  match s.findSome? kindOf with
  | some kind => kind.one
  | none => k

/-- What the loop makes of a string: the next numeral, or all places are back to their first
character. -/
inductive Advanced (s : List UniChar) (modified : Bool) (k : UniChar) :
    List UniChar × Bool × UniChar → Prop
  | counted {t : List UniChar} : form t = form s → alnumValue t = alnumValue s + 1 →
      Advanced s modified k (t, true, 0)
  | wrapped {t : List UniChar} : form t = form s → alnumValue t = 0 →
      alnumValue s + 1 = alnumCapacity s →
      Advanced s modified k (t, modified || s.any fun c => (kindOf c).isSome, carryOf k s)

/-- The loop does not see what is after its place. -/
theorem succLoop_append (i : ℕ) (s t : List UniChar) (modified : Bool) (k : UniChar)
    (hi : i ≤ s.length) :
    succLoop cls i (s ++ t) modified k =
      ((succLoop cls i s modified k).1 ++ t, (succLoop cls i s modified k).2) := by
  induction i generalizing s modified k with
  | zero => rfl
  | succ i ih =>
      have hget : (s ++ t).getD i 0 = s.getD i 0 := by
        simp [List.getD_eq_getElem?_getD, List.getElem?_append_left (show i < s.length by omega)]
      have hset : ∀ d : UniChar, (s ++ t).set i d = s.set i d ++ t := fun d =>
        List.set_append_left i d (by omega)
      have hlen : ∀ d : UniChar, i ≤ (s.set i d).length := fun d => by
        rw [List.length_set]
        omega
      simp only [succLoop, hget, hset]
      split_ifs <;> first | rfl | exact ih _ _ _ (hlen _) | exact ih _ _ _ (by omega)

/-- One place of the loop. -/
theorem succLoop_concat (s : List UniChar) (modified : Bool) (k : UniChar) :
    succLoop cls (s.length + 1) (s ++ [c]) modified k =
      if cls.iswdigit c then
        if c ≠ 0x39 then (s ++ [c + 1], true, 0)
        else ((succLoop cls s.length s true 0x31).1 ++ [0x30],
          (succLoop cls s.length s true 0x31).2)
      else if cls.iswalpha c then
        if c ≠ (if cls.islower c then 0x7a else 0x5a) then (s ++ [c + 1], true, 0)
        else
          let a : UniChar := if cls.islower c then 0x61 else 0x41
          ((succLoop cls s.length s true a).1 ++ [a], (succLoop cls s.length s true a).2)
      else ((succLoop cls s.length s modified k).1 ++ [c],
        (succLoop cls s.length s modified k).2) := by
  have hset : ∀ d : UniChar, (s ++ [c]).set s.length d = s ++ [d] := fun d => by
    rw [List.set_append_right _ _ le_rfl, Nat.sub_self, List.set_cons_zero]
  have hget : (s ++ [c]).getD s.length 0 = c := by simp
  simp only [succLoop, hget, hset]
  split_ifs <;> first | rfl | exact succLoop_append _ _ _ _ _ le_rfl

/-- Letters and digits are in ASCII. -/
theorem ascii_of_kind (h : kindOf c = some kind) : c < 0x80 := by
  have hc := kindOf_eq_some.mp h
  rw [UInt16.lt_iff_toNat_lt]
  cases kind <;> simp [AlnumKind.first, AlnumKind.radix] at hc ⊢ <;> omega

/-- The kind of a character says in which classes it is. -/
theorem classes_of_kind (h : kindOf c = some kind) :
    cls.iswdigit c = decide (kind = .digit) ∧ cls.iswalpha c = decide (kind ≠ .digit) ∧
      cls.islower c = decide (kind = .lower) := by
  have hc := kindOf_eq_some.mp h
  have hascii := ascii_of_kind h
  rw [cls.iswdigit_ascii c hascii, cls.iswalpha_ascii c hascii, cls.islower_ascii c hascii]
  simp only [UInt16.le_iff_toNat_le, decide_eq_decide]
  cases kind <;> simp [AlnumKind.first, AlnumKind.radix] at hc ⊢ <;> omega

/-- A letter or a digit counts up, unless it is the last of its kind. -/
theorem succLoop_kind (h : kindOf c = some kind) (s : List UniChar) (modified : Bool)
    (k : UniChar) :
    succLoop cls (s.length + 1) (s ++ [c]) modified k =
      if c.toNat + 1 < kind.first.toNat + kind.radix then (s ++ [c + 1], true, 0)
      else ((succLoop cls s.length s true kind.one).1 ++ [kind.first],
        (succLoop cls s.length s true kind.one).2) := by
  have hc := kindOf_eq_some.mp h
  obtain ⟨hdigit, halpha, hlower⟩ :
      cls.iswdigit c = decide (kind = .digit) ∧ cls.iswalpha c = decide (kind ≠ .digit) ∧
        cls.islower c = decide (kind = .lower) := classes_of_kind h
  have hlast : ∀ e : UniChar, e.toNat + 1 = kind.first.toNat + kind.radix →
      (c ≠ e ↔ c.toNat + 1 < kind.first.toNat + kind.radix) := fun e he => by
    rw [ne_eq, ← UInt16.toNat_inj]
    omega
  rw [succLoop_concat, hdigit, halpha, hlower]
  cases kind with
  | digit => exact (if_pos rfl).trans (if_congr (hlast 0x39 rfl) rfl rfl)
  | upper =>
      rw [if_neg (by decide), if_pos (by decide)]
      exact if_congr (hlast 0x5a rfl) rfl rfl
  | lower =>
      rw [if_neg (by decide), if_pos (by decide)]
      exact if_congr (hlast 0x7a rfl) rfl rfl

/-- Other characters are passed over. -/
theorem succLoop_none (h : kindOf c = none) (hascii : c < 0x80) (s : List UniChar)
    (modified : Bool) (k : UniChar) :
    succLoop cls (s.length + 1) (s ++ [c]) modified k =
      ((succLoop cls s.length s modified k).1 ++ [c],
        (succLoop cls s.length s modified k).2) := by
  have hdigit : ¬ (0x30 ≤ c ∧ c ≤ 0x39) := fun hc => by simp [kindOf, hc] at h
  have halpha : ¬ ((0x41 ≤ c ∧ c ≤ 0x5a) ∨ (0x61 ≤ c ∧ c ≤ 0x7a)) := fun hc => by
    simp only [kindOf, if_neg hdigit] at h
    split_ifs at h
    tauto
  rw [succLoop_concat, cls.iswdigit_ascii c hascii, cls.iswalpha_ascii c hascii,
    decide_eq_false hdigit, decide_eq_false halpha]
  rfl

/-- The first character of a kind is of the kind, and so is the next one of a character that is not
the last. -/
theorem kindOf_first (kind : AlnumKind) : kindOf kind.first = some kind := by
  cases kind <;> rfl

theorem toNat_next (h : kindOf c = some kind) : (c + 1).toNat = c.toNat + 1 := by
  have hc : c.toNat < 0x80 := UInt16.lt_iff_toNat_lt.mp (ascii_of_kind h)
  rw [UInt16.toNat_add]
  exact Nat.mod_eq_of_lt (by simp; omega)

theorem kindOf_next (h : kindOf c = some kind)
    (hlt : c.toNat + 1 < kind.first.toNat + kind.radix) : kindOf (c + 1) = some kind := by
  have hc := kindOf_eq_some.mp h
  rw [kindOf_eq_some, toNat_next h]
  omega

variable {s : List UniChar} {modified : Bool} {k : UniChar} {r : List UniChar × Bool × UniChar}

/-- Counting up passes over a character that does not count. -/
theorem Advanced.concat_none (h : kindOf c = none) (hr : Advanced s modified k r) :
    Advanced (s ++ [c]) modified k (r.1 ++ [c], r.2) := by
  have hcarry : carryOf k (s ++ [c]) = carryOf k s := by simp [carryOf, List.findSome?_append, h]
  cases hr with
  | @counted t hform hvalue =>
      refine .counted (by simp [hform]) ?_
      simpa only [alnumValue, places_concat_of_none h] using hvalue
  | @wrapped t hform hzero hfull =>
      have hwrap : Advanced (s ++ [c]) modified k (t ++ [c],
          modified || (s ++ [c]).any fun c => (kindOf c).isSome, carryOf k (s ++ [c])) := by
        refine .wrapped (by simp [hform]) ?_ ?_
        · simpa only [alnumValue, places_concat_of_none h] using hzero
        · simpa only [alnumValue, alnumCapacity, places_concat_of_none h] using hfull
      simpa [hcarry, h] using hwrap

/-- Counting up goes on after a place that is full. -/
theorem Advanced.concat_kind (h : kindOf c = some kind)
    (hlast : ¬ c.toNat + 1 < kind.first.toNat + kind.radix) (hr : Advanced s true kind.one r) :
    Advanced (s ++ [c]) modified k (r.1 ++ [kind.first], r.2) := by
  have hc := kindOf_eq_some.mp h
  have hform : form [kind.first] = form [c] := by
    rw [form_of_kind (kindOf_first kind), form_of_kind h]
  have hfirst (t : List UniChar) : alnumValue (t ++ [kind.first]) = kind.radix * alnumValue t := by
    rw [alnumValue_concat (kindOf_first kind), Nat.sub_self, Nat.zero_add]
  have hfull : alnumValue (s ++ [c]) + 1 = kind.radix * (alnumValue s + 1) := by
    rw [alnumValue_concat h, Nat.mul_add, Nat.mul_one]
    omega
  have hcarry : carryOf k (s ++ [c]) = carryOf kind.one s := by
    rw [carryOf, carryOf, List.findSome?_append]
    cases s.findSome? kindOf <;> simp [h]
  cases hr with
  | @counted t hform' hvalue =>
      refine .counted (by rw [form_append, form_append, hform, hform']) ?_
      rw [hfull, hfirst, hvalue]
  | @wrapped t hform' hzero hfull' =>
      have hwrap : Advanced (s ++ [c]) modified k (t ++ [kind.first],
          modified || (s ++ [c]).any fun c => (kindOf c).isSome, carryOf k (s ++ [c])) := by
        refine .wrapped (by rw [form_append, form_append, hform, hform']) ?_ ?_
        · rw [hfirst, hzero, Nat.mul_zero]
        · rw [hfull, alnumCapacity_concat h, hfull']
      simpa [hcarry, h] using hwrap

/-- **The loop counts up by one.** -/
theorem succLoop_advanced (s : List UniChar) (hs : ∀ c ∈ s, c < 0x80) (modified : Bool)
    (k : UniChar) : Advanced s modified k (succLoop cls s.length s modified k) := by
  induction s using List.reverseRecOn generalizing modified k with
  | nil =>
      have hnil : Advanced [] modified k ([], modified || false, k) := .wrapped rfl rfl rfl
      simpa [succLoop] using hnil
  | append_singleton s c ih =>
      have ih' := ih fun d hd => hs d (List.mem_append_left _ hd)
      rw [List.length_append, List.length_singleton]
      cases hc : kindOf c with
      | none =>
          rw [succLoop_none hc (hs c (by simp))]
          exact (ih' modified k).concat_none hc
      | some kind =>
          rw [succLoop_kind hc]
          split_ifs with hlt
          · have hform : form [c + 1] = form [c] := by
              rw [form_of_kind (kindOf_next hc hlt), form_of_kind hc]
            refine .counted (by rw [form_append, form_append, hform]) ?_
            have hc' := kindOf_eq_some.mp hc
            rw [alnumValue_concat (kindOf_next hc hlt), alnumValue_concat hc, toNat_next hc]
            omega
          · exact (ih' true kind.one).concat_kind hc hlt

end Loop

/-! ## The successor -/

section Succ

variable {cls : CharClasses} {s t : List UniChar} {kind : AlnumKind}

theorem Counts.length_pos (hs : Counts s) : 0 < s.length := by
  obtain ⟨c, hc, -⟩ := hs.2
  exact List.length_pos_of_mem hc

theorem Counts.findSome (hs : Counts s) : ∃ kind, s.findSome? kindOf = some kind := by
  refine Option.isSome_iff_exists.mp ?_
  rw [List.findSome?_isSome_iff]
  exact hs.2

theorem AlnumKind.one_ne_zero (kind : AlnumKind) : kind.one ≠ 0 := by
  cases kind <;> decide

/-- **The successor is the next numeral**, or all places are back to their first character and a
further one is in front of the string. -/
theorem succChars_cases (cls : CharClasses) (hs : Counts s) :
    (form (succChars cls s) = form s ∧ alnumValue (succChars cls s) = alnumValue s + 1) ∨
      (alnumValue s + 1 = alnumCapacity s ∧ ∃ rest kind, s.findSome? kindOf = some kind ∧
        succChars cls s = kind.one :: rest ∧ form rest = form s ∧ alnumValue rest = 0) := by
  have hany : s.any (fun c => (kindOf c).isSome) = true := by
    simpa [List.any_eq_true] using hs.2
  have hloop : Advanced s false 0 (succLoop cls s.length s false 0) :=
    succLoop_advanced s hs.1 false 0
  rw [succChars, if_neg hs.length_pos.ne']
  cases hrun : succLoop cls s.length s false 0 with
  | mk buf rest =>
      rw [hrun] at hloop
      cases hloop with
      | counted hform hvalue => exact .inl (by simp [hform, hvalue])
      | wrapped hform hzero hfull =>
          obtain ⟨kind, hkind⟩ := hs.findSome
          have hcarry : carryOf 0 s = kind.one := by simp [carryOf, hkind]
          refine .inr ⟨hfull, buf, kind, hkind, ?_, hform, hzero⟩
          simp [hany, hcarry, kind.one_ne_zero]

/-- **Which strings have the same successor**: a string that counts up to one of another form is
this string with a leading zero. -/
theorem eq_zero_cons_of_wrapped {rest : List UniChar} (hfull : alnumValue s + 1 = alnumCapacity s)
    (hrest : form rest = form s) (hzero : alnumValue rest = 0)
    (hform : form (kind.one :: rest) = form t)
    (hvalue : alnumValue (kind.one :: rest) = alnumValue t + 1) : t = 0x30 :: s := by
  have hone : kindOf kind.one = some kind := by cases kind <;> rfl
  have hcap : alnumCapacity rest = alnumCapacity s := alnumCapacity_congr hrest
  cases t with
  | nil => simp [form] at hform
  | cons c t =>
      have hparts : form [kind.one] ++ form rest = form [c] ++ form t := hform
      obtain ⟨hhead, htail⟩ := List.append_inj hparts rfl
      have hc : kindOf c = some kind := (kindOf_of_form hhead).1.symm.trans hone
      have hc' := kindOf_eq_some.mp hc
      have hcap' : alnumCapacity t = alnumCapacity s := by rw [← hcap, alnumCapacity_congr htail]
      have ht := alnumValue_lt t
      rw [alnumValue_cons hone, alnumValue_cons hc, hzero, hcap, hcap'] at hvalue
      rw [hcap'] at ht
      cases kind with
      | upper => simp [AlnumKind.one, AlnumKind.first] at hvalue
      | lower => simp [AlnumKind.one, AlnumKind.first] at hvalue
      | digit =>
          have hunit : (AlnumKind.one .digit).toNat - (AlnumKind.first .digit).toNat = 1 := rfl
          rw [hunit, Nat.mul_one, Nat.zero_add] at hvalue
          have hdigit : c.toNat - (AlnumKind.first .digit).toNat = 0 := by
            by_contra hne
            have := Nat.le_mul_of_pos_right (alnumCapacity s) (Nat.pos_of_ne_zero hne)
            omega
          have hzero' : c = 0x30 :=
            UInt16.toNat_inj.mp (Nat.le_antisymm (Nat.sub_eq_zero_iff_le.mp hdigit) hc'.1)
          rw [hdigit, Nat.mul_zero, Nat.add_zero] at hvalue
          have hsame : t = s := eq_of_form_of_value (htail.symm.trans hrest) (by omega)
          rw [hzero', hsame]

/-- **Which strings have the same successor.** -/
theorem succChars_inj (hs : Counts s) (ht : Counts t) (h : succChars cls s = succChars cls t) :
    s = t ∨ t = 0x30 :: s ∨ s = 0x30 :: t := by
  obtain ⟨hfs, hvs⟩ | ⟨hfulls, rest, kind, -, hrs, hfs, hzs⟩ := succChars_cases cls hs
  · obtain ⟨hft, hvt⟩ | ⟨hfullt, rest, kind, -, hrt, hft, hzt⟩ := succChars_cases cls ht
    · exact .inl (eq_of_form_of_value (by rw [← hfs, h, hft]) (by rw [h] at hvs; omega))
    · rw [h, hrt] at hfs hvs
      exact .inr (.inr (eq_zero_cons_of_wrapped hfullt hft hzt hfs hvs))
  · obtain ⟨hft, hvt⟩ | ⟨hfullt, rest', kind', -, hrt, hft, hzt⟩ := succChars_cases cls ht
    · rw [← h, hrs] at hft hvt
      exact .inr (.inl (eq_zero_cons_of_wrapped hfulls hfs hzs hft hvt))
    · rw [hrs, hrt] at h
      have hrest : rest = rest' := (List.cons.inj h).2
      have hform : form s = form t := by rw [← hfs, hrest, hft]
      have hcap := alnumCapacity_congr hform
      exact .inl (eq_of_form_of_value hform (by omega))

/-- The successor is at most one character longer, and never shorter. -/
theorem length_succChars (cls : CharClasses) (hs : Counts s) :
    s.length ≤ (succChars cls s).length ∧ (succChars cls s).length ≤ s.length + 1 := by
  obtain ⟨hform, -⟩ | ⟨-, rest, kind, -, hr, hform, -⟩ := succChars_cases cls hs
  · have hlen : (succChars cls s).length = s.length := by rw [← length_form, hform, length_form]
    omega
  · have hlen : rest.length = s.length := by rw [← length_form, hform, length_form]
    rw [hr, List.length_cons]
    omega

/-- What the successor of a string in step spells. -/
theorem text_rbStrSucc (cls : CharClasses) {s : StringObject} (hin : s.InStep) :
    (rbStrSucc cls s).text = succChars cls s.text := by
  rw [show s.text = s.chars from hin]
  unfold rbStrSucc
  split
  · rename_i hzero
    rw [show s.text = s.chars from hin]
    exact (if_pos hzero).symm
  · rfl

theorem nextNumeral_succChars (cls : CharClasses) (hs : Counts s) :
    NextNumeral s (succChars cls s) := by
  refine ⟨fun hlt => ?_, fun hfull c hc kind hkind => ?_, (length_succChars cls hs).1⟩
  · obtain hnext | ⟨hfull, -⟩ := succChars_cases cls hs
    · exact hnext
    · omega
  · obtain ⟨hform, hvalue⟩ | ⟨-, rest, kind', hkind', hr, hform, hzero⟩ := succChars_cases cls hs
    · have hlt := alnumValue_lt (succChars cls s)
      have hcap := alnumCapacity_congr hform
      omega
    · have hfirst : s.findSome? kindOf = some kind := by
        cases s with
        | nil => simp at hc
        | cons d s =>
            have hd : d = c := by simpa using hc
            rw [hd, List.findSome?_cons_of_isSome (by simp [Option.mem_def.mp hkind])]
            exact hkind
      have hsame : kind' = kind := by simpa [hkind'] using hfirst
      exact ⟨rest, hsame ▸ hr, hform, hzero⟩

theorem sameButZero_of_succChars (hs : Counts s) (ht : Counts t)
    (h : succChars cls s = succChars cls t) : SameButZero s t := by
  refine ⟨fun hlen => ?_, fun _ _ => succChars_inj hs ht h⟩
  have hcons : ∀ {a b : List UniChar}, a.length = b.length → b ≠ 0x30 :: a :=
    fun hab heq => by simp [heq] at hab
  obtain hst | hst | hst := succChars_inj hs ht h
  · exact hst
  · exact absurd hst (hcons hlen)
  · exact absurd hst (hcons hlen.symm)

/-- **The successor of a string in step is the next numeral**, and strings of one length have
different ones. -/
theorem succRight (cls : CharClasses) : SuccRight cls := by
  refine ⟨fun s hin hs => ?_, fun s t hin hin' hs ht h => ?_⟩
  · rw [text_rbStrSucc cls hin]
    exact nextNumeral_succChars cls hs
  · rw [text_rbStrSucc cls hin, text_rbStrSucc cls hin'] at h
    exact sameButZero_of_succChars hs ht h

end Succ

/-- The classes without any character beyond ASCII. -/
def asciiClasses : CharClasses where
  iswdigit c := decide (0x30 ≤ c ∧ c ≤ 0x39)
  iswalpha c := decide ((0x41 ≤ c ∧ c ≤ 0x5a) ∨ (0x61 ≤ c ∧ c ≤ 0x7a))
  islower c := decide (0x61 ≤ c ∧ c ≤ 0x7a)
  iswdigit_ascii _ _ := rfl
  iswalpha_ascii _ _ := rfl
  islower_ascii _ _ := rfl

/-- `"9"` and `"09"` have the same successor, `"10"`; and the successor of the literal `"a\0b"` is
made of three spaces. -/
theorem not_rbStrSucc_injective :
    (¬ ∀ s t : StringObject, Counts s.text → Counts t.text →
      (rbStrSucc asciiClasses s).text = (rbStrSucc asciiClasses t).text → s.text = t.text) ∧
    Counts (strNew asciiEncoding [0x61, 0, 0x62] 3).text ∧
    (rbStrSucc asciiClasses (strNew asciiEncoding [0x61, 0, 0x62] 3)).text =
      [0x20, 0x20, 0x21] := by
  refine ⟨fun h => ?_, by decide, by decide⟩
  have hsame : (rbStrSucc asciiClasses ⟨[0x39], none⟩).text =
      (rbStrSucc asciiClasses ⟨[0x30, 0x39], none⟩).text := by decide
  have hs : Counts (StringObject.text ⟨[0x39], none⟩) := by decide
  have ht : Counts (StringObject.text ⟨[0x30, 0x39], none⟩) := by decide
  exact absurd (h ⟨[0x39], none⟩ ⟨[0x30, 0x39], none⟩ hs ht hsame) (by decide)

end MacRuby
