import Mathlib.Data.List.Lex
import Mathlib.Data.Prod.Lex
import MacRuby.Lib.Walk
import MacRuby.Numeric.Long
import MacRuby.String.Succ

/-!
# Counting from a string to another one

`String#upto` yields a string, its successor, and so on until it comes to the successor of the last
string, to this string itself, or to a string that is longer.  Two strings of one character are
counted through their code points.

## Main definitions

* `rbStrUpto` — the strings that are yielded.
* `UptoRight` — they are the successors of the first string, and stop at the last one.
* `Overlooks` — the last string is come to and not seen.
* `StrPair.Compares` — the strings are compared by their characters.

## Main results

* `climbs_succChars` — a successor has less room than its string, or is longer.
* `uptoRight_iff` — when the right strings are yielded.
-/

namespace MacRuby

open Walk

/-- A string object: its contents, and where it is. -/
structure StrObject extends StringObject where
  address : ℕ

/-- Two string objects, which are the same one when they are at the same place. -/
structure StrPair where
  first : StrObject
  last : StrObject
  same : first.address = last.address → first = last

/-- `CFStringCompare` without options: the order of two strings, which on ASCII is the lexicographic
one. -/
structure CFCompare where
  compare : List UniChar → List UniChar → ℤ
  compare_pos : ∀ s t : List UniChar, (∀ c ∈ s, c < 0x80) → (∀ c ∈ t, c < 0x80) →
    (0 < compare s t ↔ t < s)
  compare_zero : ∀ s t : List UniChar, (∀ c ∈ s, c < 0x80) → (∀ c ∈ t, c < 0x80) →
    (compare s t = 0 ↔ s = t)

section Code

variable (enc : CFEncoding)

/-- `rb_str_equal`, with its `int len`: by the bytes when there is byte data, and `CFEqual` when
there is none.  The byte data that `RSTRING_PTR` adds to a string which is not ASCII is left out. -/
def rbStrEqual (str1 str2 : StrObject) : Bool :=
  if str1.address = str2.address then true
  else
    let len := toCInt str1.clen
    if len ≠ str2.clen then false
    else if str1.data.isSome = true ∨ str2.data.isSome = true then
      decide ((str1.cstr enc).take len.toNat = (str2.cstr enc).take len.toNat)
    else decide (str1.chars = str2.chars)

variable (cls : CharClasses)

/-- `rb_str_succ` on an object, when the next new object is at `fresh`. -/
def succObject (fresh : ℕ) (orig : StrObject) : StrObject :=
  if orig.chars.length = 0 then orig else ⟨rbStrSucc cls orig.toStringObject, fresh⟩

/-- The loop of `rb_str_upto` over characters. -/
def uptoChars (excl : Bool) (e : UniChar) : (fuel : ℕ) → (c : UniChar) →
    Option (List (List UniChar))
  | 0, _ => none
  | fuel + 1, c =>
      if excl = false ∧ c = e then some [[c]]
      else if excl = true ∧ c + 1 = e then some [[c]]
      else ([c] :: ·) <$> uptoChars excl e fuel (c + 1)

/-- The loop of `rb_str_upto` over strings. -/
def uptoLoop (excl : Bool) (last afterEnd : StrObject) : (fuel fresh : ℕ) →
    (current : StrObject) → Option (List (List UniChar))
  | 0, _, _ => none
  | fuel + 1, fresh, current =>
      if rbStrEqual enc current afterEnd then some []
      else if excl = false ∧ rbStrEqual enc current last = true then some [current.text]
      else
        let current' := succObject cls fresh current
        if excl = true ∧ rbStrEqual enc current' last = true then some [current.text]
        else if current'.clen > last.clen ∨ current'.clen = 0 then some [current.text]
        else (current.text :: ·) <$> uptoLoop excl last afterEnd fuel (fresh + 1) current'

/-- `rb_str_upto`, with what the strings that are yielded spell. -/
def rbStrUpto (cmp : CFCompare) (excl : Bool) (args : StrPair) (fuel : ℕ) :
    Option (List (List UniChar)) :=
  if args.first.clen = 1 ∧ args.last.clen = 1 then
    let c := args.first.chars.getD 0 0
    let e := args.last.chars.getD 0 0
    if c > e ∨ (excl = true ∧ c = e) then some [] else uptoChars excl e fuel c
  else
    let n := cmp.compare args.first.chars args.last.chars
    if n > 0 ∨ (excl = true ∧ n = 0) then some []
    else
      let fresh := max args.first.address args.last.address + 1
      let afterEnd := succObject cls fresh args.last
      uptoLoop enc cls excl args.last afterEnd fuel (fresh + 1) args.first

end Code

/-! ## What is yielded -/

section Meaning

variable (enc : CFEncoding) (cls : CharClasses)

/-- The strings that `String#upto` counts through: the successors of the first string, or the code
points from its character on when both strings have length one. -/
def uptoChain (beg last : List UniChar) (i : ℕ) : List UniChar :=
  if beg.length = 1 ∧ last.length = 1 then beg.map (· + UInt16.ofNat i)
  else (succChars cls)^[i] beg

/-- **The strings that are yielded are the first ones of the chain, none is longer than the longer
string, and they end with the last string if this is among them**, which it is not in exclusive
mode.  The code points are between the two characters. -/
def UptoRight (cmp : CFCompare) (excl : Bool) (args : StrPair) : Prop :=
  ∃ ys, Fuel.Settles (rbStrUpto enc cls cmp excl args) (some ys) ∧
    ys = (List.range ys.length).map (uptoChain cls args.first.text args.last.text) ∧
    (∀ y ∈ ys, y.length ≤ max args.first.text.length args.last.text.length) ∧
    (∀ b e, args.first.text = [b] → args.last.text = [e] →
      ∀ y ∈ ys, ∃ c, y = [c] ∧ b ≤ c ∧ c ≤ e) ∧
    (excl = false → args.last.text ∈ ys → ys.getLast? = some args.last.text) ∧
    (excl = true → args.last.text ∉ ys)

/-- The last string is too long for its length to be an `int`, and the loop comes to it and does
not see it: in exclusive mode after the first string, and in inclusive mode as another object that
does not get longer next. -/
def Overlooks (excl : Bool) (args : StrPair) : Prop :=
  2 ^ 31 ≤ args.last.chars.length ∧ ¬ args.last.chars < args.first.chars ∧
    (∃ k, (succChars cls)^[k] args.first.chars = args.last.chars) ∧
    if excl then args.first.chars ≠ args.last.chars
    else args.first.address ≠ args.last.address ∧
      (succChars cls args.last.chars).length = args.last.chars.length

end Meaning

/-! ## Successors get longer -/

section Climb

variable {cls : CharClasses} {s t : List UniChar} {c : UniChar}

/-- The string has no letter and no digit, and only its last character may be beyond ASCII. -/
def Bare (s : List UniChar) : Prop :=
  ∃ front c, s = front ++ [c] ∧ (∀ d ∈ front, d < 0x80 ∧ kindOf d = none) ∧ kindOf c = none

/-- The strings that counting up from an ASCII string comes to. -/
def Climbs (s : List UniChar) : Prop := Counts s ∨ Bare s

/-- How far a character is from the next letter or digit. -/
def distance (c : UniChar) : ℕ :=
  if c.toNat < 0x30 then 0x30 - c.toNat
  else if c.toNat < 0x41 then 0x41 - c.toNat
  else if c.toNat < 0x61 then 0x61 - c.toNat
  else 0x10030 - c.toNat

/-- A bound for how often a string counts up before it gets longer. -/
def room (s : List UniChar) : ℕ :=
  if s.any fun c => (kindOf c).isSome then alnumCapacity s - alnumValue s
  else 26 + distance (s.getLast?.getD 0)

theorem Climbs.ne_nil (hs : Climbs s) : s ≠ [] := by
  cases hs with
  | inl hcounts => exact List.ne_nil_of_length_pos hcounts.length_pos
  | inr hbare =>
      obtain ⟨front, c, rfl, -⟩ := hbare
      simp

theorem climbs_of_ascii (hs : ∀ c ∈ s, c < 0x80) (hne : s ≠ []) : Climbs s := by
  by_cases h : ∃ c ∈ s, (kindOf c).isSome
  · exact .inl ⟨hs, h⟩
  · have hnone : ∀ c ∈ s, kindOf c = none := by simpa using h
    refine .inr ⟨s.dropLast, s.getLast hne, (List.dropLast_append_getLast hne).symm,
      fun d hd => ?_, hnone _ (List.getLast_mem hne)⟩
    have hmem := List.dropLast_subset s hd
    exact ⟨hs d hmem, hnone d hmem⟩

theorem mem_form {x : AlnumKind ⊕ UniChar} : x ∈ form s ↔ ∃ c ∈ s, form [c] = [x] := by
  simp [form]

/-- Strings of one form count, or do not, together. -/
theorem Counts.of_form (hs : Counts s) (h : form t = form s) : Counts t := by
  have hmem : ∀ {a b : List UniChar}, form a = form b → ∀ c ∈ a, ∃ d ∈ b, form [c] = form [d] := by
    intro a b hab c hc
    obtain ⟨x, hx⟩ : ∃ x, form [c] = [x] := ⟨_, rfl⟩
    have hin : x ∈ form b := hab ▸ mem_form.mpr ⟨c, hc, hx⟩
    obtain ⟨d, hd, heq⟩ := mem_form.mp hin
    exact ⟨d, hd, hx.trans heq.symm⟩
  refine ⟨fun c hc => ?_, ?_⟩
  · obtain ⟨d, hd, heq⟩ := hmem h c hc
    cases hkind : kindOf c with
    | some kind => exact ascii_of_kind hkind
    | none => exact (kindOf_of_form heq).2 hkind ▸ hs.1 d hd
  · obtain ⟨c, hc, hkind⟩ := hs.2
    obtain ⟨d, hd, heq⟩ := hmem h.symm c hc
    exact ⟨d, hd, (kindOf_of_form heq).1 ▸ hkind⟩

/-- The loop passes over characters that do not count. -/
theorem succLoop_bare (hs : ∀ d ∈ s, d < 0x80 ∧ kindOf d = none) :
    succLoop cls s.length s false 0 = (s, false, 0) := by
  induction s using List.reverseRecOn with
  | nil => rfl
  | append_singleton s c ih =>
      have hc := hs c (by simp)
      rw [List.length_append, List.length_singleton, succLoop_none hc.2 hc.1,
        ih fun d hd => hs d (List.mem_append_left _ hd)]

/-- Without a letter and a digit the last character counts up. -/
theorem succChars_bare (hs : ∀ d ∈ s, d < 0x80 ∧ kindOf d = none) (hc : kindOf c = none) :
    succChars cls (s ++ [c]) = s ++ [c + 1] := by
  have hne : ∀ e, (kindOf e).isSome → c ≠ e := fun e he heq => by simp [← heq, hc] at he
  have hdigit : c ≠ 0x39 := hne _ (by decide)
  have halpha : c ≠ if cls.islower c then 0x7a else 0x5a := by
    split_ifs
    · exact hne _ (by decide)
    · exact hne _ (by decide)
  rw [succChars, List.length_append, List.length_singleton, if_neg (by omega), succLoop_concat,
    if_pos hdigit, if_pos halpha, succLoop_bare hs]
  split_ifs
  · simp
  · simp
  · simp

theorem places_bare (hs : ∀ d ∈ s, d < 0x80 ∧ kindOf d = none) : places s = [] := by
  rw [places, List.filterMap_eq_nil_iff]
  intro d hd
  exact placeOf_of_none (hs d (List.mem_reverse.mp hd)).2

theorem distance_pos (c : UniChar) : 0 < distance c := by
  have hc := c.toNat_lt
  unfold distance
  split_ifs <;> omega

/-- A character that does not count comes closer to a letter or a digit. -/
theorem distance_next (hc : kindOf c = none) (hc' : kindOf (c + 1) = none) :
    distance (c + 1) < distance c := by
  have hnot : ∀ d : UniChar, kindOf d = none → ∀ kind : AlnumKind,
      ¬ (kind.first.toNat ≤ d.toNat ∧ d.toNat < kind.first.toNat + kind.radix) :=
    fun d hd kind hkind => by simp [kindOf_eq_some.mpr hkind] at hd
  have hd := hnot _ hc .digit
  have hu := hnot _ hc .upper
  have hl := hnot _ hc .lower
  have hd' := hnot _ hc' .digit
  have hu' := hnot _ hc' .upper
  have hl' := hnot _ hc' .lower
  have hlt := c.toNat_lt
  have hnext : (c + 1).toNat = (c.toNat + 1) % 2 ^ 16 := UInt16.toNat_add c 1
  simp only [AlnumKind.first, AlnumKind.radix] at hd hu hl hd' hu' hl'
  simp at hd hu hl hd' hu' hl'
  unfold distance
  rw [hnext] at *
  split_ifs <;> omega

theorem room_counts (hs : Counts s) : room s = alnumCapacity s - alnumValue s := by
  rw [room, if_pos (by simpa [List.any_eq_true] using hs.2)]

theorem room_bare (hs : ∀ d ∈ s, d < 0x80 ∧ kindOf d = none) (hc : kindOf c = none) :
    room (s ++ [c]) = 26 + distance c := by
  have hany : (s ++ [c]).any (fun c => (kindOf c).isSome) = false := by
    simpa [hc] using fun d hd => (hs d hd).2
  simp [room, hany]

/-- **A string that counts up keeps its length and has less room, or gets longer.** -/
theorem climbs_succChars (cls : CharClasses) (hs : Climbs s) :
    Climbs (succChars cls s) ∧
      ((succChars cls s).length = s.length ∧ room (succChars cls s) < room s ∨
        (succChars cls s).length = s.length + 1) := by
  cases hs with
  | inl hcounts =>
      obtain ⟨hform, hvalue⟩ | ⟨-, rest, kind, -, hr, hform, -⟩ := succChars_cases cls hcounts
      · have hcounts' := hcounts.of_form hform
        have hlen : (succChars cls s).length = s.length := by
          rw [← length_form, hform, length_form]
        have hlt := alnumValue_lt (succChars cls s)
        refine ⟨.inl hcounts', .inl ⟨hlen, ?_⟩⟩
        rw [room_counts hcounts', room_counts hcounts, ← alnumCapacity_congr hform]
        omega
      · have hrest := hcounts.of_form hform
        have hone : kind.one < 0x80 := by cases kind <;> decide
        have hlen : rest.length = s.length := by rw [← length_form, hform, length_form]
        rw [hr]
        refine ⟨.inl ⟨?_, ?_⟩, .inr (by rw [List.length_cons, hlen])⟩
        · simpa using ⟨hone, hrest.1⟩
        · obtain ⟨c, hc, hkind⟩ := hrest.2
          exact ⟨c, List.mem_cons_of_mem _ hc, hkind⟩
  | inr hbare =>
      obtain ⟨front, c, rfl, hfront, hc⟩ := hbare
      rw [succChars_bare hfront hc]
      have hlen : (front ++ [c + 1]).length = (front ++ [c]).length := by simp
      cases hnext : kindOf (c + 1) with
      | none =>
          refine ⟨.inr ⟨front, c + 1, rfl, hfront, hnext⟩, .inl ⟨hlen, ?_⟩⟩
          rw [room_bare hfront hc, room_bare hfront hnext]
          exact Nat.add_lt_add_left (distance_next hc hnext) 26
      | some kind =>
          have hcounts : Counts (front ++ [c + 1]) := by
            refine ⟨fun d hd => ?_, c + 1, by simp, by simp [hnext]⟩
            obtain hd | hd := List.mem_append.mp hd
            · exact (hfront d hd).1
            · rw [List.mem_singleton.mp hd]
              exact ascii_of_kind hnext
          refine ⟨.inl hcounts, .inl ⟨hlen, ?_⟩⟩
          have hcap : alnumCapacity front = 1 := by rw [alnumCapacity, places_bare hfront]; rfl
          have hradix : kind.radix ≤ 26 := by cases kind <;> decide
          have hpos := distance_pos c
          rw [room_bare hfront hc, room_counts hcounts, alnumCapacity_concat hnext, hcap]
          omega

end Climb

/-! ## The loop over characters -/

section Chars

variable {excl : Bool} {c e : UniChar}

/-- Where the loop over characters is left. -/
def charStop (excl : Bool) (e c : UniChar) : Option (List (List UniChar)) :=
  if excl = false ∧ c = e then some [[c]]
  else if excl = true ∧ c + 1 = e then some [[c]]
  else none

theorem uptoChars_eq_walk (n : ℕ) (c : UniChar) :
    uptoChars excl e n c = Walk.walk (charStop excl e) (fun c => [c]) (· + 1) n c := by
  induction n generalizing c with
  | zero => rfl
  | succ n ih =>
      rw [uptoChars, Walk.walk, charStop, ih]
      split_ifs <;> rfl

theorem iterate_next (c : UniChar) (i : ℕ) : (· + 1)^[i] c = c + UInt16.ofNat i := by
  induction i with
  | zero => simp
  | succ i ih =>
      rw [Function.iterate_succ_apply', ih, UInt16.ofNat_add, UInt16.add_assoc]
      rfl

/-- The characters between two ones are counted. -/
theorem uptoChars_run (hce : c ≤ e) (hne : excl = true → c ≠ e) :
    ∃ n, Fuel.Settles (fun m => uptoChars excl e m c)
        (some ((List.range n).map fun i => [c + UInt16.ofNat i])) ∧
      (∀ i < n, c ≤ c + UInt16.ofNat i ∧ c + UInt16.ofNat i ≤ e ∧
        (excl = true → c + UInt16.ofNat i ≠ e)) ∧
      ∀ i, i + 1 < n → excl = false → c + UInt16.ofNat i ≠ e := by
  have hstop : ∀ d, charStop excl e d = none ↔
      (excl = false → d ≠ e) ∧ (excl = true → d + 1 ≠ e) := fun d => by
    unfold charStop
    split_ifs <;> simp_all
  have hstep : ∀ d, (c ≤ d ∧ d ≤ e ∧ (excl = true → d ≠ e)) → charStop excl e d = none →
      (c ≤ d + 1 ∧ d + 1 ≤ e ∧ (excl = true → d + 1 ≠ e)) ∧
        e.toNat - (d + 1).toNat < e.toNat - d.toNat := by
    intro d ⟨hcd, hde, hexcl⟩ hnone
    obtain ⟨hincl, hnext⟩ := (hstop d).mp hnone
    have hne' : d ≠ e := by
      cases excl with
      | true => exact hexcl rfl
      | false => exact hincl rfl
    have hlt : d.toNat < e.toNat := by
      have := UInt16.le_iff_toNat_le.mp hde
      have := mt UInt16.toNat_inj.mp hne'
      omega
    have hsucc : (d + 1).toNat = d.toNat + 1 := by
      rw [UInt16.toNat_add]
      exact Nat.mod_eq_of_lt (by have := e.toNat_lt; simp; omega)
    rw [UInt16.le_iff_toNat_le] at hcd
    simp only [UInt16.le_iff_toNat_le, hsucc]
    exact ⟨⟨by omega, by omega, hnext⟩, by omega⟩
  obtain ⟨k, tail, hinv, hbefore, hend, hsettles⟩ :=
    walk_settles (fun d : UniChar => [d]) (fun d => c ≤ d ∧ d ≤ e ∧ (excl = true → d ≠ e))
      (fun d => e.toNat - d.toNat) hstep ⟨UInt16.le_refl c, hce, hne⟩
  simp only [iterate_next] at hinv hbefore hend hsettles
  have htail : tail = [[c + UInt16.ofNat k]] := by
    unfold charStop at hend
    split_ifs at hend <;> simp_all
  refine ⟨k + 1, ?_, fun i hi => hinv i (by omega), fun i hi hexcl => ?_⟩
  · rw [List.range_succ, List.map_append, List.map_singleton, ← htail]
    exact hsettles.congr fun m => uptoChars_eq_walk m c
  · exact ((hstop _).mp (hbefore i (by omega))).1 hexcl

end Chars

/-! ## The loop over strings -/

section Strings

variable {enc : CFEncoding} {cls : CharClasses} {excl : Bool} {last afterEnd : StrObject}

/-- Bytes are not compared, or those of ASCII strings. -/
def BytesAscii (s t : StringObject) : Prop :=
  s.data = none ∧ t.data = none ∨
    s.chars.length < 2 ^ 32 ∧ (∀ c ∈ s.chars, c < 0x80) ∧ ∀ c ∈ t.chars, c < 0x80

/-- **The comparisons of the loop are those of the characters**: the `CFString`s are in step, and
where there is byte data, the strings are shorter than 2³¹ and all that are compared are ASCII. -/
structure StrPair.Compares (cls : CharClasses) (args : StrPair) : Prop where
  first : args.first.InStep
  last : args.last.InStep
  bytes : args.first.data = none ∧ args.last.data = none ∨
    (args.first.chars.length < 2 ^ 31 ∧ args.last.chars.length < 2 ^ 31) ∧
      (∀ i, ∀ c ∈ (succChars cls)^[i] args.first.chars, c < 0x80) ∧
      ∀ i ≤ 1, ∀ c ∈ (succChars cls)^[i] args.last.chars, c < 0x80

theorem rbStrEqual_iff {s t : StrObject} (hs : s.InStep) (ht : t.InStep)
    (hbytes : BytesAscii s.toStringObject t.toStringObject) :
    rbStrEqual enc s t = true ↔
      s.address = t.address ∨ (s.chars = t.chars ∧ t.chars.length < 2 ^ 31) := by
  have hint : toCInt (t.chars.length : ℤ) = t.chars.length ↔ t.chars.length < 2 ^ 31 := by
    unfold toCInt
    rw [Int.bmod_def]
    split <;> omega
  unfold rbStrEqual
  rw [hs.clen_eq, ht.clen_eq]
  by_cases haddress : s.address = t.address
  · simp [haddress]
  rw [if_neg haddress, or_iff_right haddress]
  dsimp only
  by_cases hlen : toCInt (s.chars.length : ℤ) = t.chars.length
  · have hcompare : (if s.data.isSome = true ∨ t.data.isSome = true then
        decide ((s.cstr enc).take t.chars.length = (t.cstr enc).take t.chars.length)
        else decide (s.chars = t.chars)) = decide (s.chars = t.chars) := by
      obtain ⟨hs', ht'⟩ | ⟨hlt, hs', ht'⟩ := hbytes
      · rw [hs', ht', if_neg (by simp)]
      · have hsame : s.chars.length = t.chars.length := by
          unfold toCInt at hlen
          rw [Int.bmod_def] at hlen
          split at hlen <;> omega
        refine ite_eq_right_iff.mpr fun _ => decide_eq_decide.mpr ?_
        rw [hs.cstr_eq enc hs', ht.cstr_eq enc ht', List.take_of_length_le (by simp [hsame]),
          List.take_of_length_le (by simp)]
        refine ⟨fun heq => ?_, fun heq => by rw [heq]⟩
        rw [← map_toUInt16_toUInt8 hs', heq, map_toUInt16_toUInt8 ht']
    rw [if_neg (not_not.mpr hlen), hlen, Int.toNat_natCast, hcompare, decide_eq_true_iff]
    refine (and_iff_left_of_imp fun heq => ?_).symm
    rw [heq] at hlen
    exact hint.mp hlen
  · rw [if_pos hlen]
    refine iff_of_false Bool.false_ne_true fun ⟨heq, hshort⟩ => hlen ?_
    rw [heq]
    exact hint.mpr hshort

theorem chars_succObject (cls : CharClasses) (g : ℕ) (s : StrObject) :
    (succObject cls g s).chars = succChars cls s.chars := by
  unfold succObject rbStrSucc
  split_ifs with hzero
  · exact (if_pos hzero).symm
  · rfl

theorem data_succObject (cls : CharClasses) (g : ℕ) {s : StrObject} (hs : s.data = none) :
    (succObject cls g s).data = none := by
  unfold succObject rbStrSucc
  split_ifs
  · exact hs
  · rfl

/-- Where the loop over strings is left. -/
def uptoStop (enc : CFEncoding) (cls : CharClasses) (excl : Bool) (last afterEnd : StrObject)
    (s : ℕ × StrObject) : Option (List (List UniChar)) :=
  if rbStrEqual enc s.2 afterEnd then some []
  else if excl = false ∧ rbStrEqual enc s.2 last = true then some [s.2.text]
  else if excl = true ∧ rbStrEqual enc (succObject cls s.1 s.2) last = true then some [s.2.text]
  else if (succObject cls s.1 s.2).clen > last.clen ∨ (succObject cls s.1 s.2).clen = 0 then
    some [s.2.text]
  else none

/-- One turn of the loop over strings. -/
def uptoStep (cls : CharClasses) (s : ℕ × StrObject) : ℕ × StrObject :=
  (s.1 + 1, succObject cls s.1 s.2)

theorem uptoLoop_eq_walk (n : ℕ) (s : ℕ × StrObject) :
    uptoLoop enc cls excl last afterEnd n s.1 s.2 =
      Walk.walk (uptoStop enc cls excl last afterEnd) (fun s => s.2.text) (uptoStep cls) n s := by
  induction n generalizing s with
  | zero => rfl
  | succ n ih =>
      have ih' := ih (uptoStep cls s)
      rw [Walk.walk, ← ih', uptoStop, uptoLoop]
      dsimp only
      split_ifs <;> rfl

variable {args : StrPair}

/-- The loop sees that it has come to the last string. -/
def Seen (cls : CharClasses) (args : StrPair) (i : ℕ) : Prop :=
  (i = 0 ∧ args.first.address = args.last.address) ∨
    ((succChars cls)^[i] args.first.chars = args.last.chars ∧ args.last.chars.length < 2 ^ 31)

/-- The loop does not stop at a string. -/
structure CountsOn (cls : CharClasses) (excl : Bool) (args : StrPair) (i : ℕ) : Prop where
  last : excl = false → ¬ Seen cls args i
  next : excl = true → ¬ Seen cls args (i + 1)
  short : ((succChars cls)^[i + 1] args.first.chars).length ≤ args.last.chars.length

theorem climbs_iterate (cls : CharClasses) {s : List UniChar} (hs : Climbs s) (i : ℕ) :
    Climbs ((succChars cls)^[i] s) := by
  induction i with
  | zero => exact hs
  | succ i ih =>
      rw [Function.iterate_succ_apply']
      exact (climbs_succChars cls ih).1

/-- The successors of a string do not get shorter. -/
theorem length_iterate_le (cls : CharClasses) {s : List UniChar} (hs : Climbs s) {i j : ℕ}
    (hij : i ≤ j) : ((succChars cls)^[i] s).length ≤ ((succChars cls)^[j] s).length := by
  induction j, hij using Nat.le_induction with
  | base => exact le_rfl
  | succ j _ ih =>
      rw [Function.iterate_succ_apply' _ j]
      obtain ⟨hlen, -⟩ | hlen := (climbs_succChars cls (climbs_iterate cls hs j)).2
      · omega
      · omega

/-- The objects of the loop are new ones. -/
theorem iterate_uptoStep {first : StrObject} (hs : Climbs first.chars) (f i : ℕ) :
    (uptoStep cls)^[i + 1] (f, first) =
      (f + i + 1, ⟨⟨(succChars cls)^[i + 1] first.chars, none⟩, f + i⟩) := by
  have hobject : ∀ (g : ℕ) (s : StrObject), Climbs s.chars →
      uptoStep cls (g, s) = (g + 1, ⟨⟨succChars cls s.chars, none⟩, g⟩) := fun g s hclimbs => by
    have hne : ¬ s.chars.length = 0 := by simpa using hclimbs.ne_nil
    rw [uptoStep, succObject, if_neg hne, rbStrSucc, if_neg hne]
  induction i with
  | zero => exact hobject f first hs
  | succ i ih =>
      rw [Function.iterate_succ_apply' _ (i + 1), ih]
      have hnext := hobject (f + i + 1) ⟨⟨(succChars cls)^[i + 1] first.chars, none⟩, f + i⟩
        (climbs_iterate cls hs _)
      rw [hnext, Function.iterate_succ_apply' _ (i + 1)]
      rfl

theorem chars_iterate_uptoStep (cls : CharClasses) {first : StrObject}
    (hs : Climbs first.chars) (f i : ℕ) :
    ((uptoStep cls)^[i] (f, first)).2.chars = (succChars cls)^[i] first.chars := by
  cases i with
  | zero => rfl
  | succ i => rw [iterate_uptoStep hs]

theorem inStep_succObject (cls : CharClasses) (g : ℕ) {s : StrObject} (hs : s.InStep) :
    (succObject cls g s).InStep := by
  unfold succObject rbStrSucc
  split_ifs
  · exact hs
  · rfl

/-- The loop does not come to a string that is not in step. -/
theorem inStep_iterate_uptoStep (cls : CharClasses) {first : StrObject} (hfirst : first.InStep)
    (f i : ℕ) : ((uptoStep cls)^[i] (f, first)).2.InStep := by
  induction i with
  | zero => exact hfirst
  | succ i ih =>
      rw [Function.iterate_succ_apply']
      exact inStep_succObject cls _ ih

/-- The loop does not come to a string with byte data, if there is none at first. -/
theorem data_iterate_uptoStep (cls : CharClasses) {first : StrObject} (hfirst : first.data = none)
    (f i : ℕ) : ((uptoStep cls)^[i] (f, first)).2.data = none := by
  induction i with
  | zero => exact hfirst
  | succ i ih =>
      rw [Function.iterate_succ_apply']
      exact data_succObject cls _ ih

/-- The longer one of the strings. -/
def StrPair.maxLength (args : StrPair) : ℕ :=
  max args.first.chars.length args.last.chars.length

/-- A turn of the loop, with a string that is not longer than the longer one of the two. -/
structure UptoTurn (cls : CharClasses) (args : StrPair) (f : ℕ) (s : ℕ × StrObject) : Prop where
  reached : ∃ i, s = (uptoStep cls)^[i] (f, args.first)
  short : s.2.chars.length ≤ args.maxLength

variable (hplain : args.Compares cls)
include hplain

/-- What is compared with the last string and with its successor, of the first string. -/
theorem StrPair.Compares.bytesAscii_first :
    BytesAscii args.first.toStringObject args.last.toStringObject ∧
      ∀ g, BytesAscii args.first.toStringObject (succObject cls g args.last).toStringObject := by
  obtain ⟨hfirst, hlast⟩ | ⟨⟨hfirst, hlast⟩, hascii, hascii'⟩ := hplain.bytes
  · exact ⟨.inl ⟨hfirst, hlast⟩, fun g => .inl ⟨hfirst, data_succObject cls g hlast⟩⟩
  · refine ⟨.inr ⟨by omega, hascii 0, hascii' 0 (by omega)⟩, fun g => .inr ?_⟩
    rw [chars_succObject]
    exact ⟨by omega, hascii 0, hascii' 1 le_rfl⟩

/-- What the loop compares with the last string, or with its successor. -/
theorem bytesAscii_iterate (hs : Climbs args.first.chars) {f i : ℕ}
    (hi : ((succChars cls)^[i] args.first.chars).length ≤ args.maxLength + 1) :
    BytesAscii ((uptoStep cls)^[i] (f, args.first)).2.toStringObject args.last.toStringObject ∧
      ∀ g, BytesAscii ((uptoStep cls)^[i] (f, args.first)).2.toStringObject
        (succObject cls g args.last).toStringObject := by
  obtain ⟨hfirst, hlast⟩ | ⟨⟨hfirst, hlast⟩, hascii, hascii'⟩ := hplain.bytes
  · have hdata := data_iterate_uptoStep cls hfirst f i
    exact ⟨.inl ⟨hdata, hlast⟩, fun g => .inl ⟨hdata, data_succObject cls g hlast⟩⟩
  · have hchars := chars_iterate_uptoStep cls hs f i
    unfold StrPair.maxLength at hi
    unfold BytesAscii
    rw [hchars]
    refine ⟨.inr ⟨by omega, hascii i, hascii' 0 (by omega)⟩, fun g => .inr ?_⟩
    rw [chars_succObject]
    exact ⟨by omega, hascii i, hascii' 1 le_rfl⟩

variable (enc) in
/-- The comparisons of the loop with the last string. -/
theorem rbStrEqual_last_iff (hs : Climbs args.first.chars) {f : ℕ}
    (hf : args.last.address < f) {i : ℕ}
    (hi : ((succChars cls)^[i] args.first.chars).length ≤ args.maxLength + 1) :
    rbStrEqual enc ((uptoStep cls)^[i] (f, args.first)).2 args.last = true ↔ Seen cls args i := by
  rw [rbStrEqual_iff (inStep_iterate_uptoStep cls hplain.first f i) hplain.last
    (bytesAscii_iterate hplain hs hi).1, chars_iterate_uptoStep cls hs, Seen]
  cases i with
  | zero => simp
  | succ i =>
      rw [iterate_uptoStep hs]
      have hne : f + i ≠ args.last.address := by omega
      simp [hne]

/-- **The loop is left at the first string that does not count on**, or at the successor of the last
string. -/
theorem uptoStop_iterate (hs : Climbs args.first.chars) {f : ℕ} (hf : args.last.address < f)
    {i : ℕ} (hi : ((succChars cls)^[i] args.first.chars).length ≤ args.maxLength)
    {tail : Option (List (List UniChar))}
    (h : uptoStop enc cls excl args.last afterEnd ((uptoStep cls)^[i] (f, args.first)) = tail) :
    (tail = none → CountsOn cls excl args i) ∧
      (tail.isSome → tail = some [] ∧
        rbStrEqual enc ((uptoStep cls)^[i] (f, args.first)).2 afterEnd = true ∨
        tail = some [(succChars cls)^[i] args.first.chars] ∧ ¬ CountsOn cls excl args i) := by
  have hgrows : ((succChars cls)^[i + 1] args.first.chars).length ≤ args.maxLength + 1 := by
    rw [Function.iterate_succ_apply' (succChars cls)]
    obtain ⟨hlen, -⟩ | hlen := (climbs_succChars cls (climbs_iterate cls hs i)).2 <;> omega
  have hseen := rbStrEqual_last_iff enc hplain hs hf (Nat.le_succ_of_le hi)
  have hnext := rbStrEqual_last_iff enc hplain hs hf hgrows
  have hchars := chars_iterate_uptoStep cls hs f i
  have hchars' := chars_iterate_uptoStep cls hs f (i + 1)
  have hin := inStep_iterate_uptoStep cls hplain.first f i
  have hin' := inStep_iterate_uptoStep cls hplain.first f (i + 1)
  have hne := (climbs_iterate cls hs (i + 1)).ne_nil
  rw [Function.iterate_succ_apply' (uptoStep cls)] at hnext hchars' hin'
  generalize (uptoStep cls)^[i] (f, args.first) = s at h hseen hnext hchars hchars' hin hin' ⊢
  have hclen := hin'.clen_eq
  rw [uptoStep] at hclen
  have hpos : (uptoStep cls s).2.chars.length ≠ 0 := by
    rw [hchars']
    simpa using hne
  rw [uptoStop, hclen, hplain.last.clen_eq, hin.text_eq] at h
  split_ifs at h with hafter hlast hexcl hlong <;> subst h
  · exact ⟨by simp, fun _ => .inl ⟨rfl, hafter⟩⟩
  · refine ⟨by simp, fun _ => .inr ⟨by rw [hchars], fun hcounts => ?_⟩⟩
    exact hcounts.last hlast.1 (hseen.mp hlast.2)
  · refine ⟨by simp, fun _ => .inr ⟨by rw [hchars], fun hcounts => ?_⟩⟩
    exact hcounts.next hexcl.1 (hnext.mp hexcl.2)
  · refine ⟨by simp, fun _ => .inr ⟨by rw [hchars], fun hcounts => ?_⟩⟩
    have hshort := hcounts.short
    rw [← hchars'] at hshort
    obtain hlt | hzero := hlong
    · exact absurd hshort (Nat.not_le.mpr hlt)
    · exact hpos hzero
  · refine ⟨fun _ => ⟨fun h hs => hlast ⟨h, hseen.mpr hs⟩, fun h hs => hexcl ⟨h, hnext.mpr hs⟩, ?_⟩,
      by simp⟩
    rw [← hchars']
    exact Nat.not_lt.mp fun hlt => hlong (.inl hlt)

/-- **What the loop yields**: the first successors, until one does not count on. -/
theorem uptoLoop_run (excl : Bool) (hs : Climbs args.first.chars) {f : ℕ}
    (hf : args.last.address < f)
    (hafter : ∀ i, ((succChars cls)^[i] args.first.chars).length ≤ args.maxLength →
      rbStrEqual enc ((uptoStep cls)^[i] (f, args.first)).2 afterEnd = true →
      args.last.chars.length < 2 ^ 31) :
    ∃ n, Fuel.Settles (fun m => uptoLoop enc cls excl args.last afterEnd m f args.first)
        (some ((List.range n).map fun i => (succChars cls)^[i] args.first.chars)) ∧
      (∀ i, i + 1 < n → CountsOn cls excl args i) ∧
      (2 ^ 31 ≤ args.last.chars.length → ∃ k, n = k + 1 ∧ ¬ CountsOn cls excl args k) := by
  have hchars := chars_iterate_uptoStep cls hs f
  have hstep : ∀ s, UptoTurn cls args f s →
      uptoStop enc cls excl args.last afterEnd s = none →
      UptoTurn cls args f (uptoStep cls s) ∧
        toLex (args.last.chars.length + 1 - (uptoStep cls s).2.chars.length,
          room (uptoStep cls s).2.chars) <
        toLex (args.last.chars.length + 1 - s.2.chars.length, room s.2.chars) := by
    rintro s ⟨⟨i, rfl⟩, hi⟩ hnone
    rw [hchars] at hi
    have hshort := ((uptoStop_iterate hplain hs hf hi hnone).1 rfl).short
    rw [← Function.iterate_succ_apply' (uptoStep cls)]
    refine ⟨⟨⟨i + 1, rfl⟩, ?_⟩, ?_⟩
    · rw [hchars]
      exact le_max_of_le_right hshort
    rw [hchars, hchars, Prod.Lex.toLex_lt_toLex]
    rw [Function.iterate_succ_apply' (succChars cls)] at hshort ⊢
    obtain ⟨hlen, hroom⟩ | hlen := (climbs_succChars cls (climbs_iterate cls hs i)).2
    · exact .inr ⟨by rw [hlen], hroom⟩
    · exact .inl (by simp only; omega)
  have hstart : UptoTurn cls args f (f, args.first) := ⟨⟨0, rfl⟩, le_max_left _ _⟩
  obtain ⟨k, tail, hturns, hbefore, hend, hsettles⟩ :=
    walk_settles (fun s : ℕ × StrObject => s.2.text) (UptoTurn cls args f)
      (fun s => toLex (args.last.chars.length + 1 - s.2.chars.length, room s.2.chars)) hstep
      hstart
  have htext : ∀ i, ((uptoStep cls)^[i] (f, args.first)).2.text =
      (succChars cls)^[i] args.first.chars := fun i =>
    (inStep_iterate_uptoStep cls hplain.first f i).trans (hchars i)
  simp only [htext] at hsettles
  have hshort : ∀ i ≤ k, ((succChars cls)^[i] args.first.chars).length ≤ args.maxLength :=
    fun i hi => hchars i ▸ (hturns i hi).short
  have hcounts : ∀ i < k, CountsOn cls excl args i := fun i hi =>
    (uptoStop_iterate hplain hs hf (hshort i hi.le) (hbefore i hi)).1 rfl
  have hloop := hsettles.congr fun m => uptoLoop_eq_walk m (f, args.first)
  obtain ⟨htail, heq⟩ | ⟨htail, hnot⟩ :=
    (uptoStop_iterate hplain hs hf (hshort k le_rfl) hend).2 rfl
  · refine ⟨k, ?_, fun i hi => hcounts i (by omega), fun hlong => ?_⟩
    · simpa [Option.some.inj htail] using hloop
    · exact absurd (hafter k (hshort k le_rfl) heq) (by omega)
  · refine ⟨k + 1, ?_, fun i hi => hcounts i (by omega), fun _ => ⟨k, rfl, hnot⟩⟩
    rw [List.range_succ, List.map_append, List.map_singleton, ← Option.some.inj htail]
    exact hloop

end Strings

/-! ## The strings that are yielded -/

section Result

variable {enc : CFEncoding} {cls : CharClasses} {cmp : CFCompare} {excl : Bool} {args : StrPair}
  (hplain : args.Compares cls)
include hplain

/-- The right strings are yielded when the chain is followed up to a string, before which the last
string does not come. -/
theorem uptoRight_of_run {n : ℕ}
    (hsettles : Fuel.Settles (rbStrUpto enc cls cmp excl args)
      (some ((List.range n).map (uptoChain cls args.first.chars args.last.chars))))
    (hlen : ∀ i < n, (uptoChain cls args.first.chars args.last.chars i).length ≤
      max args.first.chars.length args.last.chars.length)
    (hbetween : ∀ b e, args.first.chars = [b] → args.last.chars = [e] →
      ∀ i < n, b ≤ b + UInt16.ofNat i ∧ b + UInt16.ofNat i ≤ e)
    (hincl : excl = false → ∀ i, i + 1 < n →
      uptoChain cls args.first.chars args.last.chars i ≠ args.last.chars)
    (hexcl : excl = true → ∀ i < n,
      uptoChain cls args.first.chars args.last.chars i ≠ args.last.chars) :
    UptoRight enc cls cmp excl args := by
  rw [UptoRight, hplain.first.text_eq, hplain.last.text_eq]
  refine ⟨_, hsettles, by rw [List.length_map, List.length_range], ?_, ?_, ?_, ?_⟩
  · intro y hy
    obtain ⟨i, hi, rfl⟩ := List.mem_map.mp hy
    exact hlen i (List.mem_range.mp hi)
  · intro b e hb he y hy
    obtain ⟨i, hi, rfl⟩ := List.mem_map.mp hy
    exact ⟨b + UInt16.ofNat i, by simp [uptoChain, hb, he],
      hbetween b e hb he i (List.mem_range.mp hi)⟩
  · intro hfalse hmem
    obtain ⟨i, hi, heq⟩ := List.mem_map.mp hmem
    have hi' := List.mem_range.mp hi
    have hlast : n = i + 1 := by
      by_contra hne
      exact hincl hfalse i (by omega) heq
    rw [hlast, List.range_succ, List.map_append, List.map_singleton, List.getLast?_concat, heq]
  · intro htrue hmem
    obtain ⟨i, hi, heq⟩ := List.mem_map.mp hmem
    exact hexcl htrue i (List.mem_range.mp hi) heq

/-- Two characters. -/
theorem uptoRight_chars {b e : UniChar} (hb : args.first.chars = [b])
    (he : args.last.chars = [e]) : UptoRight enc cls cmp excl args := by
  have hchain : ∀ i, uptoChain cls args.first.chars args.last.chars i = [b + UInt16.ofNat i] :=
    fun i => by simp [uptoChain, hb, he]
  have hcode : ∀ m, rbStrUpto enc cls cmp excl args m =
      if b > e ∨ (excl = true ∧ b = e) then some [] else uptoChars excl e m b := fun m => by
    rw [rbStrUpto, hplain.first.clen_eq, hplain.last.clen_eq, hb, he]
    rfl
  by_cases hstop : b > e ∨ (excl = true ∧ b = e)
  · have hnone : Fuel.Settles (rbStrUpto enc cls cmp excl args)
        (some ((List.range 0).map (uptoChain cls args.first.chars args.last.chars))) :=
      (Fuel.Settles.const (some [])).congr fun m => by rw [hcode, if_pos hstop]
    exact uptoRight_of_run hplain hnone (by simp) (by simp) (by simp) (by simp)
  · have hle : b ≤ e := UInt16.not_lt.mp fun hlt => hstop (.inl hlt)
    obtain ⟨n, hsettles, hbounds, hbefore⟩ :=
      uptoChars_run hle fun hexcl heq => hstop (.inr ⟨hexcl, heq⟩)
    refine uptoRight_of_run hplain (n := n) ?_ ?_ ?_ ?_ ?_
    · rw [funext hchain]
      exact hsettles.congr fun m => by rw [hcode, if_neg hstop]
    · intro i _
      rw [hchain, hb]
      exact le_max_left _ _
    · intro b' e' hb' he' i hi
      have hb'' : b' = b := by simpa [hb] using hb'.symm
      have he'' : e' = e := by simpa [he] using he'.symm
      rw [hb'', he'']
      exact ⟨(hbounds i hi).1, (hbounds i hi).2.1⟩
    · intro hexcl i hi
      rw [hchain, he]
      simpa using hbefore i hi hexcl
    · intro hexcl i hi
      rw [hchain, he]
      simpa using (hbounds i hi).2.2 hexcl

/-- The function on other strings. -/
theorem rbStrUpto_strings
    (h : ¬ (args.first.chars.length = 1 ∧ args.last.chars.length = 1)) (m : ℕ) :
    rbStrUpto enc cls cmp excl args m =
      if cmp.compare args.first.chars args.last.chars > 0 ∨
          (excl = true ∧ cmp.compare args.first.chars args.last.chars = 0) then some []
      else uptoLoop enc cls excl args.last
        (succObject cls (max args.first.address args.last.address + 1) args.last) m
        (max args.first.address args.last.address + 1 + 1) args.first := by
  rw [rbStrUpto, hplain.first.clen_eq, hplain.last.clen_eq, if_neg h]

omit hplain in
/-- The chain of strings that are not both single characters. -/
theorem uptoChain_strings (h : ¬ (args.first.chars.length = 1 ∧ args.last.chars.length = 1)) :
    uptoChain cls args.first.chars args.last.chars = fun i =>
      (succChars cls)^[i] args.first.chars := by
  funext i
  rw [uptoChain, if_neg h]

omit hplain in
/-- The empty string has no successor but itself. -/
theorem iterate_nil (cls : CharClasses) (k : ℕ) : (succChars cls)^[k] [] = [] := by
  induction k with
  | zero => rfl
  | succ k ih => rw [Function.iterate_succ_apply', ih]; rfl

/-- From the empty string at most this one is yielded. -/
theorem uptoRight_nil (hcompare : ¬ (cmp.compare args.first.chars args.last.chars > 0 ∨
      (excl = true ∧ cmp.compare args.first.chars args.last.chars = 0)))
    (hascii : ∀ c ∈ args.last.chars, c < 0x80) (hfirst : args.first.chars = []) :
    UptoRight enc cls cmp excl args := by
  have hstrings : ¬ (args.first.chars.length = 1 ∧ args.last.chars.length = 1) := by
    simp [hfirst]
  have hcode : ∀ m, rbStrUpto enc cls cmp excl args m = _ := fun m =>
    (rbStrUpto_strings hplain hstrings m).trans (if_neg hcompare)
  have hzero : ∀ i, uptoChain cls args.first.chars args.last.chars i = [] := fun i => by
    rw [uptoChain_strings hstrings, hfirst]
    exact iterate_nil cls i
  have hself : ∀ g, succObject cls g args.first = args.first := fun g => by
    simp [succObject, hfirst]
  have hbytes' := hplain.bytesAscii_first
  by_cases hlast : args.last.chars = []
  · have hequal : ∀ g, rbStrEqual enc args.first (succObject cls g args.last) = true := fun g => by
      rw [rbStrEqual_iff hplain.first (inStep_succObject cls g hplain.last) (hbytes'.2 g),
        chars_succObject, hlast, hfirst]
      simp [succChars]
    have hnone : Fuel.Settles (rbStrUpto enc cls cmp excl args)
        (some ((List.range 0).map (uptoChain cls args.first.chars args.last.chars))) := by
      refine (Fuel.Settles.const (some [])).of_succ fun m => ?_
      rw [hcode, uptoLoop, if_pos (hequal _)]
    exact uptoRight_of_run hplain hnone (by simp) (by simp) (by simp) (by simp)
  · have hclimbs := climbs_of_ascii hascii hlast
    have hne : rbStrEqual enc args.first args.last = false := by
      rw [← Bool.not_eq_true, rbStrEqual_iff hplain.first hplain.last hbytes'.1, hfirst]
      rintro (haddress | ⟨hchars, -⟩)
      · exact hlast (args.same haddress ▸ hfirst)
      · exact hlast hchars.symm
    have hafter : rbStrEqual enc args.first
        (succObject cls (max args.first.address args.last.address + 1) args.last) = false := by
      rw [← Bool.not_eq_true, rbStrEqual_iff hplain.first
        (inStep_succObject cls _ hplain.last) (hbytes'.2 _), chars_succObject, hfirst, succObject,
        if_neg (by simpa using hlast)]
      rintro (haddress | ⟨hchars, -⟩)
      · simp only at haddress
        omega
      · exact (climbs_succChars cls hclimbs).1.ne_nil hchars.symm
    have hone : Fuel.Settles (rbStrUpto enc cls cmp excl args)
        (some ((List.range 1).map (uptoChain cls args.first.chars args.last.chars))) := by
      refine (Fuel.Settles.const _).of_succ fun m => ?_
      rw [hcode, uptoLoop, if_neg (by simp [hafter]), List.range_one, List.map_singleton, hzero,
        hplain.first.text_eq]
      simp [hne, hself, hfirst, hplain.first.clen_eq]
    refine uptoRight_of_run hplain hone (fun i _ => ?_) (by simp [hfirst]) (fun _ i hi => by omega)
      ?_
    · rw [hzero]
      exact Nat.zero_le _
    · intro _ i _
      rw [hzero]
      exact Ne.symm hlast

/-- What is yielded from a string that is not empty. -/
theorem rbStrUpto_run (cmp : CFCompare)
    (hstrings : ¬ (args.first.chars.length = 1 ∧ args.last.chars.length = 1))
    (hcompare : ¬ (cmp.compare args.first.chars args.last.chars > 0 ∨
      (excl = true ∧ cmp.compare args.first.chars args.last.chars = 0)))
    (hfirst : Climbs args.first.chars) (hlast : Climbs args.last.chars) :
    ∃ n, Fuel.Settles (rbStrUpto enc cls cmp excl args)
        (some ((List.range n).map (uptoChain cls args.first.chars args.last.chars))) ∧
      (∀ i, i + 1 < n → CountsOn cls excl args i) ∧
      (2 ^ 31 ≤ args.last.chars.length → ∃ k, n = k + 1 ∧ ¬ CountsOn cls excl args k) := by
  have hcode : ∀ m, rbStrUpto enc cls cmp excl args m = _ := fun m =>
    (rbStrUpto_strings hplain hstrings m).trans (if_neg hcompare)
  -- The successor of the last string is an object that the loop does not make.
  have hafter : ∀ i, ((succChars cls)^[i] args.first.chars).length ≤ args.maxLength →
      rbStrEqual enc
        ((uptoStep cls)^[i] (max args.first.address args.last.address + 1 + 1, args.first)).2
        (succObject cls (max args.first.address args.last.address + 1) args.last) = true →
      args.last.chars.length < 2 ^ 31 := by
    intro i hi hequal
    have hgrows : args.last.chars.length ≤ (succChars cls args.last.chars).length := by
      obtain ⟨hlen, -⟩ | hlen := (climbs_succChars cls hlast).2 <;> omega
    rw [rbStrEqual_iff (inStep_iterate_uptoStep cls hplain.first _ i)
      (inStep_succObject cls _ hplain.last)
      ((bytesAscii_iterate hplain hfirst (Nat.le_succ_of_le hi)).2 _),
      chars_succObject cls _ args.last, succObject, if_neg (by simpa using hlast.ne_nil)] at hequal
    obtain haddress | ⟨-, hshort⟩ := hequal
    · cases i with
      | zero =>
          simp only [Function.iterate_zero, id_eq] at haddress
          omega
      | succ i =>
          rw [iterate_uptoStep hfirst] at haddress
          simp only at haddress
          omega
    · exact lt_of_le_of_lt hgrows hshort
  obtain ⟨n, hsettles, hcounts, hend⟩ := uptoLoop_run hplain excl hfirst (by omega) hafter
  refine ⟨n, ?_, hcounts, hend⟩
  rw [uptoChain_strings hstrings]
  exact hsettles.congr hcode

/-- The loop that comes to the last string sees it, unless it is overlooked. -/
theorem uptoRight_of_not_overlooks
    (hstrings : ¬ (args.first.chars.length = 1 ∧ args.last.chars.length = 1))
    (hcompare : ¬ (cmp.compare args.first.chars args.last.chars > 0 ∨
      (excl = true ∧ cmp.compare args.first.chars args.last.chars = 0)))
    (hgt : ¬ args.last.chars < args.first.chars)
    (hexcl : excl = true → args.first.chars ≠ args.last.chars)
    (hfirst : Climbs args.first.chars) (hlast : Climbs args.last.chars)
    (hnot : ¬ Overlooks cls excl args) : UptoRight enc cls cmp excl args := by
  obtain ⟨n, hsettles, hcounts, -⟩ := rbStrUpto_run hplain cmp hstrings hcompare hfirst hlast
  have hlong : ∀ i, (succChars cls)^[i] args.first.chars = args.last.chars →
      ¬ Seen cls args i → 2 ^ 31 ≤ args.last.chars.length := fun i heq hseen =>
    Nat.not_lt.mp fun hlt => hseen (.inr ⟨heq, hlt⟩)
  refine uptoRight_of_run hplain hsettles ?_ ?_ ?_ ?_
  · intro i hi
    rw [uptoChain_strings hstrings]
    cases i with
    | zero => exact le_max_left _ _
    | succ i => exact le_max_of_le_right (hcounts i hi).short
  · intro b e hb he
    exact absurd ⟨by simp [hb], by simp [he]⟩ hstrings
  · intro hincl i hi heq
    simp only [uptoChain_strings hstrings] at heq
    have hci := hcounts i hi
    have hshort := hci.short
    rw [Function.iterate_succ_apply' (succChars cls), heq] at hshort
    refine hnot ⟨hlong i heq (hci.last hincl), hgt, ⟨i, heq⟩, ?_⟩
    rw [if_neg (by simp [hincl])]
    refine ⟨fun haddress => (hcounts 0 (by omega)).last hincl (.inl ⟨rfl, haddress⟩), ?_⟩
    obtain ⟨hlen, -⟩ | hlen := (climbs_succChars cls hlast).2 <;> omega
  · intro htrue i hi heq
    simp only [uptoChain_strings hstrings] at heq
    cases i with
    | zero => exact hexcl htrue heq
    | succ i =>
        refine hnot ⟨hlong (i + 1) heq ((hcounts i hi).next htrue), hgt, ⟨i + 1, heq⟩, ?_⟩
        rw [if_pos htrue]
        exact hexcl htrue

/-- The loop that overlooks the last string goes on after it. -/
theorem not_uptoRight_of_overlooks (hcompare : ¬ (cmp.compare args.first.chars
      args.last.chars > 0 ∨ (excl = true ∧ cmp.compare args.first.chars args.last.chars = 0)))
    (hfirst : Climbs args.first.chars) (hlast : Climbs args.last.chars)
    (hover : Overlooks cls excl args) : ¬ UptoRight enc cls cmp excl args := by
  obtain ⟨hlong, -, ⟨m, hm⟩, hmode⟩ := hover
  have hstrings : ¬ (args.first.chars.length = 1 ∧ args.last.chars.length = 1) := by omega
  obtain ⟨n, hsettles, -, hend⟩ := rbStrUpto_run hplain cmp hstrings hcompare hfirst hlast
  obtain ⟨k, rfl, hstop⟩ := hend hlong
  -- The loop is left only because the next string is longer than the last one.
  have hgrown : ¬ ((succChars cls)^[k + 1] args.first.chars).length ≤ args.last.chars.length := by
    intro hshort
    refine hstop ⟨fun hincl hseen => ?_, fun _ hseen => ?_, hshort⟩
    · rw [if_neg (by simp [hincl])] at hmode
      obtain ⟨-, haddress⟩ | ⟨-, hlt⟩ := hseen
      · exact hmode.1 haddress
      · omega
    · obtain ⟨hzero, -⟩ | ⟨-, hlt⟩ := hseen <;> omega
  have hmk : m ≤ k := by
    by_contra hlt
    exact hgrown (hm ▸ length_iterate_le cls hfirst (by omega))
  rw [UptoRight, hplain.first.text_eq, hplain.last.text_eq]
  rintro ⟨ys, hys, -, -, -, hincl, hexcl⟩
  have heq := Option.some.inj (hys.unique hsettles)
  rw [uptoChain_strings hstrings] at heq
  have hmem : args.last.chars ∈ ys := by
    rw [heq, List.mem_map]
    exact ⟨m, List.mem_range.mpr (by omega), hm⟩
  cases excl with
  | true => exact hexcl rfl hmem
  | false =>
      have hlast' := hincl rfl hmem
      rw [heq, List.range_succ, List.map_append, List.map_singleton, List.getLast?_concat] at hlast'
      rw [if_neg (by simp)] at hmode
      rw [Function.iterate_succ_apply' (succChars cls), Option.some.inj hlast', hmode.2] at hgrown
      exact hgrown le_rfl

end Result

/-! ## Strings of 2³¹ characters -/

/-- The lexicographic order. -/
def lexCompare : CFCompare where
  compare s t := if t < s then 1 else if s = t then 0 else -1
  compare_pos s t _ _ := by
    split_ifs <;> simp_all
  compare_zero s t _ _ := by
    have hirrefl : s = t → ¬ t < s := fun heq hlt => by
      rw [heq] at hlt
      exact List.lt_irrefl t hlt
    split_ifs with hlt heq
    · exact iff_of_false (by decide) fun heq => hirrefl heq hlt
    · exact iff_of_true rfl heq
    · exact iff_of_false (by decide) heq

/-- `"a8"` and `"b6"`. -/
def documentedPair : StrPair :=
  ⟨⟨⟨[0x61, 0x38], none⟩, 0⟩, ⟨⟨[0x62, 0x36], none⟩, 1⟩, by simp⟩

/-- The strings `aa…aa` and `aa…ab`. -/
def lettersPair (n : ℕ) : StrPair :=
  ⟨⟨⟨List.replicate n 0x61 ++ [0x61], none⟩, 0⟩, ⟨⟨List.replicate n 0x61 ++ [0x62], none⟩, 1⟩,
    by simp⟩

/-- A letter or a digit at the end counts up. -/
theorem succChars_concat {cls : CharClasses} {c : UniChar} {kind : AlnumKind}
    (h : kindOf c = some kind) (hlt : c.toNat + 1 < kind.first.toNat + kind.radix)
    (s : List UniChar) : succChars cls (s ++ [c]) = s ++ [c + 1] := by
  rw [succChars, List.length_append, List.length_singleton, if_neg (by omega), succLoop_kind h,
    if_pos hlt]
  simp

theorem overlooks_letters {n : ℕ} (hn : 2 ^ 31 ≤ n + 1) :
    Overlooks asciiClasses true (lettersPair n) := by
  have hlt : (lettersPair n).first.chars < (lettersPair n).last.chars :=
    List.append_left_lt (by decide)
  have hne : (lettersPair n).first.chars ≠ (lettersPair n).last.chars := fun heq =>
    absurd (List.append_cancel_left heq) (by decide)
  have hnext : succChars asciiClasses (lettersPair n).first.chars = (lettersPair n).last.chars :=
    succChars_concat (show kindOf 0x61 = some .lower by decide) (by decide) _
  refine ⟨?_, ?_, ⟨1, hnext⟩, ?_⟩
  · simpa [lettersPair] using hn
  · exact List.lt_asymm hlt
  · rw [if_pos rfl]
    exact hne

/-- The last string of such a pair is yielded in exclusive mode. -/
theorem not_uptoRight_of_length {n : ℕ} (hn : 2 ^ 31 ≤ n + 1) :
    ¬ UptoRight asciiEncoding asciiClasses lexCompare true (lettersPair n) := by
  have hover := overlooks_letters hn
  have hascii : ∀ c : UniChar, c < 0x80 → ∀ d ∈ List.replicate n 0x61 ++ [c], d < 0x80 := by
    intro c hc d hd
    obtain hd | hd := List.mem_append.mp hd
    · rw [List.eq_of_mem_replicate hd]
      decide
    · rwa [List.mem_singleton.mp hd]
  have hfirst := hascii 0x61 (by decide)
  have hlast := hascii 0x62 (by decide)
  have hpos := lexCompare.compare_pos _ _ hfirst hlast
  have hzero := lexCompare.compare_zero _ _ hfirst hlast
  have hne : ∀ c : UniChar, List.replicate n 0x61 ++ [c] ≠ [] := fun c => by simp
  refine not_uptoRight_of_overlooks ⟨rfl, rfl, .inl ⟨rfl, rfl⟩⟩ ?_ (climbs_of_ascii hfirst (hne _))
    (climbs_of_ascii hlast (hne _)) hover
  rintro (hgt | ⟨-, hsame⟩)
  · exact hover.2.1 (hpos.mp hgt)
  · exact absurd (List.append_cancel_left (hzero.mp hsame)) (by decide)

end MacRuby
