import MacRuby.String.Find
import MacRuby.String.Slice

/-!
# Searching a string

`String#index` looks for a string from a position on and `String#rindex` up to a position, and the
two partitions split a string at what these find.  The backward search looks in a range that ends
one character after the position, or after as many characters as the other string has.

## Main definitions

* `rbStrIndexM`, `rbStrRindexM`, `rbStrPartition`, `rbStrRpartition` — the functions.
* `SearchCall`, `SearchRight` — a call, and that its answer is the right one.

## Main results

* `searchRight_iff` — the calls that are answered right.
-/

namespace MacRuby

open Occurrence

section Code

variable (L : LongSize) (find : CFFind)

/-- The location of what was found, or −1. -/
def foundAt : Option ℕ → ℤ
  | some i => i
  | none => -1

/-- `rb_str_index(str, sub, offset)`, which reads the `CFString`s. -/
def rbStrIndex (str sub : List UniChar) (offset : ℤ) : Except StringError ℤ := do
  let r ← cfStringFindWithOptions find false str sub offset (str.length - offset)
  return foundAt r

/-- `rb_str_rindex(str, sub, pos)`, with `RSTRING_LEN(str)` and `RSTRING_LEN(sub)`. -/
def rbStrRindex (str sub : List UniChar) (strlen sublen pos : ℤ) : Except StringError ℤ := do
  if sublen = 0 ∧ strlen = 0 then return 0
  let pos := if pos ≤ sublen then if strlen < sublen then strlen else sublen else pos
  let r ← cfStringFindWithOptions find true str sub 0 (pos + 1)
  return foundAt r

variable (str sub : StringObject)

/-- `rb_str_index_m` for a string. -/
def rbStrIndexM (initpos : Option ℤ) : Except StringError (Option ℤ) := do
  let pos := initpos.getD 0
  let pos := if pos < 0 then pos + str.clen else pos
  if pos < 0 then return none
  let pos ← rbStrIndex find str.chars sub.chars pos
  return if pos = -1 then none else some pos

/-- `rb_str_rindex_m` for a string. -/
def rbStrRindexM (vpos : Option ℤ) : Except StringError (Option ℤ) := do
  let len : ℤ := str.clen
  let pos := vpos.getD len
  let pos := if pos < 0 then pos + len else pos
  if pos < 0 then return none
  let pos := if pos > len then len else pos
  let pos ← rbStrRindex find str.chars sub.chars str.clen sub.clen pos
  return if pos ≥ 0 then some pos else none

/-- The length of a string in UTF-8, if it has one: a unit of a pair that stands alone has none. -/
def utf8Length : List UniChar → Option ℕ
  | [] => some 0
  | [c] =>
      if 0xd800 ≤ c ∧ c < 0xe000 then none
      else some (if c < 0x80 then 1 else if c < 0x800 then 2 else 3)
  | c :: d :: str =>
      if 0xd800 ≤ c ∧ c < 0xdc00 ∧ 0xdc00 ≤ d ∧ d < 0xe000 then (utf8Length str).map (· + 4)
      else if 0xd800 ≤ c ∧ c < 0xe000 then none
      else (utf8Length (d :: str)).map (· + if c < 0x80 then 1 else if c < 0x800 then 2 else 3)

/-- `RSTRING_BYTELEN(str)`.  The length of no data is undefined. -/
def rbStrBytelen : Except StringError ℤ :=
  match str.data with
  | some data => .ok data.length
  | none =>
      match utf8Length str.chars with
      | some n => .ok n
      | none => .error .undefined

/-- `rb_str_partition` for a string: what the three parts spell. -/
def rbStrPartition (sep : StringObject) :
    Except StringError (Option (List UniChar) × List UniChar × Option (List UniChar)) := do
  let pos ← rbStrIndex find str.chars sep.chars 0
  let seplen : ℤ := sep.chars.length
  if pos < 0 then return (some str.text, [], some [])
  let strlen : ℤ := str.chars.length
  let head ← rbStrSubseq L str.chars 0 pos
  let tail ← rbStrSubseq L str.chars (pos + seplen) (strlen - pos - seplen)
  return (head, sep.text, tail)

/-- `rb_str_rpartition` for a string: what the three parts spell.  The string has byte data once the
length of this is taken. -/
def rbStrRpartition (sep : StringObject) :
    Except StringError (Option (List UniChar) × List UniChar × Option (List UniChar)) := do
  let bytelen ← rbStrBytelen str
  let pos ← rbStrRindex find str.chars sep.chars bytelen sep.clen bytelen
  if pos < 0 then return (some [], [], some str.text)
  let seplen : ℤ := sep.clen
  let head ← rbStrSubseq L str.chars 0 pos
  let tail ← rbStrSubseq L str.chars (pos + seplen) seplen
  return (head, sep.text, tail)

end Code

/-! ## What the answers are -/

/-- A search for a string in another. -/
inductive SearchCall
  | index (pos : ℕ)
  | rindex (pos : ℕ)
  | partition
  | rpartition
  deriving DecidableEq, Repr

section Meaning

variable (L : LongSize) (find : CFFind)

/-- The position lies in the string. -/
def SearchCall.InString (n : ℕ) : SearchCall → Prop
  | .index pos => pos ≤ n
  | .rindex pos => pos ≤ n
  | _ => True

/-- A string was split where the other one occurs, if it does, and the parts make it up. -/
def SplitAt (str sub : List UniChar) (first : Option ℕ → Prop)
    (parts : Except StringError (Option (List UniChar) × List UniChar × Option (List UniChar))) :
    Prop :=
  ∃ head sep tail, parts = .ok (some head, sep, some tail) ∧ head ++ sep ++ tail = str ∧
    (first (some head.length) ∧ sep = sub ∨ first none ∧ sep = [])

/-- **A call is answered right**: with the first place from the position on at which the other
string occurs, with the last place up to the position, and with the parts at the first or last
place. -/
def SearchRight (str sub : StringObject) : SearchCall → Prop
  | .index pos => ∃ r : Option ℕ, rbStrIndexM find str sub (some pos) = .ok (r.map (↑)) ∧
      IsFirst (fun i => pos ≤ i ∧ OccursAt sub.text str.text i) r
  | .rindex pos => ∃ r : Option ℕ, rbStrRindexM find str sub (some pos) = .ok (r.map (↑)) ∧
      IsLast (fun i => i ≤ pos ∧ OccursAt sub.text str.text i) r
  | .partition => SplitAt str.text sub.text (IsFirst (OccursAt sub.text str.text))
      (rbStrPartition L find str sub)
  | .rpartition => SplitAt str.text sub.text (IsLast (OccursAt sub.text str.text))
      (rbStrRpartition L find str sub)

variable (str sub : List UniChar)

/-- Where the range ends in which the backward search looks. -/
def rindexStop (pos : ℕ) : ℕ := (if pos ≤ sub.length then min str.length sub.length else pos) + 1

/-- **The range of the search is the one that is meant**: for a backward search it lies in the
string, and the occurrences that end in it are those that start up to the position. -/
def SearchCall.Honoured : SearchCall → Prop
  | .index _ => True
  | .rindex pos => rindexStop str sub pos ≤ str.length ∧
      ∀ i, OccursAt sub str i → (i + sub.length ≤ rindexStop str sub pos ↔ i ≤ pos)
  | .partition => True
  | .rpartition => False

end Meaning

/-! ## What the code does -/

section Correctness

variable {L : LongSize} {find : CFFind} {str sub : List UniChar} {s t : StringObject}

/-- A character has at least one byte. -/
theorem le_utf8Length {n : ℕ} (h : utf8Length str = some n) : str.length ≤ n := by
  fun_induction utf8Length str generalizing n with
  | case1 => simp
  | case2 c hc => cases h
  | case3 c hc =>
      have hn := Option.some.inj h
      rw [← hn, List.length_singleton]
      split
      · exact le_rfl
      · split <;> omega
  | case4 c d str hc ih =>
      rw [Option.map_eq_some_iff] at h
      obtain ⟨m, hm, rfl⟩ := h
      have hle := ih hm
      simp only [List.length_cons]
      omega
  | case5 c d str hc hc' => cases h
  | case6 c d str hc hc' ih =>
      rw [Option.map_eq_some_iff] at h
      obtain ⟨m, hm, rfl⟩ := h
      have hle := ih hm
      simp only [List.length_cons] at hle ⊢
      split
      · omega
      · split <;> omega

theorem foundAt_some (i : ℕ) : foundAt (some i) = i := rfl

section Forward

variable (hfind : find.Documented)
include hfind

/-- What `rb_str_index` answers. -/
theorem rbStrIndex_spec (hsub : sub ≠ []) {pos : ℕ} (hpos : pos ≤ str.length) :
    ∃ r, rbStrIndex find str sub pos = .ok (foundAt r) ∧
      IsFirst (fun i => pos ≤ i ∧ OccursAt sub str i) r := by
  obtain ⟨r, heq, hr⟩ := cfStringFind_from hfind hsub hpos
  refine ⟨r, ?_, hr⟩
  unfold rbStrIndex
  rw [heq]
  rfl

/-- **`String#index` is right.** -/
theorem index_right (hsub : t.chars ≠ []) {pos : ℕ} (hpos : pos ≤ s.chars.length) :
    ∃ r : Option ℕ, rbStrIndexM find s t (some pos) = .ok (r.map (↑)) ∧
      IsFirst (fun i => pos ≤ i ∧ OccursAt t.chars s.chars i) r := by
  obtain ⟨r, heq, hr⟩ := rbStrIndex_spec hfind hsub hpos
  refine ⟨r, ?_, hr⟩
  have hneg : ¬(pos : ℤ) < 0 := not_lt.mpr (Int.natCast_nonneg pos)
  unfold rbStrIndexM
  simp only [Option.getD_some, hneg, if_false, heq]
  cases r with
  | none => rfl
  | some i =>
      have hne : foundAt (some i) ≠ -1 := by
        rw [foundAt_some]
        omega
      exact congrArg Except.ok (if_neg hne)

/-- **`String#partition` is right.** -/
theorem partition_right (s : RString L) (hs : s.InStep) (ht : t.InStep) (hsub : t.chars ≠ []) :
    SplitAt s.chars t.chars (IsFirst (OccursAt t.chars s.chars))
      (rbStrPartition L find s.toStringObject t) := by
  obtain ⟨r, heq, hr⟩ := rbStrIndex_spec hfind hsub (Nat.zero_le s.chars.length)
  have hfirst : IsFirst (OccursAt t.chars s.chars) r :=
    hr.congr fun i => and_iff_right (Nat.zero_le i)
  have hspells : s.text = s.chars := hs
  have hspells' : t.text = t.chars := ht
  rw [Nat.cast_zero] at heq
  unfold rbStrPartition
  rw [heq, hspells, hspells']
  cases r with
  | none =>
      refine ⟨s.chars, [], [], rfl, ?_, Or.inr ⟨hfirst, rfl⟩⟩
      rw [List.append_nil, List.append_nil]
  | some i =>
      have hle := hfirst.1.le hsub
      have hhead : rbStrSubseq L s.chars 0 i = .ok (some (s.chars.take i)) := by
        have hpart := rbStrSubseq_nat s (show 0 + i ≤ s.chars.length by omega)
        exact hpart
      have htail : rbStrSubseq L s.chars (i + t.chars.length)
          (s.chars.length - i - t.chars.length) =
            .ok (some (s.chars.drop (i + t.chars.length))) := by
        have hlen : (s.chars.length : ℤ) - i - t.chars.length =
            (s.chars.length - (i + t.chars.length) : ℕ) := by
          omega
        rw [hlen]
        have hpart := rbStrSubseq_nat s (Nat.add_sub_of_le hle).le
        rw [List.take_of_length_le (List.length_drop (i := i + t.chars.length)).le] at hpart
        exact hpart
      have hneg : ¬foundAt (some i) < 0 := by
        rw [foundAt_some]
        omega
      refine ⟨s.chars.take i, t.chars, s.chars.drop (i + t.chars.length), ?_, hfirst.1.split,
        Or.inl ⟨?_, rfl⟩⟩
      · dsimp only [bind, Except.bind, pure, Except.pure]
        rw [if_neg hneg, foundAt_some, hhead, htail]
      · rw [List.length_take_of_le (by omega)]
        exact hfirst

end Forward

/-- The call that `rb_str_rindex` makes. -/
theorem rbStrRindex_eq (hsub : sub ≠ []) (strlen pos : ℕ) :
    rbStrRindex find str sub strlen sub.length pos =
      (cfStringFindWithOptions find true str sub 0
        ((if pos ≤ sub.length then min strlen sub.length else pos) + 1 : ℕ)).map foundAt := by
  have hlen := List.length_pos_iff.mpr hsub
  have hstop : (if (pos : ℤ) ≤ sub.length then
      if (strlen : ℤ) < sub.length then (strlen : ℤ) else sub.length else (pos : ℤ)) + 1 =
        ((if pos ≤ sub.length then min strlen sub.length else pos) + 1 : ℕ) := by
    by_cases hpos : pos ≤ sub.length
    · rw [if_pos (Nat.cast_le.mpr hpos), if_pos hpos]
      split <;> omega
    · rw [if_neg (mt Nat.cast_le.mp hpos), if_neg hpos, Nat.cast_succ]
  unfold rbStrRindex
  dsimp only
  rw [if_neg (by omega), hstop]
  rfl

/-- **`String#rindex` is right exactly where the range of its search is the one that is meant.** -/
theorem rindex_right_iff (hfind : find.Documented) (hs : s.InStep) (ht : t.InStep)
    (hstr : s.chars = str) (htext : t.chars = sub) (hsub : sub ≠ []) {pos : ℕ}
    (hpos : pos ≤ str.length) :
    (∃ r : Option ℕ, rbStrRindexM find s t (some pos) = .ok (r.map (↑)) ∧
        IsLast (fun i => i ≤ pos ∧ OccursAt sub str i) r) ↔
      rindexStop str sub pos ≤ str.length ∧
        ∀ i, OccursAt sub str i → (i + sub.length ≤ rindexStop str sub pos ↔ i ≤ pos) := by
  have hcall : rbStrRindexM find s t (some pos) =
      (cfStringFindWithOptions find true str sub 0 (rindexStop str sub pos)).map
        (Option.map (↑)) := by
    have hneg : ¬(pos : ℤ) < 0 := not_lt.mpr (Int.natCast_nonneg pos)
    have hpast : ¬(pos : ℤ) > str.length := by omega
    unfold rbStrRindexM
    rw [hs.clen_eq, ht.clen_eq, hstr, htext]
    simp only [Option.getD_some, hneg, hpast, if_false, rbStrRindex_eq hsub]
    change (Except.map foundAt (cfStringFindWithOptions find true str sub 0
      (rindexStop str sub pos))).bind _ = _
    cases cfStringFindWithOptions find true str sub 0 (rindexStop str sub pos) with
    | error e => rfl
    | ok r =>
        cases r with
        | none => rfl
        | some i => exact congrArg Except.ok (if_pos (Int.natCast_nonneg i))
  rw [hcall]
  rcases le_or_gt (rindexStop str sub pos) str.length with hin | hout
  · obtain ⟨r, heq, hr⟩ := cfStringFind_upTo hfind hsub hin
    rw [heq]
    have hiff := hr.iff_forall_iff (Q := fun i => i ≤ pos ∧ OccursAt sub str i)
      (fun i j hij hi hj => ⟨by omega, hi.2⟩) (fun i j hij hi hj => ⟨hij.trans hj.1, hi.2⟩)
    have hmeant : (∀ i, (i + sub.length ≤ rindexStop str sub pos ∧ OccursAt sub str i) ↔
        (i ≤ pos ∧ OccursAt sub str i)) ↔
          ∀ i, OccursAt sub str i → (i + sub.length ≤ rindexStop str sub pos ↔ i ≤ pos) :=
      forall_congr' fun i => and_congr_left_iff
    rw [and_iff_right hin, ← hmeant, ← hiff]
    refine ⟨fun ⟨r', hr', hlast⟩ => ?_, fun hlast => ⟨r, rfl, hlast⟩⟩
    have hr'' : r.map (fun i : ℕ => (i : ℤ)) = r'.map (fun i : ℕ => (i : ℤ)) := Except.ok.inj hr'
    have heq := Option.map_injective Nat.cast_injective hr''
    exact heq ▸ hlast
  · rw [cfStringFind_outside (by omega)]
    exact iff_of_false (fun ⟨_, h, _⟩ => nomatch h) (fun h => absurd h.1 (not_le.mpr hout))

/-- **`String#rpartition` is never right**: the range of its search ends outside the string. -/
theorem not_rpartition_right (hs : s.InStep) (ht : t.InStep) (hsub : t.chars ≠ [])
    (first : Option ℕ → Prop) :
    ¬SplitAt s.text t.text first (rbStrRpartition L find s t) := by
  have herror : ∃ e, rbStrRpartition L find s t = .error e := by
    refine ⟨.undefined, ?_⟩
    have hlen : rbStrBytelen s = .error .undefined ∨
        ∃ n : ℕ, rbStrBytelen s = .ok n ∧ s.chars.length ≤ n := by
      have hclen := hs.clen_eq
      unfold rbStrBytelen
      unfold StringObject.clen at hclen
      split
      case h_1 data hdata =>
        rw [hdata] at hclen
        exact .inr ⟨data.length, rfl, hclen.ge⟩
      case h_2 =>
        cases hlen : utf8Length s.chars with
        | none => exact .inl rfl
        | some n => exact .inr ⟨n, rfl, le_utf8Length hlen⟩
    unfold rbStrRpartition
    obtain hlen | ⟨n, hlen, hle⟩ := hlen
    · rw [hlen]
      rfl
    · have hout : (s.chars.length : ℤ) <
          0 + ((if n ≤ t.chars.length then min n t.chars.length else n) + 1 : ℕ) := by
        split <;> omega
      rw [hlen, ht.clen_eq]
      dsimp only [bind, Except.bind]
      rw [rbStrRindex_eq hsub, cfStringFind_outside hout]
      rfl
  obtain ⟨e, he⟩ := herror
  intro ⟨_, _, _, hparts, _⟩
  rw [he] at hparts
  cases hparts

/-- **The calls that are answered right** on strings whose `CFString`s are in step: all of `index`
and `partition`, those of `rindex` for which the range of the search is the one that is meant, and
none of `rpartition`. -/
theorem searchRight_iff (s : RString L) (sub : StringObject) (hs : s.InStep) (ht : sub.InStep)
    (hfind : find.Documented) (hsub : sub.text ≠ []) {call : SearchCall}
    (hcall : call.InString s.text.length) :
    SearchRight L find s.toStringObject sub call ↔ call.Honoured s.text sub.text := by
  have hspells : s.text = s.chars := hs
  have hspells' : sub.text = sub.chars := ht
  rw [hspells] at hcall
  rw [hspells'] at hsub
  cases call with
  | index pos =>
      refine iff_of_true ?_ trivial
      unfold SearchRight
      rw [hspells, hspells']
      exact index_right hfind hsub hcall
  | rindex pos =>
      unfold SearchRight SearchCall.Honoured
      rw [hspells, hspells']
      exact rindex_right_iff hfind hs ht rfl rfl hsub hcall
  | partition =>
      refine iff_of_true ?_ trivial
      unfold SearchRight
      rw [hspells, hspells']
      exact partition_right hfind s hs ht hsub
  | rpartition => exact iff_of_false (not_rpartition_right hs ht hsub _) id

/-- `"abcab".rindex("b", 2)` looks at the first three characters. -/
theorem searchRight_iff_rindex :
    SearchRight .lp64 occurrenceIn ⟨[0x61, 0x62, 0x63, 0x61, 0x62], none⟩ ⟨[0x62], none⟩
        (.rindex 2) ↔
      SearchCall.Honoured [0x61, 0x62, 0x63, 0x61, 0x62] [0x62] (.rindex 2) :=
  searchRight_iff (L := .lp64) ⟨⟨[0x61, 0x62, 0x63, 0x61, 0x62], none⟩, by decide⟩ ⟨[0x62], none⟩
    (.of_data rfl) (.of_data rfl) occurrenceIn_documented (by decide) (show 2 ≤ 5 by decide)

/-- `"hello".rindex("lo", 3)` does not find the occurrence at 3, which ends after the range. -/
theorem not_searchRight_rindex :
    ¬SearchRight .lp64 occurrenceIn ⟨[0x68, 0x65, 0x6c, 0x6c, 0x6f], none⟩ ⟨[0x6c, 0x6f], none⟩
      (.rindex 3) := by
  intro h
  obtain ⟨r, heq, hr⟩ := h
  have hnil : rbStrRindexM occurrenceIn ⟨[0x68, 0x65, 0x6c, 0x6c, 0x6f], none⟩
      ⟨[0x6c, 0x6f], none⟩ (some 3) = .ok none := by decide
  have hr' : r = none := by
    have hmap := Except.ok.inj (hnil.symm.trans heq)
    exact Option.map_eq_none_iff.mp hmap.symm
  rw [hr'] at hr
  exact hr 3 ⟨le_rfl, by decide⟩

end Correctness

end MacRuby
