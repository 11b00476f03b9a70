import MacRuby.Lib.Result
import MacRuby.String.Charset
import Mathlib.Data.List.DropRight

/-!
# Trimming a string

`lstrip!`, `rstrip!` and `strip!` are one function, which tells from the number of characters
whether anything has changed, and counts only what it removes at the end.  `chomp!` looks for a line
end from the last character backwards, or for a separator in as many characters as it has.  All of
them look at the `CFString` and delete from it; byte data stays as it is.

## Main definitions

* `rbStrStripBang2`, `rbStrChompBang` — the code.
* `TrimRight` — a method leaves what it should, and `nil` says that nothing has changed.
* `TrimFits` — the strings for which this is so.

## Main results

* `stripTail_eq`, `stripHead_eq` — what is removed of whitespace.
* `chompRange_eq` — the separator that is found.
* `trimRight_iff` — when a method is right.
-/

namespace MacRuby

open Occurrence

/-! ## The code -/

/-- Why a method does not return. -/
inductive TrimError
  /-- `RuntimeError`, "can't modify immutable string" -/
  | immutable
  /-- `RuntimeError`, from `rb_error_frozen` -/
  | frozen
  /-- `SecurityError`, "Insecure: can't modify string" -/
  | insecure
  /-- a function of the platform is called with an index or a range that is not in the string -/
  | undefined
  deriving DecidableEq

/-- What decides whether a string can be modified. -/
structure Modifiable where
  isMutable : Bool
  frozen : Bool
  tainted : Bool
  safeLevel : ℤ

/-- A record separator, which may be the object `rb_default_rs`.  Its `CFString` spells it. -/
structure Separator extends StringObject where
  isDefault : Bool
  default_chars : isDefault = true → chars = [0x0a]
  inStep : StringObject.InStep ⟨chars, data⟩

/-- The string after a call, and whether the call returns it and not `nil`. -/
structure Banged where
  str : StringObject
  returned : Bool
  deriving DecidableEq

/-- The `CFString` after a call, and whether the string is returned. -/
structure Trimmed where
  chars : List UniChar
  returned : Bool
  deriving DecidableEq

section Code

/-- `str_modifiable(str)`, which is `rb_str_modify(str)`. -/
def strModifiable (m : Modifiable) : Except TrimError Unit :=
  if m.isMutable = false then .error .immutable
  else if m.frozen = true then .error .frozen
  else if m.tainted = false ∧ m.safeLevel ≥ 4 then .error .insecure
  else .ok ()

/-- A call of the platform. -/
def platform {ε α : Type} (x : Except ε α) : Except TrimError α := x.mapError fun _ => .undefined

variable (white : CharSet)

/-- The place of the last character before `i` that is no whitespace, and `-1` without one. -/
def lastKept (buf : List UniChar) : (i : ℕ) → ℤ
  | 0 => -1
  | i + 1 => if white (inlineChar buf i) then lastKept buf i else i

/-- The first place, from `i` on, where there is no whitespace, or the end. -/
def firstKept (buf : List UniChar) : (left i : ℕ) → ℕ
  | 0, i => i
  | left + 1, i => if white (inlineChar buf i) then firstKept buf left (i + 1) else i

/-- The first branch of `rb_str_strip_bang2`, with the string and `n` after it. -/
def stripTail (direction : ℤ) (str : List UniChar) : Except TrimError (List UniChar × ℤ) :=
  let n : ℤ := str.length
  if direction ≥ 0 then
    let i := lastKept white str str.length
    if i < n - 1 then do
      let range : CFRange := ⟨i + 1, n - i - 1⟩
      let str ← platform (cfStringDelete str range)
      return (str, n - range.length)
    else .ok (str, n)
  else .ok (str, n)

/-- The second branch of `rb_str_strip_bang2`, where `buf` still shows the whole string. -/
def stripHead (direction : ℤ) (buf str : List UniChar) (n : ℤ) :
    Except TrimError (List UniChar) :=
  if direction ≤ 0 then
    let i := firstKept white buf n.toNat 0
    if i > 0 then platform (cfStringDelete str ⟨0, i⟩) else .ok str
  else .ok str

/-- What `rb_str_strip_bang2` does to the `CFString`. -/
def stripChars (str : List UniChar) (direction : ℤ) : Except TrimError Trimmed := do
  if str.length = 0 then return ⟨str, false⟩
  else
    let (kept, n) ← stripTail white direction str
    let kept ← stripHead white direction str kept n
    return ⟨kept, decide ((str.length : ℤ) ≠ n)⟩

/-- `rb_str_strip_bang2(str, direction)`. -/
def rbStrStripBang2 (m : Modifiable) (str : StringObject) (direction : ℤ) :
    Except TrimError Banged := do
  strModifiable m
  let trimmed ← stripChars white str.chars direction
  return ⟨⟨trimmed.chars, str.data⟩, trimmed.returned⟩

/-- `CFStringGetCharacterAtIndex(str, i)`. -/
def cfStringGetCharacterAtIndex (str : List UniChar) (i : ℤ) : Except TrimError UniChar :=
  if 0 ≤ i ∧ i < str.length then .ok (str.getD i.toNat 0) else .error .undefined

variable (find : CFFind)

/-- The branch of `rb_str_chomp_bang` that looks for a line end. -/
def lineEndRange (rslen : ℤ) (str : List UniChar) : Except TrimError CFRange := do
  let len : ℤ := str.length
  let range : CFRange := ⟨len, 0⟩
  let c ← cfStringGetCharacterAtIndex str (range.location - 1)
  let (range, c) ←
    if c = 0x0a then do
      let range : CFRange := ⟨range.location - 1, range.length + 1⟩
      let c ← cfStringGetCharacterAtIndex str (range.location - 1)
      pure (range, c)
    else pure (range, c)
  if c = 0x0d ∧ (rslen > 0 ∨ range.location ≠ len) then
    return ⟨range.location - 1, range.length + 1⟩
  else return range

/-- The branch that looks for a separator, at the end of the string. -/
def separatorRange (rs str : List UniChar) : Except TrimError CFRange := do
  let len : ℤ := str.length
  let rslen : ℤ := rs.length
  match ← platform (cfStringFindWithOptions find false str rs (len - rslen) rslen) with
  | some location => return ⟨location, rslen⟩
  | none => return ⟨len, 0⟩

/-- The range that `rb_str_chomp_bang` deletes. -/
def chompRange (rs : Separator) (str : List UniChar) : Except TrimError CFRange :=
  let rslen : ℤ := rs.chars.length
  if rs.isDefault = true ∨ rslen = 0 ∨ rslen = 1 ∧ rs.chars.getD 0 0 = 0x0a then
    lineEndRange rslen str
  else separatorRange find rs.chars str

/-- What `rb_str_chomp_bang` does to the `CFString`. -/
def chompChars (rs : Option Separator) (str : List UniChar) : Except TrimError Trimmed := do
  match rs with
  | none => return ⟨str, false⟩
  | some rs =>
    let len : ℤ := str.length
    if len = 0 then return ⟨str, false⟩
    else
      let range ← chompRange find rs str
      if range.length = 0 ∨ range.location + range.length > len then return ⟨str, false⟩
      else
        let str ← platform (cfStringDelete str range)
        return ⟨str, true⟩

/-- `rb_str_chomp_bang(argc, argv, str)`, where `$/` is `rbRs`. -/
def rbStrChompBang (m : Modifiable) (argv : Option (Option Separator)) (rbRs : Option Separator)
    (str : StringObject) : Except TrimError Banged := do
  let rs := argv.getD rbRs
  strModifiable m
  let trimmed ← chompChars find rs str.chars
  return ⟨⟨trimmed.chars, str.data⟩, trimmed.returned⟩

end Code

/-! ## What the methods are for -/

/-- A call of one of the methods. -/
inductive Trim
  | lstrip
  | rstrip
  | strip
  | chomp (argv : Option (Option Separator))

section Meaning

/-- What a separator stands for: a line feed stands for all line ends, and an empty separator for
those with a line feed. -/
def Separator.ends (rs : Separator) : List (List UniChar) :=
  if rs.chars = [0x0a] then [[0x0d, 0x0a], [0x0a], [0x0d]]
  else if rs.chars = [] then [[0x0d, 0x0a], [0x0a]]
  else [rs.chars]

/-- A string without one separator at its end. -/
def chomped (ends : List (List UniChar)) (str : List UniChar) : List UniChar :=
  match ends.find? fun e => decide (e <:+ str) with
  | some e => str.rdrop e.length
  | none => str

/-- The characters that are looked at for a separator exist. -/
def EndExists (rs : Separator) (str : List UniChar) : Prop :=
  if rs.chars = [] ∨ rs.chars = [0x0a] then str ≠ [0x0a] else rs.chars.length ≤ str.length

instance (rs : Separator) (str : List UniChar) : Decidable (EndExists rs str) :=
  inferInstanceAs (Decidable (ite _ _ _))

variable (white : CharSet) (find : CFFind) (rbRs : Option Separator) (m : Modifiable)
  (method : Trim) (str : StringObject)

/-- The method as the code has it. -/
def Trim.run : Trim → Except TrimError Banged
  | lstrip => rbStrStripBang2 white m str (-1)
  | rstrip => rbStrStripBang2 white m str 1
  | strip => rbStrStripBang2 white m str 0
  | chomp argv => rbStrChompBang find m argv rbRs str

/-- What should be left of a string. -/
def Trim.left (str : List UniChar) : Trim → List UniChar
  | lstrip => str.dropWhile white
  | rstrip => str.rdropWhile white
  | strip => (str.rdropWhile white).dropWhile white
  | chomp argv => ((argv.getD rbRs).elim str fun rs => chomped rs.ends str)

/-- **A string that can be modified is trimmed**, and `nil` is returned if and only if it has not
changed. -/
def TrimRight : Prop :=
  ∃ r : StringObject, r.text = method.left white rbRs str.text ∧
    method.run white find rbRs m str =
      strModifiable m >>= fun _ => .ok ⟨r, decide (method.left white rbRs str.text ≠ str.text)⟩

/-- **Whitespace is removed at the end if it is removed at the beginning**, except by `lstrip!`,
which finds none, **and the characters that `chomp!` looks at exist.** -/
def CharsFit (str : List UniChar) : Prop :=
  match method with
  | .lstrip => ∀ c ∈ str.head?, white c = false
  | .rstrip => True
  | .strip => (∀ c ∈ str.head?, white c = false) ∨ ∃ c ∈ str.getLast?, white c = true
  | .chomp argv => ∀ rs ∈ argv.getD rbRs, str ≠ [] → EndExists rs str

/-- Nothing is found at the end, and what is looked at exists. -/
def NoTail (str : List UniChar) : Prop :=
  match method with
  | .lstrip => True
  | .rstrip => ∀ c ∈ str.getLast?, white c = false
  | .strip => ∀ c ∈ str.getLast?, white c = false
  | .chomp argv => ∀ rs ∈ argv.getD rbRs,
      (str ≠ [] → EndExists rs str) ∧ chomped rs.ends str = str

/-- **The strings that the methods trim**: without byte data, those whose `CFString` fits, and with
byte data, those that have nothing to trim, at the end of the `CFString` neither. -/
def TrimFits : Prop :=
  if str.data = none then CharsFit white rbRs method str.chars
  else method.left white rbRs str.text = str.text ∧ NoTail white rbRs method str.chars

end Meaning

/-! ## Whitespace -/

section Strip

variable {white : CharSet} {str : List UniChar}

@[simp] theorem platform_ok {ε α : Type} (a : α) :
    platform (.ok a : Except ε α) = .ok a := rfl

theorem inlineChar_eq {buf : List UniChar} {i : ℕ} (h : i < buf.length) :
    inlineChar buf i = buf[i] := by
  rw [inlineChar, if_pos (Int.natCast_nonneg i), Int.toNat_natCast, List.getD_eq_getElem _ _ h]

/-- What is kept ends with the last character that is no whitespace. -/
theorem lastKept_eq {i : ℕ} (h : i ≤ str.length) :
    lastKept white str i = ((str.take i).rdropWhile white).length - 1 := by
  induction i with
  | zero => rfl
  | succ i ih =>
      have hi : i < str.length := h
      rw [lastKept, inlineChar_eq hi, List.take_add_one, List.getElem?_eq_getElem hi,
        Option.toList_some, List.rdropWhile_concat]
      split
      · exact ih hi.le
      · rw [List.length_append, List.length_take, Nat.min_eq_left hi.le, List.length_singleton]
        push_cast
        ring

/-- What is removed at the beginning ends before the first character that is no whitespace. -/
theorem firstKept_eq {left i : ℕ} (h : i + left ≤ str.length) :
    firstKept white str left i = i + (((str.drop i).take left).takeWhile white).length := by
  induction left generalizing i with
  | zero => rw [firstKept, List.take_zero, List.takeWhile_nil, List.length_nil, add_zero]
  | succ left ih =>
      have hi : i < str.length := by omega
      rw [firstKept, inlineChar_eq hi, List.drop_eq_getElem_cons hi, List.take_succ_cons,
        List.takeWhile_cons]
      split
      · rw [ih (by omega), List.length_cons]
        omega
      · rw [List.length_nil, add_zero]

/-- **All whitespace at the end is removed.** -/
theorem stripTail_eq {direction : ℤ} (hdir : direction ≥ 0) (str : List UniChar) :
    stripTail white direction str =
      .ok (str.rdropWhile white, ((str.rdropWhile white).length : ℤ)) := by
  have hlast : lastKept white str str.length = ((str.rdropWhile white).length : ℤ) - 1 := by
    rw [lastKept_eq le_rfl, List.take_length]
  have happ : str.rdropWhile white ++ str.rtakeWhile white = str :=
    List.rdropWhile_append_rtakeWhile
  have hlen := congrArg List.length happ
  rw [List.length_append] at hlen
  unfold stripTail
  dsimp only
  rw [if_pos hdir, hlast]
  split
  · have hdelete := cfStringDelete_eq (str.rdropWhile white) (str.rtakeWhile white) [] le_rfl
    rw [List.append_nil, happ, List.drop_length, List.append_nil, List.append_nil] at hdelete
    have hrange : (⟨((str.rdropWhile white).length : ℤ) - 1 + 1,
        (str.length : ℤ) - (((str.rdropWhile white).length : ℤ) - 1) - 1⟩ : CFRange) =
        ⟨(str.rdropWhile white).length, (str.rtakeWhile white).length⟩ := by
      congr 1 <;> omega
    rw [hrange, hdelete, platform_ok, Result.ok_bind]
    refine congrArg Except.ok (Prod.ext rfl ?_)
    dsimp only
    omega
  · have hnone : str.rtakeWhile white = [] := List.eq_nil_of_length_eq_zero (by omega)
    rw [hnone, List.append_nil] at happ
    rw [happ]

/-- **All whitespace at the beginning of a part of the string is removed.** -/
theorem stripHead_eq {direction : ℤ} (hdir : direction ≤ 0) {kept : List UniChar}
    (hkept : kept <+: str) :
    stripHead white direction str kept kept.length = .ok (kept.dropWhile white) := by
  have hfirst : firstKept white str kept.length 0 = (kept.takeWhile white).length := by
    rw [firstKept_eq (by simpa using hkept.length_le), List.drop_zero, Nat.zero_add,
      ← List.prefix_iff_eq_take.mp hkept]
  have happ : kept.takeWhile white ++ kept.dropWhile white = kept :=
    List.takeWhile_append_dropWhile
  unfold stripHead
  dsimp only
  rw [if_pos hdir, Int.toNat_natCast, hfirst]
  split
  · have hdelete := cfStringDelete_eq [] (kept.takeWhile white) (kept.dropWhile white) le_rfl
    rw [List.nil_append, happ, List.drop_length, List.append_nil, List.nil_append] at hdelete
    exact congrArg platform hdelete
  · have hnone : kept.takeWhile white = [] := List.eq_nil_of_length_eq_zero (by omega)
    rw [hnone, List.nil_append] at happ
    rw [happ]

end Strip

/-! ## Separators -/

section Chomp

variable {find : CFFind} {str : List UniChar}

/-- The separator at the end of a string, which is empty if there is none. -/
def endOf (ends : List (List UniChar)) (str : List UniChar) : List UniChar :=
  (ends.find? fun e => decide (e <:+ str)).getD []

theorem chomped_eq (ends : List (List UniChar)) (str : List UniChar) :
    chomped ends str = str.rdrop (endOf ends str).length := by
  unfold chomped endOf
  cases ends.find? fun e => decide (e <:+ str) with
  | none => rw [Option.getD_none, List.length_nil, List.rdrop_zero]
  | some e => rfl

theorem endOf_suffix (ends : List (List UniChar)) (str : List UniChar) :
    endOf ends str <:+ str := by
  unfold endOf
  cases hfind : ends.find? fun e => decide (e <:+ str) with
  | none => exact List.nil_suffix
  | some e => simpa using List.find?_some hfind

/-- The range that is to be deleted. -/
def endRange (e str : List UniChar) : CFRange := ⟨(str.length : ℤ) - e.length, e.length⟩

theorem okRange_congr {a b k : ℤ} (h : a = b) :
    (Except.ok ⟨a, k⟩ : Except TrimError CFRange) = .ok ⟨b, k⟩ := by
  rw [h]

theorem suffix_last {b c : UniChar} {front : List UniChar} : [b] <:+ front ++ [c] ↔ b = c := by
  rw [← List.reverse_prefix]
  simp

theorem suffix_lastTwo {a b c d : UniChar} {front : List UniChar} :
    [a, b] <:+ front ++ [c, d] ↔ a = c ∧ b = d := by
  rw [← List.reverse_prefix]
  simp [and_comm]

theorem not_suffix_last {a b c : UniChar} (h : b ≠ c) {front : List UniChar} :
    ¬ [a, b] <:+ front ++ [c] := by
  rw [← List.reverse_prefix]
  simp [h]

theorem cfStringGetCharacterAtIndex_eq (front : List UniChar) (c : UniChar)
    (back : List UniChar) {i : ℤ} (hi : i = front.length) :
    cfStringGetCharacterAtIndex (front ++ c :: back) i = .ok c := by
  rw [hi, cfStringGetCharacterAtIndex, if_pos ⟨Int.natCast_nonneg _, by simp⟩, Int.toNat_natCast]
  simp

/-- A line end with a line feed is looked for first. -/
theorem endOf_lineFeed (rs : Separator) (hrs : rs.chars = [] ∨ rs.chars = [0x0a])
    (front : List UniChar) (d : UniChar) :
    endOf rs.ends (front ++ [d, 0x0a]) = if d = 0x0d then [0x0d, 0x0a] else [0x0a] := by
  have hlast : [0x0a] <:+ front ++ [d, 0x0a] := ⟨front ++ [d], by simp⟩
  have hboth : [0x0d, 0x0a] <:+ front ++ [d, 0x0a] ↔ d = 0x0d := by
    rw [suffix_lastTwo, eq_comm]
    exact and_iff_left rfl
  rcases hrs with hrs | hrs <;> by_cases hd : d = 0x0d <;>
    simp [endOf, Separator.ends, hrs, hboth, hlast, hd]

/-- A carriage return alone is a line end for a line feed. -/
theorem endOf_other (rs : Separator) (hrs : rs.chars = [] ∨ rs.chars = [0x0a])
    (front : List UniChar) {c : UniChar} (hc : c ≠ 0x0a) :
    endOf rs.ends (front ++ [c]) = if c = 0x0d ∧ rs.chars ≠ [] then [0x0d] else [] := by
  have hcr : [0x0d] <:+ front ++ [c] ↔ c = 0x0d := suffix_last.trans eq_comm
  have hlf : ¬ [0x0a] <:+ front ++ [c] := fun h => hc (suffix_last.mp h).symm
  have hcrlf : ¬ [0x0d, 0x0a] <:+ front ++ [c] := not_suffix_last (Ne.symm hc)
  obtain rfl | hc' := eq_or_ne c 0x0d
  · rcases hrs with hrs | hrs <;> simp [endOf, Separator.ends, hrs, hcr.mpr rfl, hlf, hcrlf]
  · rcases hrs with hrs | hrs <;> simp [endOf, Separator.ends, hrs, hcr, hlf, hcrlf, hc']

/-- **The line end that is found** is the longest one, and a carriage return alone is one only for
a separator that is not empty. -/
theorem lineEndRange_eq (rs : Separator) (hrs : rs.chars = [] ∨ rs.chars = [0x0a])
    (hne : str ≠ []) (hlf : str ≠ [0x0a]) :
    lineEndRange rs.chars.length str = .ok (endRange (endOf rs.ends str) str) := by
  obtain rfl | ⟨front, c, rfl⟩ := List.eq_nil_or_concat' str
  · exact absurd rfl hne
  have hlen : ((front ++ [c]).length : ℤ) - 1 = front.length := by simp
  have hlast : cfStringGetCharacterAtIndex (front ++ [c]) ((front ++ [c]).length - 1) = .ok c :=
    cfStringGetCharacterAtIndex_eq front c [] hlen
  unfold lineEndRange
  dsimp only
  rw [hlast, Result.ok_bind]
  by_cases hc : c = 0x0a
  · subst hc
    obtain rfl | ⟨front, d, rfl⟩ := List.eq_nil_or_concat' front
    · exact absurd rfl hlf
    have hbefore : cfStringGetCharacterAtIndex (front ++ [d] ++ [0x0a])
        ((front ++ [d] ++ [0x0a]).length - 1 - 1) = .ok d := by
      rw [List.append_assoc]
      exact cfStringGetCharacterAtIndex_eq front d [0x0a] (by simp; ring)
    rw [if_pos rfl, hbefore, List.append_assoc, List.singleton_append, endOf_lineFeed rs hrs]
    simp only [Result.ok_bind, pure, Except.pure]
    by_cases hd : d = 0x0d
    · rw [if_pos ⟨hd, .inr (by omega)⟩, if_pos hd]
      exact okRange_congr (sub_sub _ 1 1)
    · rw [if_neg fun h => hd h.1, if_neg hd]
      rfl
  · rw [if_neg hc, endOf_other rs hrs front hc]
    simp only [Result.ok_bind, pure, Except.pure]
    by_cases hcr : c = 0x0d ∧ rs.chars ≠ []
    · have hpos := List.length_pos_of_ne_nil hcr.2
      rw [if_pos ⟨hcr.1, .inl (by omega)⟩, if_pos hcr]
      rfl
    · have hguard : ¬ (c = 0x0d ∧ ((rs.chars.length : ℤ) > 0 ∨
          ((front ++ [c]).length : ℤ) ≠ (front ++ [c]).length)) := by
        rintro ⟨hc, hpos | hne⟩
        · exact hcr ⟨hc, List.ne_nil_of_length_pos (by omega)⟩
        · exact hne rfl
      rw [if_neg hguard, if_neg hcr]
      exact okRange_congr (sub_zero _).symm

/-- **The separator that is found** stands at the end of the string. -/
theorem separatorRange_eq (hfind : find.Documented) (rs : Separator)
    (hrs : ¬ (rs.chars = [] ∨ rs.chars = [0x0a])) (hlen : rs.chars.length ≤ str.length) :
    separatorRange find rs.chars str = .ok (endRange (endOf rs.ends str) str) := by
  push Not at hrs
  have hends : rs.ends = [rs.chars] := by rw [Separator.ends, if_neg hrs.2, if_neg hrs.1]
  have hplace : (str.length : ℤ) - rs.chars.length = (str.length - rs.chars.length : ℕ) := by
    omega
  have hin := hfind.first hrs.1
    (show str.length - rs.chars.length + rs.chars.length ≤ str.length by omega)
  have hsuffix : OccursAt rs.chars str (str.length - rs.chars.length) ↔ rs.chars <:+ str := by
    rw [List.suffix_iff_eq_drop, OccursAt]
    refine ⟨fun h => h.eq_of_length ?_, fun h => h ▸ List.prefix_rfl⟩
    rw [List.length_drop]
    omega
  have hcall : cfStringFindWithOptions find false str rs.chars (str.length - rs.chars.length)
      rs.chars.length =
        .ok (find false str rs.chars (str.length - rs.chars.length) rs.chars.length) := by
    rw [hplace]
    exact if_pos ⟨Int.natCast_nonneg _, Int.natCast_nonneg _, by omega⟩
  unfold separatorRange
  dsimp only
  rw [hcall, platform_ok, Result.ok_bind, endOf, hends]
  cases hr : find false str rs.chars (str.length - rs.chars.length) rs.chars.length with
  | none =>
      rw [hr] at hin
      have hno : ¬ rs.chars <:+ str := fun h =>
        hin (str.length - rs.chars.length) ⟨hsuffix.mpr h, le_rfl, le_rfl⟩
      have hnone : ([rs.chars].find? fun e => decide (e <:+ str)) = none := by simp [hno]
      rw [hnone]
      exact okRange_congr (sub_zero _).symm
  | some i =>
      rw [hr] at hin
      obtain ⟨hoccurs, hge, hle⟩ := hin.1
      obtain rfl : i = str.length - rs.chars.length := by omega
      have hsome : ([rs.chars].find? fun e => decide (e <:+ str)) = some rs.chars := by
        simp [hsuffix.mp hoccurs]
      rw [hsome]
      exact okRange_congr hplace.symm

/-- Which branch a separator takes. -/
theorem chompRange_branch (rs : Separator) :
    (rs.isDefault = true ∨ (rs.chars.length : ℤ) = 0 ∨
      (rs.chars.length : ℤ) = 1 ∧ rs.chars.getD 0 0 = 0x0a) ↔
      rs.chars = [] ∨ rs.chars = [0x0a] := by
  constructor
  · rintro (h | h | ⟨hone, hchar⟩)
    · exact .inr (rs.default_chars h)
    · exact .inl (List.eq_nil_of_length_eq_zero (by omega))
    · obtain ⟨c, hc⟩ := List.length_eq_one_iff.mp (Int.ofNat.inj hone)
      rw [hc] at hchar ⊢
      exact .inr (congrArg (fun c => [c]) hchar)
  · rintro (h | h) <;> simp [h]

/-- **The separator at the end is found.** -/
theorem chompRange_eq (hfind : find.Documented) (rs : Separator) (hne : str ≠ [])
    (hfits : EndExists rs str) :
    chompRange find rs str = .ok (endRange (endOf rs.ends str) str) := by
  unfold chompRange
  dsimp only
  unfold EndExists at hfits
  by_cases hrs : rs.chars = [] ∨ rs.chars = [0x0a]
  · rw [if_pos hrs] at hfits
    rw [if_pos ((chompRange_branch rs).mpr hrs)]
    exact lineEndRange_eq rs hrs hne hfits
  · rw [if_neg hrs] at hfits
    rw [if_neg (mt (chompRange_branch rs).mp hrs)]
    exact separatorRange_eq hfind rs hrs hfits

/-- **Outside of the string nothing is found.** -/
theorem chompRange_outside (rs : Separator) (hfits : ¬ EndExists rs str) :
    chompRange find rs str = .error .undefined := by
  unfold chompRange
  dsimp only
  unfold EndExists at hfits
  by_cases hrs : rs.chars = [] ∨ rs.chars = [0x0a]
  · rw [if_pos hrs, not_not] at hfits
    rw [if_pos ((chompRange_branch rs).mpr hrs), hfits]
    rfl
  · rw [if_neg hrs, not_le] at hfits
    have hcall : cfStringFindWithOptions find false str rs.chars (str.length - rs.chars.length)
        rs.chars.length = .error .undefined := if_neg fun h => by omega
    rw [if_neg (mt (chompRange_branch rs).mp hrs)]
    unfold separatorRange
    dsimp only
    rw [hcall]
    rfl

end Chomp

/-! ## What is done to the `CFString` -/

section Chars

variable (white : CharSet) {find : CFFind} (rbRs : Option Separator) (method : Trim)
  (str : List UniChar)

/-- **What `chomp!` does** with a separator that is found. -/
theorem chompChars_eq {rs : Separator} (hne : str ≠ [])
    (hrange : chompRange find rs str = .ok (endRange (endOf rs.ends str) str)) :
    chompChars find (some rs) str =
      .ok ⟨chomped rs.ends str, decide (chomped rs.ends str ≠ str)⟩ := by
  have hpos := List.length_pos_of_ne_nil hne
  have hsuffix := endOf_suffix rs.ends str
  have hle := hsuffix.length_le
  unfold chompChars
  dsimp only
  rw [if_neg (by omega), hrange, Result.ok_bind, chomped_eq]
  obtain ⟨front, hfront⟩ := hsuffix
  generalize endOf rs.ends str = e at *
  subst hfront
  rw [List.rdrop_append_length]
  by_cases he : e = []
  · subst he
    rw [if_pos (.inl rfl), List.append_nil, decide_eq_false (not_not.mpr rfl)]
    rfl
  · have hdelete := cfStringDelete_eq front e [] le_rfl
    have hrange : endRange e (front ++ e) = ⟨front.length, e.length⟩ := by
      rw [endRange, List.length_append]
      congr 1
      omega
    have hepos := List.length_pos_of_ne_nil he
    have hne : front ≠ front ++ e := fun h => he (List.self_eq_append_right.mp h)
    rw [List.append_nil, List.drop_length, List.append_nil, List.append_nil] at hdelete
    rw [hrange, if_neg (by dsimp only; rw [List.length_append]; omega), hdelete, decide_eq_true hne]
    rfl

/-- **What the strip methods do** with a string that is not empty. -/
theorem stripChars_eq {direction : ℤ} (hne : str ≠ []) {kept left : List UniChar}
    (htail : stripTail white direction str = .ok (kept, kept.length))
    (hhead : stripHead white direction str kept kept.length = .ok left) :
    stripChars white str direction = .ok ⟨left, decide (str.length ≠ kept.length)⟩ := by
  have hpos := List.length_pos_of_ne_nil hne
  unfold stripChars
  rw [if_neg (by omega), htail, Result.ok_bind]
  dsimp only
  rw [hhead, Result.ok_bind]
  simp only [ne_eq, Nat.cast_inj]
  rfl

/-- What is left has another length if it is not the string. -/
theorem length_rdropWhile_ne : str.length ≠ (str.rdropWhile white).length ↔
    str.rdropWhile white ≠ str := by
  refine not_congr ⟨fun h => ?_, fun h => (congrArg List.length h).symm⟩
  exact (List.rdropWhile_prefix _ str).eq_of_length h.symm

theorem dropWhile_eq_self_iff_head : str.dropWhile white = str ↔
    ∀ c ∈ str.head?, white c = false := by
  cases str with
  | nil => simp
  | cons c rest => rw [List.dropWhile_eq_self_iff]; simp

theorem rdropWhile_ne_self_iff_last : str.rdropWhile white ≠ str ↔
    ∃ c ∈ str.getLast?, white c = true := by
  obtain rfl | ⟨front, c, rfl⟩ := List.eq_nil_or_concat' str
  · simp
  · rw [Ne, List.rdropWhile_eq_self_iff]
    simp

/-- What the method does to the `CFString`. -/
def Trim.runChars (find : CFFind) : Trim → Except TrimError Trimmed
  | lstrip => stripChars white str (-1)
  | rstrip => stripChars white str 1
  | strip => stripChars white str 0
  | chomp argv => chompChars find (argv.getD rbRs) str

/-- `lstrip!` removes whitespace at the beginning and returns `nil`. -/
theorem runChars_lstrip :
    Trim.lstrip.runChars white rbRs str find = .ok ⟨str.dropWhile white, false⟩ := by
  obtain rfl | hne := eq_or_ne str []
  · rfl
  have htail : stripTail white (-1) str = .ok (str, str.length) := by
    unfold stripTail
    exact if_neg (by decide)
  have hrun := stripChars_eq white str hne htail (stripHead_eq (by decide) List.prefix_rfl)
  rwa [decide_eq_false (not_not.mpr rfl)] at hrun

theorem runChars_rstrip : Trim.rstrip.runChars white rbRs str find =
    .ok ⟨str.rdropWhile white, decide (str.rdropWhile white ≠ str)⟩ := by
  obtain rfl | hne := eq_or_ne str []
  · rfl
  have htail : stripTail white 1 str = _ := stripTail_eq (by decide) str
  have hrun := stripChars_eq white str hne htail (if_neg (by decide))
  rwa [decide_eq_decide.mpr (length_rdropWhile_ne white str)] at hrun

/-- `strip!` returns `nil` if nothing is removed at the end. -/
theorem runChars_strip : Trim.strip.runChars white rbRs str find =
    .ok ⟨(str.rdropWhile white).dropWhile white, decide (str.rdropWhile white ≠ str)⟩ := by
  obtain rfl | hne := eq_or_ne str []
  · rfl
  have htail : stripTail white 0 str = _ := stripTail_eq (by decide) str
  have hhead : stripHead white 0 str _ _ = _ :=
    stripHead_eq (by decide) (List.rdropWhile_prefix white str)
  have hrun := stripChars_eq white str hne htail hhead
  rwa [decide_eq_decide.mpr (length_rdropWhile_ne white str)] at hrun

variable {white rbRs method str}

/-- **`chomp!` removes a separator** when the characters that it looks at exist. -/
theorem runChars_chomp (hfind : find.Documented) {argv : Option (Option Separator)}
    (hfits : CharsFit white rbRs (.chomp argv) str) :
    (Trim.chomp argv).runChars white rbRs str find =
      .ok ⟨(Trim.chomp argv).left white rbRs str,
        decide ((Trim.chomp argv).left white rbRs str ≠ str)⟩ := by
  rw [CharsFit] at hfits
  rw [Trim.runChars, Trim.left]
  cases hrs : argv.getD rbRs with
  | none =>
      rw [Option.elim_none, decide_eq_false (not_not.mpr rfl)]
      rfl
  | some rs =>
      rw [Option.elim_some]
      obtain rfl | hne := eq_or_ne str []
      · rw [chomped_eq, List.rdrop_nil]
        rfl
      · exact chompChars_eq str hne (chompRange_eq hfind rs hne (hfits rs hrs hne))

/-- **`chomp!` looks at characters that do not exist.** -/
theorem runChars_chomp_outside {argv : Option (Option Separator)}
    (hfits : ¬ CharsFit white rbRs (.chomp argv) str) :
    (Trim.chomp argv).runChars white rbRs str find = .error .undefined := by
  rw [CharsFit] at hfits
  push Not at hfits
  obtain ⟨rs, hrs, hne, hno⟩ := hfits
  have hpos := List.length_pos_of_ne_nil hne
  rw [Trim.runChars, Option.mem_def.mp hrs, chompChars]
  rw [if_neg (by omega), chompRange_outside rs hno]
  rfl

/-- **The `CFString` is trimmed exactly when it fits.** -/
theorem runChars_iff (hfind : find.Documented) :
    method.runChars white rbRs str find =
        .ok ⟨method.left white rbRs str, decide (method.left white rbRs str ≠ str)⟩ ↔
      CharsFit white rbRs method str := by
  have hhead : str.dropWhile white = str ↔ ∀ c ∈ str.head?, white c = false :=
    dropWhile_eq_self_iff_head white str
  cases method with
  | lstrip =>
      rw [runChars_lstrip, Trim.left, CharsFit, ← hhead]
      simp
  | rstrip => exact iff_of_true (runChars_rstrip white rbRs str) trivial
  | strip =>
      rw [runChars_strip, Trim.left, CharsFit, ← hhead, ← rdropWhile_ne_self_iff_last]
      simp only [Except.ok.injEq, Trimmed.mk.injEq, true_and, decide_eq_decide]
      by_cases hkept : str.rdropWhile white = str
      · rw [hkept]
        tauto
      · -- what is left is shorter, whether the front changes or not
        have hshorter : (str.rdropWhile white).length < str.length :=
          lt_of_le_of_ne (List.rdropWhile_prefix _ _).length_le fun h =>
            (length_rdropWhile_ne white str).mpr hkept h.symm
        refine iff_of_true (iff_of_true hkept fun h => ?_) (.inr hkept)
        have hlen := ((List.dropWhile_suffix (l := str.rdropWhile white) white).length_le).trans_lt
          hshorter
        rw [h] at hlen
        exact lt_irrefl _ hlen
  | chomp argv =>
      refine ⟨fun h => ?_, runChars_chomp hfind⟩
      by_contra hno
      rw [runChars_chomp_outside hno] at h
      cases h

/-- **A method returns `nil`** when it finds nothing at the end. -/
theorem exists_runChars_iff (hfind : find.Documented) :
    (∃ chars, method.runChars white rbRs str find = .ok ⟨chars, false⟩) ↔
      NoTail white rbRs method str := by
  have hlast : str.rdropWhile white = str ↔ ∀ c ∈ str.getLast?, white c = false := by
    rw [← not_iff_not, ← Ne, rdropWhile_ne_self_iff_last]
    simp
  cases method with
  | lstrip => exact iff_of_true ⟨_, runChars_lstrip white rbRs str⟩ trivial
  | rstrip =>
      rw [NoTail, ← hlast]
      simp [runChars_rstrip]
  | strip =>
      rw [NoTail, ← hlast]
      simp [runChars_strip]
  | chomp argv =>
      unfold NoTail
      constructor
      · rintro ⟨chars, h⟩ rs hrs
        by_cases hfits : CharsFit white rbRs (.chomp argv) str
        · rw [runChars_chomp hfind hfits, Except.ok.injEq, Trimmed.mk.injEq] at h
          have hsame := not_not.mp (of_decide_eq_false h.2)
          rw [Trim.left, hrs, Option.elim_some] at hsame
          exact ⟨hfits rs hrs, hsame⟩
        · rw [runChars_chomp_outside hfits] at h
          cases h
      · intro h
        have hsame : (Trim.chomp argv).left white rbRs str = str := by
          rw [Trim.left]
          cases hrs : argv.getD rbRs with
          | none => rfl
          | some rs => exact (h rs hrs).2
        refine ⟨str, ?_⟩
        rw [runChars_chomp hfind fun rs hrs => (h rs hrs).1, hsame,
          decide_eq_false (not_not.mpr rfl)]

end Chars

/-! ## The methods -/

section Methods

variable {white : CharSet} {find : CFFind} {rbRs : Option Separator} {m : Modifiable}
  {method : Trim} {str : StringObject}

/-- A string that can be modified has its `CFString` trimmed. -/
theorem run_eq : method.run white find rbRs m str = strModifiable m >>= fun _ =>
    method.runChars white rbRs str.chars find >>= fun trimmed =>
      .ok ⟨⟨trimmed.chars, str.data⟩, trimmed.returned⟩ := by
  cases method <;> rfl

/-- A method is right when what it does to the `CFString` is. -/
theorem trimRight_iff_runChars (hm : strModifiable m = .ok ()) :
    TrimRight white find rbRs m method str ↔
      ∃ chars, StringObject.text ⟨chars, str.data⟩ = method.left white rbRs str.text ∧
        method.runChars white rbRs str.chars find =
          .ok ⟨chars, decide (method.left white rbRs str.text ≠ str.text)⟩ := by
  unfold TrimRight
  simp only [run_eq, hm, Result.ok_bind]
  constructor
  · rintro ⟨r, htext, hrun⟩
    obtain ⟨trimmed, hchars, hr⟩ := Result.bind_eq_ok.mp hrun
    obtain ⟨rfl, hreturned⟩ := Banged.mk.inj (Except.ok.inj hr)
    exact ⟨trimmed.chars, htext, by rw [hchars, ← hreturned]⟩
  · rintro ⟨chars, htext, hrun⟩
    exact ⟨_, htext, by rw [hrun, Result.ok_bind]⟩

/-- A string that can be modified. -/
def plainString : Modifiable := ⟨true, false, false, 0⟩

/-- The separator `"\n"`, which is the default one. -/
def newline : Separator := ⟨⟨[0x0a], none⟩, true, fun _ => rfl, rfl⟩

/-- Blanks are whitespace. -/
def blank : CharSet := fun c => c == 0x20

/-- `"\n".chomp!` looks before the string. -/
example : rbStrChompBang occurrenceIn plainString none (some newline) ⟨[0x0a], none⟩ =
    .error .undefined := by
  decide

end Methods

end MacRuby
