import MacRuby.Lib.Cyclic
import MacRuby.Lib.Fuel
import MacRuby.Lib.Result
import MacRuby.Numeric.Long
import MacRuby.String.Find

/-!
# Justifying a string

`String#ljust`, `String#rjust` and `String#center` insert copies of a pad, always at the same place,
and at last a part of it, which therefore stands in front of the copies.  A pad that is empty is
inserted for ever.  All of this is done on a `CFString`; byte data stays as it is.

## Main definitions

* `justify0`, `justifyChars`, `rbStrJustify` — the code.
* `JustifyRight` — each side is the beginning of the infinite repetition of the pad.
* `JustifyFits` — the widths and the pads for which this is so.

## Main results

* `justify0_settles` — what is inserted.
* `justifyRight_iff` — when the result is right.
-/

namespace MacRuby

open Cyclic

/-! ## The code -/

/-- Why a method does not return. -/
inductive JustifyError
  /-- `ArgumentError` -/
  | argument
  | string (e : StringError)
  | outOfFuel
  deriving DecidableEq

/-- `jflag`. -/
inductive JFlag
  | c
  | l
  | r
  deriving DecidableEq

section Code

/-- `CFStringInsert(str, index, insertedStr)`. -/
def cfStringInsert (str : List UniChar) (index : ℤ) (inserted : List UniChar) :
    Except JustifyError (List UniChar) :=
  if 0 ≤ index ∧ index ≤ str.length then
    .ok (str.take index.toNat ++ inserted ++ str.drop index.toNat)
  else .error (.string .undefined)

/-- The pad, of which only a part is inserted when it is wider than what is left. -/
def justifyPad (pad : List UniChar) (width padwidth : ℤ) : Except JustifyError (List UniChar) :=
  if padwidth > width then
    match cfStringCreateWithSubstring pad ⟨0, width⟩ with
    | .ok part => .ok part
    | .error e => .error (.string e)
  else .ok pad

/-- `rb_str_justify0(str, pad, width, padwidth, index)`, with the string after it. -/
def justify0 (padwidth index : ℤ) : (str pad : List UniChar) → (width : ℤ) → (fuel : ℕ) →
    Except JustifyError (List UniChar)
  | _, _, _, 0 => .error .outOfFuel
  | str, pad, width, fuel + 1 => do
      let pad ← justifyPad pad width padwidth
      let str ← cfStringInsert str index pad
      if width - padwidth > 0 then justify0 padwidth index str pad (width - padwidth) fuel
      else return str

/-- A `long` that is not negative, converted to `double`: 53 significant bits, a tie going to the
even one. -/
def toDouble (w : ℕ) : ℕ :=
  let ulp := 2 ^ (Nat.log2 w + 1 - 53)
  let q := w / ulp
  let r := w % ulp
  (if 2 * r > ulp ∨ 2 * r = ulp ∧ q % 2 = 1 then q + 1 else q) * ulp

/-- `ceil(width / 2.0)`. -/
def ceilHalf (width : ℕ) : ℕ := (toDouble width + 1) / 2

/-- `floor(width / 2.0)`. -/
def floorHalf (width : ℕ) : ℕ := toDouble width / 2

/-- What becomes of the `CFString`. -/
def justifyChars (jflag : JFlag) (str : List UniChar) (w : ℤ) (pad : Option (List UniChar))
    (fuel : ℕ) : Except JustifyError (List UniChar) :=
  let n : ℤ := str.length
  if w < 0 ∨ w ≤ n then .ok str
  else
    let width := w - n
    let pad := pad.getD [0x20]
    let padwidth : ℤ := pad.length
    match jflag with
    | .c => do
        let str ← justify0 padwidth n str pad (ceilHalf width.toNat) fuel
        justify0 padwidth 0 str pad (floorHalf width.toNat) fuel
    | .l => justify0 padwidth n str pad width fuel
    | .r => justify0 padwidth 0 str pad width fuel

/-- `rb_str_justify(argc, argv, str, jflag)`, where `NUM2LONG(w)` is `w`.  The copy that is
justified has the byte data of the string. -/
def rbStrJustify (jflag : JFlag) (str : StringObject) (w : ℤ) (pad : Option StringObject)
    (fuel : ℕ) : Except JustifyError StringObject := do
  let chars ← justifyChars jflag str.chars w (pad.map StringObject.chars) fuel
  return ⟨chars, str.data⟩

/-- `rb_str_ljust`. -/
def rbStrLjust := rbStrJustify .l

/-- `rb_str_rjust`. -/
def rbStrRjust := rbStrJustify .r

/-- `rb_str_center`. -/
def rbStrCenter := rbStrJustify .c

end Code

/-! ## What the methods are for -/

section Meaning

/-- How much there is to insert before the string. -/
def JFlag.before (width : ℕ) : JFlag → ℕ
  | c => width / 2
  | l => 0
  | r => width

/-- How much there is to insert behind it. -/
def JFlag.behind (width : ℕ) : JFlag → ℕ
  | c => (width + 1) / 2
  | l => width
  | r => 0

variable {L : LongSize} (jflag : JFlag) (str : StringObject) (w : Long L)
  (pad : Option StringObject)

/-- What the pad spells. -/
def padText : List UniChar := (pad.map StringObject.text).getD [0x20]

/-- **The result is right**: on both sides of the string there is the beginning of the infinite
repetition of the pad, and an empty pad is an error. -/
def JustifyRight : Prop :=
  let u := padText pad
  let width := w.val.toNat - str.clen
  if u = [] then Fuel.Settles (rbStrJustify jflag str w.val pad) (.error .argument)
  else ∃ r : StringObject, Fuel.Settles (rbStrJustify jflag str w.val pad) (.ok r) ∧
    r.text = cyclic u (jflag.before width) ++ str.text ++ cyclic u (jflag.behind width)

/-- There is no whole copy of the pad, or the part of it that is left over can be moved past one. -/
def PadTurns (u : List UniChar) (width : ℕ) : Prop :=
  width < u.length ∨ u.take (width % u.length) ++ u = u ++ u.take (width % u.length)

instance (u : List UniChar) (width : ℕ) : Decidable (PadTurns u width) :=
  inferInstanceAs (Decidable (_ ∨ _))

/-- **The string has no byte data, the pad is not empty, it turns on both sides, and the width of a
string to be centered is a `double`.** -/
structure JustifyFits : Prop where
  data : str.data = none
  ne_nil : padText pad ≠ []
  before : PadTurns (padText pad) (jflag.before (w.val.toNat - str.clen))
  behind : PadTurns (padText pad) (jflag.behind (w.val.toNat - str.clen))
  exact : jflag = .c → toDouble (w.val.toNat - str.clen) = w.val.toNat - str.clen

end Meaning

/-! ## What is inserted -/

section Insert

variable {u : List UniChar}

/-- A part of the pad, and copies of it. -/
def chunks (u : List UniChar) (width : ℕ) : List UniChar :=
  u.take (width % u.length) ++ copies u (width / u.length)

theorem cfStringInsert_eq (a b u : List UniChar) :
    cfStringInsert (a ++ b) a.length u = .ok (a ++ u ++ b) := by
  rw [cfStringInsert, if_pos ⟨Int.natCast_nonneg _, by simp⟩, Int.toNat_natCast, List.take_left,
    List.drop_left]

theorem justifyPad_wide {width : ℕ} (h : width < u.length) :
    justifyPad u width u.length = .ok (u.take width) := by
  have hpart : cfStringCreateWithSubstring u ⟨0, width⟩ = .ok (u.take width) := by
    rw [cfStringCreateWithSubstring, if_pos ⟨le_rfl, Int.natCast_nonneg _, by simpa using h.le⟩]
    rfl
  rw [justifyPad, if_pos (by omega), hpart]

theorem justifyPad_narrow {width : ℕ} (h : u.length ≤ width) :
    justifyPad u width u.length = .ok u := if_neg (by omega)

/-- **The part of the pad is inserted last**, and so stands in front. -/
theorem justify0_settles (hu : u ≠ []) (a : List UniChar) (width : ℕ) : ∀ b : List UniChar,
    Fuel.Settles (justify0 u.length a.length (a ++ b) u width)
      (.ok (a ++ chunks u width ++ b)) := by
  have hpos := List.length_pos_of_ne_nil hu
  induction width using Nat.strong_induction_on with
  | _ width ih =>
      intro b
      by_cases hwide : width < u.length
      · refine (Fuel.Settles.const _).of_succ fun fuel => ?_
        rw [justify0, justifyPad_wide hwide, Result.ok_bind, cfStringInsert_eq, Result.ok_bind,
          if_neg (by omega), chunks, Nat.mod_eq_of_lt hwide, Nat.div_eq_of_lt hwide, copies_zero,
          List.append_nil]
        rfl
      have hle := not_lt.mp hwide
      have hchunks : chunks u width = chunks u (width - u.length) ++ u := by
        rw [chunks, chunks, Nat.mod_eq_sub_mod hle, Nat.div_eq_sub_div hpos hle, copies_succ,
          ← copies_append, List.append_assoc]
      by_cases hend : width = u.length
      · refine (Fuel.Settles.const _).of_succ fun fuel => ?_
        have hnone : chunks u (width - u.length) = [] := by
          rw [hend, Nat.sub_self, chunks, Nat.zero_mod, List.take_zero, Nat.zero_div, copies_zero,
            List.append_nil]
        rw [justify0, justifyPad_narrow hle, Result.ok_bind, cfStringInsert_eq, Result.ok_bind,
          if_neg (by omega), hchunks, hnone, List.nil_append]
        rfl
      · have hrest := ih (width - u.length) (by omega) (u ++ b)
        have hcast : (width : ℤ) - u.length = (width - u.length : ℕ) := by omega
        rw [hchunks, ← List.append_assoc, List.append_assoc _ u b]
        refine hrest.of_succ fun fuel => ?_
        rw [justify0, justifyPad_narrow hle, Result.ok_bind, cfStringInsert_eq, Result.ok_bind,
          if_pos (by omega), hcast, List.append_assoc]

/-- **Nothing is inserted for ever.** -/
theorem justify0_nil {width : ℤ} (hwidth : 0 < width) (str : List UniChar) {index : ℕ}
    (hindex : index ≤ str.length) (fuel : ℕ) :
    justify0 0 index str [] width fuel = .error .outOfFuel := by
  induction fuel with
  | zero => rfl
  | succ fuel ih =>
      have hpad : justifyPad [] width 0 = .ok [] := if_neg (by omega)
      have hinsert : cfStringInsert str index [] = .ok str := by
        rw [cfStringInsert, if_pos ⟨Int.natCast_nonneg _, by omega⟩, List.append_nil,
          List.take_append_drop]
      rw [justify0, hpad, Result.ok_bind, hinsert, Result.ok_bind, if_pos (by omega), sub_zero, ih]

/-- **What is inserted is the beginning of the infinite repetition** if and only if the pad
turns. -/
theorem chunks_eq_iff (hu : u ≠ []) (width : ℕ) :
    chunks u width = cyclic u width ↔ PadTurns u width := by
  have hpos := List.length_pos_of_ne_nil hu
  rw [cyclic_eq hu, chunks, part_copies_iff _ (Nat.mod_lt width hpos).le, PadTurns,
    Nat.div_eq_zero_iff_lt hpos]

theorem length_chunks (hu : u ≠ []) (width : ℕ) : (chunks u width).length = width := by
  have hpos := List.length_pos_of_ne_nil hu
  have hdiv := Nat.div_add_mod width u.length
  rw [chunks, List.length_append, List.length_take, length_copies,
    Nat.min_eq_left (Nat.mod_lt width hpos).le, mul_comm]
  omega

end Insert

/-! ## The width of a side -/

/-- A width that is no `double` is rounded to an even one. -/
theorem toDouble_even {d : ℕ} (h : toDouble d ≠ d) : toDouble d % 2 = 0 := by
  unfold toDouble at h ⊢
  dsimp only at h ⊢
  cases hk : Nat.log2 d + 1 - 53 with
  | zero =>
      rw [hk] at h
      exfalso
      apply h
      rw [pow_zero, Nat.mod_one, Nat.div_one, if_neg (by omega), mul_one]
  | succ k => rw [pow_succ, ← mul_assoc, Nat.mul_mod_left]

theorem toDouble_pos {d : ℕ} (h : 0 < d) : 0 < toDouble d := by
  have hulp : 2 ^ (Nat.log2 d + 1 - 53) ≤ d :=
    (Nat.pow_le_pow_right (by decide) (by omega)).trans (Nat.log2_self_le h.ne')
  have hpos : 0 < 2 ^ (Nat.log2 d + 1 - 53) := Nat.two_pow_pos _
  have hq : 0 < d / 2 ^ (Nat.log2 d + 1 - 53) := Nat.div_pos hulp hpos
  unfold toDouble
  apply Nat.mul_pos _ hpos
  split
  · exact Nat.succ_pos _
  · exact hq

/-- What is inserted before the string. -/
def JFlag.inserted (width : ℕ) : JFlag → ℕ
  | c => floorHalf width
  | l => 0
  | r => width

/-- What is inserted behind it. -/
def JFlag.appended (width : ℕ) : JFlag → ℕ
  | c => ceilHalf width
  | l => width
  | r => 0

/-- The sides are as wide as they should be, or there is too much or too little in all. -/
theorem JFlag.widths (jflag : JFlag) (d : ℕ) :
    (jflag = .c → toDouble d = d) ∧ jflag.inserted d = jflag.before d ∧
        jflag.appended d = jflag.behind d ∨
      ¬ (jflag = .c → toDouble d = d) ∧
        jflag.inserted d + jflag.appended d ≠ jflag.before d + jflag.behind d := by
  cases jflag with
  | l => exact .inl ⟨by simp, rfl, rfl⟩
  | r => exact .inl ⟨by simp, rfl, rfl⟩
  | c =>
      by_cases h : toDouble d = d
      · refine .inl ⟨fun _ => h, ?_, ?_⟩
        · rw [JFlag.inserted, floorHalf, h, JFlag.before]
        · rw [JFlag.appended, ceilHalf, h, JFlag.behind]
      · refine .inr ⟨fun h' => h (h' rfl), ?_⟩
        have heven := toDouble_even h
        rw [JFlag.inserted, floorHalf, JFlag.appended, ceilHalf, JFlag.before, JFlag.behind]
        omega

/-- **Both sides are right exactly when the pad turns there**, and the width is a `double`. -/
theorem sides_eq_iff (jflag : JFlag) {u : List UniChar} (hu : u ≠ []) (str : List UniChar) (d : ℕ) :
    chunks u (jflag.inserted d) ++ str ++ chunks u (jflag.appended d) =
        cyclic u (jflag.before d) ++ str ++ cyclic u (jflag.behind d) ↔
      PadTurns u (jflag.before d) ∧ PadTurns u (jflag.behind d) ∧
        (jflag = .c → toDouble d = d) := by
  rcases jflag.widths d with ⟨hexact, hbefore, hbehind⟩ | ⟨hno, hne⟩
  · rw [hbefore, hbehind]
    constructor
    · intro h
      have hlen : ∀ k, (chunks u k).length = (cyclic u k).length := by
        intro k
        rw [length_chunks hu, length_cyclic hu]
      obtain ⟨hfront, hback⟩ := List.append_inj h (by
        rw [List.length_append, List.length_append, hlen])
      exact ⟨(chunks_eq_iff hu _).mp (List.append_inj_left hfront (hlen _)),
        (chunks_eq_iff hu _).mp hback, hexact⟩
    · intro h
      rw [(chunks_eq_iff hu _).mpr h.1, (chunks_eq_iff hu _).mpr h.2.1]
  · refine iff_of_false (fun h => ?_) fun h => hno h.2.2
    have hlen := congrArg List.length h
    simp only [List.length_append, length_chunks hu, length_cyclic hu] at hlen
    omega

/-! ## The methods -/

section Chars

variable (jflag : JFlag) {str : List UniChar} {w : ℤ} (pad : Option (List UniChar))

/-- **What becomes of the `CFString`.** -/
theorem justifyChars_settles (hw : str.length < w) (hu : pad.getD [0x20] ≠ []) :
    Fuel.Settles (justifyChars jflag str w pad)
      (.ok (chunks (pad.getD [0x20]) (jflag.inserted (w.toNat - str.length)) ++ str ++
        chunks (pad.getD [0x20]) (jflag.appended (w.toNat - str.length)))) := by
  have hwidth : w - str.length = (w.toNat - str.length : ℕ) := by omega
  have hguard : ¬ (w < 0 ∨ w ≤ str.length) := by omega
  have hnone : chunks (pad.getD [0x20]) 0 = [] :=
    List.eq_nil_of_length_eq_zero (length_chunks hu 0)
  have hright := fun width => justify0_settles hu str width []
  have hleft := fun width b => justify0_settles hu [] width b
  simp only [List.append_nil] at hright
  simp only [List.nil_append, List.length_nil, Nat.cast_zero] at hleft
  unfold justifyChars
  dsimp only
  simp only [if_neg hguard, hwidth]
  generalize w.toNat - str.length = d at *
  cases jflag with
  | l =>
      rw [JFlag.inserted, JFlag.appended, hnone, List.nil_append]
      exact hright d
  | r =>
      rw [JFlag.inserted, JFlag.appended, hnone, List.append_nil]
      exact hleft d str
  | c =>
      rw [JFlag.inserted, JFlag.appended, List.append_assoc]
      exact (hright (ceilHalf d)).bind (hleft (floorHalf d) _)

/-- An empty pad is inserted for ever. -/
theorem justifyChars_nil (hw : str.length < w) (hu : pad.getD [0x20] = []) (fuel : ℕ) :
    justifyChars jflag str w pad fuel = .error .outOfFuel := by
  have hguard : ¬ (w < 0 ∨ w ≤ str.length) := by omega
  have hceil : 0 < ceilHalf (w - str.length).toNat := by
    have hdouble : 0 < toDouble (w - str.length).toNat := toDouble_pos (by omega)
    rw [ceilHalf]
    omega
  have hleft : justify0 0 (0 : ℕ) str [] (w - str.length) fuel = .error .outOfFuel :=
    justify0_nil (by omega) str (Nat.zero_le _) fuel
  have hright : justify0 0 str.length str [] (ceilHalf (w - str.length).toNat) fuel =
      .error .outOfFuel := justify0_nil (Int.natCast_pos.mpr hceil) str le_rfl fuel
  unfold justifyChars
  dsimp only
  rw [if_neg hguard, hu]
  cases jflag with
  | l => exact justify0_nil (by omega) str le_rfl fuel
  | r => exact hleft
  | c => exact congrArg (· >>= _) hright

/-- An empty pad is no `ArgumentError`. -/
theorem justifyChars_ne_argument (hu : pad.getD [0x20] = []) (fuel : ℕ) :
    justifyChars jflag str w pad fuel ≠ .error .argument := by
  by_cases hw : str.length < w
  · rw [justifyChars_nil jflag pad hw hu]
    simp
  · have hguard : w < 0 ∨ w ≤ str.length := .inr (by omega)
    rw [justifyChars, if_pos hguard]
    simp

end Chars

section Methods

variable {L : LongSize} (jflag : JFlag) {str : StringObject} {w : Long L}
  (pad : Option StringObject)

/-- An empty pad is no error. -/
theorem rbStrJustify_ne_argument (hu : (pad.map StringObject.chars).getD [0x20] = []) (fuel : ℕ) :
    rbStrJustify jflag str w.val pad fuel ≠ .error .argument :=
  Result.bind_ne_error (justifyChars_ne_argument jflag _ hu fuel) fun _ _ h => by cases h

/-- **Byte data hides what becomes of the `CFString`.** -/
theorem text_rbStrJustify (hdata : str.data ≠ none) {fuel : ℕ} {r : StringObject}
    (h : rbStrJustify jflag str w.val pad fuel = .ok r) : r.text = str.text := by
  obtain ⟨chars, -, hr⟩ := Result.bind_eq_ok.mp h
  obtain rfl := Except.ok.inj hr
  rw [StringObject.text_changed, if_neg hdata]

/-- A string with byte data is not as wide as it should be. -/
theorem not_justifyRight_of_data (hdata : str.data ≠ none) (hw : str.clen < w.val)
    (hpad : (pad.map StringObject.chars).getD [0x20] = padText pad) :
    ¬ JustifyRight jflag str w pad := by
  unfold JustifyRight
  by_cases hu : padText pad = []
  · rw [if_pos hu]
    rintro ⟨n, hn⟩
    exact rbStrJustify_ne_argument jflag pad (hpad.trans hu) n (hn n le_rfl)
  · rw [if_neg hu]
    rintro ⟨r, ⟨n, hn⟩, hr⟩
    have hsame := text_rbStrJustify jflag pad hdata (hn n le_rfl)
    have hlen := congrArg List.length (hr.symm.trans hsame)
    have hwide : jflag.before (w.val.toNat - str.clen) + jflag.behind (w.val.toNat - str.clen) =
        w.val.toNat - str.clen := by
      cases jflag <;> simp only [JFlag.before, JFlag.behind] <;> omega
    simp only [List.length_append, length_cyclic hu] at hlen
    omega

/-- A string without byte data is right when what is inserted is. -/
theorem justifyRight_iff_sides (hdata : str.data = none) (hu : padText pad ≠ [])
    (hpad : (pad.map StringObject.chars).getD [0x20] = padText pad) (hw : str.clen < w.val) :
    JustifyRight jflag str w pad ↔
      chunks (padText pad) (jflag.inserted (w.val.toNat - str.clen)) ++ str.chars ++
          chunks (padText pad) (jflag.appended (w.val.toNat - str.clen)) =
        cyclic (padText pad) (jflag.before (w.val.toNat - str.clen)) ++ str.chars ++
          cyclic (padText pad) (jflag.behind (w.val.toNat - str.clen)) := by
  have hclen := StringObject.clen_of_data hdata
  have hchars := justifyChars_settles jflag _ (hclen ▸ hw) (hpad.symm ▸ hu)
  rw [hpad, ← hclen] at hchars
  have hsettles : Fuel.Settles (rbStrJustify jflag str w.val pad) (.ok ⟨_, str.data⟩) :=
    hchars.bind (Fuel.Settles.const _)
  unfold JustifyRight
  rw [if_neg hu, StringObject.text_of_data hdata]
  constructor
  · rintro ⟨r, hr, htext⟩
    obtain rfl := Except.ok.inj (hsettles.unique hr)
    rwa [StringObject.text_changed, if_pos hdata] at htext
  · intro h
    refine ⟨_, hsettles, ?_⟩
    rwa [StringObject.text_changed, if_pos hdata]

/-- **Exactly then the result is right**, for a pad whose `CFString` spells it. -/
theorem justifyRight_iff (hpad : ∀ p ∈ pad, p.InStep) (hw : str.clen < w.val) :
    JustifyRight jflag str w pad ↔ JustifyFits jflag str w pad := by
  have hpadText : (pad.map StringObject.chars).getD [0x20] = padText pad := by
    cases pad with
    | none => rfl
    | some p => exact (hpad p rfl).symm
  by_cases hdata : str.data = none
  swap
  · exact iff_of_false (not_justifyRight_of_data jflag pad hdata hw hpadText) fun h =>
      hdata h.data
  by_cases hu : padText pad = []
  · refine iff_of_false ?_ fun h => h.ne_nil hu
    unfold JustifyRight
    rw [if_pos hu]
    rintro ⟨n, hn⟩
    exact rbStrJustify_ne_argument jflag pad (hpadText.trans hu) n (hn n le_rfl)
  rw [justifyRight_iff_sides jflag pad hdata hu hpadText hw, sides_eq_iff jflag hu]
  exact ⟨fun ⟨hbefore, hbehind, hexact⟩ => ⟨hdata, hu, hbefore, hbehind, hexact⟩,
    fun h => ⟨h.before, h.behind, h.exact⟩⟩

/-- `"hello"`. -/
def helloObject : StringObject := ⟨[0x68, 0x65, 0x6c, 0x6c, 0x6f], none⟩

/-- The width `11`. -/
def width11 : Long .lp64 := ⟨11, by decide, by decide⟩

/-- `"hello".center(11, "abc")` is right: there is one pad on each side. -/
theorem justifyRight_abc :
    JustifyRight .c helloObject width11 (some ⟨[0x61, 0x62, 0x63], none⟩) :=
  (justifyRight_iff .c _ (by simp [StringObject.InStep, StringObject.text]) (by decide)).mpr
    ⟨rfl, by decide, by decide, by decide, fun _ => by decide⟩

/-- The width `20`. -/
def width20 : Long .lp64 := ⟨20, by decide, by decide⟩

/-- `"1234"`. -/
def digitsObject : StringObject := ⟨[0x31, 0x32, 0x33, 0x34], none⟩

/-- **`"hello".ljust(20, "1234")` is not `"hello123412341234123"`.** -/
theorem ljust_documented : ¬ JustifyRight .l helloObject width20 (some digitsObject) := by
  rw [justifyRight_iff_sides .l (some digitsObject) rfl (by decide) rfl (by decide)]
  decide

/-- It is `"hello123123412341234"`. -/
example : rbStrLjust helloObject 20 (some digitsObject) 4 =
    .ok ⟨[0x68, 0x65, 0x6c, 0x6c, 0x6f, 0x31, 0x32, 0x33, 0x31, 0x32, 0x33, 0x34, 0x31, 0x32, 0x33,
      0x34, 0x31, 0x32, 0x33, 0x34], none⟩ := by
  decide

end Methods

end MacRuby
