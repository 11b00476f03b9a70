import MacRuby.String.Charset

/-!
# Translating characters

`String#tr` and `String#tr_s` go through the runs of a string whose characters are in the set that
`str_charset_find` reads of the first argument. Their callback looks the first character of the run
up in the first argument, as a C string or as a range, and writes what is at that place of the
second argument.  It works on the `CFString` of the receiver, but takes its length with
`RSTRING_LEN`.

## Main definitions

* `rbStrTransCb`, `trTrans`, `rbStrTr`, `rbStrTrS` — the code.
* `TrArg` — a list of characters or a range, with the characters it stands for.
* `trImage` — what a character is translated to.
* `TrRight` — the methods translate by position.
* `TrReads`, `TrFits` — the arguments are read right for a string, and the string is translated.

## Main results

* `trRight_iff` — when the methods translate by position.
-/

namespace MacRuby

open Runs

section Code

variable (enc : CFEncoding)

/-- `CFStringReplace(str, range, repl)`. -/
def cfStringReplace (str : List UniChar) (range : CFRange) (repl : List UniChar) :
    Except CharsetError (List UniChar) :=
  if 0 ≤ range.location ∧ 0 ≤ range.length ∧ range.location + range.length ≤ str.length then
    .ok (str.take range.location.toNat ++ repl ++
      str.drop (range.location + range.length).toNat)
  else .error .undefined

/-- The loop of `trans_replace` from `n` on. -/
def replaceEach (substr : List UniChar) : (count : ℕ) → (n : ℤ) → (str : List UniChar) →
    Except CharsetError (List UniChar)
  | 0, _, str => .ok str
  | count + 1, n, str => do
      let str ← cfStringReplace str ⟨n, 1⟩ substr
      replaceEach substr count (n + 1) str

/-- `trans_replace`, with the range of the search and the `CFString` after it, of a string that may
have byte data. -/
def transReplace (data : Option (List UInt8)) (str : List UniChar) (result : CFRange)
    (substr : List UniChar) (search : CFRange) (sflag : Bool) :
    Except CharsetError (CFRange × List UniChar) :=
  if result.location + result.length ≤ str.length then
    if sflag = false then do
      let str ← replaceEach substr result.length.toNat result.location str
      return (search, str)
    else do
      let str ← cfStringReplace str result substr
      return (⟨result.location + 1, (StringObject.mk str data).clen - (result.location + 1)⟩, str)
  else .error .assertion

/-- What stays as it is in a `tr_trans_cb_ctx`. -/
structure TrTransArgs where
  orepl : List UniChar
  src : List UInt8
  srcLen : ℕ
  repl : List UInt8
  replLen : ℕ
  sflag : Bool

/-- What changes in a `tr_trans_cb_ctx`. -/
structure TrTransCtx where
  opt : Option (List UniChar)
  changed : Bool

/-- `strchr(mem, c)`. -/
def strchr (mem : List UInt8) (c : UInt8) : Option ℕ := (cText mem 0 ++ [0]).idxOf? c

/-- `CFStringCreateWithBytes` of one byte. -/
def byteString (b : UInt8) : Except CharsetError (List UniChar) :=
  match enc.string [b] with
  | some substr => .ok substr
  | none => .error .undefined

/-- `_ctx->opt`, which is made of a byte when there is none. -/
def optString (opt : Option (List UniChar)) (b : UInt8) : Except CharsetError (List UniChar) :=
  match opt with
  | some opt => .ok opt
  | none => byteString enc b

/-- The first and the last character of an argument that is a range. -/
def trRange (mem : List UInt8) (len : ℕ) : Except CharsetError (Option (ℤ × ℤ)) :=
  if len = 3 ∧ mem.getD 1 0 = 0x2d then
    .ok (some ((mem.getD 0 0).toInt8.toInt, (mem.getD 2 0).toInt8.toInt))
  else if mem.getD 0 0 = 0x5e ∨ (strchr mem 0x2d).isSome = true then .error .notSupported
  else .ok none

/-- `delta`: the place of a character in the first argument. -/
def trDelta (src : List UInt8) (range : Option (ℤ × ℤ)) (character : UniChar) :
    Except CharsetError ℤ :=
  match range with
  | some (sb, se) =>
      if sb ≤ character.toNat ∧ se ≥ character.toNat then .ok (character.toNat - sb)
      else .error .assertion
  | none =>
      match strchr src character.toUInt8 with
      | some p => .ok p
      | none => .error .assertion

/-- What is at a place of the second argument, and `opt` after it. -/
def trSubstr (a : TrTransArgs) (opt : Option (List UniChar)) (range : Option (ℤ × ℤ)) (delta : ℤ) :
    Except CharsetError (List UniChar × Option (List UniChar)) :=
  let beyond := match range with
    | some (rb, re) => decide (delta > re - rb)
    | none => decide (delta > a.replLen)
  if beyond then do
    let substr ← optString enc opt (a.repl.getD (a.replLen - 1) 0)
    return (substr, some substr)
  else do
    let r := match range with
      | some (rb, _) => (Int8.ofInt (rb + delta)).toUInt8
      | none => a.repl.getD delta.toNat 0
    let substr ← byteString enc r
    return (substr, opt)

/-- What replaces the characters of a run when the second argument is not empty, and `opt` after
it. -/
def trReplacement (a : TrTransArgs) (character : UniChar) (opt : Option (List UniChar)) :
    Except CharsetError (List UniChar × Option (List UniChar)) :=
  if a.replLen = 1 then .ok (a.orepl, opt)
  else if a.srcLen = 1 then do
    let substr ← optString enc opt (a.repl.getD 0 0)
    return (substr, some substr)
  else do
    let s ← trRange a.src a.srcLen
    let r ← trRange a.repl a.replLen
    let delta ← trDelta a.src s character
    trSubstr enc a opt r delta

/-- `rb_str_trans_cb`, on a string with this byte data. -/
def rbStrTransCb (data : Option (List UInt8)) (a : TrTransArgs) : CharsetCb TrTransCtx :=
  fun search result str character ctx =>
    if a.replLen = 0 then do
      let str ← cfStringDelete str result
      return (⟨result.location,
        search.length - (result.length + (result.location - search.location))⟩, str,
        ⟨ctx.opt, true⟩)
    else do
      let (substr, opt) ← trReplacement enc a character ctx.opt
      let (search, str) ← transReplace data str result substr search a.sflag
      return (search, str, ⟨opt, true⟩)

/-- The arguments of the callback of `tr_trans`. -/
def trTransArgs (src repl : StringObject) (sflag : Bool) : TrTransArgs :=
  ⟨repl.chars, src.cstr enc, (cText (src.cstr enc) 0).length, repl.cstr enc,
    (cText (repl.cstr enc) 0).length, sflag⟩

/-- `tr_trans`, with the string and whether it has changed. -/
def trTrans (str src repl : StringObject) (sflag : Bool) (fuel : ℕ) :
    Except CharsetError (StringObject × Bool) :=
  if str.clen = 0 then .ok (str, false)
  else
    let a := trTransArgs enc src repl sflag
    (fun r => (⟨r.1, str.data⟩, r.2.changed)) <$>
      strCharsetFind enc str.chars [src] (decide (a.replLen > 1)) (rbStrTransCb enc str.data a)
        ⟨none, false⟩ fuel

variable (str src repl : StringObject) (fuel : ℕ)

/-- `rb_str_tr`, which is done to a copy with the same byte data. -/
def rbStrTr : Except CharsetError StringObject :=
  Prod.fst <$> trTrans enc str src repl false fuel

/-- `rb_str_tr_s`, which is done to a copy with the same byte data. -/
def rbStrTrS : Except CharsetError StringObject :=
  Prod.fst <$> trTrans enc str src repl true fuel

end Code

/-! ## Arguments -/

section Meaning

/-- **An argument**: a list of different characters without a dash and a caret, or a range. -/
inductive TrArg
  | list (chars : List UniChar) (ascii : Ascii chars) (nodup : chars.Nodup)
      (no_dash : 0x2d ∉ chars) (no_caret : 0x5e ∉ chars)
  | range (lo hi : UniChar) (ascii : hi < 0x80) (le : lo ≤ hi)

namespace TrArg

/-- How an argument is written. -/
def text : TrArg → List UniChar
  | list chars _ _ _ _ => chars
  | range lo hi _ _ => [lo, 0x2d, hi]

/-- A string, whose `CFString` is in step, spells an argument. -/
def Spelt (arg : TrArg) (s : StringObject) : Prop := s.InStep ∧ s.chars = arg.text

/-- The characters that an argument stands for. -/
def chars : TrArg → List UniChar
  | list chars _ _ _ _ => chars
  | range lo hi _ _ =>
      (List.range' lo.toNat (hi.toNat - lo.toNat + 1)).map UInt16.ofNat

/-- The argument is a range. -/
def isRange : TrArg → Bool
  | list _ _ _ _ _ => false
  | range _ _ _ _ => true

/-- `strlen` of an argument. -/
def cLength (arg : TrArg) : ℕ := (arg.text.takeWhile (· != 0)).length

/-- The set that `str_charset_find` reads: a range that begins with a dash, with a backslash or with
the character that ends a C string is not read as one. -/
def reads : TrArg → CharSet
  | list chars _ _ _ _ => fun c => decide (c ∈ chars)
  | range lo hi _ _ => fun c =>
      if lo = 0 ∨ lo = 0x2d then decide (c ∈ [lo, 0x2d, hi])
      else if lo = 0x5c then c == lo
      else decide (lo ≤ c ∧ c ≤ hi)

end TrArg

variable (src repl : TrArg)

/-- **What a character is translated to**: the `i`-th one of the first argument to the `i`-th one of
the second, or to the last one when that is shorter, and any other one to itself. -/
def trImage (c : UniChar) : UniChar :=
  match src.chars.idxOf? c with
  | none => c
  | some i => (repl.chars[i]?).getD (repl.chars.getLastD c)

/-- Two characters that are translated to the same one. -/
def trSame (c d : UniChar) : Bool :=
  decide (c ∈ src.chars) && decide (d ∈ src.chars) && trImage src repl c == trImage src repl d

/-- **`tr` translates every character, and `tr_s` leaves one of every run of translated characters
with the same image.** -/
def TrRight (enc : CFEncoding) (str s r : StringObject) : Prop :=
  Fuel.Settles (fun fuel => StringObject.text <$> rbStrTr enc str s r fuel)
    (.ok (str.text.map (trImage src repl))) ∧
  Fuel.Settles (fun fuel => StringObject.text <$> rbStrTrS enc str s r fuel)
    (.ok ((collapse (trSame src repl) str.text).map (trImage src repl)))

/-- The second argument is one character, or a C string of more than one. -/
def TrUsable : Prop := (repl.text.length = 1 ∧ repl.cLength = 1) ∨ 2 ≤ repl.cLength

/-- What is written for the `i`-th character of the first argument is what should be: the second
argument is a range, or a list without a character that ends a C string that does not have exactly
`i` characters, or a list with no such character before its `i`-th one. -/
def TrPlaced (i : ℕ) : Prop :=
  repl.isRange = true ∨ if 0 ∈ repl.chars then 0 ∉ repl.chars.take i else i ≠ repl.chars.length

/-- **A character that is read of the first argument is translated right**: the second argument is
one character; or it is a C string of more than one, and the character is the first one of a first
argument that is a C string of one, or is not behind a character that ends it and is placed
right. -/
structure TrHandled (c : UniChar) : Prop where
  mem : c ∈ src.chars
  usable : TrUsable repl
  placed : 2 ≤ repl.cLength →
    if src.cLength = 1 then src.chars.idxOf c = 0 ∨ repl.chars.length = 1
    else 0 ∉ src.chars.take (src.chars.idxOf c) ∧ TrPlaced repl (src.chars.idxOf c)

instance (repl : TrArg) : Decidable (TrUsable repl) :=
  inferInstanceAs (Decidable (_ ∨ _))

instance (repl : TrArg) (i : ℕ) : Decidable (TrPlaced repl i) :=
  inferInstanceAs (Decidable (_ ∨ _))

instance (src repl : TrArg) (c : UniChar) : Decidable (TrHandled src repl c) :=
  decidable_of_iff (c ∈ src.chars ∧ TrUsable repl ∧ (2 ≤ repl.cLength →
      if src.cLength = 1 then src.chars.idxOf c = 0 ∨ repl.chars.length = 1
      else 0 ∉ src.chars.take (src.chars.idxOf c) ∧ TrPlaced repl (src.chars.idxOf c)))
    ⟨fun h => ⟨h.1, h.2.1, h.2.2⟩, fun h => ⟨h.mem, h.usable, h.placed⟩⟩

/-- **The arguments are read right for a string.** -/
structure TrReads (str : List UniChar) : Prop where
  stays : ∀ c ∈ str, src.reads c = false → trImage src repl c = c
  handled : ∀ c ∈ str, src.reads c = true → TrHandled src repl c
  squeezed : str.IsChain fun c d => trSame src repl c d = true →
    src.reads c = true ∧ src.reads d = true ∧ (repl.text.length = 1 ∨ c = d)

end Meaning

/-! ## What is read of the first argument -/

section Read

namespace TrArg

variable {arg : TrArg}

theorem ascii_text (arg : TrArg) : Ascii arg.text := by
  cases arg with
  | list chars ascii _ _ _ => exact ascii
  | range lo hi ascii le =>
      have hlo : lo < 0x80 := UInt16.lt_of_le_of_lt le ascii
      have hdash : (0x2d : UniChar) < 0x80 := by decide
      simp [Ascii, text, hlo, hdash, ascii]

/-- An argument without byte data. -/
def object (arg : TrArg) : StringObject := ⟨arg.text, none⟩

theorem spelt_object (arg : TrArg) : arg.Spelt arg.object := ⟨rfl, rfl⟩

theorem cstr_object (enc : CFEncoding) (arg : TrArg) : arg.object.cstr enc = bytesOf arg.text :=
  enc.bytes_ascii _ arg.ascii_text

theorem Spelt.cstr_eq (enc : CFEncoding) {s : StringObject} (hs : arg.Spelt s) :
    s.cstr enc = arg.object.cstr enc := by
  rw [hs.1.cstr_eq enc (hs.2 ▸ arg.ascii_text), hs.2, cstr_object]
  rfl

end TrArg

variable (enc : CFEncoding) {s : List UniChar}

/-- A text that does not begin with a caret is parsed from its beginning when there is a dash in
it. -/
theorem charsetSubset_plain (hs : Ascii s) (hcaret : s.head? ≠ some 0x5e) {p : Option ℕ}
    (hp : strchrDash (bytesOf s) 0 = .ok p) :
    charsetSubset enc ⟨s, none⟩ =
      if p.isSome = true then
        parseRest enc (bytesOf s) ((bytesOf s).length + 1) 0 fun _ => false
      else .ok (addString (fun _ => false) s) := by
  have hfirst : ∃ first, readByte (bytesOf s) 0 = .ok first ∧ (first == 0x5e) = false := by
    cases s with
    | nil => exact ⟨0, rfl, by decide⟩
    | cons c s =>
        refine ⟨c.toUInt8, readByte_bytesOf rfl, beq_eq_false_iff_ne.mpr ?_⟩
        have hne : c ≠ 0x5e := fun h => hcaret (by rw [h]; rfl)
        exact mt (toUInt8_inj (d := 0x5e) (hs c List.mem_cons_self) (by decide)).mp hne
  obtain ⟨first, hfirst, hexclude⟩ := hfirst
  have hbytes : StringObject.cstr enc ⟨s, none⟩ = bytesOf s := enc.bytes_ascii s hs
  rw [charsetSubset, hbytes, hfirst, Result.ok_bind]
  simp only [hexclude, Bool.false_eq_true, if_false, hp, Result.ok_bind, false_or, parseRest]
  cases p with
  | none => rfl
  | some p =>
      simp only [Option.isSome_some, if_true, Option.isNone_some, Bool.false_eq_true, if_false]
      cases charsetDashes enc (bytesOf s) ((bytesOf s).length + 1) 0 (some p) fun _ => false with
      | error e => rfl
      | ok r =>
          rw [Result.ok_bind, Result.ok_bind]
          cases addRest enc (bytesOf s) r <;> rfl

/-- A dash behind the first character of a text of three. -/
theorem strchrDash_range {lo hi : UniChar} (hs : Ascii [lo, 0x2d, hi]) (hlo : lo ≠ 0)
    (hhi : hi ≠ 0) (hdash : lo ≠ 0x2d) :
    strchrDash (bytesOf [lo, 0x2d, hi]) 0 = .ok (some 1) := by
  have hne : (0 : UniChar) ≠ 0x2d := by decide
  have hbody : (0 : UniChar) ∉ [lo, 0x2d, hi] := by simp [hlo.symm, hhi.symm, hne]
  have hheld : Ascii [lo] := fun c hc => hs c (by simp [List.mem_singleton.mp hc])
  have hascii : Ascii ([] ++ ([lo, 0x2d, hi] ++ [])) := hs
  have hp := strchrDash_eq hascii hbody (.inl rfl)
  have hplace : (bytesOf [lo, 0x2d, hi]).idxOf? 0x2d = some 1 :=
    idxOf_dash hheld (by simpa using hdash.symm) [hi]
  rw [hplace] at hp
  exact hp

/-- A range between characters of which the first one is neither a dash nor a caret. -/
theorem charsetSubset_range {lo hi : UniChar} (hs : Ascii [lo, 0x2d, hi]) (hlo : lo ≠ 0)
    (hhi : hi ≠ 0) (hdash : lo ≠ 0x2d) (hcaret : lo ≠ 0x5e) (le : lo ≤ hi) :
    charsetSubset enc ⟨[lo, 0x2d, hi], none⟩ =
      .ok fun c => if lo = 0x5c then c == lo else decide (lo ≤ c ∧ c ≤ hi) := by
  have hp := strchrDash_range hs hlo hhi hdash
  have hne : (0 : UniChar) ≠ 0x2d := by decide
  have hbody : (0 : UniChar) ∉ [lo, 0x2d, hi] := by simp [hlo.symm, hhi.symm, hne]
  have hascii : Ascii ([lo, 0x2d, hi] ++ []) := hs
  have hlen : (cText (bytesOf [lo, 0x2d, hi]) 0).length = 3 :=
    length_cText hascii hbody (.inl rfl)
  have hheld : Ascii ([] ++ [lo]) := fun c hc => hs c (by simp [List.mem_singleton.mp hc])
  have hhi' : hi.toUInt8 ≠ 0 := mt (toUInt8_eq_zero (hs hi (by simp))).mp hhi
  have hstep : charsetDashes enc (bytesOf ([] ++ ([] ++ [lo] ++ 0x2d :: [hi]))) (3 + 1)
      ([] : List UniChar).length (some (([] : List UniChar).length + ([] ++ [lo]).length))
      (fun _ => false) = _ :=
    charsetDashes_step 3 (fun _ => false) hheld (readByte_bytesOf rfl)
  have hbounds : ∀ c : UniChar, (lo ≤ c ∧ c ≤ hi) ↔ ((lo.toNat : ℤ) ≤ c.toNat ∧
      (c.toNat : ℤ) < lo.toNat + (hi.toNat - lo.toNat + 1)) := by
    intro c
    rw [UInt16.le_iff_toNat_le, UInt16.le_iff_toNat_le]
    omega
  have hdashes : charsetDashes enc (bytesOf [lo, 0x2d, hi]) ((bytesOf [lo, 0x2d, hi]).length + 1) 0
      (some 1) (fun _ => false) = .ok (3, _) := hstep
  rw [charsetSubset_plain enc hs (by simpa using hcaret) hp, if_pos (by simp), parseRest, hp,
    Result.ok_bind, hdashes, Result.ok_bind, addRest, hlen, if_neg (by simp)]
  refine congrArg Except.ok (funext fun c => ?_)
  by_cases hback : lo = 0x5c
  · simp [addString, hback, beq_eq_decide]
  · simp only [ne_eq, hback, not_false_eq_true, hhi', and_self, if_true, if_false, addString,
      addRange, toInt_toUInt8 (hs hi (by simp)), ← hbounds]
    by_cases hc : c = lo
    · simp [hc, le]
    · simp [hc]

/-- **What is read of the first argument.** -/
theorem charsetSubset_text (src : TrArg) (hcaret : src.text.head? ≠ some 0x5e) :
    charsetSubset enc src.object = .ok src.reads := by
  have hs := src.ascii_text
  cases src with
  | list chars ascii nodup no_dash no_caret =>
      have hp : strchrDash (bytesOf chars) 0 = .ok none := by
        have htake : Ascii (chars.takeWhile (· != 0)) := fun c hc =>
          ascii c ((List.takeWhile_sublist _).subset hc)
        have hdash : 0x2d ∉ chars.takeWhile (· != 0) := fun h =>
          no_dash ((List.takeWhile_sublist _).subset h)
        rw [strchrDash, if_pos (Nat.zero_le _), cText_bytesOf ascii, List.drop_zero,
          idxOf_no_dash htake hdash]
        rfl
      rw [TrArg.text] at hs hcaret
      rw [TrArg.object, TrArg.text, charsetSubset_plain enc hs hcaret hp, if_neg (by simp)]
      refine congrArg Except.ok (funext fun c => ?_)
      simp [addString, TrArg.reads]
  | range lo hi ascii le =>
      rw [TrArg.text] at hs hcaret
      rw [TrArg.object, TrArg.text]
      have hne : lo ≠ 0x5e := by simpa using hcaret
      by_cases hlo : lo = 0
      · subst hlo
        have hp : strchrDash (bytesOf [0, 0x2d, hi]) 0 = .ok none := rfl
        rw [charsetSubset_plain enc hs hcaret hp, if_neg (by simp)]
        refine congrArg Except.ok (funext fun c => ?_)
        simp [addString, TrArg.reads]
      · have hhi : hi ≠ 0 := fun hzero => by
          rw [hzero] at le
          exact hlo (UInt16.le_antisymm le UInt16.zero_le)
        by_cases hdash : lo = 0x2d
        · subst hdash
          have hp : strchrDash (bytesOf [0x2d, 0x2d, hi]) 0 = .ok (some 0) := rfl
          have hrest : Ascii [0x2d, hi] := fun c hc => hs c (List.mem_cons_of_mem _ hc)
          have hrest0 : (0 : UniChar) ∉ [0x2d, hi] := by
            have hne : (0 : UniChar) ≠ 0x2d := by decide
            simp [hhi.symm, hne]
          have hnil : Ascii ([] : List UniChar) := by simp [Ascii]
          have hparse : parseRest enc (bytesOf ([] ++ ((0x2d :: [0x2d, hi]) ++ []))) (3 + 1)
              ([] : List UniChar).length (fun _ => false) = _ :=
            parseRest_dash 3 _ hnil hrest hnil (by simp) hrest0 (.inl rfl)
          rw [charsetSubset_plain enc hs hcaret hp, if_pos (by simp)]
          refine hparse.trans ?_
          refine congrArg Except.ok (funext fun c => ?_)
          simp [addString, TrArg.reads]
        · rw [charsetSubset_range enc hs hlo hhi hdash hne le]
          refine congrArg Except.ok (funext fun c => ?_)
          simp [TrArg.reads, hlo, hdash]

end Read

/-! ## Places -/

section Places

namespace TrArg

variable {lo hi c : UniChar} {ascii : hi < 0x80} {le : lo ≤ hi}

/-- The first and the last character of a range, unless its first one ends a C string. -/
def bounds : TrArg → Option (UniChar × UniChar)
  | list _ _ _ _ _ => none
  | range lo hi _ _ => if lo = 0 then none else some (lo, hi)

theorem length_chars_range : (range lo hi ascii le).chars.length = hi.toNat - lo.toNat + 1 := by
  simp [chars]

theorem getElem?_chars_range (i : ℕ) :
    (range lo hi ascii le).chars[i]? =
      if i ≤ hi.toNat - lo.toNat then some (UInt16.ofNat (lo.toNat + i)) else none := by
  rw [chars, List.getElem?_map]
  split_ifs with h
  · rw [List.getElem?_range' (by omega)]
    simp
  · rw [List.getElem?_eq_none (by rw [List.length_range']; omega)]
    rfl

theorem mem_chars_range : c ∈ (range lo hi ascii le).chars ↔ lo ≤ c ∧ c ≤ hi := by
  have hle := UInt16.le_iff_toNat_le.mp le
  rw [UInt16.le_iff_toNat_le, UInt16.le_iff_toNat_le, List.mem_iff_getElem?]
  refine ⟨?_, fun h => ⟨c.toNat - lo.toNat, ?_⟩⟩
  · rintro ⟨i, hi'⟩
    rw [getElem?_chars_range] at hi'
    split_ifs at hi' with h
    · have hval := congrArg UInt16.toNat (Option.some.inj hi')
      have hlt := hi.toNat_lt
      rw [UInt16.toNat_ofNat_of_lt' (by rw [UInt16.size]; omega)] at hval
      omega
  · rw [getElem?_chars_range, if_pos (by omega), Nat.add_sub_cancel' h.1, UInt16.ofNat_toNat]

theorem nodup_chars (arg : TrArg) : arg.chars.Nodup := by
  cases arg with
  | list chars ascii nodup no_dash no_caret => exact nodup
  | range lo hi ascii le =>
      have hle := UInt16.le_iff_toNat_le.mp le
      refine List.Nodup.map_on ?_ List.nodup_range'
      intro i hi' j hj heq
      have hlt := hi.toNat_lt
      rw [List.mem_range'_1] at hi' hj
      have hval := congrArg UInt16.toNat heq
      rwa [UInt16.toNat_ofNat_of_lt' (by rw [UInt16.size]; omega),
        UInt16.toNat_ofNat_of_lt' (by rw [UInt16.size]; omega)] at hval

theorem idxOf_chars_range (h : c ∈ (range lo hi ascii le).chars) :
    (range lo hi ascii le).chars.idxOf c = c.toNat - lo.toNat := by
  have hbounds := mem_chars_range.mp h
  rw [UInt16.le_iff_toNat_le, UInt16.le_iff_toNat_le] at hbounds
  have hget : (range lo hi ascii le).chars[c.toNat - lo.toNat]? = some c := by
    rw [getElem?_chars_range, if_pos (by omega), Nat.add_sub_cancel' hbounds.1,
      UInt16.ofNat_toNat]
  obtain ⟨hlt, hget⟩ := List.getElem?_eq_some_iff.mp hget
  rw [← hget, List.Nodup.idxOf_getElem (nodup_chars _), hget]

theorem cLength_range_zero {ascii : hi < 0x80} {le : 0 ≤ hi} :
    (range 0 hi ascii le).cLength = 0 := rfl

theorem cLength_range (h : lo ≠ 0) : (range lo hi ascii le).cLength = 3 := by
  have hhi : hi ≠ 0 := fun hzero => by
    rw [hzero] at le
    exact h (UInt16.le_antisymm le UInt16.zero_le)
  simp [cLength, text, h, hhi]

end TrArg

/-- The C string of an argument. -/
theorem cText_text (arg : TrArg) :
    cText (bytesOf arg.text) 0 = bytesOf (arg.text.takeWhile (· != 0)) := by
  rw [cText_bytesOf arg.ascii_text, List.drop_zero]

theorem length_cText_text (arg : TrArg) : (cText (bytesOf arg.text) 0).length = arg.cLength := by
  rw [cText_text, bytesOf, List.length_map, TrArg.cLength]

theorem getD_bytesOf (s : List UniChar) (i : ℕ) :
    (bytesOf s).getD i 0 = (s.getD i 0).toUInt8 := by
  rw [bytesOf, List.getD_eq_getElem?_getD, List.getD_eq_getElem?_getD, List.getElem?_map]
  cases s[i]? <;> rfl

theorem getD_lt {s : List UniChar} (hs : Ascii s) (i : ℕ) : s.getD i 0 < 0x80 := by
  rw [List.getD_eq_getElem?_getD]
  cases hget : s[i]? with
  | none => decide
  | some c => exact hs c (List.mem_of_getElem? hget)

theorem byteString_eq (enc : CFEncoding) {c : UniChar} (hc : c < 0x80) :
    byteString enc c.toUInt8 = .ok [c] := by
  have hlt : c.toUInt8 < 0x80 := by
    have hc' : c.toNat < 0x80 := UInt16.lt_iff_toNat_lt.mp hc
    rw [UInt8.lt_iff_toNat_lt, UInt16.toNat_toUInt8]
    exact (Nat.mod_le _ _).trans_lt hc'
  rw [byteString, enc.string_ascii [c.toUInt8] (by simpa using hlt)]
  simp [toUInt16_toUInt8 hc]

/-- `strchr` in a C string: the terminator is found for the character that ends it. -/
theorem strchr_bytesOf {s : List UniChar} (hs : Ascii s) {c : UniChar} (hc : c ∈ s) :
    strchr (bytesOf s) c.toUInt8 =
      if 0 ∈ s.take (s.idxOf c) then none else some (s.idxOf c) := by
  rw [strchr, cText_bytesOf hs, List.drop_zero]
  induction s with
  | nil => simp at hc
  | cons d s ih =>
      have hd := hs d List.mem_cons_self
      have hs' : Ascii s := fun e he => hs e (List.mem_cons_of_mem d he)
      by_cases hdc : d = c
      · subst hdc
        rw [List.idxOf_cons_self, List.take_zero, if_neg (by simp)]
        by_cases hzero : d = 0
        · simp [hzero, bytesOf, List.idxOf?_cons]
        · simp [hzero, bytesOf, List.idxOf?_cons]
      · have hc' : c ∈ s := by simpa [Ne.symm hdc] using hc
        have hne : d.toUInt8 ≠ c.toUInt8 := mt (toUInt8_inj hd (hs' c hc')).mp hdc
        rw [List.idxOf_cons_ne _ hdc, List.take_succ_cons]
        by_cases hzero : d = 0
        · subst hzero
          have hne' : ¬ (0 : UInt8) = c.toUInt8 := hne
          simp [bytesOf, List.idxOf?_cons, hne']
        · have ih' := ih hs' hc'
          rw [List.takeWhile_cons_of_pos (by simpa using hzero), bytesOf, List.map_cons,
            List.cons_append, List.idxOf?_cons, if_neg (by simpa using hne)]
          rw [bytesOf] at ih'
          rw [ih']
          by_cases hin : 0 ∈ s.take (s.idxOf c)
          · simp [hin]
          · simp [hin, Ne.symm hzero]

/-- There is no dash in an argument that is not read as a range. -/
theorem strchr_dash_text {arg : TrArg} (h : arg.bounds = none) :
    strchr (bytesOf arg.text) 0x2d = none := by
  have hdash : 0x2d ∉ arg.text.takeWhile (· != 0) := by
    cases arg with
    | list chars ascii nodup no_dash no_caret =>
        exact fun h => no_dash ((List.takeWhile_sublist _).subset h)
    | range lo hi ascii le =>
        have hlo : lo = 0 := by simpa [TrArg.bounds] using h
        simp [TrArg.text, hlo]
  have hascii : Ascii (arg.text.takeWhile (· != 0)) := fun c hc =>
    arg.ascii_text c ((List.takeWhile_sublist _).subset hc)
  have hnone := idxOf_no_dash hascii hdash
  rw [List.idxOf?_eq_none_iff] at hnone
  rw [strchr, cText_text, List.idxOf?_eq_none_iff]
  have hne : (0x2d : UInt8) ≠ 0 := by decide
  simpa [hne] using hnone

/-- The bounds of an argument, as the callback finds them. -/
theorem trRange_text (arg : TrArg) :
    trRange (bytesOf arg.text) arg.cLength =
      .ok (arg.bounds.map fun b => ((b.1.toNat : ℤ), (b.2.toNat : ℤ))) := by
  cases hbounds : arg.bounds with
  | none =>
      have hnot : ¬ (arg.cLength = 3 ∧ (bytesOf arg.text).getD 1 0 = 0x2d) := by
        rintro ⟨hlen, hsecond⟩
        cases arg with
        | list chars ascii nodup no_dash no_caret =>
            rw [TrArg.text, getD_bytesOf, toUInt8_eq_dash (getD_lt ascii 1)] at hsecond
            have hle : 3 ≤ chars.length := hlen ▸ (List.takeWhile_sublist _).length_le
            have hget : chars[1]? = some chars[1] := List.getElem?_eq_getElem (by omega)
            have hmem := List.mem_of_getElem? hget
            rw [List.getD_eq_getElem?_getD, hget] at hsecond
            exact no_dash (hsecond ▸ hmem)
        | range lo hi ascii le =>
            have hlo : lo = 0 := by simpa [TrArg.bounds] using hbounds
            subst hlo
            simp [TrArg.cLength_range_zero] at hlen
      have hcaret : ¬ (bytesOf arg.text).getD 0 0 = 0x5e := by
        intro hfirst
        rw [getD_bytesOf] at hfirst
        have hfirst' := (toUInt8_inj (d := 0x5e) (getD_lt arg.ascii_text 0) (by decide)).mp hfirst
        cases arg with
        | list chars ascii nodup no_dash no_caret =>
            rw [TrArg.text] at hfirst'
            cases chars with
            | nil => simp at hfirst'
            | cons c chars => exact no_caret (by rw [← hfirst']; exact List.mem_cons_self)
        | range lo hi ascii le =>
            have hlo : lo = 0 := by simpa [TrArg.bounds] using hbounds
            have hfirst'' : lo = 0x5e := hfirst'
            exact absurd (hlo.symm.trans hfirst'') (by decide)
      rw [trRange, if_neg hnot, strchr_dash_text hbounds, if_neg (by simpa using hcaret)]
      rfl
  | some b =>
      cases arg with
      | list chars ascii nodup no_dash no_caret => simp [TrArg.bounds] at hbounds
      | range lo hi ascii le =>
          have hlo : lo ≠ 0 := fun hzero => by simp [TrArg.bounds, hzero] at hbounds
          obtain rfl : (lo, hi) = b := by simpa [TrArg.bounds, hlo] using hbounds
          have hlo' : lo < 0x80 := UInt16.lt_of_le_of_lt le ascii
          rw [trRange, if_pos ⟨TrArg.cLength_range hlo, rfl⟩, getD_bytesOf, getD_bytesOf]
          simp [TrArg.text, toInt_toUInt8 hlo', toInt_toUInt8 ascii]

end Places

/-! ## What is written -/

section Written

variable (enc : CFEncoding) (src repl : TrArg) {c : UniChar}

/-- What is read of a range that does not begin with the end of a C string is in it. -/
theorem TrArg.mem_of_reads {lo hi : UniChar} {ascii : hi < 0x80} {le : lo ≤ hi} (hlo : lo ≠ 0)
    (hread : (TrArg.range lo hi ascii le).reads c = true) :
    c ∈ (TrArg.range lo hi ascii le).chars := by
  rw [TrArg.mem_chars_range]
  by_cases hdash : lo = 0x2d
  · subst hdash
    obtain rfl | rfl : c = 0x2d ∨ c = hi := by simpa [TrArg.reads] using hread
    · exact ⟨UInt16.le_refl _, le⟩
    · exact ⟨le, UInt16.le_refl _⟩
  · by_cases hback : lo = 0x5c
    · obtain rfl : c = lo := by simpa [TrArg.reads, hlo, hdash, hback] using hread
      exact ⟨UInt16.le_refl _, le⟩
    · simpa [TrArg.reads, hlo, hdash, hback] using hread

/-- The place of a character in the first argument. -/
theorem trDelta_text (hread : src.reads c = true) :
    trDelta (bytesOf src.text) (src.bounds.map fun b => ((b.1.toNat : ℤ), (b.2.toNat : ℤ))) c =
      if c ∈ src.chars ∧ 0 ∉ src.chars.take (src.chars.idxOf c) then .ok (src.chars.idxOf c : ℤ)
      else .error .assertion := by
  have hascii := src.ascii_text
  cases src with
  | list chars ascii nodup no_dash no_caret =>
      have hc : c ∈ chars := by simpa [TrArg.reads] using hread
      simp only [TrArg.bounds, Option.map_none, trDelta, TrArg.text, strchr_bytesOf ascii hc,
        TrArg.chars, hc, true_and]
      by_cases hzero : 0 ∈ chars.take (chars.idxOf c) <;> simp [hzero]
  | range lo hi ascii le =>
      by_cases hlo : lo = 0
      · subst hlo
        have hc : c ∈ [0, 0x2d, hi] := by simpa [TrArg.reads] using hread
        have hascii' : Ascii [0, 0x2d, hi] := hascii
        have hfirst : (TrArg.range 0 hi ascii le).chars[0]? = some 0 := by
          rw [TrArg.getElem?_chars_range, if_pos (Nat.zero_le _)]
          rfl
        simp only [TrArg.bounds, if_true, Option.map_none, trDelta, TrArg.text,
          strchr_bytesOf hascii' hc]
        by_cases hzero : c = 0
        · subst hzero
          have hmem : 0 ∈ (TrArg.range 0 hi ascii le).chars := List.mem_of_getElem? hfirst
          have hplace : (TrArg.range 0 hi ascii le).chars.idxOf 0 = 0 := by
            rw [TrArg.idxOf_chars_range hmem]
            rfl
          have hplace' : [0, 0x2d, hi].idxOf 0 = 0 := List.idxOf_cons_self
          rw [hplace, hplace', List.take_zero, List.take_zero, if_neg List.not_mem_nil,
            if_pos ⟨hmem, List.not_mem_nil⟩]
        · have hplace : [0, 0x2d, hi].idxOf c ≠ 0 := by
            rw [List.idxOf_cons_ne _ (Ne.symm hzero)]
            exact Nat.succ_ne_zero _
          obtain ⟨i, hi'⟩ := Nat.exists_eq_succ_of_ne_zero hplace
          rw [hi', List.take_succ_cons, if_pos List.mem_cons_self]
          have hnot : ¬ (c ∈ (TrArg.range 0 hi ascii le).chars ∧
              0 ∉ (TrArg.range 0 hi ascii le).chars.take
                ((TrArg.range 0 hi ascii le).chars.idxOf c)) := by
            rintro ⟨hmem, hnot⟩
            have hpos : c.toNat ≠ 0 := fun h => hzero (UInt16.toNat_inj.mp h)
            rw [TrArg.idxOf_chars_range hmem] at hnot
            refine hnot (List.mem_of_getElem? (List.getElem?_take_of_lt ?_ |>.trans hfirst))
            exact Nat.pos_of_ne_zero hpos
          rw [if_neg hnot]
      · have hmem := TrArg.mem_of_reads hlo hread
        have hnot : ∀ i, 0 ∉ (TrArg.range lo hi ascii le).chars.take i := by
          intro i hzero
          have hle := (TrArg.mem_chars_range.mp (List.mem_of_mem_take hzero)).1
          exact hlo (UInt16.le_antisymm hle UInt16.zero_le)
        obtain ⟨hge, hle⟩ := TrArg.mem_chars_range.mp hmem
        rw [UInt16.le_iff_toNat_le] at hge hle
        rw [if_pos ⟨hmem, hnot _⟩, TrArg.idxOf_chars_range hmem]
        simp only [TrArg.bounds, if_neg hlo, Option.map_some, trDelta]
        rw [if_pos ⟨by omega, by omega⟩, Nat.cast_sub hge]

/-- What the callback finds at a place of a second argument that is a C string of more than one
character. -/
def trWritten (i : ℕ) : UniChar :=
  match repl.bounds with
  | some (lo, hi) => if i > hi.toNat - lo.toNat then hi else UInt16.ofNat (lo.toNat + i)
  | none =>
      if i > repl.cLength then repl.text.getD (repl.cLength - 1) 0 else repl.text.getD i 0

/-- The string that the callback keeps is that of the character it has been made of. -/
def OptKept (opt : Option (List UniChar)) : Prop :=
  ∀ o ∈ opt, o = [repl.text.getD (if src.cLength = 1 then 0 else repl.cLength - 1) 0]

variable {src repl}

theorem optString_text {opt : Option (List UniChar)} (hopt : OptKept src repl opt) :
    optString enc opt ((repl.object.cstr enc).getD (if src.cLength = 1 then 0 else repl.cLength - 1)
        0) =
      .ok [repl.text.getD (if src.cLength = 1 then 0 else repl.cLength - 1) 0] := by
  cases opt with
  | none =>
      rw [optString, repl.cstr_object, getD_bytesOf, byteString_eq enc (getD_lt repl.ascii_text _)]
  | some o => rw [hopt o rfl, optString]

theorem trSubstr_text (sflag : Bool) {opt : Option (List UniChar)} (hopt : OptKept src repl opt)
    (hsrc : src.cLength ≠ 1) (i : ℕ) :
    ∃ opt', trSubstr enc (trTransArgs enc src.object repl.object sflag) opt
        (repl.bounds.map fun b => ((b.1.toNat : ℤ), (b.2.toNat : ℤ))) i =
          .ok ([trWritten repl i], opt') ∧ OptKept src repl opt' := by
  have hascii := repl.ascii_text
  have hlen : (cText (repl.object.cstr enc) 0).length = repl.cLength := by
    rw [repl.cstr_object, length_cText_text]
  have hlast : optString enc opt ((repl.object.cstr enc).getD (repl.cLength - 1) 0) =
      .ok [repl.text.getD (repl.cLength - 1) 0] := by
    have h := optString_text enc hopt
    rwa [if_neg hsrc] at h
  have hkept : OptKept src repl (some [repl.text.getD (repl.cLength - 1) 0]) := by
    intro o ho
    rw [if_neg hsrc, ← Option.some.inj ho]
  unfold trSubstr trWritten
  simp only [trTransArgs, hlen]
  cases hbounds : repl.bounds with
  | none =>
      simp only [Option.map_none, Nat.cast_lt, gt_iff_lt, decide_eq_true_eq]
      by_cases hbeyond : repl.cLength < i
      · rw [if_pos hbeyond, if_pos hbeyond]
        exact ⟨_, by rw [hlast]; rfl, hkept⟩
      · rw [if_neg hbeyond, if_neg hbeyond, Int.toNat_natCast, repl.cstr_object, getD_bytesOf,
          byteString_eq enc (getD_lt hascii _)]
        exact ⟨opt, rfl, hopt⟩
  | some b =>
      cases repl with
      | list chars ascii nodup no_dash no_caret => simp [TrArg.bounds] at hbounds
      | range lo hi ascii le =>
          have hlo : lo ≠ 0 := fun hzero => by simp [TrArg.bounds, hzero] at hbounds
          obtain rfl : (lo, hi) = b := by simpa [TrArg.bounds, hlo] using hbounds
          have hle := UInt16.le_iff_toNat_le.mp le
          have hlt : hi.toNat < 0x80 := UInt16.lt_iff_toNat_lt.mp ascii
          simp only [Option.map_some, gt_iff_lt, decide_eq_true_eq]
          by_cases hbeyond : hi.toNat - lo.toNat < i
          · rw [if_pos hbeyond, if_pos (by omega)]
            have hhi : (TrArg.range lo hi ascii le).text.getD
                ((TrArg.range lo hi ascii le).cLength - 1) 0 = hi := by
              rw [TrArg.cLength_range hlo]
              rfl
            rw [hhi] at hlast hkept
            exact ⟨_, by rw [hlast]; rfl, hkept⟩
          · rw [if_neg hbeyond, if_neg (by omega)]
            have hwritten : (Int8.ofInt ((lo.toNat : ℤ) + i)).toUInt8 =
                (UInt16.ofNat (lo.toNat + i)).toUInt8 := by
              rw [← Nat.cast_add, Int8.ofInt_eq_ofNat]
              refine UInt8.toNat_inj.mp ?_
              rw [UInt16.toNat_toUInt8, UInt16.toNat_ofNat_of_lt' (by rw [UInt16.size]; omega)]
              simp
            have hsmall : UInt16.ofNat (lo.toNat + i) < 0x80 := by
              rw [UInt16.lt_iff_toNat_lt, UInt16.toNat_ofNat_of_lt' (by rw [UInt16.size]; omega)]
              exact (show lo.toNat + i < 128 by omega)
            rw [hwritten, byteString_eq enc hsmall]
            exact ⟨opt, rfl, hopt⟩

/-- What is written for a character that is read. -/
def trChar (src repl : TrArg) (c : UniChar) : Except CharsetError UniChar :=
  if repl.cLength = 1 ∨ src.cLength = 1 then .ok (repl.text.getD 0 0)
  else if c ∈ src.chars ∧ 0 ∉ src.chars.take (src.chars.idxOf c) then
    .ok (trWritten repl (src.chars.idxOf c))
  else .error .assertion

/-- What replaces a character that is read. -/
theorem trReplacement_text (sflag : Bool) (husable : TrUsable repl)
    {opt : Option (List UniChar)} (hopt : OptKept src repl opt) (hread : src.reads c = true) :
    (∃ e, trChar src repl c = .error e ∧
      trReplacement enc (trTransArgs enc src.object repl.object sflag) c opt = .error e) ∨
    ∃ d opt', trChar src repl c = .ok d ∧ OptKept src repl opt' ∧
      trReplacement enc (trTransArgs enc src.object repl.object sflag) c opt = .ok ([d], opt') := by
  have hreplLen : (trTransArgs enc src.object repl.object sflag).replLen = repl.cLength := by
    rw [trTransArgs, repl.cstr_object, length_cText_text]
  have hsrcLen : (trTransArgs enc src.object repl.object sflag).srcLen = src.cLength := by
    rw [trTransArgs, src.cstr_object, length_cText_text]
  rw [trReplacement, trChar, hreplLen, hsrcLen]
  by_cases hone : repl.cLength = 1
  · have hlen : repl.text.length = 1 := by
      rcases husable with h | h
      · exact h.1
      · omega
    obtain ⟨d, hd⟩ := List.length_eq_one_iff.mp hlen
    refine .inr ⟨d, opt, ?_, hopt, ?_⟩
    · rw [if_pos (.inl hone), hd]
      rfl
    · rw [if_pos hone, trTransArgs, TrArg.object, hd]
  · by_cases hsrc : src.cLength = 1
    · have hstring := optString_text enc hopt
      have hkept : OptKept src repl (some [repl.text.getD 0 0]) := by
        intro o ho
        rw [if_pos hsrc, ← Option.some.inj ho]
      rw [if_pos hsrc] at hstring
      refine .inr ⟨_, _, if_pos (.inr hsrc), hkept, ?_⟩
      rw [if_neg hone, if_pos hsrc, trTransArgs, hstring]
      rfl
    · have hrange : trRange (bytesOf src.text) src.cLength = _ := trRange_text src
      have hrange' : trRange (bytesOf repl.text) repl.cLength = _ := trRange_text repl
      have hdelta := trDelta_text src hread
      rw [if_neg (by simp [hone, hsrc]), if_neg hone, if_neg hsrc]
      have hmem : (trTransArgs enc src.object repl.object sflag).src = bytesOf src.text :=
        src.cstr_object enc
      have hmem' : (trTransArgs enc src.object repl.object sflag).repl = bytesOf repl.text :=
        repl.cstr_object enc
      rw [hmem, hmem', hrange, Result.ok_bind, hrange', Result.ok_bind, hdelta]
      by_cases hplace : c ∈ src.chars ∧ 0 ∉ src.chars.take (src.chars.idxOf c)
      · obtain ⟨opt', hsubstr, hkept⟩ := trSubstr_text enc sflag hopt hsrc (src.chars.idxOf c)
        rw [if_pos hplace, if_pos hplace, Result.ok_bind]
        exact .inr ⟨_, opt', rfl, hkept, hsubstr⟩
      · rw [if_neg hplace, if_neg hplace]
        exact .inl ⟨_, rfl, rfl⟩

/-- The image of a character of the first argument. -/
theorem trImage_of_mem (hc : c ∈ src.chars) :
    trImage src repl c = (repl.chars[src.chars.idxOf c]?).getD (repl.chars.getLastD c) := by
  have hplace : src.chars.idxOf? c = some (src.chars.idxOf c) := by
    cases hplace : src.chars.idxOf? c with
    | none => exact absurd hc (List.idxOf?_eq_none_iff.mp hplace)
    | some i => grind
  rw [trImage, hplace]

theorem trImage_of_not_mem (hc : c ∉ src.chars) : trImage src repl c = c := by
  rw [trImage, List.idxOf?_eq_none_iff.mpr hc]

/-- Where a C string ends. -/
theorem takeWhile_ends (s : List UniChar) :
    (∀ j < (s.takeWhile (· != 0)).length, s[j]? ≠ some 0) ∧
      ∀ c ∈ s[(s.takeWhile (· != 0)).length]?, c = 0 := by
  induction s with
  | nil => simp
  | cons d s ih =>
      by_cases hd : d = 0
      · simp [hd]
      · rw [List.takeWhile_cons_of_pos (by simpa using hd), List.length_cons]
        refine ⟨fun j hj => ?_, by simpa using ih.2⟩
        cases j with
        | zero => simpa using hd
        | succ j => simpa using ih.1 j (by omega)

/-- What is found at a place of a C string, when what is behind it is found as its last character
from one place behind its end on. -/
theorem written_iff {s : List UniChar} (hnodup : s.Nodup) {m : ℕ}
    (hm : (s.takeWhile (· != 0)).length = m) (hlong : 2 ≤ m) (i : ℕ) (c : UniChar) :
    (if i > m then s.getD (m - 1) 0 else s.getD i 0) = (s[i]?).getD (s.getLastD c) ↔
      (0 ∈ s → 0 ∉ s.take i) ∧ (0 ∉ s → i ≠ s.length) := by
  obtain ⟨hbefore, hends⟩ := takeWhile_ends s
  have hle : (s.takeWhile (· != 0)).length ≤ s.length := (List.takeWhile_sublist _).length_le
  rw [hm] at hbefore hends hle
  have hlast : s.getLastD c = s[s.length - 1] := by
    rw [List.getLastD_eq_getLast?, List.getLast?_eq_getElem?, List.getElem?_eq_getElem (by omega)]
    rfl
  -- a list with the end of a C string in it is longer than the C string, which ends there
  have hzero : 0 ∈ s ↔ m < s.length := by
    refine ⟨fun h => ?_, fun h => ?_⟩
    · by_contra hnot
      obtain ⟨j, hj⟩ := List.mem_iff_getElem?.mp h
      have hlt := (List.getElem?_eq_some_iff.mp hj).1
      exact hbefore j (by omega) hj
    · have hget : s[m]? = some s[m] := List.getElem?_eq_getElem h
      exact hends _ hget ▸ List.mem_of_getElem? hget
  have htake : m < s.length → (0 ∈ s.take i ↔ m < i) := by
    intro h
    have hget : s[m]? = some 0 := by
      rw [List.getElem?_eq_getElem h, hends _ (List.getElem?_eq_getElem h)]
    refine ⟨fun hin => ?_, fun hlt => ?_⟩
    · by_contra hnot
      obtain ⟨j, hj⟩ := List.mem_iff_getElem?.mp hin
      have hlt := (List.getElem?_eq_some_iff.mp hj).1
      rw [List.length_take] at hlt
      rw [List.getElem?_take_of_lt (by omega)] at hj
      exact hbefore j (by omega) hj
    · exact List.mem_of_getElem? ((List.getElem?_take_of_lt hlt).trans hget)
  -- the last character of the C string is at no other place
  have hother : ∀ {j : ℕ} (hj : j < s.length), m ≤ j → s[m - 1] ≠ s[j] := by
    intro j hj hmj heq
    have hsame := (List.Nodup.getElem_inj_iff hnodup).mp heq
    omega
  by_cases hbeyond : i > m
  · rw [if_pos hbeyond, List.getD_eq_getElem _ _ (show m - 1 < s.length by omega)]
    by_cases hin : m < s.length
    · have hne : s[m - 1] ≠ (s[i]?).getD (s.getLastD c) := by
        by_cases hi : i < s.length
        · rw [List.getElem?_eq_getElem hi]
          exact hother hi (by omega)
        · rw [List.getElem?_eq_none (by omega), Option.getD_none, hlast]
          exact hother _ (by omega)
      have hmem := hzero.mpr hin
      refine ⟨fun heq => absurd heq hne, fun hplaced => ?_⟩
      exact absurd ((htake hin).mpr hbeyond) (hplaced.1 hmem)
    · have hlen : m = s.length := by omega
      have hnot := mt hzero.mp hin
      subst hlen
      rw [List.getElem?_eq_none (by omega), Option.getD_none, hlast]
      simp [hnot]
      omega
  · rw [if_neg hbeyond]
    by_cases hi : i < s.length
    · have hget : s[i]? = some s[i] := List.getElem?_eq_getElem hi
      rw [List.getD_eq_getElem _ _ hi, hget, Option.getD_some]
      refine ⟨fun _ => ⟨fun hin => ?_, fun _ => hi.ne⟩, fun _ => rfl⟩
      rw [htake (hzero.mp hin)]
      omega
    · have hnot : 0 ∉ s := mt hzero.mp (by omega)
      have hlen : i = s.length := by omega
      have hne : (0 : UniChar) ≠ s[s.length - 1] := fun h => hnot (h ▸ List.getElem_mem _)
      rw [List.getD_eq_default _ _ (by omega), List.getElem?_eq_none (by omega), Option.getD_none,
        hlast]
      simp [hnot, hlen, hne]

/-- What is written at a place is what should be if and only if it is placed right. -/
theorem trWritten_eq_iff (hlong : 2 ≤ repl.cLength) (i : ℕ) (c : UniChar) :
    trWritten repl i = (repl.chars[i]?).getD (repl.chars.getLastD c) ↔ TrPlaced repl i := by
  cases repl with
  | list chars ascii nodup no_dash no_caret =>
      have hplaced : TrPlaced (.list chars ascii nodup no_dash no_caret) i ↔
          (0 ∈ chars → 0 ∉ chars.take i) ∧ (0 ∉ chars → i ≠ chars.length) := by
        rw [TrPlaced]
        by_cases hin : 0 ∈ chars <;> simp [TrArg.isRange, TrArg.chars, hin]
      rw [hplaced]
      exact written_iff nodup rfl hlong i c
  | range lo hi ascii le =>
      have hlo : lo ≠ 0 := by
        rintro rfl
        simp [TrArg.cLength_range_zero] at hlong
      have hle := UInt16.le_iff_toNat_le.mp le
      have hlast : (TrArg.range lo hi ascii le).chars.getLastD c = hi := by
        rw [List.getLastD_eq_getLast?, List.getLast?_eq_getElem?, TrArg.length_chars_range,
          TrArg.getElem?_chars_range, if_pos (by omega)]
        simp [Nat.add_sub_cancel' hle]
      refine ⟨fun _ => .inl rfl, fun _ => ?_⟩
      rw [hlast, TrArg.getElem?_chars_range, trWritten]
      simp only [TrArg.bounds, if_neg hlo]
      by_cases hi' : i ≤ hi.toNat - lo.toNat
      · rw [if_neg (by omega), if_pos hi']
        rfl
      · rw [if_pos (by omega), if_neg hi']
        rfl

theorem TrArg.mem_of_reads_list {chars : List UniChar} {ascii : Ascii chars} {nodup : chars.Nodup}
    {no_dash : 0x2d ∉ chars} {no_caret : 0x5e ∉ chars}
    (hread : (TrArg.list chars ascii nodup no_dash no_caret).reads c = true) :
    c ∈ (TrArg.list chars ascii nodup no_dash no_caret).chars := of_decide_eq_true hread

theorem getElem?_zero_chars (hrepl : repl.cLength ≠ 0) :
    repl.chars[0]? = some (repl.text.getD 0 0) := by
  cases repl with
  | list chars ascii nodup no_dash no_caret =>
      cases chars with
      | nil => exact absurd rfl hrepl
      | cons d chars => rfl
  | range lo hi ascii le =>
      rw [TrArg.getElem?_chars_range, if_pos (Nat.zero_le _), Nat.add_zero, UInt16.ofNat_toNat]
      rfl

/-- The first character of the second argument is the image of the first one of the first, and of
all of them when it is the only one. -/
theorem first_eq_iff (hrepl : repl.cLength ≠ 0) (i : ℕ) (c : UniChar) :
    repl.text.getD 0 0 = (repl.chars[i]?).getD (repl.chars.getLastD c) ↔
      i = 0 ∨ repl.chars.length = 1 := by
  have hnodup := repl.nodup_chars
  have hfirst := getElem?_zero_chars hrepl
  obtain ⟨hpos, hget⟩ := List.getElem?_eq_some_iff.mp hfirst
  have hlast : repl.chars.getLastD c = repl.chars[repl.chars.length - 1] := by
    rw [List.getLastD_eq_getLast?, List.getLast?_eq_getElem?, List.getElem?_eq_getElem (by omega)]
    rfl
  by_cases hi : i < repl.chars.length
  · rw [List.getElem?_eq_getElem hi, Option.getD_some, ← hget, List.Nodup.getElem_inj_iff hnodup]
    omega
  · rw [List.getElem?_eq_none (by omega), Option.getD_none, hlast, ← hget,
      List.Nodup.getElem_inj_iff hnodup]
    omega

/-- A character that is read and not in the first argument is a dash. -/
theorem eq_dash_of_reads (hread : src.reads c = true) (hc : c ∉ src.chars) : c = 0x2d := by
  cases src with
  | list chars ascii nodup no_dash no_caret =>
      exact absurd (TrArg.mem_of_reads_list hread) hc
  | range lo hi ascii le =>
      by_cases hlo : lo = 0
      · subst hlo
        rw [TrArg.mem_chars_range] at hc
        obtain rfl | rfl | rfl : c = 0 ∨ c = 0x2d ∨ c = hi := by
          simpa [TrArg.reads] using hread
        · exact absurd ⟨UInt16.le_refl _, le⟩ hc
        · rfl
        · exact absurd ⟨le, UInt16.le_refl _⟩ hc
      · exact absurd (TrArg.mem_of_reads hlo hread) hc

/-- **A character is translated right if and only if it is handled.** -/
theorem trChar_eq_iff (husable : TrUsable repl) (hread : src.reads c = true) :
    trChar src repl c = .ok (trImage src repl c) ↔ TrHandled src repl c := by
  have hrepl : repl.cLength ≠ 0 := by
    rcases husable with h | h <;> omega
  have hfirst := first_eq_iff hrepl
  rw [trChar]
  by_cases hone : repl.cLength = 1
  · have hlen : repl.text.length = 1 := by
      rcases husable with h | h
      · exact h.1
      · omega
    rw [if_pos (.inl hone), Except.ok.injEq]
    refine ⟨fun h => ⟨?_, husable, by omega⟩, fun h => ?_⟩
    · by_contra hc
      rw [trImage_of_not_mem hc, eq_dash_of_reads hread hc] at h
      cases repl with
      | list chars ascii nodup no_dash no_caret =>
          have hget := List.mem_of_getElem? (getElem?_zero_chars hrepl)
          exact no_dash (h ▸ hget)
      | range lo hi ascii le => simp [TrArg.text] at hlen
    · rw [trImage_of_mem h.mem, hfirst]
      cases repl with
      | list chars ascii nodup no_dash no_caret => exact .inr hlen
      | range lo hi ascii le => simp [TrArg.text] at hlen
  · have hlong : 2 ≤ repl.cLength := by omega
    by_cases hsrc : src.cLength = 1
    · have hc : c ∈ src.chars := by
        cases src with
        | list chars ascii nodup no_dash no_caret => exact TrArg.mem_of_reads_list hread
        | range lo hi ascii le =>
            by_cases hlo : lo = 0
            · subst hlo
              simp [TrArg.cLength_range_zero] at hsrc
            · simp [TrArg.cLength_range hlo] at hsrc
      rw [if_pos (.inr hsrc), Except.ok.injEq, trImage_of_mem hc, hfirst]
      refine ⟨fun h => ⟨hc, husable, fun _ => by rwa [if_pos hsrc]⟩, fun h => ?_⟩
      simpa [hsrc] using h.placed hlong
    · rw [if_neg (by simp [hone, hsrc])]
      by_cases hplace : c ∈ src.chars ∧ 0 ∉ src.chars.take (src.chars.idxOf c)
      · rw [if_pos hplace, Except.ok.injEq, trImage_of_mem hplace.1, trWritten_eq_iff hlong]
        refine ⟨fun h => ⟨hplace.1, husable, fun _ => ?_⟩, fun h => ?_⟩
        · rw [if_neg hsrc]
          exact ⟨hplace.2, h⟩
        · have hplaced := h.placed hlong
          rw [if_neg hsrc] at hplaced
          exact hplaced.2
      · rw [if_neg hplace]
        refine ⟨fun h => by simp at h, fun h => ?_⟩
        have hplaced := h.placed hlong
        rw [if_neg hsrc] at hplaced
        exact absurd ⟨h.mem, hplaced.1⟩ hplace

end Written

/-! ## The callback -/

section Callback

variable (enc : CFEncoding) (src repl : TrArg) (sflag : Bool)

/-- `CFStringReplace` of a part of a string. -/
theorem cfStringReplace_eq (front run back substr : List UniChar) :
    cfStringReplace (front ++ run ++ back) ⟨front.length, run.length⟩ substr =
      .ok (front ++ substr ++ back) := by
  have hlen : ((front.length : ℤ) + run.length).toNat = (front ++ run).length := by simp; omega
  rw [cfStringReplace, if_pos (by simp only [List.length_append]; omega)]
  simp only [hlen, Int.toNat_natCast, List.drop_left]
  rw [List.append_assoc front run, List.take_left]

/-- The loop of `trans_replace` with one character. -/
theorem replaceEach_eq (front run back : List UniChar) (d : UniChar) :
    replaceEach [d] run.length front.length (front ++ run ++ back) =
      .ok (front ++ List.replicate run.length d ++ back) := by
  induction run generalizing front with
  | nil => simp [replaceEach]
  | cons c run ih =>
      have hstep := cfStringReplace_eq front [c] (run ++ back) [d]
      have hone : (([c] : List UniChar).length : ℤ) = 1 := rfl
      have hstr : front ++ c :: run ++ back = front ++ [c] ++ (run ++ back) := by simp
      have hstr' : front ++ [d] ++ (run ++ back) = front ++ [d] ++ run ++ back := by simp
      have hplace : (front.length : ℤ) + 1 = (front ++ [d]).length := by simp
      rw [hone] at hstep
      rw [List.length_cons, replaceEach, hstr, hstep, Result.ok_bind, hstr', hplace, ih]
      simp [List.replicate_succ]

/-- `trans_replace` with one character. -/
theorem transReplace_eq (front run back : List UniChar) (d : UniChar) (search : CFRange) :
    transReplace none (front ++ run ++ back) ⟨front.length, run.length⟩ [d] search sflag =
      if sflag = false then .ok (search, front ++ List.replicate run.length d ++ back)
      else .ok (⟨front.length + 1, ((front ++ [d] ++ back).length - (front.length + 1) : ℤ)⟩,
        front ++ [d] ++ back) := by
  rw [transReplace, if_pos (by simp only [List.length_append]; omega)]
  cases sflag with
  | false =>
      rw [if_pos rfl, if_pos rfl, Int.toNat_natCast, replaceEach_eq]
      rfl
  | true =>
      rw [if_neg (by simp), if_neg (by simp), cfStringReplace_eq]
      rfl

/-- What the callback does with a run when the second argument is usable. -/
def trAct (run : List UniChar) (ctx : TrTransCtx) :
    Except CharsetError (List UniChar × TrTransCtx) :=
  match run with
  | [] => .ok ([], ctx)
  | c :: _ =>
      (fun r => (if sflag then r.1 else run.flatMap fun _ => r.1, ⟨r.2, true⟩)) <$>
        trReplacement enc (trTransArgs enc src.object repl.object sflag) c ctx.opt

/-- **The callback writes the same character for all those of a run.** -/
theorem transCb_actsOnRuns (husable : TrUsable repl) (squeezeMode : Bool) :
    ActsOnRuns src.reads squeezeMode
      (rbStrTransCb enc none (trTransArgs enc src.object repl.object sflag))
      (fun ctx => OptKept src repl ctx.opt) (trAct enc src repl sflag) := by
  have hreplLen : (trTransArgs enc src.object repl.object sflag).replLen ≠ 0 := by
    rw [trTransArgs, repl.cstr_object, length_cText_text]
    rcases husable with h | h <;> simp only <;> omega
  have hsflag : (trTransArgs enc src.object repl.object sflag).sflag = sflag := rfl
  refine ⟨?_, ?_⟩
  · intro front run back start c ctx e hrun hc hinv hact
    obtain ⟨d, run, rfl⟩ := List.exists_cons_of_ne_nil hrun.ne_nil
    obtain rfl : d = c := by simpa using hc
    obtain ⟨e', -, hrepl⟩ | ⟨d', opt', -, hkept, hrepl⟩ :=
      trReplacement_text enc sflag husable hinv (hrun.all d List.mem_cons_self)
    · rw [trAct, hrepl] at hact
      have heq : e' = e := Except.error.inj hact
      rw [rbStrTransCb, if_neg hreplLen, hrepl, heq]
      rfl
    · rw [trAct, hrepl] at hact
      exact absurd hact (by simp)
  · intro front run back start c ctx r hrun hc hstart hinv hact
    obtain ⟨d, run, rfl⟩ := List.exists_cons_of_ne_nil hrun.ne_nil
    obtain rfl : d = c := by simpa using hc
    obtain ⟨e', -, hrepl⟩ | ⟨d', opt', -, hkept, hrepl⟩ :=
      trReplacement_text enc sflag husable hinv (hrun.all d List.mem_cons_self)
    · rw [trAct, hrepl] at hact
      exact absurd hact (by simp)
    · rw [trAct, hrepl] at hact
      obtain rfl := Except.ok.inj hact
      rw [rbStrTransCb, if_neg hreplLen, hrepl, Result.ok_bind]
      simp only [hsflag]
      rw [transReplace_eq]
      cases sflag with
      | false =>
          have hflat : ((d :: run).flatMap fun _ => [d']) =
              List.replicate (d :: run).length d' := by
            rw [← List.map_eq_flatMap, List.map_const']
          simp only [Bool.false_eq_true, if_false, if_true, hflat]
          refine ⟨by simp, hkept, start, ?_, ?_, fun h => by simp at h⟩
          · rw [Result.ok_bind]
            simp only [List.length_append, List.length_replicate]
            rfl
          · rw [List.length_append]
            omega
      | true =>
          simp only [Bool.true_eq_false, if_false, if_true]
          refine ⟨by simp, hkept, front.length + 1, ?_, by simp, fun _ => by simp⟩
          rw [Result.ok_bind]
          push_cast
          rfl

end Callback

/-! ## The translation of a string -/

section Translation

variable {enc : CFEncoding} {src repl : TrArg} {sflag squeezeMode : Bool} {s out : List UniChar}
  {ctx : TrTransCtx}

/-- What is written for a character, where it is written. -/
def trOk (src repl : TrArg) (c : UniChar) : UniChar :=
  match trChar src repl c with
  | .ok d => d
  | .error _ => 0

/-- What replaces a run. -/
def trRun (src repl : TrArg) (sflag : Bool) (run : List UniChar) : List UniChar :=
  if sflag then (run.head?.map (trOk src repl)).toList else run.map (trOk src repl)

/-- The same character is written for all the characters of a run. -/
theorem trChar_run (husable : TrUsable repl) (hmode : squeezeMode = decide (repl.cLength > 1))
    {run : List UniChar} (hrun : IsRun src.reads squeezeMode run) {c d : UniChar} (hc : c ∈ run)
    (hd : d ∈ run) : trChar src repl c = trChar src repl d := by
  by_cases hlong : repl.cLength > 1
  · rw [hrun.same (by rw [hmode, decide_eq_true hlong]) c hc d hd]
  · have hone : repl.cLength = 1 := by
      rcases husable with h | h <;> omega
    rw [trChar, trChar, if_pos (.inl hone), if_pos (.inl hone)]

/-- The callback with a run. -/
theorem trAct_run (enc : CFEncoding) (sflag : Bool) (husable : TrUsable repl)
    (hmode : squeezeMode = decide (repl.cLength > 1)) {run : List UniChar}
    (hrun : IsRun src.reads squeezeMode run)
    (hkept : OptKept src repl ctx.opt) :
    (∃ e, (∀ c ∈ run, trChar src repl c = .error e) ∧
      trAct enc src repl sflag run ctx = .error e) ∨
    ∃ ctx', (∀ c ∈ run, trChar src repl c = .ok (trOk src repl c)) ∧
      OptKept src repl ctx'.opt ∧
      trAct enc src repl sflag run ctx = .ok (trRun src repl sflag run, ctx') := by
  have hsame : ∀ c ∈ run, ∀ d ∈ run, trChar src repl c = trChar src repl d :=
    fun c hc d hd => trChar_run husable hmode hrun hc hd
  obtain ⟨c, run, rfl⟩ := List.exists_cons_of_ne_nil hrun.ne_nil
  obtain ⟨e, herror, hrepl⟩ | ⟨d, opt', hok, hkept', hrepl⟩ :=
    trReplacement_text enc sflag husable hkept (hrun.all c List.mem_cons_self)
  · refine .inl ⟨e, fun x hx => (hsame x hx c List.mem_cons_self).trans herror, ?_⟩
    rw [trAct, hrepl]
    rfl
  · have hall : ∀ x ∈ c :: run, trChar src repl x = .ok d := fun x hx =>
      (hsame x hx c List.mem_cons_self).trans hok
    have hval : ∀ x ∈ c :: run, trOk src repl x = d := by
      intro x hx
      rw [trOk, hall x hx]
    refine .inr ⟨⟨opt', true⟩, fun x hx => by rw [hall x hx, hval x hx], hkept', ?_⟩
    rw [trAct, hrepl, trRun]
    cases sflag with
    | true => simp [hval c List.mem_cons_self]
    | false =>
        have hmap : (c :: run).map (trOk src repl) = (c :: run).map fun _ => d :=
          List.map_congr_left hval
        rw [if_neg Bool.false_ne_true, hmap, List.map_eq_flatMap]
        rfl

/-- **All the runs are replaced when something is written for every character that is read.** -/
theorem trRuns_ok (enc : CFEncoding) (sflag : Bool) (ctx : TrTransCtx) (husable : TrUsable repl)
    (hmode : squeezeMode = decide (repl.cLength > 1)) (hkept : OptKept src repl ctx.opt)
    (out : List UniChar)
    (hok : ∀ c ∈ s, src.reads c = true → trChar src repl c = .ok (trOk src repl c)) :
    ∃ ctx', actRuns src.reads squeezeMode (trAct enc src repl sflag) out s ctx =
      .ok (out ++ replaceRuns src.reads squeezeMode (trRun src repl sflag) s, ctx') := by
  induction s using run_induction src.reads squeezeMode generalizing out ctx with
  | nil => exact ⟨ctx, by simp⟩
  | other a rest ha ih =>
      obtain ⟨ctx', heq⟩ := ih ctx hkept (out ++ [a])
        (fun c hc => hok c (List.mem_cons_of_mem a hc))
      refine ⟨ctx', ?_⟩
      rw [actRuns_other ha, heq, replaceRuns_other ha, List.append_assoc]
      rfl
  | run run rest hrun hapart ih =>
      obtain ⟨e, herror, -⟩ | ⟨ctx', -, hkept', hact⟩ :=
        trAct_run enc sflag husable hmode hrun hkept
      · obtain ⟨c, run, rfl⟩ := List.exists_cons_of_ne_nil hrun.ne_nil
        have hc := hok c (by simp) (hrun.all c List.mem_cons_self)
        rw [herror c List.mem_cons_self] at hc
        exact absurd hc (by simp)
      · obtain ⟨ctx'', heq⟩ := ih ctx' hkept' (out ++ trRun src repl sflag run)
          (fun c hc => hok c (List.mem_append_right _ hc))
        refine ⟨ctx'', ?_⟩
        rw [actRuns_run hrun hapart, hact, Result.ok_bind, replaceRuns_run hrun hapart]
        exact heq.trans (by rw [List.append_assoc])

/-- Something has been written for every character that is read when all the runs are replaced. -/
theorem trRuns_of_ok (husable : TrUsable repl) (hmode : squeezeMode = decide (repl.cLength > 1))
    (hkept : OptKept src repl ctx.opt) {r : List UniChar × TrTransCtx}
    (h : actRuns src.reads squeezeMode (trAct enc src repl sflag) out s ctx = .ok r) :
    ∀ c ∈ s, src.reads c = true → trChar src repl c = .ok (trOk src repl c) := by
  induction s using run_induction src.reads squeezeMode generalizing out ctx with
  | nil => simp
  | other a rest ha ih =>
      rw [actRuns_other ha] at h
      intro c hc hread
      rcases List.mem_cons.mp hc with rfl | hc
      · simp [ha] at hread
      · exact ih hkept h c hc hread
  | run run rest hrun hapart ih =>
      rw [actRuns_run hrun hapart] at h
      obtain ⟨e, -, hact⟩ | ⟨ctx', hok, hkept', hact⟩ :=
        trAct_run enc sflag husable hmode hrun hkept
      · obtain ⟨r', hrun', -⟩ := Result.bind_eq_ok.mp h
        exact absurd (hact.symm.trans hrun') (by simp)
      · rw [hact, Result.ok_bind] at h
        intro c hc hread
        rcases List.mem_append.mp hc with hc | hc
        · exact hok c hc
        · exact ih hkept' h c hc hread

end Translation

/-! ## When the methods are right -/

section Right

variable (enc : CFEncoding) {src repl : TrArg} (sflag : Bool) {str : List UniChar}

/-- What `tr_trans` makes of a string, when neither that nor an argument has byte data. -/
def trResult (enc : CFEncoding) (src repl : TrArg) (sflag : Bool) (str : List UniChar)
    (fuel : ℕ) : Except CharsetError (List UniChar) :=
  (fun r => r.1.text) <$> trTrans enc ⟨str, none⟩ src.object repl.object sflag fuel

/-- What is read of a first argument in step. -/
theorem charsetOf_spelt {s : StringObject} (hs : src.Spelt s)
    (hcaret : src.text.head? ≠ some 0x5e) : charsetOf enc [s] none = .ok (some src.reads) := by
  have hsubset : charsetSubset enc s = charsetSubset enc src.object := by
    rw [charsetSubset, charsetSubset, hs.cstr_eq enc, hs.2]
    rfl
  rw [charsetOf, hsubset, charsetSubset_text enc src hcaret]
  rfl

/-- Arguments in step are read as those without byte data. -/
theorem trTrans_spelt {s r : StringObject} (hs : src.Spelt s) (hr : repl.Spelt r)
    (hcaret : src.text.head? ≠ some 0x5e) (fuel : ℕ) :
    (fun r => r.1.text) <$> trTrans enc ⟨str, none⟩ s r sflag fuel =
      trResult enc src repl sflag str fuel := by
  have hsrc := hs.cstr_eq enc
  have hrepl := hr.cstr_eq enc
  have hargs : trTransArgs enc s r sflag = trTransArgs enc src.object repl.object sflag := by
    rw [trTransArgs, trTransArgs, hsrc, hrepl, hr.2]
    rfl
  have hof : charsetOf enc [s] none = charsetOf enc [src.object] none :=
    (charsetOf_spelt enc hs hcaret).trans (charsetOf_spelt enc src.spelt_object hcaret).symm
  simp only [trResult, trTrans, hargs, strCharsetFind, hof, List.length_singleton]

/-- The search of `tr_trans`. -/
def trSearch (enc : CFEncoding) (src repl : TrArg) (sflag : Bool) (str : List UniChar) (fuel : ℕ) :
    Except CharsetError (List UniChar × TrTransCtx) :=
  charsetSearch src.reads (decide (repl.cLength > 1))
    (rbStrTransCb enc none (trTransArgs enc src.object repl.object sflag)) str ⟨none, false⟩ fuel

theorem trTrans_eq (hcaret : src.text.head? ≠ some 0x5e) (hstr : str ≠ []) (fuel : ℕ) :
    trResult enc src repl sflag str fuel =
      Prod.fst <$> trSearch enc src repl sflag str fuel := by
  have hreplLen : (trTransArgs enc src.object repl.object sflag).replLen = repl.cLength := by
    rw [trTransArgs, repl.cstr_object, length_cText_text]
  have hset := charsetOf_spelt enc src.spelt_object hcaret
  rw [trResult, trTrans, if_neg (by simpa [StringObject.clen] using hstr)]
  simp only [hreplLen, strCharsetFind, List.length_singleton, one_ne_zero, if_false,
    List.length_eq_zero_iff, hstr, hset, Result.ok_bind]
  rw [trSearch]
  cases charsetSearch src.reads (decide (repl.cLength > 1))
    (rbStrTransCb enc none (trTransArgs enc src.object repl.object sflag)) str ⟨none,
      false⟩ fuel <;> rfl

/-- `tr_trans` returns what its search does. -/
theorem trTrans_settles (hcaret : src.text.head? ≠ some 0x5e)
    {r : Except CharsetError (List UniChar × TrTransCtx)}
    (h : Fuel.Settles (trSearch enc src repl sflag str) r) :
    Fuel.Settles (trResult enc src repl sflag str) (Prod.fst <$> r) := by
  by_cases hstr : str = []
  · subst hstr
    have hnone : Fuel.Settles (trSearch enc src repl sflag []) _ :=
      charsetSearch_none _ (by simp) _
    rw [h.unique hnone]
    exact Fuel.Settles.const _
  · exact (h.map fun r => Prod.fst <$> r).congr fun fuel => trTrans_eq enc sflag hcaret hstr fuel

/-- Two neighbours of which `tr_s` leaves one. -/
def trJoins (src repl : TrArg) (c d : UniChar) : Bool :=
  src.reads c && src.reads d && (decide (repl.text.length = 1) || c == d) && trSame src repl c d

theorem optKept_none : OptKept src repl none := by
  intro o ho
  simp at ho

/-- The mode of the search says whether the second argument is one character. -/
theorem decide_cLength (husable : TrUsable repl) :
    (!decide (repl.cLength > 1)) = decide (repl.text.length = 1) := by
  have hle : repl.cLength ≤ repl.text.length := (List.takeWhile_sublist _).length_le
  rw [← decide_not, decide_eq_decide]
  rcases husable with h | h <;> omega

/-- A second argument that is one character is the image of all. -/
theorem trImage_single (husable : TrUsable repl) (hone : repl.text.length = 1) {c : UniChar}
    (hc : c ∈ src.chars) : trImage src repl c = repl.text.getD 0 0 := by
  have hrepl : repl.cLength ≠ 0 := by
    rcases husable with h | h <;> omega
  rw [trImage_of_mem hc]
  refine ((first_eq_iff hrepl _ c).mpr (.inr ?_)).symm
  cases repl with
  | list chars ascii nodup no_dash no_caret => exact hone
  | range lo hi ascii le => simp [TrArg.text] at hone

/-- **What is returned when every character that is read is handled.** -/
theorem tr_settles (hcaret : src.text.head? ≠ some 0x5e)
    (hstays : ∀ c ∈ str, src.reads c = false → trImage src repl c = c)
    (hhandled : ∀ c ∈ str, src.reads c = true → TrHandled src repl c) :
    Fuel.Settles (trResult enc src repl false str) (.ok (str.map (trImage src repl))) ∧
    Fuel.Settles (trResult enc src repl true str)
      (.ok ((collapse (trJoins src repl) str).map (trImage src repl))) := by
  by_cases hread : ∃ c ∈ str, src.reads c = true
  · obtain ⟨c, hc, hreads⟩ := hread
    have husable := (hhandled c hc hreads).usable
    have hok : ∀ c ∈ str, src.reads c = true → trChar src repl c = .ok (trImage src repl c) :=
      fun c hc hreads => (trChar_eq_iff husable hreads).mpr (hhandled c hc hreads)
    have hval : ∀ c ∈ str, (if src.reads c = true then trOk src repl c else c) =
        trImage src repl c := by
      intro c hc
      cases hreads : src.reads c with
      | false => rw [if_neg (by simp), hstays c hc hreads]
      | true => rw [if_pos rfl, trOk, hok c hc hreads]
    have hok' : ∀ c ∈ str, src.reads c = true → trChar src repl c = .ok (trOk src repl c) := by
      intro c hc hreads
      rw [hok c hc hreads, ← hval c hc, if_pos hreads]
    have hsearch : ∀ sflag, ∃ ctx', Fuel.Settles (trSearch enc src repl sflag str)
        (.ok (replaceRuns src.reads (decide (repl.cLength > 1)) (trRun src repl sflag) str,
          ctx')) := by
      intro sflag
      have hacts : Fuel.Settles (trSearch enc src repl sflag str) _ :=
        charsetSearch_acts (transCb_actsOnRuns enc src repl sflag husable
          (decide (repl.cLength > 1))) str optKept_none
      obtain ⟨ctx', hruns⟩ := trRuns_ok enc sflag ⟨none, false⟩ husable rfl optKept_none [] hok'
      rw [hruns] at hacts
      exact ⟨ctx', hacts⟩
    refine ⟨?_, ?_⟩
    · obtain ⟨ctx', hsettles⟩ := hsearch false
      have hmap : replaceRuns src.reads (decide (repl.cLength > 1)) (trRun src repl false) str =
          str.map (trImage src repl) :=
        (replaceRuns_eq_map (trOk src repl) str).trans (List.map_congr_left hval)
      rw [hmap] at hsettles
      exact trTrans_settles enc false hcaret hsettles
    · obtain ⟨ctx', hsettles⟩ := hsearch true
      have hlast : ∀ run a, IsRun src.reads (decide (repl.cLength > 1)) (run ++ [a]) →
          trRun src repl true (run ++ [a]) = [trOk src repl a] := by
        intro run a hrun
        cases run with
        | nil => rfl
        | cons b run =>
            have hsame : trChar src repl b = trChar src repl a :=
              trChar_run husable rfl hrun (by simp) (by simp)
            simp [trRun, trOk, hsame]
      have hmem : str.IsChain fun c d =>
          joins src.reads (decide (repl.cLength > 1)) c d = trJoins src repl c d := by
        refine (List.pairwise_of_forall_mem_list fun c hc d hd => ?_).isChain
        rw [joins, trJoins, decide_cLength husable]
        cases hcread : src.reads c with
        | false => simp
        | true =>
            cases hdread : src.reads d with
            | false => simp
            | true =>
                have hcmem := (hhandled c hc hcread).mem
                have hdmem := (hhandled d hd hdread).mem
                by_cases hone : repl.text.length = 1
                · simp [hone, trSame, hcmem, hdmem, trImage_single husable hone]
                · by_cases hcd : c = d
                  · subst hcd
                    simp [trSame, hcmem]
                  · simp [hone, hcd]
      have hcollapse : replaceRuns src.reads (decide (repl.cLength > 1)) (trRun src repl true) str =
          (collapse (trJoins src repl) str).map (trImage src repl) := by
        rw [replaceRuns_eq_collapse (trOk src repl) hlast, collapse_congr hmem]
        exact List.map_congr_left fun c hc => hval c ((collapse_sublist _ _).subset hc)
      rw [hcollapse] at hsettles
      exact trTrans_settles enc true hcaret hsettles
  · have hnone : ∀ c ∈ str, src.reads c = false := by
      intro c hc
      by_contra hnot
      exact hread ⟨c, hc, by simpa using hnot⟩
    have hsearch : ∀ sflag, Fuel.Settles (trSearch enc src repl sflag str)
        (.ok (str, ⟨none, false⟩)) := fun sflag => charsetSearch_none _ hnone _
    have hmap : str.map (trImage src repl) = str := by
      conv_rhs => rw [← List.map_id str]
      exact List.map_congr_left fun c hc => hstays c hc (hnone c hc)
    have hcollapse : collapse (trJoins src repl) str = str := by
      refine collapse_eq_self (List.pairwise_of_forall_mem_list fun c hc d hd => ?_).isChain
      simp [trJoins, hnone c hc]
    rw [hcollapse, hmap]
    exact ⟨trTrans_settles enc false hcaret (hsearch false),
      trTrans_settles enc true hcaret (hsearch true)⟩

/-- A callback that deletes the characters that are read. -/
theorem transCb_deletes (hrepl : repl.cLength = 0) (squeezeMode : Bool) :
    ReplacesRuns src.reads squeezeMode
      (rbStrTransCb enc none (trTransArgs enc src.object repl.object sflag)) (fun _ => [])
      fun _ ctx => ⟨ctx.opt, true⟩ := by
  have hreplLen : (trTransArgs enc src.object repl.object sflag).replLen = 0 := by
    rw [trTransArgs, repl.cstr_object, length_cText_text, hrepl]
  refine ⟨fun _ _ => Nat.zero_le _, fun front run back start c ctx _ _ hstart => ?_⟩
  refine ⟨front.length, ?_, by simp, fun _ => by simp⟩
  rw [rbStrTransCb, if_pos hreplLen, cfStringDelete_eq front run back le_rfl, Result.ok_bind,
    List.drop_length]
  simp only [List.length_append, List.append_nil]
  refine congrArg Except.ok (Prod.ext (CFRange.mk.injEq _ _ _ _ |>.mpr ⟨rfl, ?_⟩) rfl)
  push_cast
  ring

/-- The loop of `trans_replace` with any string. -/
theorem length_replaceEach {substr : List UniChar} (count : ℕ) {n : ℤ} {str t : List UniChar}
    (h : replaceEach substr count n str = .ok t) :
    t.length + count = str.length + count * substr.length := by
  induction count generalizing n str with
  | zero =>
      obtain rfl := Except.ok.inj h
      simp
  | succ count ih =>
      rw [replaceEach] at h
      obtain ⟨next, hnext, h⟩ := Result.bind_eq_ok.mp h
      rw [cfStringReplace] at hnext
      split_ifs at hnext with hrange
      simp only at hrange
      obtain rfl := Except.ok.inj hnext
      have hlen := ih h
      simp only [List.length_append, List.length_take, List.length_drop] at hlen
      have hn : (n + 1).toNat = n.toNat + 1 := by omega
      rw [hn] at hlen
      rw [Nat.succ_mul]
      omega

/-- A callback that writes more than one character for each one. -/
theorem transCb_lengthens (hrepl : repl.cLength = 1) (hlen : repl.text.length ≠ 1) :
    Lengthens (rbStrTransCb enc none (trTransArgs enc src.object repl.object false)) := by
  intro search result str c ctx r hpos h
  have hreplLen : (trTransArgs enc src.object repl.object false).replLen = 1 := by
    rw [trTransArgs, repl.cstr_object, length_cText_text, hrepl]
  have hle : repl.cLength ≤ repl.text.length := (List.takeWhile_sublist _).length_le
  rw [rbStrTransCb, if_neg (by omega), trReplacement, if_pos hreplLen, Result.ok_bind] at h
  obtain ⟨r', hr', h⟩ := Result.bind_eq_ok.mp h
  rw [transReplace] at hr'
  split_ifs at hr' with hin hflag
  · obtain ⟨t, ht, hr'⟩ := Result.bind_eq_ok.mp hr'
    obtain rfl := Except.ok.inj hr'
    obtain rfl := Except.ok.inj h
    refine ⟨rfl, ?_⟩
    have htlen := length_replaceEach _ ht
    have hmul : result.length.toNat * 2 ≤ result.length.toNat * repl.text.length :=
      Nat.mul_le_mul_left _ (by omega)
    change t.length + _ = str.length + result.length.toNat * repl.text.length at htlen
    simp only
    omega
  · exact absurd rfl hflag

/-- `tr` is right only if the second argument is usable, when a character is read. -/
theorem usable_of_tr (hcaret : src.text.head? ≠ some 0x5e) (hread : ∃ c ∈ str, src.reads c = true)
    (htr : Fuel.Settles (trResult enc src repl false str) (.ok (str.map (trImage src repl)))) :
    TrUsable repl := by
  by_contra hnot
  have hshort : repl.cLength = 0 ∨ (repl.cLength = 1 ∧ repl.text.length ≠ 1) := by
    rw [TrUsable] at hnot
    omega
  rcases hshort with hzero | ⟨hone, hlen⟩
  · -- the characters are deleted
    have hdeletes : Fuel.Settles (trSearch enc src repl false str) _ :=
      charsetSearch_settles (transCb_deletes enc false hzero _) str _
    have hsame := Except.ok.inj ((trTrans_settles enc false hcaret hdeletes).unique htr)
    have hlen := congrArg List.length hsame
    dsimp only at hlen
    rw [replaceRuns_eq_filter, List.length_map] at hlen
    have hall := List.length_filter_eq_length_iff.mp hlen
    obtain ⟨c, hc, hreads⟩ := hread
    simpa [hreads] using hall c hc
  · -- the string gets longer
    obtain ⟨fuel, hfuel⟩ := htr
    have hresult := hfuel fuel le_rfl
    have hne : str ≠ [] := by
      rintro rfl
      simp at hread
    rw [trTrans_eq enc false hcaret hne] at hresult
    cases hsearch : trSearch enc src repl false str fuel with
    | error e =>
        rw [hsearch] at hresult
        exact absurd hresult (by simp)
    | ok r =>
        rw [hsearch] at hresult
        have hsame : r.1 = str.map (trImage src repl) := Except.ok.inj hresult
        have hlt := charsetSearch_grows (transCb_lengthens enc hone hlen) hread hsearch
        rw [hsame, List.length_map] at hlt
        exact lt_irrefl _ hlt

/-- `tr` is right only if every character that is read is handled. -/
theorem handled_of_tr (hcaret : src.text.head? ≠ some 0x5e)
    (htr : Fuel.Settles (trResult enc src repl false str) (.ok (str.map (trImage src repl)))) :
    (∀ c ∈ str, src.reads c = false → trImage src repl c = c) ∧
      ∀ c ∈ str, src.reads c = true → TrHandled src repl c := by
  by_cases hread : ∃ c ∈ str, src.reads c = true
  · have husable := usable_of_tr enc hcaret hread htr
    have hacts : Fuel.Settles (trSearch enc src repl false str) _ :=
      charsetSearch_acts (transCb_actsOnRuns enc src repl false husable
        (decide (repl.cLength > 1))) str optKept_none
    have hsame := (trTrans_settles enc false hcaret hacts).unique htr
    cases hruns : actRuns src.reads (decide (repl.cLength > 1)) (trAct enc src repl false) [] str
        ⟨none, false⟩ with
    | error e =>
        rw [hruns] at hsame
        exact absurd hsame (by simp)
    | ok r =>
        have hok := trRuns_of_ok husable rfl optKept_none hruns
        obtain ⟨ctx', hruns'⟩ := trRuns_ok enc false ⟨none, false⟩ husable rfl optKept_none [] hok
        rw [hruns'] at hsame
        have hmap : str.map (fun c => if src.reads c = true then trOk src repl c else c) =
            str.map (trImage src repl) :=
          (replaceRuns_eq_map (trOk src repl) str).symm.trans (Except.ok.inj hsame)
        have hval := List.map_inj_left.mp hmap
        refine ⟨fun c hc hreads => ?_, fun c hc hreads => ?_⟩
        · rw [← hval c hc, if_neg (by simp [hreads])]
        · rw [← trChar_eq_iff husable hreads, hok c hc hreads, ← hval c hc, if_pos hreads]
  · have hnone : ∀ c ∈ str, src.reads c = false := by
      intro c hc
      by_contra hnot
      exact hread ⟨c, hc, by simpa using hnot⟩
    have hsearch : Fuel.Settles (trSearch enc src repl false str) _ :=
      charsetSearch_none _ hnone _
    have hsame : str = str.map (trImage src repl) :=
      Except.ok.inj ((trTrans_settles enc false hcaret hsearch).unique htr)
    have hmap : str.map (trImage src repl) = str.map id := by rw [← hsame, List.map_id]
    refine ⟨fun c hc _ => List.map_inj_left.mp hmap c hc, fun c hc hreads => ?_⟩
    rw [hnone c hc] at hreads
    exact absurd hreads (by simp)

/-- A string stays as it is when no character of its `CFString` is read. -/
theorem trTrans_untouched {string s r : StringObject} (hs : src.Spelt s)
    (hcaret : src.text.head? ≠ some 0x5e) (hnone : ∀ c ∈ string.chars, src.reads c = false) :
    Fuel.Settles (fun fuel => StringObject.text <$> (Prod.fst <$>
      trTrans enc string s r sflag fuel)) (.ok string.text) := by
  by_cases hempty : string.clen = 0
  · refine (Fuel.Settles.const _).congr fun fuel => ?_
    rw [trTrans, if_pos hempty]
    rfl
  have hfind : Fuel.Settles (strCharsetFind enc string.chars [s]
      (decide ((trTransArgs enc s r sflag).replLen > 1))
      (rbStrTransCb enc string.data (trTransArgs enc s r sflag)) ⟨none, false⟩)
        (.ok (string.chars, ⟨none, false⟩)) := by
    by_cases hchars : string.chars.length = 0
    · refine (Fuel.Settles.const _).congr fun fuel => ?_
      rw [strCharsetFind, if_neg (by simp), if_pos hchars]
    · have hsearch : Fuel.Settles (charsetSearch src.reads
          (decide ((trTransArgs enc s r sflag).replLen > 1))
          (rbStrTransCb enc string.data (trTransArgs enc s r sflag)) string.chars
          ⟨none, false⟩) _ := charsetSearch_none _ hnone _
      refine hsearch.congr fun fuel => ?_
      rw [strCharsetFind, if_neg (by simp), if_neg hchars, charsetOf_spelt enc hs hcaret]
      rfl
  refine (hfind.map fun r => (fun r => StringObject.text ⟨r.1, string.data⟩) <$> r).congr
    fun fuel => ?_
  rw [trTrans, if_neg hempty, Functor.map_map, Functor.map_map]

variable (src repl)

/-- **`tr` and `tr_s` translate by position if and only if every character of the string that is
read of the first argument is handled, every other one is its own image, and `tr_s` has no two
neighbours with the same image but those that the search takes together**, for a string without byte
data. -/
theorem trRight_plain_iff {string s r : StringObject} (hdata : string.data = none)
    (hs : src.Spelt s) (hr : repl.Spelt r) (hcaret : src.text.head? ≠ some 0x5e) :
    TrRight src repl enc string s r ↔ TrReads src repl string.chars := by
  obtain ⟨str, data⟩ := string
  cases hdata
  have hresult : ∀ sflag fuel, StringObject.text <$> (Prod.fst <$>
      trTrans enc ⟨str, none⟩ s r sflag fuel) = trResult enc src repl sflag str fuel := by
    intro sflag fuel
    rw [Functor.map_map]
    exact trTrans_spelt enc sflag hs hr hcaret fuel
  simp only [TrRight, rbStrTr, rbStrTrS, hresult]
  have hjoins : ∀ c d, (trSame src repl c d = true → trJoins src repl c d = true) ↔
      (trSame src repl c d = true →
        src.reads c = true ∧ src.reads d = true ∧ (repl.text.length = 1 ∨ c = d)) := by
    intro c d
    refine imp_congr_right fun hsame => ?_
    simp [trJoins, hsame, and_assoc]
  have hle : ∀ c d, trJoins src repl c d = true → trSame src repl c d = true := by
    intro c d h
    rw [trJoins, Bool.and_eq_true] at h
    exact h.2
  have hlength := length_collapse_eq_iff hle str
  refine ⟨fun ⟨htr, htrs⟩ => ?_, fun h => ?_⟩
  · obtain ⟨hstays, hhandled⟩ := handled_of_tr enc hcaret htr
    have hsettles := (tr_settles enc hcaret hstays hhandled).2
    have hsame := congrArg List.length (Except.ok.inj (hsettles.unique htrs))
    rw [List.length_map, List.length_map] at hsame
    exact ⟨hstays, hhandled, (hlength.mp hsame.symm).imp fun c d => (hjoins c d).mp⟩
  · obtain ⟨htr, htrs⟩ := tr_settles enc hcaret h.stays h.handled
    have hchain : str.IsChain fun c d => trJoins src repl c d = trSame src repl c d := by
      refine h.squeezed.imp fun c d hcd => ?_
      rw [Bool.eq_iff_iff]
      exact ⟨hle c d, (hjoins c d).mpr hcd⟩
    rw [collapse_congr hchain] at htrs
    exact ⟨htr, htrs⟩

/-- **The strings that the methods translate right**: without byte data those for which the
arguments are read right, and with byte data those that they do not change. -/
def TrFits (string : StringObject) : Prop :=
  if string.data = none then TrReads src repl string.chars
  else (∀ c ∈ string.text, trImage src repl c = c) ∧
    string.text.IsChain fun c d => trSame src repl c d = false

/-- `"el"`. -/
def trEL : TrArg := .list [0x65, 0x6c] (by simp [Ascii]) (by decide) (by decide) (by decide)

/-- `"ip"`. -/
def trIP : TrArg := .list [0x69, 0x70] (by simp [Ascii]) (by decide) (by decide) (by decide)

/-- `"abc"`. -/
def trABC : TrArg := .list [0x61, 0x62, 0x63] (by simp [Ascii]) (by decide) (by decide) (by decide)

end Right

end MacRuby
