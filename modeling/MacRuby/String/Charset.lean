import MacRuby.Numeric.Long
import MacRuby.String.CharsetFind
import Mathlib.Data.List.TakeWhile

/-!
# Character sets

`String#count`, `String#delete` and `String#squeeze` take specifications of sets of characters.
`str_charset_find` parses a specification as a C string, from dash to dash, and works on the
`CFString` of the receiver.

## Main definitions

* `charsetOf` — the set that is built from specifications.
* `rbStrCount`, `rbStrDelete`, `rbStrSqueeze` — the methods.
* `CharSpec` — a specification, with the set that it denotes.
* `CharsetRight` — the methods do what is documented.
* `ReadsRight`, `DealtRight` — the set is built right, and its characters are dealt with.

## Main results

* `charsetSubset_eq` — what is read of a specification.
* `charsetRight_iff` — when the methods do what is documented.
-/

namespace MacRuby

open Runs

section Code

variable (enc : CFEncoding)

/-- The byte at a place of a string, behind which there is a terminator. -/
def readByte (mem : List UInt8) (i : ℕ) : Except CharsetError UInt8 :=
  if i < mem.length then .ok (mem.getD i 0)
  else if i = mem.length then .ok 0
  else .error .undefined

/-- The C string from a place on. -/
def cText (mem : List UInt8) (i : ℕ) : List UInt8 := (mem.drop i).takeWhile (· != 0)

/-- `strchr(mem + i, '-')`. -/
def strchrDash (mem : List UInt8) (i : ℕ) : Except CharsetError (Option ℕ) :=
  if i ≤ mem.length then .ok (((cText mem i).idxOf? 0x2d).map (i + ·))
  else .error .undefined

/-- `CFCharacterSetAddCharactersInRange(subset, range)`. -/
def addRange (subset : CharSet) (range : CFRange) : CharSet := fun c =>
  subset c || decide (range.location ≤ c.toNat ∧ (c.toNat : ℤ) < range.location + range.length)

/-- `CFCharacterSetAddCharactersInString(subset, str)`. -/
def addString (subset : CharSet) (str : List UniChar) : CharSet := fun c =>
  subset c || decide (c ∈ str)

/-- The characters of a part of the memory are added. -/
def addBytes (subset : CharSet) (mem : List UInt8) (b e : ℕ) : Except CharsetError CharSet :=
  match enc.string ((mem.drop b).take (e - b)) with
  | some substr => .ok (addString subset substr)
  | none => .error .assertion

/-- The loop over the dashes of a specification, with `b` and the set after it. -/
def charsetDashes (mem : List UInt8) : (fuel : ℕ) → (b : ℕ) → (p : Option ℕ) →
    (subset : CharSet) → Except CharsetError (ℕ × CharSet)
  | 0, _, _, _ => .error .undefined
  | _ + 1, b, none, subset => .ok (b, subset)
  | fuel + 1, b, some p, subset =>
      if p > b then do
        let lo ← readByte mem (p - 1)
        let hi ← readByte mem (p + 1)
        let subset := if lo ≠ 0x5c ∧ hi ≠ 0 then
            addRange subset ⟨lo.toInt8.toInt, hi.toInt8.toInt - lo.toInt8.toInt + 1⟩
          else subset
        let subset ← addBytes enc subset mem b p
        let next ← strchrDash mem (p + 2)
        charsetDashes mem fuel (p + 2) next subset
      else .ok (b, subset)

attribute [grind =] charsetDashes

/-- The characters behind the last dash are added. -/
def addRest (mem : List UInt8) (r : ℕ × CharSet) : Except CharsetError CharSet :=
  let length := (cText mem 0).length
  if r.1 < length then addBytes enc r.2 mem r.1 length else .ok r.2

/-- The set of one specification. -/
def charsetSubset (s : StringObject) : Except CharsetError CharSet := do
  let mem := s.cstr enc
  let first ← readByte mem 0
  let exclude := first == 0x5e
  let p ← if exclude then .ok none else strchrDash mem 0
  if exclude = true ∨ p.isSome = true then
    let b := if exclude then 1 else 0
    let p ← if p.isNone then strchrDash mem b else .ok p
    let r ← charsetDashes enc mem (mem.length + 1) b p fun _ => false
    let subset ← addRest enc mem r
    return if exclude then fun c => !subset c else subset
  else return addString (fun _ => false) s.chars

/-- The set of the specifications: the intersection of their sets. -/
def charsetOf : (charsets : List StringObject) → (charset : Option CharSet) →
    Except CharsetError (Option CharSet)
  | [], charset => .ok charset
  | s :: charsets, charset => do
      let subset ← charsetSubset enc s
      charsetOf charsets (some (match charset with
        | none => subset
        | some charset => fun c => charset c && subset c))

/-- `str_charset_find`. -/
def strCharsetFind {κ : Type} (str : List UniChar) (charsets : List StringObject)
    (squeezeMode : Bool) (cb : CharsetCb κ) (ctx : κ) (fuel : ℕ) :
    Except CharsetError (List UniChar × κ) :=
  if charsets.length = 0 then .ok (str, ctx)
  else if str.length = 0 then .ok (str, ctx)
  else do
    match ← charsetOf enc charsets none with
    | some charset => charsetSearch charset squeezeMode cb str ctx fuel
    | none => .error .undefined

/-- `CFStringDelete(str, range)`. -/
def cfStringDelete (str : List UniChar) (range : CFRange) : Except CharsetError (List UniChar) :=
  if 0 ≤ range.location ∧ 0 ≤ range.length ∧ range.location + range.length ≤ str.length then
    .ok (str.take range.location.toNat ++ str.drop (range.location + range.length).toNat)
  else .error .undefined

/-- `rb_str_count_cb`, with an `int` as context. -/
def rbStrCountCb : CharsetCb ℤ := fun search result str _ count =>
  .ok (search, str, toCInt (count + result.length))

/-- `rb_str_delete_bang_cb`, whose context says that the string has changed. -/
def rbStrDeleteBangCb : CharsetCb Bool := fun search result str _ _ => do
  let str ← cfStringDelete str result
  return (⟨result.location,
    search.length - (result.length + (result.location - search.location))⟩, str, true)

/-- `rb_str_squeeze_bang_cb`, whose context says that the string has changed. -/
def rbStrSqueezeBangCb : CharsetCb Bool := fun search result str _ changed =>
  if result.length > 1 then do
    let str ← cfStringDelete str ⟨result.location, result.length - 1⟩
    return (⟨result.location + 1,
      search.length - (result.length + (result.location - search.location))⟩, str, true)
  else .ok (search, str, changed)

variable (str : StringObject) (argv : List StringObject) (fuel : ℕ)

/-- `rb_str_count`. -/
def rbStrCount : Except CharsetError ℤ :=
  if argv.length < 1 then .error .argument
  else Prod.snd <$> strCharsetFind enc str.chars argv false rbStrCountCb 0 fuel

/-- `rb_str_delete`, which is done to a copy with the same byte data. -/
def rbStrDelete : Except CharsetError StringObject :=
  if argv.length < 1 then .error .argument
  else (fun r => ⟨r.1, str.data⟩) <$>
    strCharsetFind enc str.chars argv false rbStrDeleteBangCb false fuel

/-- `rb_str_squeeze`, which is done to a copy with the same byte data. -/
def rbStrSqueeze : Except CharsetError StringObject :=
  let argv := if argv.length = 0 then [⟨[0x61, 0x2d, 0x7a], none⟩] else argv
  (fun r => ⟨r.1, str.data⟩) <$>
    strCharsetFind enc str.chars argv true rbStrSqueezeBangCb false fuel

end Code

/-! ## Specifications -/

section Meaning

/-- A character of a specification, but a dash. -/
structure SpecChar where
  char : UniChar
  ascii : char < 0x80
  ne_dash : char ≠ 0x2d

/-- A character, or the characters from one to another. -/
inductive SpecItem
  | single (c : SpecChar)
  | range (lo hi : SpecChar) (h : lo.char ≤ hi.char)

namespace SpecItem

/-- How an item is written. -/
def text : SpecItem → List UniChar
  | single c => [c.char]
  | range lo hi _ => [lo.char, 0x2d, hi.char]

/-- The first character of an item. -/
def first : SpecItem → UniChar
  | single c => c.char
  | range lo _ _ => lo.char

/-- The item is one character. -/
def isSingle : SpecItem → Bool
  | single _ => true
  | range _ _ _ => false

/-- The characters of an item. -/
def covers : SpecItem → CharSet
  | single c => fun d => d == c.char
  | range lo hi _ => fun d => decide (lo.char ≤ d ∧ d ≤ hi.char)

/-- What is read of an item: a backslash hides that it begins a range. -/
def readAs : SpecItem → CharSet
  | single c => fun d => d == c.char
  | range lo hi _ => fun d =>
      if lo.char = 0x5c then d == lo.char else decide (lo.char ≤ d ∧ d ≤ hi.char)

end SpecItem

/-- **A specification**: it may start with a caret, and a dash at its start or its end stands for
itself. -/
structure CharSpec where
  exclude : Bool
  leading : Bool
  items : List SpecItem
  trailing : Bool
  body_ne_nil : leading = true ∨ items ≠ [] ∨ trailing = true
  first_ne_caret : exclude = false → leading = false → ∀ item ∈ items.head?, item.first ≠ 0x5e

namespace CharSpec

variable (spec : CharSpec)

/-- A dash, if there is one. -/
def dashIf (b : Bool) : List UniChar := if b then [0x2d] else []

/-- How items are written. -/
def itemsText (items : List SpecItem) : List UniChar := items.flatMap SpecItem.text

/-- How a specification is written. -/
def text : List UniChar :=
  (if spec.exclude then [0x5e] else []) ++
    (dashIf spec.leading ++ (itemsText spec.items ++ dashIf spec.trailing))

/-- The characters of a specification, but for the caret. -/
def covers : CharSet := fun c =>
  spec.items.any (fun item => item.covers c) || ((spec.leading || spec.trailing) && c == 0x2d)

/-- **The set that a specification denotes.** -/
def denotes : CharSet := fun c => if spec.exclude then !spec.covers c else spec.covers c

/-- There is a character that ends a C string. -/
def hasNul : Bool := spec.items.any fun item => item.first == 0

/-- The items before this character. -/
def front : List SpecItem := spec.items.takeWhile fun item => item.first != 0

/-- The dash at the end, which is read if no character ends the C string before. -/
def readsTrailing : Bool := spec.trailing && !spec.hasNul

/-- The C string behind the caret. -/
def cBody : List UniChar :=
  dashIf spec.leading ++ (itemsText spec.front ++ dashIf spec.readsTrailing)

/-- What is read of a specification, but for the caret: all the characters when there is no caret
and no dash, otherwise the characters of the C string when it starts with a dash, and its items when
it does not. -/
def readIn : CharSet := fun c =>
  if spec.exclude = false ∧ 0x2d ∉ spec.cBody then decide (c ∈ spec.text)
  else if spec.leading then decide (c ∈ spec.cBody)
  else spec.front.any (fun item => item.readAs c) || (spec.readsTrailing && c == 0x2d)

/-- The set that is read. -/
def takes : CharSet := fun c => if spec.exclude then !spec.readIn c else spec.readIn c

/-- A dash at the end follows a single character, and is read as if a range went on behind it. -/
def Overreads : Prop :=
  spec.readsTrailing = true ∧ spec.leading = false ∧
    ∃ item ∈ spec.items.getLast?, item.isSingle = true

end CharSpec

/-- A string, whose `CFString` is in step, spells a specification. -/
def CharSpec.Spelt (spec : CharSpec) (s : StringObject) : Prop := s.InStep ∧ s.chars = spec.text

/-- The set that the specifications denote: the intersection of their sets. -/
def denotedBy (specs : List CharSpec) : CharSet := fun c => specs.all fun spec => spec.denotes c

/-- **The set is built without reading beyond a specification and is the denoted one, and the
characters of the set are counted, deleted, and squeezed.** -/
def CharsetRight (enc : CFEncoding) (specs : List CharSpec) (argv : List StringObject)
    (str : StringObject) : Prop :=
  (∃ charset, charsetOf enc argv none = .ok (some charset) ∧ charset = denotedBy specs) ∧
  Fuel.Settles (rbStrCount enc str argv) (.ok (str.text.countP (denotedBy specs))) ∧
  Fuel.Settles (fun fuel => StringObject.text <$> rbStrDelete enc str argv fuel)
    (.ok (str.text.filter fun c => !denotedBy specs c)) ∧
  Fuel.Settles (fun fuel => StringObject.text <$> rbStrSqueeze enc str argv fuel)
    (.ok (collapse (fun c d => denotedBy specs c && c == d) str.text))

/-- **The set is built right**: no specification has a dash at its end right behind a single
character, and every character that is misread in one of them is kept out by one as it is denoted
and by one as it is read. -/
structure ReadsRight (specs : List CharSpec) : Prop where
  inside : ∀ spec ∈ specs, ¬ spec.Overreads
  kept_out : ∀ c, (∃ spec ∈ specs, spec.readIn c ≠ spec.covers c) →
    (∃ spec ∈ specs, spec.denotes c = false) ∧ ∃ spec ∈ specs, spec.takes c = false

/-- **The methods deal with the characters of a set right**: without byte data, their number is an
`int`; with byte data, the string has none of them, and so has the `CFString`, but for multiples of
2³², which an `int` counts as none. -/
def DealtRight (set : CharSet) (str : StringObject) : Prop :=
  if str.data = none then str.chars.countP set < 2 ^ 31
  else (∀ c ∈ str.text, set c = false) ∧ 2 ^ 32 ∣ str.chars.countP set

end Meaning

section Bytes

variable {s t : List UniChar} {c : UniChar}

theorem toInt_toUInt8 (h : c < 0x80) : c.toUInt8.toInt8.toInt = c.toNat := by
  have hlt : c.toNat < 0x80 := UInt16.lt_iff_toNat_lt.mp h
  have hval : c.toUInt8.toInt8.toInt = c.toUInt8.toBitVec.toInt := rfl
  rw [hval, BitVec.toInt_eq_toNat_bmod, UInt8.toNat_toBitVec, UInt16.toNat_toUInt8, Int.bmod_def]
  split <;> omega

theorem toUInt8_inj {d : UniChar} (hc : c < 0x80) (hd : d < 0x80) :
    c.toUInt8 = d.toUInt8 ↔ c = d := by
  refine ⟨fun h => ?_, congrArg _⟩
  rw [← toUInt16_toUInt8 hc, h, toUInt16_toUInt8 hd]

theorem toUInt8_eq_zero (hc : c < 0x80) : c.toUInt8 = 0 ↔ c = 0 :=
  toUInt8_inj (d := 0) hc (by decide)

theorem toUInt8_eq_dash (hc : c < 0x80) : c.toUInt8 = 0x2d ↔ c = 0x2d :=
  toUInt8_inj (d := 0x2d) hc (by decide)

/-- ASCII. -/
abbrev Ascii (s : List UniChar) : Prop := ∀ c ∈ s, c < 0x80

theorem Ascii.append (hs : Ascii s) (ht : Ascii t) : Ascii (s ++ t) := by
  intro c hc
  obtain hc | hc := List.mem_append.mp hc
  · exact hs c hc
  · exact ht c hc

/-- The bytes of a string. -/
def bytesOf (s : List UniChar) : List UInt8 := s.map UInt16.toUInt8

theorem readByte_bytesOf {i : ℕ} (h : s[i]? = some c) : readByte (bytesOf s) i = .ok c.toUInt8 := by
  have hi : i < s.length := (List.getElem?_eq_some_iff.mp h).1
  have hget : (bytesOf s).getD i 0 = c.toUInt8 := by
    simp [bytesOf, List.getD_eq_getElem?_getD, h]
  rw [readByte, if_pos (by simpa [bytesOf] using hi), hget]

theorem readByte_end : readByte (bytesOf s) s.length = .ok 0 := by
  simp [readByte, bytesOf]

/-- The C string is the part of a string before a character that ends it. -/
theorem cText_bytesOf (hs : Ascii s) (i : ℕ) :
    cText (bytesOf s) i = bytesOf ((s.drop i).takeWhile (· != 0)) := by
  have hne : ∀ c ∈ s.drop i, (c.toUInt8 != 0) = (c != 0) := fun c hc => by
    rw [Bool.eq_iff_iff, bne_iff_ne, bne_iff_ne, ne_eq, ne_eq,
      toUInt8_eq_zero (hs c (List.mem_of_mem_drop hc))]
  rw [cText, bytesOf, ← List.map_drop, List.takeWhile_map, bytesOf]
  congr 1
  generalize s.drop i = t at hne
  induction t with
  | nil => rfl
  | cons c t ih =>
      have hc := hne c List.mem_cons_self
      simp only [List.takeWhile_cons, Function.comp_apply, hc]
      rw [ih fun d hd => hne d (List.mem_cons_of_mem c hd)]

/-- The first dash behind characters that are none. -/
theorem idxOf_dash {held : List UniChar} (hheld : Ascii held) (hne : 0x2d ∉ held)
    (rest : List UniChar) : (bytesOf (held ++ 0x2d :: rest)).idxOf? 0x2d = some held.length := by
  induction held with
  | nil => rfl
  | cons c held ih =>
      have hc : c.toUInt8 ≠ 0x2d := fun h =>
        hne (by rw [(toUInt8_eq_dash (hheld c List.mem_cons_self)).mp h]; simp)
      have ih' := ih (fun d hd => hheld d (List.mem_cons_of_mem c hd))
        (fun hd => hne (List.mem_cons_of_mem c hd))
      rw [List.cons_append, bytesOf, List.map_cons, List.idxOf?_cons, if_neg (by simpa using hc)]
      exact congrArg (Option.map (· + 1)) ih'

theorem idxOf_no_dash {held : List UniChar} (hheld : Ascii held) (hne : 0x2d ∉ held) :
    (bytesOf held).idxOf? 0x2d = none := by
  rw [List.idxOf?_eq_none_iff, bytesOf, List.mem_map]
  rintro ⟨c, hc, heq⟩
  exact hne ((toUInt8_eq_dash (hheld c hc)).mp heq ▸ hc)

/-- What is behind a C string: nothing, or a character that ends it. -/
def EndsC (z : List UniChar) : Prop := z = [] ∨ z.head? = some 0

theorem takeWhile_of_endsC {body z : List UniChar} (hbody : 0 ∉ body) (hz : EndsC z) :
    (body ++ z).takeWhile (· != 0) = body := by
  have hz' : z.takeWhile (· != 0) = [] := by
    obtain rfl | hz := hz
    · rfl
    · cases z with
      | nil => rfl
      | cons c z => simp [Option.some.inj hz]
  rw [List.takeWhile_append_of_pos, hz', List.append_nil]
  intro c hc
  exact bne_iff_ne.mpr fun h => hbody (h ▸ hc)

/-- The place of a dash in the C string from a place on. -/
theorem strchrDash_eq {before body z : List UniChar} (hs : Ascii (before ++ (body ++ z)))
    (hbody : 0 ∉ body) (hz : EndsC z) :
    strchrDash (bytesOf (before ++ (body ++ z))) before.length =
      .ok (((bytesOf body).idxOf? 0x2d).map (before.length + ·)) := by
  rw [strchrDash, if_pos (by simp [bytesOf]), cText_bytesOf hs, List.drop_left,
    takeWhile_of_endsC hbody hz]

/-- `strlen`. -/
theorem length_cText {body z : List UniChar} (hs : Ascii (body ++ z)) (hbody : 0 ∉ body)
    (hz : EndsC z) : (cText (bytesOf (body ++ z)) 0).length = body.length := by
  rw [cText_bytesOf hs, List.drop_zero, takeWhile_of_endsC hbody hz, bytesOf, List.length_map]

/-- The bytes of a string are converted back to it. -/
theorem string_bytesOf (enc : CFEncoding) {part : List UniChar} (hpart : Ascii part) :
    enc.string (bytesOf part) = some part := by
  have hascii : ∀ b ∈ bytesOf part, b < 0x80 := by
    intro b hb
    obtain ⟨c, hc, rfl⟩ := List.mem_map.mp hb
    have hlt : c.toNat < 0x80 := UInt16.lt_iff_toNat_lt.mp (hpart c hc)
    rw [UInt8.lt_iff_toNat_lt, UInt16.toNat_toUInt8]
    exact (Nat.mod_le _ _).trans_lt hlt
  rw [enc.string_ascii _ hascii, bytesOf, map_toUInt16_toUInt8 hpart]

/-- The characters of a part of a string are added. -/
theorem addBytes_eq (enc : CFEncoding) {before part rest : List UniChar} (hpart : Ascii part)
    (subset : CharSet) (e : ℕ) (he : e = before.length + part.length) :
    addBytes enc subset (bytesOf (before ++ (part ++ rest))) before.length e =
      .ok (addString subset part) := by
  have hbytes : ((bytesOf (before ++ (part ++ rest))).drop before.length).take
      (e - before.length) = bytesOf part := by
    have hlen : e - before.length = part.length := by omega
    rw [bytesOf, ← List.map_drop, List.drop_left, ← List.map_take, hlen, List.take_left, bytesOf]
  rw [addBytes, hbytes, string_bytesOf enc hpart]

end Bytes

/-! ## What is read -/

section Parse

namespace SpecItem

theorem ascii_text (item : SpecItem) : Ascii item.text := by
  cases item with
  | single c => simpa [Ascii, text] using c.ascii
  | range lo hi h =>
      have hdash : (0x2d : UniChar) < 0x80 := by decide
      simp [Ascii, text, lo.ascii, hi.ascii, hdash]

/-- An item has no character that ends a C string unless it begins with it. -/
theorem zero_not_mem_text {item : SpecItem} (h : item.first ≠ 0) : 0 ∉ item.text := by
  cases item with
  | single c => simpa [text, first, eq_comm] using h
  | range lo hi hle =>
      have hhi : hi.char ≠ 0 := fun hzero => by
        rw [hzero] at hle
        exact h (UInt16.le_antisymm hle UInt16.zero_le)
      have hdash : (0 : UniChar) ≠ 0x2d := by decide
      have hlo : lo.char ≠ 0 := h
      simp [text, hlo.symm, hhi.symm, hdash]

end SpecItem

/-- The last of some items is a single character, or the characters before them are held back. -/
def endsSingle (held : List UniChar) (items : List SpecItem) : Bool :=
  match items.getLast? with
  | none => !held.isEmpty
  | some item => item.isSingle

open CharSpec

variable {enc : CFEncoding} {items : List SpecItem} {before held z : List UniChar} {trailing : Bool}

/-- The rest of a specification from a place on, where the dashes before have been dealt with. -/
def parseRest (enc : CFEncoding) (mem : List UInt8) (fuel b : ℕ) (subset : CharSet) :
    Except CharsetError CharSet := do
  let p ← strchrDash mem b
  let r ← charsetDashes enc mem fuel b p subset
  addRest enc mem r

theorem ascii_itemsText (items : List SpecItem) : Ascii (itemsText items) := by
  intro c hc
  obtain ⟨item, -, hc⟩ := List.mem_flatMap.mp hc
  exact item.ascii_text c hc

theorem ascii_dashIf (b : Bool) : Ascii (dashIf b) := by
  cases b <;> simp [Ascii, dashIf]

theorem zero_not_mem_itemsText (h : ∀ item ∈ items, item.first ≠ 0) : 0 ∉ itemsText items := by
  intro hc
  obtain ⟨item, hitem, hc⟩ := List.mem_flatMap.mp hc
  exact SpecItem.zero_not_mem_text (h item hitem) hc

theorem zero_not_mem_dashIf (b : Bool) : 0 ∉ dashIf b := by
  cases b <;> decide

/-- The characters behind the last dash of a C string. -/
theorem addRest_eq (hbefore : Ascii before) (hheld : Ascii held) (hz : Ascii z)
    (hbefore0 : 0 ∉ before) (hheld0 : 0 ∉ held) (hend : EndsC z) (subset : CharSet) :
    addRest enc (bytesOf (before ++ (held ++ z))) (before.length, subset) =
      .ok (addString subset held) := by
  have hascii : Ascii ((before ++ held) ++ z) := (hbefore.append hheld).append hz
  have hlen := length_cText hascii (by simp [hbefore0, hheld0]) hend
  rw [List.append_assoc] at hlen
  rw [addRest, hlen, List.length_append]
  by_cases hnil : held = []
  · have hsame : addString subset held = subset := by
      funext c
      simp [addString, hnil]
    rw [if_neg (by simp [hnil]), hsame]
  · have hpos := List.length_pos_of_ne_nil hnil
    rw [if_pos (by simp only; omega)]
    exact addBytes_eq enc hheld subset _ rfl

/-- The end of a specification without a dash at its end. -/
theorem parseRest_end (fuel : ℕ) (subset : CharSet) (hbefore : Ascii before) (hheld : Ascii held)
    (hz : Ascii z) (hbefore0 : 0 ∉ before) (hheld0 : 0 ∉ held) (hdash : 0x2d ∉ held)
    (hend : EndsC z) :
    parseRest enc (bytesOf (before ++ (held ++ z))) (fuel + 1) before.length subset =
      .ok (addString subset held) := by
  have hascii : Ascii (before ++ (held ++ z)) := hbefore.append (hheld.append hz)
  rw [parseRest, strchrDash_eq hascii hheld0 hend, idxOf_no_dash hheld hdash]
  exact addRest_eq hbefore hheld hz hbefore0 hheld0 hend subset

/-- A dash where nothing is held back ends the search for dashes. -/
theorem parseRest_dash (fuel : ℕ) (subset : CharSet) {rest : List UniChar} (hbefore : Ascii before)
    (hrest : Ascii rest) (hz : Ascii z) (hbefore0 : 0 ∉ before) (hrest0 : 0 ∉ rest)
    (hend : EndsC z) :
    parseRest enc (bytesOf (before ++ ((0x2d :: rest) ++ z))) (fuel + 1) before.length subset =
      .ok (addString subset (0x2d :: rest)) := by
  have hcons : Ascii (0x2d :: rest) := by
    have hdash : (0x2d : UniChar) < 0x80 := by decide
    simpa [Ascii, hdash] using hrest
  have hcons0 : (0 : UniChar) ∉ 0x2d :: rest := by
    have hdash : (0 : UniChar) ≠ 0x2d := by decide
    simp [hdash, hrest0]
  have hascii : Ascii (before ++ ((0x2d :: rest) ++ z)) := hbefore.append (hcons.append hz)
  have hplace : (bytesOf (0x2d :: rest)).idxOf? 0x2d = some 0 := by
    simp [bytesOf, List.idxOf?_cons]
  rw [parseRest, strchrDash_eq hascii hcons0 hend, hplace]
  have hdashes : charsetDashes enc (bytesOf (before ++ ((0x2d :: rest) ++ z))) (fuel + 1)
      before.length (some before.length) subset = .ok (before.length, subset) := by
    rw [charsetDashes, if_neg (lt_irrefl _)]
  simp only [Option.map_some, Nat.add_zero, Result.ok_bind, hdashes]
  exact addRest_eq hbefore hcons hz hbefore0 hcons0 hend subset

/-- A dash behind a character. -/
theorem charsetDashes_step (fuel : ℕ) (subset : CharSet) {lo : UniChar} {rest : List UniChar}
    {hi : UInt8} (hheld : Ascii (held ++ [lo]))
    (hread : readByte (bytesOf (before ++ (held ++ [lo] ++ 0x2d :: rest)))
      (before.length + (held ++ [lo]).length + 1) = .ok hi) :
    charsetDashes enc (bytesOf (before ++ (held ++ [lo] ++ 0x2d :: rest))) (fuel + 1) before.length
        (some (before.length + (held ++ [lo]).length)) subset =
      (strchrDash (bytesOf (before ++ (held ++ [lo] ++ 0x2d :: rest)))
        (before.length + (held ++ [lo]).length + 2) >>= fun next =>
          charsetDashes enc (bytesOf (before ++ (held ++ [lo] ++ 0x2d :: rest))) fuel
            (before.length + (held ++ [lo]).length + 2) next
            (addString (if lo ≠ 0x5c ∧ hi ≠ 0 then
                addRange subset ⟨lo.toNat, hi.toInt8.toInt - lo.toNat + 1⟩ else subset)
              (held ++ [lo]))) := by
  have hlo : lo < 0x80 := hheld lo (by simp)
  have hget : (before ++ (held ++ [lo] ++ 0x2d :: rest))[before.length +
      (held ++ [lo]).length - 1]? = some lo := by
    have hplace : before.length + (held ++ [lo]).length - 1 = (before ++ held).length := by
      simp only [List.length_append, List.length_singleton]
      omega
    have hsplit : before ++ (held ++ [lo] ++ 0x2d :: rest) =
        (before ++ held) ++ lo :: 0x2d :: rest := by simp
    rw [hplace, hsplit, List.getElem?_append_right le_rfl, Nat.sub_self]
    rfl
  have hbackslash : lo.toUInt8 ≠ 0x5c ↔ lo ≠ 0x5c :=
    not_congr (toUInt8_inj (d := 0x5c) hlo (by decide))
  rw [charsetDashes, if_pos (by simp), readByte_bytesOf hget, Result.ok_bind, hread,
    Result.ok_bind]
  simp only [addBytes_eq enc hheld _ _ rfl, Result.ok_bind, hbackslash, toInt_toUInt8 hlo]

/-- A dash at the end behind characters that are held back: what is behind the terminator is
read. -/
theorem parseRest_overreads (fuel : ℕ) (subset : CharSet) {lo : UniChar} (hbefore : Ascii before)
    (hheld : Ascii (held ++ [lo])) (hheld0 : 0 ∉ held ++ [lo]) (hdash : 0x2d ∉ held ++ [lo]) :
    parseRest enc (bytesOf (before ++ (held ++ [lo] ++ [0x2d]))) (fuel + 1) before.length subset =
      .error .undefined := by
  have hbody0 : (0 : UniChar) ∉ held ++ [lo] ++ [0x2d] := by
    have hne : (0 : UniChar) ≠ 0x2d := by decide
    simpa [hne] using hheld0
  have hascii : Ascii (before ++ (held ++ [lo] ++ [0x2d] ++ [])) := by
    have hone : Ascii [0x2d] := by simp [Ascii]
    simpa using hbefore.append (hheld.append hone)
  have hp := strchrDash_eq hascii hbody0 (.inl rfl)
  rw [List.append_nil, idxOf_dash hheld hdash] at hp
  have hlen : (before ++ (held ++ [lo] ++ [0x2d])).length =
      before.length + (held ++ [lo]).length + 1 := by simp; omega
  have hread : readByte (bytesOf (before ++ (held ++ [lo] ++ [0x2d])))
      (before.length + (held ++ [lo]).length + 1) = .ok 0 := hlen ▸ readByte_end
  have hbeyond : strchrDash (bytesOf (before ++ (held ++ [lo] ++ [0x2d])))
      (before.length + (held ++ [lo]).length + 2) = .error .undefined := by
    rw [strchrDash, if_neg (by rw [bytesOf, List.length_map, hlen]; omega)]
  rw [parseRest, hp, Option.map_some, Result.ok_bind, charsetDashes_step fuel subset hheld hread,
    hbeyond]
  rfl

/-- A range behind characters that are held back. -/
theorem parseRest_range (enc : CFEncoding) (fuel : ℕ) (subset : CharSet) {lo hi : SpecChar}
    (hle : lo.char ≤ hi.char) {rest : List UniChar} (hbefore : Ascii before)
    (hheld : Ascii held) (hrest : Ascii rest) (hz : Ascii z) (hheld0 : 0 ∉ held)
    (hdash : 0x2d ∉ held) (hlo : lo.char ≠ 0) (hrest0 : 0 ∉ rest) (hend : EndsC z) :
    parseRest enc (bytesOf (before ++ (held ++ lo.char :: 0x2d :: hi.char :: (rest ++ z))))
        (fuel + 1) before.length subset =
      parseRest enc
        (bytesOf (before ++ (held ++ [lo.char, 0x2d, hi.char]) ++ (rest ++ z))) fuel
        (before ++ (held ++ [lo.char, 0x2d, hi.char])).length
        (addString (if lo.char ≠ 0x5c then
            addRange subset ⟨lo.char.toNat, (hi.char.toNat - lo.char.toNat + 1 : ℤ)⟩ else subset)
          (held ++ [lo.char])) := by
  have hheld' : Ascii (held ++ [lo.char]) := hheld.append (by simpa [Ascii] using lo.ascii)
  have hdash' : 0x2d ∉ held ++ [lo.char] := by simpa [hdash] using lo.ne_dash.symm
  have hhi : hi.char ≠ 0 := fun hzero => by
    rw [hzero] at hle
    exact hlo (UInt16.le_antisymm hle UInt16.zero_le)
  have hbody0 : 0 ∉ held ++ [lo.char] ++ 0x2d :: hi.char :: rest := by
    have hne : (0 : UniChar) ≠ 0x2d := by decide
    simp [hheld0, hlo.symm, hhi.symm, hrest0, hne]
  have hbody : Ascii (held ++ [lo.char] ++ 0x2d :: hi.char :: rest) := by
    have hne : (0x2d : UniChar) < 0x80 := by decide
    exact hheld'.append (by simpa [Ascii, hne, hi.ascii] using hrest)
  have hmem : before ++ (held ++ lo.char :: 0x2d :: hi.char :: (rest ++ z)) =
      before ++ (held ++ [lo.char] ++ 0x2d :: (hi.char :: (rest ++ z))) := by simp
  have hmem' : before ++ (held ++ [lo.char, 0x2d, hi.char]) ++ (rest ++ z) =
      before ++ (held ++ [lo.char] ++ 0x2d :: (hi.char :: (rest ++ z))) := by simp
  have hplace : (before ++ (held ++ [lo.char, 0x2d, hi.char])).length =
      before.length + (held ++ [lo.char]).length + 2 := by
    simp
    omega
  have hp := strchrDash_eq (hbefore.append (hbody.append hz)) hbody0 hend
  rw [idxOf_dash hheld' hdash'] at hp
  have hp' : strchrDash (bytesOf (before ++ (held ++ [lo.char] ++ 0x2d :: (hi.char ::
      (rest ++ z))))) before.length = .ok (some (before.length + (held ++ [lo.char]).length)) := by
    simpa using hp
  have hread : readByte (bytesOf (before ++ (held ++ [lo.char] ++ 0x2d :: (hi.char ::
      (rest ++ z))))) (before.length + (held ++ [lo.char]).length + 1) =
      .ok hi.char.toUInt8 := by
    have hsplit : before ++ (held ++ [lo.char] ++ 0x2d :: (hi.char :: (rest ++ z))) =
        (before ++ (held ++ [lo.char] ++ [0x2d])) ++ hi.char :: (rest ++ z) := by simp
    refine readByte_bytesOf ?_
    rw [hsplit, List.getElem?_append_right (by simp; omega)]
    simp [Nat.add_assoc]
  have hhi' : hi.char.toUInt8 ≠ 0 := mt (toUInt8_eq_zero hi.ascii).mp hhi
  rw [hmem, hmem', hplace, parseRest, parseRest, hp', Result.ok_bind,
    charsetDashes_step fuel subset hheld' hread]
  simp only [hhi', ne_eq, not_false_eq_true, and_true, toInt_toUInt8 hi.ascii, bind_assoc]

/-- What a range adds to a set. -/
theorem addRange_eq (subset : CharSet) {lo hi : SpecChar} (hle : lo.char ≤ hi.char) (c : UniChar) :
    addString (if lo.char ≠ 0x5c then
        addRange subset ⟨lo.char.toNat, (hi.char.toNat - lo.char.toNat + 1 : ℤ)⟩ else subset)
      (held ++ [lo.char]) c =
      (subset c || decide (c ∈ held) || (SpecItem.range lo hi hle).readAs c) := by
  have hbounds : (lo.char ≤ c ∧ c ≤ hi.char) ↔ ((lo.char.toNat : ℤ) ≤ c.toNat ∧
      (c.toNat : ℤ) < lo.char.toNat + (hi.char.toNat - lo.char.toNat + 1)) := by
    rw [UInt16.le_iff_toNat_le, UInt16.le_iff_toNat_le]
    omega
  rw [SpecItem.readAs, addString]
  by_cases hback : lo.char = 0x5c
  · simp only [hback, ne_eq, not_true_eq_false, if_false, if_true]
    simp [Bool.or_assoc, beq_eq_decide]
  · simp only [ne_eq, hback, not_false_eq_true, if_true, if_false, addRange, ← hbounds]
    by_cases hc : c = lo.char
    · simp [hc, hle]
    · simp [hc, Bool.or_assoc, Bool.or_comm, Bool.or_left_comm]

theorem endsSingle_cons (held : List UniChar) (item : SpecItem) (items : List SpecItem) :
    endsSingle held (item :: items) = endsSingle (if item.isSingle then [0] else []) items := by
  cases hlast : items.getLast? with
  | none =>
      rw [List.getLast?_eq_none_iff] at hlast
      cases item <;> simp [endsSingle, hlast, SpecItem.isSingle]
  | some last => simp [endsSingle, List.getLast?_cons, hlast]

/-- **What is read of the items of a specification.** -/
theorem parseRest_items (fuel : ℕ) (subset : CharSet) (hbefore : Ascii before)
    (hheld : Ascii held) (hz : Ascii z) (hbefore0 : 0 ∉ before) (hheld0 : 0 ∉ held)
    (hdash : 0x2d ∉ held) (hitems : ∀ item ∈ items, item.first ≠ 0) (hend : EndsC z)
    (htrail : trailing = true → z = []) (hfuel : items.length < fuel) :
    parseRest enc (bytesOf (before ++ (held ++ (itemsText items ++ (dashIf trailing ++ z))))) fuel
        before.length subset =
      if trailing = true ∧ endsSingle held items = true then .error .undefined
      else .ok fun c => subset c || decide (c ∈ held) ||
        (items.any (fun item => item.readAs c) || (trailing && c == 0x2d)) := by
  induction items generalizing before held subset fuel with
  | nil =>
      obtain ⟨fuel, rfl⟩ := Nat.exists_eq_add_one_of_ne_zero (show fuel ≠ 0 by omega)
      cases trailing with
      | false =>
          refine (parseRest_end fuel subset hbefore hheld hz hbefore0 hheld0 hdash hend).trans ?_
          rw [if_neg (by simp)]
          refine congrArg Except.ok (funext fun c => ?_)
          simp [addString]
      | true =>
          rw [htrail rfl]
          obtain rfl | ⟨front, lo, rfl⟩ := List.eq_nil_or_concat' held
          · have hnil : Ascii ([] : List UniChar) := by simp [Ascii]
            refine (parseRest_dash fuel subset hbefore hnil hnil hbefore0 (by simp)
              (.inl rfl)).trans ?_
            rw [if_neg (by simp [endsSingle])]
            refine congrArg Except.ok (funext fun c => ?_)
            simp [addString, beq_eq_decide]
          · refine (parseRest_overreads fuel subset hbefore hheld hheld0 hdash).trans ?_
            rw [if_pos (by simp [endsSingle])]
  | cons item items ih =>
      have hrest : ∀ item ∈ items, item.first ≠ 0 := fun i hi =>
        hitems i (List.mem_cons_of_mem _ hi)
      rw [endsSingle_cons]
      cases item with
      | single c =>
          have hfirst : c.char ≠ 0 := hitems _ List.mem_cons_self
          have hheld' : Ascii (held ++ [c.char]) := hheld.append (by simpa [Ascii] using c.ascii)
          have hfuel' : items.length < fuel := by
            rw [List.length_cons] at hfuel
            omega
          have ih' := ih fuel subset hbefore hheld' hbefore0 (by simp [hheld0, hfirst.symm])
            (by simpa [hdash] using c.ne_dash.symm) hrest hfuel'
          have hmem : held ++ (itemsText (.single c :: items) ++ (dashIf trailing ++ z)) =
              held ++ [c.char] ++ (itemsText items ++ (dashIf trailing ++ z)) := by
            simp [itemsText, SpecItem.text]
          have hends : endsSingle (held ++ [c.char]) items = endsSingle [0] items := by
            cases hlast : items.getLast? <;> simp [endsSingle, hlast]
          rw [hmem, ih', hends]
          refine if_congr Iff.rfl rfl (congrArg Except.ok (funext fun d => ?_))
          simp [SpecItem.readAs, Bool.or_assoc, beq_eq_decide]
      | range lo hi hle =>
          obtain ⟨fuel, rfl⟩ := Nat.exists_eq_add_one_of_ne_zero (show fuel ≠ 0 by omega)
          have hfuel' : items.length < fuel := by
            rw [List.length_cons] at hfuel
            omega
          have hlo : lo.char ≠ 0 := hitems _ List.mem_cons_self
          have hbody : Ascii (itemsText items ++ dashIf trailing) :=
            (ascii_itemsText items).append (ascii_dashIf trailing)
          have hbody0 : 0 ∉ itemsText items ++ dashIf trailing := by
            simp [zero_not_mem_itemsText hrest, zero_not_mem_dashIf]
          have hrange : Ascii [lo.char, 0x2d, hi.char] := SpecItem.ascii_text (.range lo hi hle)
          have hrange0 : 0 ∉ [lo.char, 0x2d, hi.char] :=
            SpecItem.zero_not_mem_text (hitems (.range lo hi hle) List.mem_cons_self)
          have hstep := parseRest_range enc fuel subset hle hbefore hheld hbody hz hheld0
            hdash hlo hbody0 hend
          have hnil : Ascii ([] : List UniChar) := by simp [Ascii]
          have ih' := ih fuel (addString (if lo.char ≠ 0x5c then
              addRange subset ⟨lo.char.toNat, (hi.char.toNat - lo.char.toNat + 1 : ℤ)⟩ else subset)
            (held ++ [lo.char])) (hbefore.append (hheld.append hrange)) hnil
            (by simpa [hbefore0, hheld0] using hrange0) (by simp) (by simp) hrest hfuel'
          have hmem : held ++ (itemsText (.range lo hi hle :: items) ++ (dashIf trailing ++ z)) =
              held ++ lo.char :: 0x2d :: hi.char :: (itemsText items ++ dashIf trailing ++ z) := by
            simp [itemsText, SpecItem.text]
          rw [hmem, hstep, List.append_assoc (itemsText items)]
          refine ih'.trans (if_congr Iff.rfl rfl (congrArg Except.ok (funext fun d => ?_)))
          rw [addRange_eq subset hle]
          simp [Bool.or_assoc]

end Parse

/-! ## Specifications as they are read -/

section Read

namespace CharSpec

variable (spec : CharSpec)

/-- The caret, if there is one. -/
def caret : List UniChar := if spec.exclude then [0x5e] else []

/-- What is behind the C string of a specification. -/
def behind : List UniChar :=
  if spec.hasNul then
    itemsText (spec.items.dropWhile fun item => item.first != 0) ++ dashIf spec.trailing
  else []

theorem front_of_not_hasNul (h : spec.hasNul = false) : spec.front = spec.items := by
  refine List.takeWhile_eq_self_iff.mpr fun item hitem => ?_
  have hall : ∀ item ∈ spec.items, item.first ≠ 0 := by simpa [hasNul] using h
  simpa using hall item hitem

/-- The parts of a specification. -/
theorem text_eq : spec.text = spec.caret ++ (spec.cBody ++ spec.behind) := by
  rw [text, cBody, behind, readsTrailing, caret]
  cases h : spec.hasNul with
  | false => simp [spec.front_of_not_hasNul h]
  | true =>
      have hsplit : itemsText spec.items = itemsText spec.front ++
          itemsText (spec.items.dropWhile fun item => item.first != 0) := by
        rw [itemsText, itemsText, itemsText, front, ← List.flatMap_append,
          List.takeWhile_append_dropWhile]
      rw [hsplit]
      simp [dashIf]

theorem endsC_behind : EndsC spec.behind := by
  unfold behind
  cases h : spec.hasNul with
  | false => exact .inl rfl
  | true =>
      obtain ⟨item, hitem, hzero⟩ := List.any_eq_true.mp h
      cases hrest : spec.items.dropWhile fun item => item.first != 0 with
      | nil =>
          have hall := List.dropWhile_eq_nil_iff.mp hrest item hitem
          simp at hzero hall
          exact absurd hzero hall
      | cons next rest =>
          have hne := List.head_dropWhile_not (fun item : SpecItem => item.first != 0)
            (l := spec.items) (by simp [hrest])
          have hnext : next.first = 0 := by simpa [hrest] using hne
          refine .inr ?_
          cases next with
          | single c =>
              have hc : c.char = 0 := hnext
              simp [itemsText, SpecItem.text, hc]
          | range lo hi hle =>
              have hlo : lo.char = 0 := hnext
              simp [itemsText, SpecItem.text, hlo]

theorem front_first : ∀ item ∈ spec.front, item.first ≠ 0 := by
  intro item hitem
  simpa using List.mem_takeWhile_imp hitem

theorem zero_not_mem_cBody : 0 ∉ spec.cBody := by
  simp [cBody, zero_not_mem_dashIf, zero_not_mem_itemsText spec.front_first]

theorem ascii_text : Ascii spec.text := by
  have hcaret : Ascii (if spec.exclude then [0x5e] else []) := by
    cases spec.exclude <;> simp [Ascii]
  exact hcaret.append ((ascii_dashIf _).append ((ascii_itemsText _).append (ascii_dashIf _)))

theorem ascii_cBody : Ascii spec.cBody :=
  (ascii_dashIf _).append ((ascii_itemsText _).append (ascii_dashIf _))

theorem ascii_behind : Ascii spec.behind := fun c hc =>
  spec.ascii_text c (by rw [text_eq]; simp [hc])

theorem ascii_caret : Ascii spec.caret := fun c hc =>
  spec.ascii_text c (by rw [text_eq]; simp [hc])

theorem zero_not_mem_caret : 0 ∉ spec.caret := by
  unfold caret
  cases spec.exclude <;> decide

/-- The first character says whether the set is complemented. -/
theorem head_text : ∃ c, spec.text[0]? = some c ∧ (c.toUInt8 == 0x5e) = spec.exclude := by
  have hdash : ((0x2d : UniChar).toUInt8 == 0x5e) = false := by decide
  cases hexclude : spec.exclude with
  | true => exact ⟨0x5e, by simp [text, hexclude], by decide⟩
  | false =>
      cases hleading : spec.leading with
      | true => exact ⟨0x2d, by simp [text, dashIf, hexclude, hleading], hdash⟩
      | false =>
          cases hitems : spec.items with
          | nil =>
              have htrailing : spec.trailing = true := by
                simpa [hleading, hitems] using spec.body_ne_nil
              exact ⟨0x2d, by simp [text, dashIf, itemsText, *], hdash⟩
          | cons item items =>
              have hne := spec.first_ne_caret hexclude hleading item (by simp [hitems])
              refine ⟨item.first, ?_, ?_⟩
              · cases item <;> simp [text, dashIf, itemsText, SpecItem.text, SpecItem.first, *]
              · have hascii : item.first < 0x80 := by
                  cases item with
                  | single c => exact c.ascii
                  | range lo hi h => exact lo.ascii
                exact beq_eq_false_iff_ne.mpr
                  (mt (toUInt8_inj (d := 0x5e) hascii (by decide)).mp hne)

theorem endsSingle_items (hleading : spec.leading = false) :
    (spec.readsTrailing = true ∧ endsSingle [] spec.front = true) ↔ spec.Overreads := by
  rw [Overreads]
  simp only [hleading, true_and]
  refine and_congr_right fun htrailing => ?_
  have hnul : spec.hasNul = false := by
    simpa using (Bool.and_eq_true_iff.mp htrailing).2
  rw [spec.front_of_not_hasNul hnul, endsSingle]
  cases spec.items.getLast? <;> simp

/-- **The parse of what is behind the caret.** -/
theorem parseRest_spec (enc : CFEncoding) (h : ¬ (spec.exclude = false ∧ 0x2d ∉ spec.cBody))
    (fuel : ℕ) (hfuel : spec.items.length < fuel) :
    (spec.Overreads → parseRest enc (bytesOf spec.text) fuel spec.caret.length (fun _ => false) =
      .error .undefined) ∧
    (¬ spec.Overreads → parseRest enc (bytesOf spec.text) fuel spec.caret.length (fun _ => false) =
      .ok spec.readIn) := by
  have htext := spec.text_eq
  cases hleading : spec.leading with
  | true =>
      obtain ⟨fuel, rfl⟩ := Nat.exists_eq_add_one_of_ne_zero (show fuel ≠ 0 by omega)
      have hbody : spec.cBody = 0x2d :: (itemsText spec.front ++ dashIf spec.readsTrailing) := by
        simp [cBody, dashIf, hleading]
      have hrest : Ascii (itemsText spec.front ++ dashIf spec.readsTrailing) :=
        (ascii_itemsText _).append (ascii_dashIf _)
      have hrest0 : 0 ∉ itemsText spec.front ++ dashIf spec.readsTrailing := by
        simp [zero_not_mem_itemsText spec.front_first, zero_not_mem_dashIf]
      have hparse : parseRest enc (bytesOf (spec.caret ++ ((0x2d :: (itemsText spec.front ++
          dashIf spec.readsTrailing)) ++ spec.behind))) (fuel + 1) spec.caret.length
          (fun _ => false) = _ :=
        parseRest_dash fuel _ spec.ascii_caret hrest spec.ascii_behind spec.zero_not_mem_caret
          hrest0 spec.endsC_behind
      rw [← hbody, ← htext] at hparse
      refine ⟨fun hover => absurd hover.2.1 (by simp [hleading]), fun _ => hparse.trans ?_⟩
      refine congrArg Except.ok (funext fun c => ?_)
      rw [readIn, if_neg h, if_pos hleading]
      simp [addString]
  | false =>
      have hbody : spec.cBody = itemsText spec.front ++ dashIf spec.readsTrailing := by
        simp [cBody, dashIf, hleading]
      have hfront : spec.front.length < fuel :=
        (List.takeWhile_sublist _).length_le.trans_lt hfuel
      have hbehind : spec.readsTrailing = true → spec.behind = [] := by
        intro htrailing
        have hnul : spec.hasNul = false := by
          simpa using (Bool.and_eq_true_iff.mp htrailing).2
        simp [behind, hnul]
      have hnil : Ascii ([] : List UniChar) := by simp [Ascii]
      have hparse : parseRest enc (bytesOf (spec.caret ++ ([] ++ (itemsText spec.front ++
          (dashIf spec.readsTrailing ++ spec.behind))))) fuel spec.caret.length
          (fun _ => false) = _ :=
        parseRest_items fuel _ spec.ascii_caret hnil spec.ascii_behind spec.zero_not_mem_caret
          (by simp) (by simp) spec.front_first spec.endsC_behind hbehind hfront
      rw [List.nil_append, ← List.append_assoc (itemsText spec.front), ← hbody, ← htext] at hparse
      have hends := spec.endsSingle_items hleading
      refine ⟨fun hover => hparse.trans (if_pos (hends.mpr hover)),
        fun hover => hparse.trans ((if_neg (mt hends.mp hover)).trans ?_)⟩
      refine congrArg Except.ok (funext fun c => ?_)
      rw [readIn, if_neg h, if_neg (by simp [hleading])]
      simp

theorem length_items_le : spec.items.length ≤ spec.text.length := by
  have hitems : ∀ items : List SpecItem, items.length ≤ (itemsText items).length := by
    intro items
    induction items with
    | nil => exact le_rfl
    | cons item items ih =>
        have hpos : 0 < item.text.length := by cases item <;> simp [SpecItem.text]
        rw [itemsText, List.flatMap_cons, List.length_append, List.length_cons]
        rw [itemsText] at ih
        omega
  have h := hitems spec.items
  rw [text]
  simp only [List.length_append]
  omega

variable {spec} {s : StringObject}

theorem Spelt.cstr_eq (enc : CFEncoding) (hs : spec.Spelt s) : s.cstr enc = bytesOf spec.text := by
  rw [hs.1.cstr_eq enc (hs.2 ▸ spec.ascii_text), hs.2]
  rfl

variable (spec)

/-- There is a dash in the C string if and only if `strchr` finds one. -/
theorem strchrDash_text (hexclude : spec.exclude = false) :
    ∃ p, strchrDash (bytesOf spec.text) 0 = .ok p ∧ (p.isSome = true ↔ 0x2d ∈ spec.cBody) := by
  have htext : spec.text = [] ++ (spec.cBody ++ spec.behind) := by
    have h := spec.text_eq
    rwa [caret, if_neg (by simp [hexclude])] at h
  have hascii : Ascii ([] ++ (spec.cBody ++ spec.behind)) := htext ▸ spec.ascii_text
  have hp := strchrDash_eq hascii spec.zero_not_mem_cBody spec.endsC_behind
  rw [← htext] at hp
  refine ⟨_, hp, ?_⟩
  rw [Option.isSome_map, List.isSome_idxOf?, bytesOf, List.mem_map]
  refine ⟨?_, fun h => ⟨0x2d, h, rfl⟩⟩
  rintro ⟨c, hc, heq⟩
  exact (toUInt8_eq_dash (spec.ascii_cBody c hc)).mp heq ▸ hc

/-- A specification with a caret or a dash is parsed. -/
theorem charsetSubset_parse (enc : CFEncoding) (hs : spec.Spelt s)
    (h : ¬ (spec.exclude = false ∧ 0x2d ∉ spec.cBody)) :
    charsetSubset enc s =
      (parseRest enc (bytesOf spec.text) ((bytesOf spec.text).length + 1) spec.caret.length
        fun _ => false) >>= fun subset =>
          .ok (if spec.exclude then fun c => !subset c else subset) := by
  obtain ⟨first, hfirst, hcaret⟩ := spec.head_text
  rw [charsetSubset, hs.cstr_eq, readByte_bytesOf hfirst, Result.ok_bind]
  simp only [hcaret, parseRest, bind_assoc]
  cases hexclude : spec.exclude with
  | true =>
      have hcaret1 : spec.caret.length = 1 := by simp [caret, hexclude]
      simp only [hcaret1, if_true, Result.ok_bind, true_or, Option.isNone_none]
      rfl
  | false =>
      obtain ⟨p, hp, hsome⟩ := spec.strchrDash_text hexclude
      have hcaret0 : spec.caret.length = 0 := by simp [caret, hexclude]
      have hdash : 0x2d ∈ spec.cBody := by
        by_contra hdash
        exact h ⟨hexclude, hdash⟩
      have hisSome := hsome.mpr hdash
      have hnone : p.isNone = false := by simpa [← Option.not_isSome] using hisSome
      simp only [hcaret0, hp, Result.ok_bind, hisSome, hnone, or_true, if_true,
        Bool.false_eq_true, if_false]
      rfl

/-- **What is read of a specification.** -/
theorem charsetSubset_eq (enc : CFEncoding) (hs : spec.Spelt s) :
    (spec.Overreads → charsetSubset enc s = .error .undefined) ∧
    (¬ spec.Overreads → charsetSubset enc s = .ok spec.takes) := by
  by_cases h : spec.exclude = false ∧ 0x2d ∉ spec.cBody
  · obtain ⟨hexclude, hdash⟩ := h
    have hover : ¬ spec.Overreads := fun hover => hdash (by simp [cBody, dashIf, hover.1])
    obtain ⟨p, hp, hsome⟩ := spec.strchrDash_text hexclude
    obtain ⟨first, hfirst, hcaret⟩ := spec.head_text
    refine ⟨fun h => absurd h hover, fun _ => ?_⟩
    have hnone : p.isSome = false := by simpa using mt hsome.mp hdash
    have htakes : spec.takes = addString (fun _ => false) spec.text := by
      funext c
      simp [takes, readIn, addString, hexclude, hdash]
    rw [charsetSubset, hs.cstr_eq, readByte_bytesOf hfirst, Result.ok_bind, htakes, hs.2]
    simp only [hcaret, hexclude, Bool.false_eq_true, if_false, hp, Result.ok_bind, hnone,
      or_self]
    rfl
  · have hfuel : spec.items.length < (bytesOf spec.text).length + 1 := by
      have hle := spec.length_items_le
      rw [bytesOf, List.length_map]
      omega
    obtain ⟨hbad, hgood⟩ := spec.parseRest_spec enc h _ hfuel
    have hparse := spec.charsetSubset_parse enc hs h
    refine ⟨fun hover => ?_, fun hover => ?_⟩
    · rw [hparse, hbad hover]
      rfl
    · rw [hparse, hgood hover, Result.ok_bind]
      refine congrArg Except.ok (funext fun c => ?_)
      rw [takes]
      cases spec.exclude <;> rfl

end CharSpec

/-- The set that is read of the specifications. -/
def takenBy (specs : List CharSpec) : CharSet := fun c => specs.all fun spec => spec.takes c

section Specs

variable (enc : CFEncoding) {specs : List CharSpec} {argv : List StringObject}

theorem charsetOf_some (hargv : List.Forall₂ CharSpec.Spelt specs argv)
    (hinside : ∀ spec ∈ specs, ¬ spec.Overreads) (charset : CharSet) :
    charsetOf enc argv (some charset) = .ok (some fun c => charset c && takenBy specs c) := by
  induction hargv generalizing charset with
  | nil => simp [charsetOf, takenBy]
  | @cons spec s specs argv hs _ ih =>
      have hspec := (spec.charsetSubset_eq enc hs).2 (hinside spec List.mem_cons_self)
      rw [charsetOf, hspec, Result.ok_bind,
        ih (fun s hs => hinside s (List.mem_cons_of_mem _ hs))]
      refine congrArg (fun set => Except.ok (some set)) (funext fun c => ?_)
      simp [takenBy, Bool.and_assoc]

/-- The set of the specifications that are read. -/
theorem charsetOf_eq (hne : specs ≠ []) (hargv : List.Forall₂ CharSpec.Spelt specs argv)
    (hinside : ∀ spec ∈ specs, ¬ spec.Overreads) :
    charsetOf enc argv none = .ok (some (takenBy specs)) := by
  cases hargv with
  | nil => exact absurd rfl hne
  | @cons spec s specs argv hs hrest =>
      have hspec := (spec.charsetSubset_eq enc hs).2 (hinside spec List.mem_cons_self)
      rw [charsetOf, hspec, Result.ok_bind,
        charsetOf_some enc hrest (fun s hs => hinside s (List.mem_cons_of_mem _ hs))]
      refine congrArg (fun set => Except.ok (some set)) (funext fun c => ?_)
      simp [takenBy]

/-- No set is built when there is a specification that is read beyond its end. -/
theorem charsetOf_overreads (hargv : List.Forall₂ CharSpec.Spelt specs argv)
    (hover : ∃ spec ∈ specs, spec.Overreads) (charset : Option CharSet) :
    charsetOf enc argv charset = .error .undefined := by
  induction hargv generalizing charset with
  | nil => simp at hover
  | @cons spec s specs argv hs _ ih =>
      rw [charsetOf]
      by_cases hspec : spec.Overreads
      · rw [(spec.charsetSubset_eq enc hs).1 hspec]
        rfl
      · have hrest : ∃ spec ∈ specs, spec.Overreads := by simpa [hspec] using hover
        rw [(spec.charsetSubset_eq enc hs).2 hspec, Result.ok_bind, ih hrest]

end Specs

theorem takes_eq_denotes_iff (spec : CharSpec) (c : UniChar) :
    spec.takes c = spec.denotes c ↔ spec.readIn c = spec.covers c := by
  rw [CharSpec.takes, CharSpec.denotes]
  cases spec.exclude <;> simp

/-- The set that is read is the denoted one if and only if every character that is misread is kept
out both ways. -/
theorem takenBy_eq_iff (specs : List CharSpec) :
    takenBy specs = denotedBy specs ↔
      ∀ c, (∃ spec ∈ specs, spec.readIn c ≠ spec.covers c) →
        (∃ spec ∈ specs, spec.denotes c = false) ∧ ∃ spec ∈ specs, spec.takes c = false := by
  have hout : ∀ (q : CharSpec → Bool), specs.all q = false ↔ ∃ spec ∈ specs, q spec = false := by
    intro q
    simp
  rw [funext_iff]
  refine forall_congr' fun c => ⟨?_, fun h => ?_⟩
  · rintro heq ⟨spec, hspec, hne⟩
    have hne' := mt (takes_eq_denotes_iff spec c).mp hne
    rw [← hout, ← hout]
    have heq' : (specs.all fun spec => spec.takes c) = specs.all fun spec => spec.denotes c := heq
    cases hall : specs.all fun spec => spec.denotes c with
    | false => exact ⟨rfl, heq'.trans hall⟩
    | true =>
        have htakes := List.all_eq_true.mp (heq'.trans hall) spec hspec
        exact absurd (htakes.trans (List.all_eq_true.mp hall spec hspec).symm) hne'
  · by_cases hmis : ∃ spec ∈ specs, spec.readIn c ≠ spec.covers c
    · obtain ⟨hdenotes, htakes⟩ := h hmis
      exact ((hout _).mpr htakes).trans ((hout _).mpr hdenotes).symm
    · push Not at hmis
      rw [takenBy, denotedBy, Bool.eq_iff_iff, List.all_eq_true, List.all_eq_true]
      refine forall₂_congr fun spec hspec => ?_
      rw [(takes_eq_denotes_iff spec c).mpr (hmis spec hspec)]

end Read

/-! ## The methods -/

section Methods

variable {set : CharSet} {squeezeMode : Bool}

/-- `CFStringDelete` of the first characters of a part of a string. -/
theorem cfStringDelete_eq (front run back : List UniChar) {k : ℕ} (hk : k ≤ run.length) :
    cfStringDelete (front ++ run ++ back) ⟨front.length, k⟩ =
      .ok (front ++ run.drop k ++ back) := by
  have hlen : ((front.length : ℤ) + k).toNat = front.length + k := by omega
  rw [cfStringDelete, if_pos (by simp only [List.length_append]; omega)]
  simp only [hlen, Int.toNat_natCast]
  rw [List.append_assoc, List.take_left, List.drop_length_add_append,
    List.drop_append_of_le_length hk, List.append_assoc]

theorem countCb_replacesRuns (set : CharSet) (squeezeMode : Bool) :
    ReplacesRuns set squeezeMode rbStrCountCb id fun run k => toCInt (k + run.length) where
  length_le _ _ := le_rfl
  call front run back start c ctx _ _ hstart := by
    refine ⟨start, rfl, ?_, ?_⟩
    · rw [List.length_append]
      exact Nat.le_add_right_of_le hstart
    · exact fun h => absurd h (lt_irrefl _)

theorem deleteCb_replacesRuns (set : CharSet) (squeezeMode : Bool) :
    ReplacesRuns set squeezeMode rbStrDeleteBangCb (fun _ => []) fun _ _ => true where
  length_le _ _ := Nat.zero_le _
  call front run back start c ctx _ _ hstart := by
    refine ⟨front.length, ?_, by simp, fun _ => by simp⟩
    rw [rbStrDeleteBangCb, cfStringDelete_eq front run back le_rfl, Result.ok_bind,
      List.drop_length]
    simp only [List.length_append, List.append_nil]
    refine congrArg Except.ok (Prod.ext (CFRange.mk.injEq _ _ _ _ |>.mpr ⟨rfl, ?_⟩) rfl)
    push_cast
    ring

/-- The callback of `squeeze` leaves the last character of a run. -/
theorem squeezeCb_replacesRuns (set : CharSet) (squeezeMode : Bool) :
    ReplacesRuns set squeezeMode rbStrSqueezeBangCb (fun run => run.drop (run.length - 1))
      fun run changed => if run.length > 1 then true else changed where
  length_le run _ := (List.drop_sublist _ _).length_le
  call front run back start c ctx hrun _ hstart := by
    have hpos := List.length_pos_of_ne_nil hrun.ne_nil
    by_cases hlong : run.length > 1
    · refine ⟨front.length + 1, ?_, by simp; omega, fun _ => by simp; omega⟩
      have hlast : ((run.length : ℤ) - 1) = (run.length - 1 : ℕ) := by omega
      rw [rbStrSqueezeBangCb, if_pos (by simpa using hlong), if_pos hlong]
      simp only [hlast]
      rw [cfStringDelete_eq front run back (Nat.sub_le _ _), Result.ok_bind]
      refine congrArg Except.ok (Prod.ext (CFRange.mk.injEq _ _ _ _ |>.mpr ⟨by simp, ?_⟩) rfl)
      simp only [List.length_append, List.length_drop]
      omega
    · have hone : run.length - 1 = 0 := by omega
      refine ⟨start, ?_, by simp; omega, fun h => ?_⟩
      · rw [rbStrSqueezeBangCb, if_neg (by simpa using hlong), if_neg hlong, hone, List.drop_zero]
      · rw [hone, List.drop_zero] at h
        exact absurd h (lt_irrefl _)

theorem toCInt_toCInt_add (a b : ℤ) : toCInt (toCInt a + b) = toCInt (a + b) :=
  Int.bmod_add_bmod

/-- A number that is not negative is an `int` if and only if it is small. -/
theorem toCInt_natCast_iff (n : ℕ) : toCInt n = n ↔ n < 2 ^ 31 := by
  refine ⟨fun h => ?_, fun h => ?_⟩
  · have hlt := Int.bmod_lt (x := n) (m := 2 ^ 32) (by norm_num)
    rw [← toCInt, h] at hlt
    omega
  · rw [toCInt, Int.bmod_eq_of_le] <;> omega

/-- Multiples of 2³² are counted as none. -/
theorem toCInt_eq_zero_iff (n : ℕ) : toCInt n = 0 ↔ 2 ^ 32 ∣ n := by
  unfold toCInt
  rw [Int.bmod_def]
  split <;> omega

/-- What is counted run by run. -/
theorem foldRuns_count (set : CharSet) (squeezeMode : Bool) (s : List UniChar) (k : ℤ) :
    foldRuns set squeezeMode (fun run k => toCInt (k + run.length)) s (toCInt k) =
      toCInt (k + s.countP set) := by
  induction s using run_induction set squeezeMode generalizing k with
  | nil => simp
  | other a rest ha ih => rw [foldRuns_other ha, ih, List.countP_cons_of_neg (by simp [ha])]
  | run run rest hrun hapart ih =>
      rw [foldRuns_run hrun hapart, toCInt_toCInt_add, ih, List.countP_append,
        List.countP_eq_length.mpr hrun.all]
      push_cast
      rw [Int.add_assoc]

/-- One character of each run is left. -/
theorem replaceRuns_squeeze (s : List UniChar) :
    replaceRuns set true (fun run => run.drop (run.length - 1)) s =
      collapse (fun c d => set c && c == d) s := by
  have hjoins : joins set true = fun c d => set c && c == d := by
    funext c d
    by_cases h : c = d
    · simp [joins, h]
    · simp [joins, beq_eq_false_iff_ne.mpr h]
  rw [replaceRuns_eq_collapse id (fun run a _ => by simp) s, hjoins]
  simp

variable (enc : CFEncoding) {specs : List CharSpec} {argv : List StringObject} (hne : specs ≠ [])
  (hargv : List.Forall₂ CharSpec.Spelt specs argv) (hinside : ∀ spec ∈ specs, ¬ spec.Overreads)

include hne hargv

theorem argv_length_ne : argv.length ≠ 0 := by
  rw [← hargv.length_eq]
  exact mt List.eq_nil_of_length_eq_zero hne

include hinside

/-- The runs of the set that is read are dealt with. -/
theorem strCharsetFind_settles {κ : Type} {cb : CharsetCb κ} {f : List UniChar → List UniChar}
    {g : List UniChar → κ → κ} (hcb : ReplacesRuns (takenBy specs) squeezeMode cb f g)
    (str : List UniChar) (ctx : κ) :
    Fuel.Settles (strCharsetFind enc str argv squeezeMode cb ctx)
      (.ok (replaceRuns (takenBy specs) squeezeMode f str,
        foldRuns (takenBy specs) squeezeMode g str ctx)) := by
  have hlen := argv_length_ne hne hargv
  by_cases hstr : str = []
  · subst hstr
    refine (Fuel.Settles.const _).congr fun fuel => ?_
    rw [strCharsetFind, if_neg hlen, if_pos List.length_nil]
    rfl
  · refine (charsetSearch_settles hcb str ctx).congr fun fuel => ?_
    rw [strCharsetFind, if_neg hlen, if_neg (by simpa using hstr),
      charsetOf_eq enc hne hargv hinside]
    rfl

/-- The methods return what is made of the string and of the context. -/
theorem strCharsetFind_map {κ β : Type} {cb : CharsetCb κ} {f : List UniChar → List UniChar}
    {g : List UniChar → κ → κ} (hcb : ReplacesRuns (takenBy specs) squeezeMode cb f g)
    (str : List UniChar) (ctx : κ) (of : List UniChar × κ → β) :
    Fuel.Settles (fun fuel => of <$> strCharsetFind enc str argv squeezeMode cb ctx fuel)
      (.ok (of (replaceRuns (takenBy specs) squeezeMode f str,
        foldRuns (takenBy specs) squeezeMode g str ctx))) :=
  (strCharsetFind_settles enc hne hargv hinside hcb str ctx).map fun r => of <$> r

theorem rbStrCount_settles (str : StringObject) :
    Fuel.Settles (rbStrCount enc str argv) (.ok (toCInt (str.chars.countP (takenBy specs)))) := by
  have hcount : foldRuns (takenBy specs) false (fun run k => toCInt (k + run.length)) str.chars 0 =
      toCInt (str.chars.countP (takenBy specs)) := by
    have h := foldRuns_count (takenBy specs) false str.chars 0
    rwa [zero_add] at h
  have hlen := argv_length_ne hne hargv
  have hrun := strCharsetFind_map enc hne hargv hinside
    (countCb_replacesRuns (takenBy specs) false) str.chars 0 Prod.snd
  rw [hcount] at hrun
  dsimp only at hrun
  refine hrun.congr fun fuel => ?_
  rw [rbStrCount, if_neg (by omega)]

/-- A string without byte data spells what is left of its characters. -/
theorem rbStrDelete_settles (str : StringObject) :
    Fuel.Settles (fun fuel => StringObject.text <$> rbStrDelete enc str argv fuel)
      (.ok (if str.data = none then str.chars.filter fun c => !takenBy specs c
        else str.text)) := by
  have hlen := argv_length_ne hne hargv
  have hrun := strCharsetFind_map enc hne hargv hinside
    (deleteCb_replacesRuns (takenBy specs) false) str.chars false fun r =>
      StringObject.text ⟨r.1, str.data⟩
  rw [replaceRuns_eq_filter] at hrun
  dsimp only at hrun
  rw [str.text_changed] at hrun
  refine hrun.congr fun fuel => ?_
  rw [rbStrDelete, if_neg (by omega), Functor.map_map]

theorem rbStrSqueeze_settles (str : StringObject) :
    Fuel.Settles (fun fuel => StringObject.text <$> rbStrSqueeze enc str argv fuel)
      (.ok (if str.data = none then collapse (fun c d => takenBy specs c && c == d) str.chars
        else str.text)) := by
  have hlen := argv_length_ne hne hargv
  have hrun := strCharsetFind_map enc hne hargv hinside
    (squeezeCb_replacesRuns (takenBy specs) true) str.chars false fun r =>
      StringObject.text ⟨r.1, str.data⟩
  rw [replaceRuns_squeeze] at hrun
  dsimp only at hrun
  rw [str.text_changed] at hrun
  refine hrun.congr fun fuel => ?_
  rw [rbStrSqueeze, if_neg hlen, Functor.map_map]

omit hinside

end Methods

section Examples

/-- `"a-c"`. -/
def specAToC : CharSpec where
  exclude := false
  leading := false
  items := [.range ⟨0x61, by decide, by decide⟩ ⟨0x63, by decide, by decide⟩ (by decide)]
  trailing := false
  body_ne_nil := .inr (.inl (List.cons_ne_nil _ _))
  first_ne_caret := by
    intro _ _ item hitem
    obtain rfl := Option.some.inj hitem
    decide

/-- `"^b"`. -/
def specNotB : CharSpec where
  exclude := true
  leading := false
  items := [.single ⟨0x62, by decide, by decide⟩]
  trailing := false
  body_ne_nil := .inr (.inl (List.cons_ne_nil _ _))
  first_ne_caret := by simp

/-- `"a-"`. -/
def specADash : CharSpec where
  exclude := false
  leading := false
  items := [.single ⟨0x61, by decide, by decide⟩]
  trailing := true
  body_ne_nil := .inr (.inr rfl)
  first_ne_caret := by
    intro _ _ item hitem
    obtain rfl := Option.some.inj hitem
    decide

end Examples

end MacRuby
