import Mathlib.Data.List.TakeWhile

/-!
# String objects

A Ruby string of MacRuby is a `CFMutableString`, and its characters are the units of UTF-16 that
this type counts.  Beside it there may be byte data: a string that is made of bytes that are not
ASCII has them, and so has one whose bytes were asked for.  Its bytes and its length are then those
of the data, while most of the methods go on reading the `CFString`.

## Main definitions

* `StringObject` — a string, with `clen`, `cstr` and `byteptr`, what its length and its bytes are.
* `StringObject.text`, `StringObject.InStep` — what a string spells, and that its `CFString` spells
  the same.
* `StringObject.sync` — the `CFString` is made of the byte data.
* `CFEncoding` — the conversions of the platform.
* `strNew` — a string that is made of bytes.

## Main results

* `cstr_strNew`, `byteptr_strNew` — the bytes of a new string, with the blanks that it is padded
  with.
-/

namespace MacRuby

/-- A character of a `CFString`. -/
abbrev UniChar := UInt16

/-- A string: its `CFString`, and its byte data if there is any. -/
structure StringObject where
  chars : List UniChar
  data : Option (List UInt8)
  deriving DecidableEq, Repr

/-- Conversions of strings to and from bytes, which keep ASCII: `CFStringCreateWithBytes` from
UTF-8, the bytes that `RSTRING_PTR` points to when there is no byte data, and
`CFStringCreateExternalRepresentation` in UTF-8.  What was made from UTF-8 and padded with blanks is
converted back to the same bytes. -/
structure CFEncoding where
  string : List UInt8 → Option (List UniChar)
  bytes : List UniChar → List UInt8
  utf8 : List UniChar → List UInt8
  string_ascii : ∀ b, (∀ c ∈ b, c < 0x80) → string b = some (b.map UInt8.toUInt16)
  string_length : ∀ b s, string b = some s →
    s.length ≤ b.length ∧ (s.length = b.length → ∀ c ∈ b, c < 0x80)
  bytes_ascii : ∀ s, (∀ c ∈ s, c < 0x80) → bytes s = s.map UInt16.toUInt8
  bytes_string : ∀ b s, string b = some s → ∀ n,
    bytes (s ++ List.replicate n 0x20) = b ++ List.replicate n 0x20
  utf8_string : ∀ b s, string b = some s → ∀ n,
    utf8 (s ++ List.replicate n 0x20) = b ++ List.replicate n 0x20

theorem toUInt16_toUInt8 {c : UniChar} (h : c < 0x80) : c.toUInt8.toUInt16 = c := by
  have hlt : c.toNat < 0x80 := UInt16.lt_iff_toNat_lt.mp h
  refine UInt16.toNat_inj.mp ?_
  rw [UInt8.toNat_toUInt16, UInt16.toNat_toUInt8]
  exact Nat.mod_eq_of_lt (by omega)

/-- ASCII comes back from its bytes. -/
theorem map_toUInt16_toUInt8 {s : List UniChar} (hascii : ∀ c ∈ s, c < 0x80) :
    (s.map UInt16.toUInt8).map UInt8.toUInt16 = s := by
  have hid : ∀ c ∈ s, (UInt8.toUInt16 ∘ UInt16.toUInt8) c = id c := fun c hc =>
    toUInt16_toUInt8 (hascii c hc)
  rw [List.map_map, List.map_congr_left hid, List.map_id]

namespace StringObject

variable (enc : CFEncoding) (s : StringObject)

/-- `rb_str_clen`, which is `RSTRING_LEN`. -/
def clen : ℕ :=
  match s.data with
  | none => s.chars.length
  | some data => data.length

/-- `rb_str_cstr`, which is `RSTRING_PTR`. -/
def cstr : List UInt8 := s.data.getD (enc.bytes s.chars)

/-- `rb_str_byteptr`, which is `RSTRING_BYTEPTR`. -/
def byteptr : List UInt8 := s.data.getD (enc.utf8 s.chars)

/-- **What a string spells**: the bytes of its data, or the characters of its `CFString`. -/
def text : List UniChar :=
  match s.data with
  | none => s.chars
  | some data => data.map UInt8.toUInt16

/-- `rb_str_bytesync`, which is `RSTRING_SYNC`: the `CFString` is made of the byte data, which is
dropped when it has one byte for each character. -/
def sync : StringObject :=
  match s.data with
  | none => s
  | some data =>
      match enc.string data with
      | none => s
      | some bytestr => ⟨bytestr, if bytestr.length = data.length then none else some data⟩

/-- The `CFString` spells what the string does. -/
def InStep : Prop := s.text = s.chars

instance : Decidable s.InStep := inferInstanceAs (Decidable (s.text = s.chars))

theorem length_text : s.text.length = s.clen := by
  unfold text clen
  cases s.data <;> simp

variable {s}

theorem InStep.text_eq (h : s.InStep) : s.text = s.chars := h

theorem InStep.clen_eq (h : s.InStep) : s.clen = s.chars.length := by
  rw [← length_text, h]

theorem text_of_data (h : s.data = none) : s.text = s.chars := by
  unfold text
  rw [h]

/-- A string without byte data is in step. -/
theorem InStep.of_data (h : s.data = none) : s.InStep := text_of_data h

/-- A string whose `CFString` is changed, but not its byte data. -/
theorem text_changed (s : StringObject) (chars : List UniChar) :
    StringObject.text ⟨chars, s.data⟩ = if s.data = none then chars else s.text := by
  obtain ⟨_, data⟩ := s
  cases data <;> rfl

/-- ASCII data is dropped. -/
theorem data_sync_of_ascii (hascii : ∀ c ∈ s.text, c < 0x80) : (s.sync enc).data = none := by
  unfold text at hascii
  unfold sync
  cases hdata : s.data with
  | none => exact hdata
  | some data =>
      rw [hdata] at hascii
      have hbytes : ∀ c ∈ data, c < 0x80 := fun c hc => by
        have hlt := hascii _ (List.mem_map_of_mem hc)
        rw [UInt16.lt_iff_toNat_lt, UInt8.toNat_toUInt16] at hlt
        exact UInt8.lt_iff_toNat_lt.mpr hlt
      simp [enc.string_ascii data hbytes]

theorem clen_of_data (h : s.data = none) : s.clen = s.chars.length := (InStep.of_data h).clen_eq

/-- The bytes of an ASCII string. -/
theorem cstr_of_ascii (hascii : ∀ c ∈ s.text, c < 0x80) :
    s.cstr enc = s.text.map UInt16.toUInt8 := by
  unfold text at hascii ⊢
  unfold cstr
  cases hdata : s.data with
  | none =>
      rw [hdata] at hascii
      exact enc.bytes_ascii _ hascii
  | some data => simp [Function.comp_def]

theorem InStep.cstr_eq (h : s.InStep) (hascii : ∀ c ∈ s.chars, c < 0x80) :
    s.cstr enc = s.chars.map UInt16.toUInt8 := by
  rw [cstr_of_ascii enc (by rwa [h]), h]

end StringObject

/-! ## New strings -/

section New

variable (enc : CFEncoding)

/-- `strlen(ptr)`. -/
def strlen (ptr : List UInt8) : ℕ := (ptr.takeWhile (· != 0)).length

/-- `CFStringPad(str, CFSTR(" "), len, 0)`. -/
def cfStringPad (str : List UniChar) (len : ℕ) : List UniChar :=
  str.take len ++ List.replicate (len - str.length) 0x20

/-- `str_new(klass, ptr, len)`, which is `rb_str_new`, from the memory at `ptr`.  Only a C string
that is as long as `len` is not padded. -/
def strNew (ptr : List UInt8) (len : ℕ) : StringObject :=
  let slen := strlen ptr
  let bytes := ptr.take len
  if len = 0 then ⟨[], none⟩
  else if slen = len then
    let str := (enc.string bytes).getD []
    ⟨str, if str.length ≠ len then some bytes else none⟩
  else if slen = 0 ∨ len < slen then
    match enc.string bytes with
    | some substr => ⟨cfStringPad substr len, none⟩
    | none => ⟨cfStringPad [] len, some bytes⟩
  else ⟨cfStringPad [] len, some bytes⟩

/-- `rb_str_new(NULL, len)`. -/
def strNewNull (len : ℕ) : StringObject := ⟨cfStringPad [] len, none⟩

/-- **The blanks behind a new string**: there are as many as it has bytes more than characters, when
its bytes are UTF-8 and there is a NUL in front or more of the C string behind them. -/
def padding (ptr : List UInt8) (len : ℕ) : ℕ :=
  if strlen ptr ≠ len ∧ (strlen ptr = 0 ∨ len < strlen ptr) then
    ((enc.string (ptr.take len)).map fun substr => len - substr.length).getD 0
  else 0

variable {enc} {ptr : List UInt8} {len : ℕ}

/-- A new string has its bytes as data, or a `CFString` that is made of them and padded. -/
theorem strNew_cases (enc : CFEncoding) (hlen : len ≤ ptr.length) :
    ((strNew enc ptr len).data = some (ptr.take len) ∧ padding enc ptr len = 0) ∨
      (strNew enc ptr len).data = none ∧ ∃ substr, enc.string (ptr.take len) = some substr ∧
        (strNew enc ptr len).chars = substr ++ List.replicate (padding enc ptr len) 0x20 := by
  have htake : (ptr.take len).length = len := List.length_take_of_le hlen
  by_cases hzero : len = 0
  · have hnil : enc.string [] = some [] := enc.string_ascii [] (by simp)
    subst hzero
    refine .inr ⟨rfl, [], hnil, ?_⟩
    simp [strNew, padding, hnil]
  unfold strNew
  dsimp only
  rw [if_neg hzero]
  by_cases hslen : strlen ptr = len
  · have hpad : padding enc ptr len = 0 := if_neg fun h => h.1 hslen
    rw [if_pos hslen, hpad]
    cases hstring : enc.string (ptr.take len) with
    | none => exact .inl ⟨if_pos (Ne.symm hzero), rfl⟩
    | some substr =>
        by_cases hall : substr.length = len
        · exact .inr ⟨if_neg (not_not.mpr hall), substr, rfl, (List.append_nil _).symm⟩
        · exact .inl ⟨if_pos hall, rfl⟩
  · rw [if_neg hslen]
    by_cases hcut : strlen ptr = 0 ∨ len < strlen ptr
    · rw [if_pos hcut, padding, if_pos ⟨hslen, hcut⟩]
      cases hstring : enc.string (ptr.take len) with
      | none => exact .inl ⟨rfl, rfl⟩
      | some substr =>
          have hle := (enc.string_length _ _ hstring).1
          refine .inr ⟨rfl, substr, rfl, ?_⟩
          simp only [cfStringPad, Option.map_some, Option.getD_some]
          rw [List.take_of_length_le (by omega)]
    · rw [if_neg hcut, padding, if_neg fun h => hcut h.2]
      exact .inl ⟨rfl, rfl⟩

/-- **The bytes that `RSTRING_PTR` points to** are those that the string was made of, and the blanks
that it is padded with. -/
theorem cstr_strNew (hlen : len ≤ ptr.length) :
    (strNew enc ptr len).cstr enc =
      ptr.take len ++ List.replicate (padding enc ptr len) 0x20 := by
  unfold StringObject.cstr
  obtain ⟨hdata, hpad⟩ | ⟨hdata, substr, hstring, hchars⟩ := strNew_cases enc hlen
  · rw [hdata, hpad, List.replicate_zero, List.append_nil, Option.getD_some]
  · rw [hdata, hchars, Option.getD_none, enc.bytes_string _ _ hstring]

/-- The bytes that `RSTRING_BYTEPTR` points to are the same. -/
theorem byteptr_strNew (hlen : len ≤ ptr.length) :
    (strNew enc ptr len).byteptr enc =
      ptr.take len ++ List.replicate (padding enc ptr len) 0x20 := by
  unfold StringObject.byteptr
  obtain ⟨hdata, hpad⟩ | ⟨hdata, substr, hstring, hchars⟩ := strNew_cases enc hlen
  · rw [hdata, hpad, List.replicate_zero, List.append_nil, Option.getD_some]
  · rw [hdata, hchars, Option.getD_none, enc.utf8_string _ _ hstring]

theorem strlen_eq (h : 0 ∉ ptr) : strlen ptr = ptr.length := by
  rw [strlen, List.takeWhile_eq_self_iff.mpr]
  intro c hc
  simpa using fun hzero : c = 0 => h (hzero ▸ hc)

/-- A whole C string is not padded. -/
theorem padding_strlen : padding enc ptr (strlen ptr) = 0 := if_neg fun h => h.1 rfl

/-- **A new string is padded exactly when its bytes are UTF-8 and not all ASCII**, and the C string
starts with its end or goes on behind them. -/
theorem padding_pos_iff (hlen : len ≤ ptr.length) :
    0 < padding enc ptr len ↔ strlen ptr ≠ len ∧ (strlen ptr = 0 ∨ len < strlen ptr) ∧
      (enc.string (ptr.take len)).isSome = true ∧ ∃ c ∈ ptr.take len, 0x80 ≤ c := by
  have htake : (ptr.take len).length = len := List.length_take_of_le hlen
  unfold padding
  by_cases hcut : strlen ptr ≠ len ∧ (strlen ptr = 0 ∨ len < strlen ptr)
  · rw [if_pos hcut, and_iff_right hcut.1, and_iff_right hcut.2]
    cases hstring : enc.string (ptr.take len) with
    | none => simp
    | some substr =>
        obtain ⟨hle, hascii⟩ := enc.string_length _ _ hstring
        simp only [Option.map_some, Option.getD_some, Option.isSome_some, true_and,
          Nat.sub_pos_iff_lt]
        refine ⟨fun hlt => ?_, fun ⟨c, hc, hhigh⟩ => ?_⟩
        · by_contra hall
          have hascii : ∀ c ∈ ptr.take len, c < 0x80 := by simpa using hall
          have heq := hstring.symm.trans (enc.string_ascii _ hascii)
          rw [Option.some.inj heq, List.length_map] at hlt
          omega
        · refine Nat.lt_of_le_of_ne (htake ▸ hle) fun heq => ?_
          exact UInt8.not_lt.mpr hhigh (hascii (heq.trans htake.symm) c hc)
  · rw [if_neg hcut]
    exact iff_of_false (Nat.lt_irrefl 0) fun h => hcut ⟨h.1, h.2.1⟩

end New

/-- The characters that ASCII stands for, and none for other bytes. -/
def asciiString (b : List UInt8) : Option (List UniChar) :=
  if b.all (· < 0x80) then some (b.map UInt8.toUInt16) else none

theorem asciiString_eq_some {b : List UInt8} {s : List UniChar} :
    asciiString b = some s ↔ (∀ c ∈ b, c < 0x80) ∧ s = b.map UInt8.toUInt16 := by
  unfold asciiString
  constructor
  · intro h
    split at h
    case isTrue hall =>
      have hascii := List.all_eq_true.mp hall
      exact ⟨fun c hc => of_decide_eq_true (hascii c hc), (Option.some.inj h).symm⟩
    case isFalse => cases h
  · rintro ⟨hascii, rfl⟩
    exact if_pos (List.all_eq_true.mpr fun c hc => decide_eq_true (hascii c hc))

theorem asciiString_ascii (b : List UInt8) (h : ∀ c ∈ b, c < 0x80) :
    asciiString b = some (b.map UInt8.toUInt16) :=
  asciiString_eq_some.mpr ⟨h, rfl⟩

theorem length_asciiString (b : List UInt8) (s : List UniChar) (h : asciiString b = some s) :
    s.length ≤ b.length ∧ (s.length = b.length → ∀ c ∈ b, c < 0x80) := by
  obtain ⟨hascii, rfl⟩ := asciiString_eq_some.mp h
  exact ⟨(List.length_map _).le, fun _ => hascii⟩

theorem bytes_asciiString (b : List UInt8) (s : List UniChar) (h : asciiString b = some s)
    (n : ℕ) : (s ++ List.replicate n 0x20).map UInt16.toUInt8 = b ++ List.replicate n 0x20 := by
  obtain ⟨-, rfl⟩ := asciiString_eq_some.mp h
  simp [Function.comp_def]

/-- A platform that knows ASCII only. -/
def asciiEncoding : CFEncoding where
  string := asciiString
  bytes s := s.map UInt16.toUInt8
  utf8 s := s.map UInt16.toUInt8
  string_ascii := asciiString_ascii
  string_length := length_asciiString
  bytes_ascii _ _ := rfl
  bytes_string := bytes_asciiString
  utf8_string := bytes_asciiString

/-- A NUL in a literal is not in its `CFString`. -/
example : strNew asciiEncoding [0x61, 0, 0x62] 3 =
    ⟨[0x20, 0x20, 0x20], some [0x61, 0, 0x62]⟩ := by decide

end MacRuby
