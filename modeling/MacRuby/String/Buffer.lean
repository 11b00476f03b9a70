import Mathlib.Algebra.Order.BigOperators.Group.List
import Mathlib.Algebra.Order.Ring.Nat

/-!
# Strings that bytes are appended to

`rb_str_buf_cat` appends bytes to the byte data of a string, if there is any, and `RSTRING_SYNC`
drops the data again when it is ASCII. Without data it appends them as ASCII to the `CFString`, each
as a character, and they come back through `RSTRING_PTR`. Only a chunk with a NUL beside a byte that
is not ASCII cannot be appended so: the string gets byte data, which is the UTF-8 of the characters.

## Main definitions

* `ByteChars` — the characters that bytes become.
* `StringBuffer` — a string that was empty, and to which bytes were appended.
* `rbStrBufCat` — one append.
* `Rebuilt`, `KeepsBytes` — whether characters that are not ASCII are made to byte data.

## Main results

* `cstr_appendAll` — a string keeps the bytes of chunks that `KeepsBytes`.
* `lt_clen_appendAll` — it has more bytes than the chunks otherwise.
-/

namespace MacRuby

/-- The characters that bytes become which are appended as ASCII, in UTF-8. -/
structure ByteChars where
  utf8 : UInt8 → List UInt8
  utf8_ascii : ∀ c, c < 0x80 → utf8 c = [c]
  utf8_high : ∀ c, 0x80 ≤ c → 2 ≤ (utf8 c).length

/-- A string that bytes were appended to: the bytes of its `CFString`, which are a character each,
and its byte data if there is any. -/
structure StringBuffer where
  store : List UInt8
  data : Option (List UInt8)
  deriving DecidableEq, Repr

/-- Some of the bytes are not ASCII. -/
def HasHigh (b : List UInt8) : Prop := ∃ c ∈ b, 0x80 ≤ c

instance (b : List UInt8) : Decidable (HasHigh b) := List.decidableBEx _ b

/-- A NUL stands beside a byte that is not ASCII. -/
def MixedBytes (b : List UInt8) : Prop := 0 ∈ b ∧ HasHigh b

instance (b : List UInt8) : Decidable (MixedBytes b) := inferInstanceAs (Decidable (_ ∧ _))

namespace StringBuffer

variable (chars : ByteChars) (s : StringBuffer)

/-- `RSTRING_LEN`. -/
def clen : ℕ :=
  match s.data with
  | none => s.store.length
  | some data => data.length

/-- `RSTRING_PTR`. -/
def cstr : List UInt8 := s.data.getD s.store

/-- `RSTRING_BYTEPTR`. -/
def byteptr : List UInt8 := s.data.getD (s.store.flatMap chars.utf8)

/-- `RSTRING_SYNC`: UTF-8 has as many characters as bytes when it is ASCII. -/
def sync : StringBuffer :=
  match s.data with
  | none => s
  | some data => if HasHigh data then s else ⟨data, none⟩

theorem clen_eq : s.clen = s.cstr.length := by
  unfold clen cstr
  cases s.data <;> rfl

end StringBuffer

section Append

variable (chars : ByteChars)

/-- `rb_str_buf_cat(str, ptr, len)`. -/
def rbStrBufCat (str : StringBuffer) (chunk : List UInt8) : StringBuffer :=
  match str.data with
  | some data => StringBuffer.sync ⟨str.store, some (data ++ chunk)⟩
  | none =>
      if 0 ∉ chunk then ⟨str.store ++ chunk, none⟩
      else if HasHigh chunk then ⟨str.store, some (str.byteptr chars ++ chunk)⟩
      else ⟨str.store ++ chunk, none⟩

/-- Several appends. -/
def appendAll (str : StringBuffer) (chunks : List (List UInt8)) : StringBuffer :=
  chunks.foldl (rbStrBufCat chars) str

/-- The first chunk that makes a string without byte data into one with it comes after bytes that
are not ASCII; `seen` tells whether the string has some. -/
def Rebuilt (seen : Prop) : List (List UInt8) → Prop
  | [] => False
  | c :: cs => if MixedBytes c then seen else Rebuilt (seen ∨ HasHigh c) cs

/-- The chunks are the bytes of the string that they are appended to, when it has empty byte data at
first: the data stays, or it is made of ASCII again. -/
def KeepsBytes : List (List UInt8) → Prop
  | [] => True
  | c :: cs => HasHigh c ∨ ¬ Rebuilt False cs

variable {store : List UInt8} {chunks : List (List UInt8)}

theorem appendAll_cons (str : StringBuffer) (c : List UInt8) (cs : List (List UInt8)) :
    appendAll chars str (c :: cs) = appendAll chars (rbStrBufCat chars str c) cs := rfl

theorem appendAll_append (str : StringBuffer) (cs ds : List (List UInt8)) :
    appendAll chars str (cs ++ ds) = appendAll chars (appendAll chars str cs) ds :=
  List.foldl_append

theorem hasHigh_append {a b : List UInt8} : HasHigh (a ++ b) ↔ HasHigh a ∨ HasHigh b := by
  simp [HasHigh, or_and_right, exists_or]

/-- A chunk that is appended to byte data. -/
theorem rbStrBufCat_data {data : List UInt8} (h : HasHigh data) (chunk : List UInt8) :
    rbStrBufCat chars ⟨store, some data⟩ chunk = ⟨store, some (data ++ chunk)⟩ :=
  if_pos (hasHigh_append.mpr (.inl h))

/-- A chunk that is appended to a `CFString`. -/
theorem rbStrBufCat_store {chunk : List UInt8} (h : ¬ MixedBytes chunk) :
    rbStrBufCat chars ⟨store, none⟩ chunk = ⟨store ++ chunk, none⟩ := by
  rw [MixedBytes, not_and] at h
  unfold rbStrBufCat
  dsimp only
  by_cases hnul : 0 ∈ chunk
  · rw [if_neg (not_not.mpr hnul), if_neg (h hnul)]
  · rw [if_pos hnul]

/-- A chunk that gives a string its byte data. -/
theorem rbStrBufCat_mixed {chunk : List UInt8} (h : MixedBytes chunk) :
    rbStrBufCat chars ⟨store, none⟩ chunk
      = ⟨store, some (store.flatMap chars.utf8 ++ chunk)⟩ := by
  unfold rbStrBufCat
  dsimp only
  rw [if_neg (not_not.mpr h.1), if_pos h.2]
  rfl

/-- Byte data that is not ASCII stays. -/
theorem cstr_appendAll_data {data : List UInt8} (h : HasHigh data) :
    (appendAll chars ⟨store, some data⟩ chunks).cstr = data ++ chunks.flatten := by
  induction chunks generalizing data with
  | nil => exact (List.append_nil data).symm
  | cons c cs ih =>
      rw [appendAll_cons, rbStrBufCat_data chars h, ih (hasHigh_append.mpr (.inl h)),
        List.flatten_cons, List.append_assoc]

/-- The UTF-8 of the characters of ASCII bytes. -/
theorem flatMap_utf8_of_ascii (h : ¬ HasHigh store) : store.flatMap chars.utf8 = store := by
  induction store with
  | nil => rfl
  | cons c cs ih =>
      have hc : c < 0x80 := UInt8.not_le.mp fun hle => h ⟨c, by simp, hle⟩
      have hcs : ¬ HasHigh cs := fun ⟨d, hd, hle⟩ => h ⟨d, by simp [hd], hle⟩
      rw [List.flatMap_cons, chars.utf8_ascii c hc, ih hcs, List.singleton_append]

theorem one_le_length_utf8 (c : UInt8) : 1 ≤ (chars.utf8 c).length := by
  by_cases hc : c < 0x80
  · rw [chars.utf8_ascii c hc, List.length_singleton]
  · have := chars.utf8_high c (UInt8.not_lt.mp hc)
    omega

/-- The UTF-8 of other characters is longer. -/
theorem lt_length_flatMap_utf8 (h : HasHigh store) :
    store.length < (store.flatMap chars.utf8).length := by
  obtain ⟨c, hc, hle⟩ := h
  calc store.length = (store.map fun _ => 1).sum := by simp
    _ < (store.map fun c => (chars.utf8 c).length).sum :=
        List.sum_lt_sum _ _ (fun c _ => one_le_length_utf8 chars c) ⟨c, hc, chars.utf8_high c hle⟩
    _ = _ := List.length_flatMap.symm

/-- Chunks that are appended to a `CFString`. -/
theorem cstr_appendAll_store (h : ¬ Rebuilt (HasHigh store) chunks) :
    (appendAll chars ⟨store, none⟩ chunks).cstr = store ++ chunks.flatten := by
  induction chunks generalizing store with
  | nil => exact (List.append_nil store).symm
  | cons c cs ih =>
      rw [Rebuilt] at h
      rw [appendAll_cons]
      by_cases hmixed : MixedBytes c
      · rw [if_pos hmixed] at h
        rw [rbStrBufCat_mixed chars hmixed, flatMap_utf8_of_ascii chars h,
          cstr_appendAll_data chars (hasHigh_append.mpr (.inr hmixed.2)), List.flatten_cons,
          List.append_assoc]
      · rw [if_neg hmixed, ← hasHigh_append] at h
        rw [rbStrBufCat_store chars hmixed, ih h, List.flatten_cons, List.append_assoc]

/-- Chunks that make characters into byte data. -/
theorem lt_clen_appendAll_store (h : Rebuilt (HasHigh store) chunks) :
    (store ++ chunks.flatten).length < (appendAll chars ⟨store, none⟩ chunks).clen := by
  induction chunks generalizing store with
  | nil => exact h.elim
  | cons c cs ih =>
      rw [Rebuilt] at h
      rw [appendAll_cons]
      by_cases hmixed : MixedBytes c
      · rw [if_pos hmixed] at h
        have hlonger := lt_length_flatMap_utf8 chars h
        rw [rbStrBufCat_mixed chars hmixed, StringBuffer.clen_eq,
          cstr_appendAll_data chars (hasHigh_append.mpr (.inr hmixed.2)), List.flatten_cons]
        simp only [List.length_append]
        omega
      · rw [if_neg hmixed, ← hasHigh_append] at h
        rw [rbStrBufCat_store chars hmixed, List.flatten_cons, ← List.append_assoc]
        exact ih h

/-- The first chunk for a string with empty byte data. -/
theorem rbStrBufCat_empty (chunk : List UInt8) : rbStrBufCat chars ⟨[], some []⟩ chunk
    = if HasHigh chunk then ⟨[], some chunk⟩ else ⟨chunk, none⟩ := rfl

/-- **A string keeps the bytes** of chunks that do not make characters into byte data. -/
theorem cstr_appendAll (h : KeepsBytes chunks) :
    (appendAll chars ⟨[], some []⟩ chunks).cstr = chunks.flatten := by
  cases chunks with
  | nil => rfl
  | cons c cs =>
      rw [appendAll_cons, rbStrBufCat_empty, List.flatten_cons]
      by_cases hhigh : HasHigh c
      · rw [if_pos hhigh]
        exact cstr_appendAll_data chars hhigh
      · rw [if_neg hhigh]
        refine cstr_appendAll_store chars ?_
        rw [eq_false hhigh]
        exact h.resolve_left hhigh

/-- **Other chunks make it longer.** -/
theorem lt_clen_appendAll (h : ¬ KeepsBytes chunks) :
    chunks.flatten.length < (appendAll chars ⟨[], some []⟩ chunks).clen := by
  cases chunks with
  | nil => exact absurd trivial h
  | cons c cs =>
      rw [KeepsBytes, not_or, not_not] at h
      rw [appendAll_cons, rbStrBufCat_empty, if_neg h.1, List.flatten_cons]
      refine lt_clen_appendAll_store chars ?_
      rw [eq_false h.1]
      exact h.2

end Append

/-- A character of Latin-1 in UTF-8. -/
def latin1Utf8 (c : UInt8) : List UInt8 :=
  if c < 0x80 then [c] else [(0xc0 : UInt8) ||| c >>> 6, (0x80 : UInt8) ||| (c &&& 0x3f)]

theorem latin1Utf8_ascii (c : UInt8) (h : c < 0x80) : latin1Utf8 c = [c] := if_pos h

theorem latin1Utf8_high (c : UInt8) (h : 0x80 ≤ c) : 2 ≤ (latin1Utf8 c).length := by
  rw [latin1Utf8, if_neg (UInt8.not_lt.mpr h)]
  exact le_refl 2

/-- Bytes that become the characters of Latin-1. -/
def latin1Chars : ByteChars where
  utf8 := latin1Utf8
  utf8_ascii := latin1Utf8_ascii
  utf8_high := latin1Utf8_high

/-- An ASCII byte, one that is not, and a chunk with both a NUL and such a byte. -/
example : appendAll latin1Chars ⟨[], some []⟩ [[65], [200], [0, 128]]
    = ⟨[65, 200], some [65, 0xc3, 0x88, 0, 128]⟩ := by decide

end MacRuby
