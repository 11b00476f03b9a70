import MacRuby.Pack.Reads
import MacRuby.Pack.Words

/-!
# UTF-8

The directive `U`. A number of up to 31 bits is written in one to six bytes; the fewest are taken,
and `unpack` accepts no others. The six forms differ only in the number of bytes, so that they are
treated as one.

## Main definitions

* `utf8Cont` — the bytes after the first.
* `Utf8Form` — a number has a form of a given length.

## Main results

* `uvToUtf8_of_form`, `exists_form` — what `pack` writes for a number.
* `utf8ToUv_iff` — what `unpack` reads is what `pack` writes.
* `utf8_bijection` — the two directives are inverse to each other.
-/

namespace MacRuby.Pack

variable {L : LongSize}

/-! ## The bytes after the first -/

/-- A byte with six bits. -/
def contByte (n : ℕ) : UInt8 := UInt8.ofNat (n % 64 + 128)

/-- The `k` lowest groups of six bits. -/
def utf8Cont : ℕ → ℕ → List UInt8
  | 0, _ => []
  | k + 1, uv => contByte (uv / 64 ^ k) :: utf8Cont k uv

@[simp] theorem length_utf8Cont (k uv : ℕ) : (utf8Cont k uv).length = k := by
  induction k with
  | zero => rfl
  | succ k ih => rw [utf8Cont, List.length_cons, ih]

theorem toNat_contByte (n : ℕ) : (contByte n).toNat = n % 64 + 128 := by
  rw [contByte, UInt8.toNat_ofNat', Nat.mod_eq_of_lt (by omega)]

theorem low_six_bits (n : ℕ) : n &&& 0x3f = n % 64 := Nat.and_two_pow_sub_one_eq_mod n 6

theorem and_cont (b : UInt8) : b.toNat &&& 0xc0 = 0x80 ↔ b = contByte b.toNat := by
  have hall : ∀ k : Fin 256, k.val &&& 0xc0 = 0x80 ↔ k.val = k.val % 64 + 128 := by decide +kernel
  rw [← UInt8.toNat_inj, toNat_contByte]
  exact hall ⟨b.toNat, b.toNat_lt⟩

/-- The byte that is written for six bits. -/
theorem contByte_eq (n : ℕ) : UInt8.ofNat ((n &&& 0x3f) ||| 0x80) = contByte n := by
  have hor := Nat.two_pow_add_eq_or_of_lt (show n % 64 < 2 ^ 7 by omega) 1
  rw [low_six_bits, contByte, Nat.or_comm, add_comm]
  exact congrArg _ hor.symm

theorem shift_or_six (uv : ℕ) (n : ℕ) : uv <<< 6 ||| n &&& 0x3f = uv * 64 + n % 64 := by
  rw [low_six_bits, Nat.shiftLeft_eq, mul_comm uv]
  exact (Nat.two_pow_add_eq_or_of_lt (show n % 64 < 2 ^ 6 by omega) uv).symm

section Rest

variable {d : ByteString L} {s : ℤ} {rest : List UInt8}

/-- **The loop of `utf8_to_uv` reads the groups.** -/
theorem utf8Rest_cont (uv : ℕ) {k v : ℕ} (h : Reads d s (utf8Cont k v ++ rest)) :
    utf8Rest d uv k s = some (uv * 64 ^ k + v % 64 ^ k) := by
  induction k generalizing uv s with
  | zero => simp [utf8Rest, Nat.mod_one]
  | succ k ih =>
      rw [utf8Cont, List.cons_append] at h
      have hcont : (contByte (v / 64 ^ k)).toNat &&& 0xc0 = 0x80 := by
        rw [and_cont, toNat_contByte, contByte, contByte]
        congr 1
        omega
      have hdigit : (contByte (v / 64 ^ k)).toNat % 64 = v / 64 ^ k % 64 := by
        rw [toNat_contByte]
        omega
      rw [utf8Rest]
      simp only [h.get, hcont, ne_eq, not_true_eq_false, if_false, shift_or_six, hdigit]
      rw [ih _ h.next, pow_succ, Nat.mod_mul]
      congr 1
      ring

/-- **And nothing else.** -/
theorem exists_cont {uv k w : ℕ} {t : List UInt8} (h : Reads d s t) (hk : k ≤ t.length)
    (hrun : utf8Rest d uv k s = some w) :
    ∃ rest, t = utf8Cont k w ++ rest ∧ w / 64 ^ k = uv := by
  induction k generalizing uv s t with
  | zero =>
      have hw : uv = w := Option.some.inj hrun
      exact ⟨t, rfl, by rw [hw, pow_zero, Nat.div_one]⟩
  | succ k ih =>
      cases t with
      | nil => simp at hk
      | cons b t =>
          rw [utf8Rest] at hrun
          simp only [h.get, shift_or_six] at hrun
          split_ifs at hrun with hb
          rw [not_not] at hb
          obtain ⟨rest, rfl, hw⟩ := ih h.next (by simpa using hk) hrun
          refine ⟨rest, ?_, ?_⟩
          · rw [utf8Cont, List.cons_append, hw]
            congr 1
            calc b = contByte b.toNat := (and_cont b).mp hb
              _ = contByte (uv * 64 + b.toNat % 64) := congrArg UInt8.ofNat (by omega)
          · rw [pow_succ, ← Nat.div_div_eq_div_mul, hw]
            omega

end Rest

/-! ## The first byte -/

/-- The bits that mark a character of `n` bytes. -/
def utf8Mark (n : ℕ) : ℕ := 256 - 2 ^ (8 - n)

/-- The first byte of a character of `n` bytes; `top` are the bits of its number that it holds. -/
theorem utf8Lead_mark {n top : ℕ} (h2 : 2 ≤ n) (h6 : n ≤ 6) (htop : top < 2 ^ (7 - n)) :
    top ||| utf8Mark n < 256 ∧ (top ||| utf8Mark n) &&& 0x80 ≠ 0 ∧
      (top ||| utf8Mark n) &&& 0x40 ≠ 0 ∧ utf8Lead (top ||| utf8Mark n) = some (n, top) := by
  have hall : ∀ k : Fin 7, ∀ i : Fin 32, 2 ≤ k.val → i.val < 2 ^ (7 - k.val) →
      i.val ||| utf8Mark k.val < 256 ∧ (i.val ||| utf8Mark k.val) &&& 0x80 ≠ 0 ∧
        (i.val ||| utf8Mark k.val) &&& 0x40 ≠ 0 ∧
        utf8Lead (i.val ||| utf8Mark k.val) = some (k.val, i.val) := by decide +kernel
  have h32 : top < 32 := by
    calc top < 2 ^ (7 - n) := htop
      _ ≤ 2 ^ 5 := Nat.pow_le_pow_right (by decide) (by omega)
  exact hall ⟨n, by omega⟩ ⟨top, h32⟩ h2 htop

/-- There are no other first bytes. -/
theorem utf8Lead_some {c : UInt8} {n top : ℕ} (h80 : c.toNat &&& 0x80 ≠ 0)
    (h40 : c.toNat &&& 0x40 ≠ 0) (h : utf8Lead c.toNat = some (n, top)) :
    2 ≤ n ∧ n ≤ 6 ∧ top < 2 ^ (7 - n) ∧ c = UInt8.ofNat (top ||| utf8Mark n) := by
  have hall : ∀ k : Fin 256, k.val &&& 0x80 ≠ 0 → k.val &&& 0x40 ≠ 0 →
      ∀ r ∈ utf8Lead k.val, 2 ≤ r.1 ∧ r.1 ≤ 6 ∧ r.2 < 2 ^ (7 - r.1) ∧
        k.val = r.2 ||| utf8Mark r.1 := by decide +kernel
  obtain ⟨h2, h6, htop, heq⟩ := hall ⟨c.toNat, c.toNat_lt⟩ h80 h40 (n, top) h
  refine ⟨h2, h6, htop, ?_⟩
  rw [← UInt8.toNat_inj, UInt8.toNat_ofNat', ← heq, Nat.mod_eq_of_lt c.toNat_lt]

/-! ## Characters -/

/-- A number is written in `n` bytes, and in no fewer. -/
structure Utf8Form (n uv : ℕ) : Prop where
  two_le : 2 ≤ n
  le_six : n ≤ 6
  limit_le : utf8Limit (n - 1) ≤ uv
  lt_limit : uv < utf8Limit n

/-- The bytes of a character of `n` bytes. -/
def utf8Char (n uv : ℕ) : List UInt8 :=
  UInt8.ofNat (uv / 64 ^ (n - 1) ||| utf8Mark n) :: utf8Cont (n - 1) uv

/-- The mask of the first byte has no effect. -/
theorem utf8_first {x : ℕ} (hx : x < 256) (m : ℕ) :
    UInt8.ofNat ((x &&& 0xff) ||| m) = UInt8.ofNat (x ||| m) := by
  have hmask : x &&& 0xff = x % 256 := Nat.and_two_pow_sub_one_eq_mod x 8
  rw [hmask, Nat.mod_eq_of_lt hx]

/-- **The bytes that `pack` writes for a number.** -/
theorem uvToUtf8_of_form {n uv : ℕ} (h : Utf8Form n uv) : uvToUtf8 uv = .ok (utf8Char n uv) := by
  obtain ⟨h2, h6, hlow, hhigh⟩ := h
  have hs1 : uv >>> 6 = uv / 64 ^ 1 := Nat.shiftRight_eq_div_pow uv 6
  have hs2 : uv >>> 12 = uv / 64 ^ 2 := Nat.shiftRight_eq_div_pow uv 12
  have hs3 : uv >>> 18 = uv / 64 ^ 3 := Nat.shiftRight_eq_div_pow uv 18
  have hs4 : uv >>> 24 = uv / 64 ^ 4 := Nat.shiftRight_eq_div_pow uv 24
  have hs5 : uv >>> 30 = uv / 64 ^ 5 := Nat.shiftRight_eq_div_pow uv 30
  rw [uvToUtf8, hs1, hs2, hs3, hs4, hs5]
  simp only [contByte_eq]
  interval_cases n <;> simp only [utf8Limit] at hlow hhigh
  · rw [if_neg (by omega), if_pos (by omega), utf8_first (by omega)]
    simp [utf8Char, utf8Cont, utf8Mark]
  · rw [if_neg (by omega), if_neg (by omega), if_pos (by omega), utf8_first (by omega)]
    simp [utf8Char, utf8Cont, utf8Mark]
  · rw [if_neg (by omega), if_neg (by omega), if_neg (by omega), if_pos (by omega),
      utf8_first (by omega)]
    simp [utf8Char, utf8Cont, utf8Mark]
  · rw [if_neg (by omega), if_neg (by omega), if_neg (by omega), if_neg (by omega),
      if_pos (by omega), utf8_first (by omega)]
    simp [utf8Char, utf8Cont, utf8Mark]
  · rw [if_neg (by omega), if_neg (by omega), if_neg (by omega), if_neg (by omega),
      if_neg (by omega), if_pos (by omega), utf8_first (by omega)]
    simp [utf8Char, utf8Cont, utf8Mark]

/-- Every number that is not written in one byte has a form. -/
theorem exists_form {uv : ℕ} (h : 0x80 ≤ uv) (h' : uv < 2 ^ 31) : ∃ n, Utf8Form n uv := by
  by_cases h3 : uv < 0x800
  · exact ⟨2, by decide, by decide, h, h3⟩
  by_cases h4 : uv < 0x10000
  · exact ⟨3, by decide, by decide, not_lt.mp h3, h4⟩
  by_cases h5 : uv < 0x200000
  · exact ⟨4, by decide, by decide, not_lt.mp h4, h5⟩
  by_cases h6 : uv < 0x4000000
  · exact ⟨5, by decide, by decide, not_lt.mp h5, h6⟩
  · exact ⟨6, by decide, by decide, not_lt.mp h6, h'⟩

theorem Utf8Form.top_lt {n uv : ℕ} (h : Utf8Form n uv) : uv / 64 ^ (n - 1) < 2 ^ (7 - n) := by
  obtain ⟨h2, h6, -, hhigh⟩ := h
  interval_cases n <;> simp only [utf8Limit] at hhigh <;> omega

/-- Conversely, the bits in the first byte bound the number. -/
theorem lt_limit_of_top {n uv : ℕ} (h2 : 2 ≤ n) (h6 : n ≤ 6)
    (htop : uv / 64 ^ (n - 1) < 2 ^ (7 - n)) :
    uv < utf8Limit n := by
  interval_cases n <;> simp only [utf8Limit] at htop ⊢ <;> omega

@[simp] theorem length_utf8Char {n : ℕ} (h : 2 ≤ n) (uv : ℕ) : (utf8Char n uv).length = n := by
  rw [utf8Char, List.length_cons, length_utf8Cont]
  omega

/-- What `pack` writes for a number: one byte, or one of the forms. -/
theorem uvToUtf8_cases {uv : ℕ} {enc : List UInt8} (h : uvToUtf8 uv = .ok enc) :
    uv < 0x80 ∧ enc = [UInt8.ofNat uv] ∨ ∃ n, Utf8Form n uv ∧ enc = utf8Char n uv := by
  by_cases h1 : uv ≤ 0x7f
  · rw [uvToUtf8, if_pos h1] at h
    exact .inl ⟨by omega, (Except.ok.inj h).symm⟩
  · have hlt : uv < 2 ^ 31 := by
      by_contra hge
      rw [uvToUtf8, if_neg (by omega), if_neg (by omega), if_neg (by omega), if_neg (by omega),
        if_neg (by omega), if_neg (by omega)] at h
      cases h
    obtain ⟨n, hn⟩ := exists_form (by omega) hlt
    rw [uvToUtf8_of_form hn] at h
    exact .inr ⟨n, hn, (Except.ok.inj h).symm⟩

theorem length_pos_of_write {uv : ℕ} {enc : List UInt8} (h : uvToUtf8 uv = .ok enc) :
    0 < enc.length := by
  rcases uvToUtf8_cases h with ⟨-, rfl⟩ | ⟨n, -, rfl⟩ <;> simp [utf8Char]

theorem uvToUtf8_small {uv : ℕ} (h : uv < 0x80) : uvToUtf8 uv = .ok [UInt8.ofNat uv] := by
  rw [uvToUtf8, if_pos (by omega)]

theorem and_high_bit (c : UInt8) : c.toNat &&& 0x80 = 0 ↔ c.toNat < 0x80 := by
  have hall : ∀ k : Fin 256, k.val &&& 0x80 = 0 ↔ k.val < 0x80 := by decide +kernel
  exact hall ⟨c.toNat, c.toNat_lt⟩

section Characters

variable {d : ByteString L} {s : ℤ} {t : List UInt8}

/-- **`utf8_to_uv` reads what `rb_uv_to_utf8` writes.** -/
theorem utf8ToUv_of_write {uv : ℕ} {enc rest : List UInt8} (h : Reads d s (enc ++ rest))
    (henc : uvToUtf8 uv = .ok enc) : utf8ToUv d s (d.len - s) = .ok (uv, enc.length) := by
  have hlen := h.len_eq
  rw [List.length_append] at hlen
  rcases uvToUtf8_cases henc with ⟨huv, rfl⟩ | ⟨n, hn, rfl⟩
  · have hbyte : (UInt8.ofNat uv).toNat = uv := by
      rw [UInt8.toNat_ofNat', Nat.mod_eq_of_lt (by omega)]
    have hlow : uv &&& 0x80 = 0 := by
      have := (and_high_bit (UInt8.ofNat uv)).mpr (by omega)
      rwa [hbyte] at this
    rw [List.singleton_append] at h
    rw [utf8ToUv]
    simp only [h.get, hbyte, hlow, if_true]
    rfl
  · obtain ⟨hlt, h80, h40, hlead⟩ := utf8Lead_mark hn.two_le hn.le_six hn.top_lt
    have hbyte : (UInt8.ofNat (uv / 64 ^ (n - 1) ||| utf8Mark n)).toNat
        = uv / 64 ^ (n - 1) ||| utf8Mark n := by
      rw [UInt8.toNat_ofNat', Nat.mod_eq_of_lt hlt]
    rw [length_utf8Char hn.two_le] at hlen ⊢
    rw [utf8Char, List.cons_append] at h
    have hrest := utf8Rest_cont (uv / 64 ^ (n - 1)) h.next
    rw [Nat.div_add_mod'] at hrest
    rw [utf8ToUv]
    simp only [h.get, hbyte, h80, h40, hlead, if_false, hrest]
    rw [if_neg (by omega), if_neg (not_lt.mpr hn.limit_le)]

/-- **And nothing else.** -/
theorem exists_write {uv : ℕ} {alen : ℤ} (h : Reads d s t) (ht : t ≠ [])
    (hrun : utf8ToUv d s (d.len - s) = .ok (uv, alen)) :
    ∃ enc rest, t = enc ++ rest ∧ uvToUtf8 uv = .ok enc ∧ alen = enc.length := by
  obtain ⟨c, t, rfl⟩ := List.exists_cons_of_ne_nil ht
  have hlen := h.len_eq
  rw [List.length_cons] at hlen
  rw [utf8ToUv] at hrun
  simp only [h.get] at hrun
  split_ifs at hrun with h80 h40
  · cases hrun
    refine ⟨[c], t, rfl, ?_, rfl⟩
    rw [uvToUtf8_small ((and_high_bit c).mp h80), UInt8.ofNat_toNat]
  · cases hlead : utf8Lead c.toNat with
    | none =>
        rw [hlead] at hrun
        cases hrun
    | some r =>
        obtain ⟨n, top⟩ := r
        rw [hlead] at hrun
        dsimp only at hrun
        obtain ⟨h2, h6, htop, rfl⟩ := utf8Lead_some h80 h40 hlead
        split_ifs at hrun with hroom
        cases hrest : utf8Rest d top (n - 1) (s + 1) with
        | none =>
            rw [hrest] at hrun
            cases hrun
        | some w =>
            rw [hrest] at hrun
            dsimp only at hrun
            split_ifs at hrun with hlimit
            cases hrun
            obtain ⟨rest, rfl, hw⟩ := exists_cont h.next (by omega) hrest
            have hform : Utf8Form n uv :=
              ⟨h2, h6, not_lt.mp hlimit, lt_limit_of_top h2 h6 (hw ▸ htop)⟩
            refine ⟨utf8Char n uv, rest, ?_, uvToUtf8_of_form hform, ?_⟩
            · rw [utf8Char, List.cons_append, hw]
            · rw [length_utf8Char h2]

/-- Numbers with the bytes that are written for them. -/
def Written (uvs : List ℕ) (encs : List (List UInt8)) : Prop :=
  List.Forall₂ (fun uv enc => uvToUtf8 uv = .ok enc) uvs encs

theorem Written.length_le {uvs : List ℕ} {encs : List (List UInt8)} (h : Written uvs encs) :
    uvs.length ≤ encs.flatten.length := by
  induction h with
  | nil => simp
  | @cons uv enc uvs encs henc h ih =>
      have hpos := length_pos_of_write henc
      rw [List.length_cons, List.flatten_cons, List.length_append]
      omega

/-- `ULONG2NUM(uv)`. -/
def uvInum (L : LongSize) (uv : ℕ) : Inum L := rbUint2inum L uv

/-- What `unpack` hands over for a number. -/
def uvOutput (L : LongSize) (uv : ℕ) : Output L := .push (.integer (uvInum L uv))

/-- **The loop of `U` reads what is written for several numbers.** -/
theorem utf8Loop_of_write {uvs : List ℕ} {encs : List (List UInt8)} {k : ℕ}
    (hw : Written uvs encs) (h : Reads d s encs.flatten) (hk : uvs.length ≤ k) :
    utf8Loop d k s = ⟨uvs.map (uvOutput L), .ok d.len⟩ := by
  induction hw generalizing s k with
  | nil =>
      have hs : s = d.len := h.eq_len
      cases k with
      | zero => rw [utf8Loop, hs]; rfl
      | succ k => rw [utf8Loop, if_neg (by omega), hs]; rfl
  | @cons uv enc uvs encs henc hw ih =>
      rw [List.length_cons] at hk
      obtain ⟨k, rfl⟩ : ∃ j, k = j + 1 := ⟨k - 1, by omega⟩
      rw [List.flatten_cons] at h
      have hlt : s < d.len := by
        have hpos := length_pos_of_write henc
        rw [h.len_eq, List.length_append]
        omega
      rw [utf8Loop, if_pos hlt, utf8ToUv_of_write h henc]
      dsimp only
      rw [ih h.skip (by omega)]
      rfl

/-- **And nothing else.** -/
theorem exists_written {k : ℕ} (h : Reads d s t) (hk : t.length ≤ k) {s' : ℤ}
    (hrun : (utf8Loop d k s).result = .ok s') : ∃ uvs encs, Written uvs encs ∧ t = encs.flatten ∧
      (utf8Loop d k s).outputs = uvs.map (uvOutput L) := by
  induction k generalizing s t with
  | zero =>
      obtain rfl : t = [] := List.eq_nil_of_length_eq_zero (by omega)
      exact ⟨[], [], .nil, rfl, rfl⟩
  | succ k ih =>
      rw [utf8Loop] at hrun ⊢
      split_ifs at hrun ⊢ with hlt
      · have hlen := h.len_eq
        have ht : t ≠ [] := by
          rintro rfl
          rw [List.length_nil] at hlen
          omega
        cases hchar : utf8ToUv d s (d.len - s) with
        | error e =>
            rw [hchar] at hrun
            cases hrun
        | ok r =>
            obtain ⟨uv, alen⟩ := r
            rw [hchar] at hrun
            obtain ⟨enc, rest, rfl, henc, rfl⟩ := exists_write h ht hchar
            have hpos := length_pos_of_write henc
            rw [List.length_append] at hk
            obtain ⟨uvs, encs, hw, rfl, hout⟩ := ih h.skip (by omega) hrun
            refine ⟨uv :: uvs, enc :: encs, .cons henc hw, rfl, ?_⟩
            dsimp only [Effect.cons]
            rw [hout]
            rfl
      · have hlen := h.len_eq
        obtain rfl : t = [] := List.eq_nil_of_length_eq_zero (by omega)
        exact ⟨[], [], .nil, rfl, rfl⟩

end Characters

/-! ## The two directives -/

section Bijection

variable (chars : ByteChars) (toS : Inum L → List UInt8) (fuel : ℕ)
  (others : UInt8 → Modifiers → ItemState L → Except (PackError ItemError) (ItemState L))

/-- `U*`. -/
def utf8Format : List UInt8 := ['U'.toNat.toUInt8, '*'.toNat.toUInt8]

theorem packItems_utf8 (xs : List (Inum L)) :
    packItems chars toS fuel others (xs.map .integer) utf8Format
      = (packEach packUtf8 (xs.map Item.integer).length ⟨xs.map .integer, []⟩).map
        ItemState.res :=
  packItems_single chars toS fuel others (m := ⟨false, true, (xs.map Item.integer).length⟩) rfl
    (by decide) rfl

theorem packUnpack_utf8 (d : ByteString L) : packUnpack d utf8Format
    = (utf8Loop d d.len.toNat 0).result.map
      fun _ => (utf8Loop d d.len.toNat 0).outputs.map Output.element := by
  have hunpack : unpackUtf8 d 0 d.len = utf8Loop d d.len.toNat 0 := by
    rw [unpackUtf8]
    simp
  rw [← hunpack]
  exact packUnpack_single d (m := ⟨false, true, d.len⟩) rfl (by decide) rfl

/-- What `pack` does with an Integer in the range of UTF-8. -/
theorem packUtf8_eq {x : Inum L} {uv : ℕ} (hx : x.Is uv) (huv : uv < 2 ^ 31) :
    packUtf8 (.integer x) = uvToUtf8 uv := by
  have hword : (2 : ℤ) ^ 31 ≤ 2 ^ (L.bits - 1) := by cases L <;> decide
  have hlong : num2long x = .ok (uv : ℤ) := by
    rw [num2long, hx.value, if_pos ⟨by omega, by omega⟩]
  rw [packUtf8, toInteger]
  show num2long x >>= _ = _
  rw [hlong]
  show (if (uv : ℤ) < 0 then Except.error ItemError.outOfRange else uvToUtf8 (uv : ℤ).toNat) = _
  rw [if_neg (by omega), Int.toNat_natCast]

theorem exists_uvToUtf8 {uv : ℕ} (h : uv < 2 ^ 31) : ∃ enc, uvToUtf8 uv = .ok enc := by
  by_cases h1 : uv < 0x80
  · exact ⟨_, uvToUtf8_small h1⟩
  · obtain ⟨n, hn⟩ := exists_form (not_lt.mp h1) h
    exact ⟨_, uvToUtf8_of_form hn⟩

theorem lt_of_uvToUtf8 {uv : ℕ} {enc : List UInt8} (h : uvToUtf8 uv = .ok enc) : uv < 2 ^ 31 := by
  rcases uvToUtf8_cases h with ⟨hlt, -⟩ | ⟨n, hn, -⟩
  · omega
  · obtain ⟨h2, h6, -, hlt⟩ := hn
    interval_cases n <;> simp only [utf8Limit] at hlt <;> omega

/-- The Integer that is made of a number in the range of UTF-8. -/
theorem uvInum_is {uv : ℕ} (h : uv < 2 ^ 31) : (uvInum L uv).Is uv := by
  have hword : (2 : ℤ) ^ 31 ≤ 2 ^ L.bits := by cases L <;> decide
  exact rbUint2inum_is (by omega) (by omega)

/-- **`pack` writes the characters of its Integers.** -/
theorem packItems_written {uvs : List ℕ} {encs : List (List UInt8)} (hw : Written uvs encs) :
    packItems chars toS fuel others ((uvs.map (uvInum L)).map .integer) utf8Format
      = .ok encs.flatten := by
  rw [packItems_utf8]
  have hrun : ∀ res, packEach packUtf8 uvs.length
      ⟨(uvs.map (uvInum L)).map .integer, res⟩
        = .ok ⟨[], res ++ encs.flatten⟩ := by
    induction hw with
    | nil => simp [packEach]
    | @cons uv enc uvs encs henc hw ih =>
        intro res
        have hlt := lt_of_uvToUtf8 henc
        simp only [List.map_cons, List.length_cons, packEach, packOne,
          packUtf8_eq (uvInum_is hlt) hlt, henc]
        rw [ih, List.flatten_cons, List.append_assoc]
  rw [List.length_map, List.length_map, hrun]
  rfl

/-- **`U` is a bijection** between the lists of Integers below 2^31 and the strings that `unpack`
accepts. -/
theorem utf8_bijection :
    (∀ xs : List (Inum L), (∀ x ∈ xs, x.Canonical ∧ 0 ≤ x.toInt ∧ x.toInt < 2 ^ 31) →
      ∃ res, packItems chars toS fuel others (xs.map .integer) utf8Format = .ok res ∧
        ∀ d : ByteString L, d.bytes = res → packUnpack d utf8Format = .ok (xs.map .integer)) ∧
    ∀ (d : ByteString L) (vs : List (Value L)), packUnpack d utf8Format = .ok vs →
      ∃ xs : List (Inum L), vs = xs.map .integer ∧
        packItems chars toS fuel others (xs.map .integer) utf8Format = .ok d.bytes := by
  refine ⟨?_, ?_⟩
  · intro xs hxs
    -- the numbers of the Integers, and their characters
    obtain ⟨encs, hw, hnum⟩ : ∃ encs, Written (xs.map fun x => x.toInt.toNat) encs ∧
        (xs.map fun x => x.toInt.toNat).map (uvInum L) = xs := by
      induction xs with
      | nil => exact ⟨[], .nil, rfl⟩
      | cons x xs ih =>
          obtain ⟨encs, hw, hnum⟩ := ih fun y hy => hxs y (by simp [hy])
          obtain ⟨hcanon, hnn, hlt⟩ := hxs x (by simp)
          have hlt' : x.toInt.toNat < 2 ^ 31 := by omega
          obtain ⟨enc, henc⟩ := exists_uvToUtf8 hlt'
          have hx : uvInum L x.toInt.toNat = x := by
            have his := uvInum_is (L := L) hlt'
            rw [Int.toNat_of_nonneg hnn] at his
            exact his.unique ⟨hcanon, rfl⟩
          refine ⟨enc :: encs, .cons henc hw, ?_⟩
          rw [List.map_cons, List.map_cons, hx, hnum]
    have hpack := packItems_written chars toS fuel others hw
    rw [hnum] at hpack
    refine ⟨encs.flatten, hpack, ?_⟩
    intro d hd
    have hreads : Reads d 0 encs.flatten := hd ▸ reads_start d
    have hcount := hw.length_le
    have hloop := utf8Loop_of_write hw hreads (k := d.len.toNat) (by
      rw [ByteString.len, hd]
      omega)
    rw [packUnpack_utf8, hloop]
    conv_rhs => rw [← hnum]
    simp [Except.map, Output.element, uvOutput]
  · intro d vs hrun
    rw [packUnpack_utf8] at hrun
    cases hres : (utf8Loop d d.len.toNat 0).result with
    | error e =>
        rw [hres] at hrun
        cases hrun
    | ok s' =>
        rw [hres] at hrun
        have hlen : d.bytes.length ≤ d.len.toNat := by
          rw [ByteString.len]
          omega
        obtain ⟨uvs, encs, hw, hbytes, hout⟩ := exists_written (reads_start d) hlen hres
        refine ⟨uvs.map (uvInum L), ?_, ?_⟩
        · rw [hout] at hrun
          rw [← Except.ok.inj hrun, List.map_map, List.map_map]
          rfl
        · rw [packItems_written chars toS fuel others hw, hbytes]

end Bijection

/-- Every number below 2^31 fits a word on both machines: the largest one comes back from its six
bytes. -/
theorem utf8_bijection_largest : ∃ res,
    packItems latin1Chars (fun _ => []) 0 (fun _ _ st => .ok st)
      ([long2num .ilp32 (2 ^ 31 - 1)].map .integer) utf8Format = .ok res ∧
    ∀ d : ByteString .ilp32, d.bytes = res →
      packUnpack d utf8Format = .ok ([long2num .ilp32 (2 ^ 31 - 1)].map .integer) := by
  have hx : (long2num .ilp32 (2 ^ 31 - 1)).Is (2 ^ 31 - 1) := long2num_is (by decide) (by decide)
  refine (utf8_bijection latin1Chars (fun _ => []) 0 (fun _ _ st => .ok st)).1 _ ?_
  intro x hmem
  rw [List.mem_singleton.mp hmem, hx.value]
  exact ⟨hx.canonical, by decide, by decide⟩

end MacRuby.Pack
