import MacRuby.Lib.BitStream
import MacRuby.Pack.Lines

/-!
# Uuencoded strings

The directive `u`. A line begins with a character for its length, of which `unpack` takes six bits,
so that a line of more than 63 bytes is read as a shorter one, and its other characters are taken
for lines of their own.

A line is followed as a list of numbers of six bits, of which the first is its length. The bits that
come out of it are bits that went into it. In a line that is read for what it is they keep their
places; in all others they come out before the place that they should have, by which such a string
is told from the one that was packed.

## Main definitions

* `lineSextets` — the numbers that the characters of a line stand for.
* `lineBytes` — the bytes that are put together from them.
* `Lags` — the bits of a string are bits of a line that come later.

## Main results

* `lineBytes_lineSextets` — a line is put together again.
* `uuLoop_lines` — the loop over lines that are short enough.
* `uuLoop_ne` — and over others.
* `uuRoundTrip_iff` — when the round trip succeeds.
-/

namespace MacRuby.Pack

open BitStream

variable {L : LongSize} {d : ByteString L} {s : ℤ} {t u : List UInt8}

/-! ## The numbers of a line -/

/-- Four numbers as a list. -/
def sextetList (x : ℕ × ℕ × ℕ × ℕ) : List ℕ := [x.1, x.2.1, x.2.2.1, x.2.2.2]

/-- The numbers that the characters for the bytes of a line stand for. -/
def lineSextets : List UInt8 → List ℕ
  | a :: b :: c :: u => sextetList (sextets a b c) ++ lineSextets u
  | [a, b] => sextetList (sextets a b 0)
  | [a] => sextetList (sextets a 0 0)
  | [] => []

/-- The padding is the character for zero. -/
theorem encodeGroups_uu (u : List UInt8) :
    encodeGroups uuTable 96 u = (lineSextets u).map uuTable := by
  induction u using lineSextets.induct with
  | case1 a b c u ih => rw [encodeGroups, lineSextets, ih, encodeHunk_eq, List.map_append]; rfl
  | case2 a b =>
      rw [encodeGroups, lineSextets, encodeHunk_eq]
      rfl
  | case3 a =>
      rw [encodeGroups, lineSextets, encodeHunk_eq]
      rfl
  | case4 => rfl

theorem length_lineSextets (u : List UInt8) : (lineSextets u).length
    = 4 * ((u.length + 2) / 3) := by
  rw [← List.length_map uuTable, ← encodeGroups_uu, length_encodeGroups]

theorem lineSextets_lt (u : List UInt8) : ∀ x ∈ lineSextets u, x < 64 := by
  have hlist : ∀ a b c, ∀ x ∈ sextetList (sextets a b c), x < 64 := by
    intro a b c
    obtain ⟨h1, h2, h3, h4⟩ := sextets_lt a b c
    simp only [sextetList, List.mem_cons, List.not_mem_nil, or_false]
    rintro x (rfl | rfl | rfl | rfl) <;> assumption
  induction u using lineSextets.induct with
  | case1 a b c u ih =>
      intro x hx
      rw [lineSextets, List.mem_append] at hx
      exact hx.elim (hlist a b c x) (ih x)
  | case2 a b => exact hlist a b 0
  | case3 a => exact hlist a 0 0
  | case4 => simp [lineSextets]

/-! ## The bytes of a line -/

/-- The bytes that are put together from the first four numbers; a number that is missing is
zero. -/
def headBytes (X : List ℕ) : List UInt8 :=
  hunkBytes (X.getD 0 0, X.getD 1 0, X.getD 2 0, X.getD 3 0)

/-- The `n` bytes that are put together from the numbers of a line. -/
def lineBytes : ℕ → List ℕ → List UInt8
  | 0, _ => []
  | 1, X => (headBytes X).take 1
  | 2, X => (headBytes X).take 2
  | n + 3, X => headBytes X ++ lineBytes n (X.drop 4)

attribute [grind =] lineBytes

@[simp] theorem length_lineBytes (n : ℕ) (X : List ℕ) : (lineBytes n X).length = n := by
  induction n, X using lineBytes.induct with
  | case1 X => rfl
  | case2 X => rfl
  | case3 X => rfl
  | case4 n X ih =>
      rw [lineBytes, List.length_append, ih]
      simp only [headBytes, hunkBytes, List.length_cons, List.length_nil]
      omega

/-- **The bytes of a line are put together again.** -/
theorem lineBytes_lineSextets (u : List UInt8) : lineBytes u.length (lineSextets u) = u := by
  have hhead : ∀ a b c v, headBytes (sextetList (sextets a b c) ++ v) = [a, b, c] :=
    fun a b c v => bytes_of_sextets a b c
  induction u using lineSextets.induct with
  | case1 a b c u ih =>
      simp only [List.length_cons, lineBytes, lineSextets, hhead]
      show [a, b, c] ++ lineBytes u.length (lineSextets u) = _
      rw [ih]
      rfl
  | case2 a b =>
      have h := hhead a b 0 []
      rw [List.append_nil] at h
      simp only [List.length_cons, List.length_nil, lineBytes, lineSextets, h]
      rfl
  | case3 a =>
      have h := hhead a 0 0 []
      rw [List.append_nil] at h
      simp only [List.length_cons, List.length_nil, lineBytes, lineSextets, h]
      rfl
  | case4 => rfl

/-! ## Their bits -/

/-- The bits of a string. -/
def byteBit (u : List UInt8) (i : ℕ) : Bool := bit 8 (u.map UInt8.toNat) i

theorem bit_headBytes {X : List ℕ} (hX : ∀ x ∈ X, x < 64) {i : ℕ} (hi : i < 24) :
    byteBit (headBytes X) i = bit 6 X i := by
  have hhigh : ∀ k j, 6 ≤ j → (X.getD k 0).testBit j = false := by
    intro k j hj
    have hlt : X.getD k 0 < 2 ^ 6 := by
      rw [List.getD_eq_getElem?_getD]
      cases h : X[k]? with
      | none => decide
      | some x => exact hX x (List.mem_of_getElem? h)
    exact Nat.testBit_lt_two_pow (hlt.trans_le (Nat.pow_le_pow_right (by decide) hj))
  have hbyte : ∀ n k, (UInt8.ofNat n).toNat.testBit k = (decide (k < 8) && n.testBit k) := by
    intro n k
    rw [UInt8.toNat_ofNat']
    exact Nat.testBit_mod_two_pow n 8 k
  simp only [byteBit, headBytes, hunkBytes, bit, List.map_cons, List.map_nil]
  interval_cases i <;>
    simp only [Nat.reduceDiv, Nat.reduceMod, Nat.reduceSub, List.getD_cons_zero,
      List.getD_cons_succ, hbyte, Nat.testBit_or, Nat.testBit_shiftLeft, Nat.testBit_shiftRight,
      Nat.reduceLT, Nat.reduceLeDiff, ge_iff_le, decide_true, decide_false, Bool.true_and,
      Bool.false_and, Bool.or_false, Bool.false_or, Nat.reduceAdd, hhigh]

theorem byteBit_append_left {v : List UInt8} {i : ℕ} (h : i < 8 * u.length) :
    byteBit (u ++ v) i = byteBit u i := by
  rw [byteBit, byteBit, List.map_append, bit_append_left (by rwa [List.length_map])]

theorem byteBit_append_right {v : List UInt8} {i : ℕ} :
    byteBit (u ++ v) (8 * u.length + i) = byteBit v i := by
  have h : bit 8 (u.map UInt8.toNat ++ v.map UInt8.toNat) (8 * (u.map UInt8.toNat).length + i)
      = bit 8 (v.map UInt8.toNat) i := bit_append_right (by decide)
  rwa [List.length_map, ← List.map_append] at h

theorem byteBit_of_le {i : ℕ} (h : 8 * u.length ≤ i) : byteBit u i = false :=
  bit_of_le (by decide) (by rwa [List.length_map])

/-- **The bits of the bytes are those of the numbers.** -/
theorem bit_lineBytes {X : List ℕ} (hX : ∀ x ∈ X, x < 64) {n i : ℕ} (hi : i < 8 * n) :
    byteBit (lineBytes n X) i = bit 6 X i := by
  have hlen : ∀ X, (headBytes X).length = 3 := fun X => rfl
  have htake : ∀ X k i, i < 8 * k → k ≤ 3 →
      byteBit ((headBytes X).take k) i = byteBit (headBytes X) i := by
    intro X k i hi hk
    conv_rhs => rw [← List.take_append_drop k (headBytes X)]
    rw [byteBit_append_left]
    rwa [List.length_take, hlen, min_eq_left hk]
  induction n, X using lineBytes.induct generalizing i with
  | case1 X => omega
  | case2 X => rw [lineBytes, htake X 1 i hi (by decide), bit_headBytes hX (by omega)]
  | case3 X => rw [lineBytes, htake X 2 i hi (by decide), bit_headBytes hX (by omega)]
  | case4 n X ih =>
      rw [lineBytes]
      rcases Nat.lt_or_ge i 24 with hlow | hhigh
      · rw [byteBit_append_left (by rwa [hlen]), bit_headBytes hX hlow]
      · obtain ⟨j, rfl⟩ := Nat.exists_eq_add_of_le hhigh
        have hdrop : ∀ x ∈ X.drop 4, x < 64 := fun x hx => hX x (List.mem_of_mem_drop hx)
        have h := byteBit_append_right (u := headBytes X) (v := lineBytes n (X.drop 4)) (i := j)
        rw [hlen] at h
        rw [h, ih hdrop (by omega), bit_drop (by decide)]

/-- The bits of the numbers are those of the bytes, with zeros after them. -/
theorem bit_lineSextets (u : List UInt8) (i : ℕ) : bit 6 (lineSextets u) i = byteBit u i := by
  have hgroup : ∀ a b c i, bit 6 (sextetList (sextets a b c)) i = byteBit [a, b, c] i := by
    intro a b c i
    rcases Nat.lt_or_ge i 24 with hi | hi
    · have hbytes : headBytes (sextetList (sextets a b c)) = [a, b, c] := bytes_of_sextets a b c
      have hlt : ∀ x ∈ sextetList (sextets a b c), x < 64 := by
        have h := lineSextets_lt [a, b, c]
        rwa [lineSextets, lineSextets, List.append_nil] at h
      rw [← hbytes, bit_headBytes hlt hi]
    · rw [bit_of_le (by decide) hi, byteBit_of_le hi]
  have hzero : ∀ u i, byteBit (u ++ [0]) i = byteBit u i := by
    intro u i
    rw [byteBit, List.map_append]
    exact bit_append_zero (by decide)
  induction u using lineSextets.induct generalizing i with
  | case1 a b c u ih =>
      rw [lineSextets]
      rcases Nat.lt_or_ge i 24 with hi | hi
      · rw [bit_append_left hi, hgroup]
        exact (byteBit_append_left (u := [a, b, c]) hi).symm
      · obtain ⟨j, rfl⟩ := Nat.exists_eq_add_of_le hi
        have hnext : bit 6 (sextetList (sextets a b c) ++ lineSextets u) (24 + j)
            = bit 6 (lineSextets u) j := bit_append_right (by decide)
        rw [hnext, ih]
        exact (byteBit_append_right (u := [a, b, c])).symm
  | case2 a b => exact (hgroup a b 0 i).trans (hzero [a, b] i)
  | case3 a => exact ((hgroup a 0 0 i).trans (hzero [a, 0] i)).trans (hzero [a] i)
  | case4 => rw [bit_of_le (by decide) (Nat.zero_le _), byteBit_of_le (Nat.zero_le _)]

/-! ## Reading a line -/

/-- The characters of the table: they begin a line and end none, and `unpack` finds their number. -/
theorem uuTable_spec {x : ℕ} (h : x < 64) : (((uuTable x).toNat - 32) &&& 63) = x ∧
    32 < schar (uuTable x) ∧ schar (uuTable x) < 97 ∧ uuTable x ≠ 10 ∧ uuTable x ≠ 13 := by
  have hall : ∀ k : Fin 64, (((uuTable k.val).toNat - 32) &&& 63) = k.val ∧
      32 < schar (uuTable k.val) ∧ schar (uuTable k.val) < 97 ∧ uuTable k.val ≠ 10 ∧
      uuTable k.val ≠ 13 := by decide +kernel
  exact hall ⟨x, h⟩

/-- What is left of a line with its end, and of the lines after it. -/
def rest (X : List ℕ) (t : List UInt8) : List UInt8 := X.map uuTable ++ 10 :: t

section Line

variable {X : List ℕ} (hX : ∀ x ∈ X, x < 64)

include hX

theorem uuGet_rest (h : Reads d s (rest X t)) :
    (uuGet d s).1 = X.getD 0 0 ∧ Reads d (uuGet d s).2 (rest (X.drop 1) t) := by
  cases X with
  | nil =>
      have hget : d.get s = 10 := h.get
      have hlow : ¬ schar 10 ≥ 32 := by decide
      rw [uuGet, hget, if_neg (fun h => hlow h.2)]
      exact ⟨rfl, h⟩
  | cons x X =>
      have hcons : Reads d s (uuTable x :: rest X t) := h
      obtain ⟨hnum, hlow, -⟩ := uuTable_spec (hX x (by simp))
      rw [uuGet, hcons.get, if_pos ⟨hcons.lt, hlow.le⟩, hnum]
      exact ⟨rfl, hcons.next⟩

theorem uuHunk_rest (h : Reads d s (rest X t)) :
    (uuHunk d s).1 = headBytes X ∧ Reads d (uuHunk d s).2 (rest (X.drop 4) t) := by
  have hdrop : ∀ k, ∀ x ∈ X.drop k, x < 64 := fun k x hx => hX x (List.mem_of_mem_drop hx)
  have hgetD : ∀ k, (X.drop k).getD 0 0 = X.getD k 0 := by
    intro k
    rw [List.getD_eq_getElem?_getD, List.getElem?_drop, add_zero, List.getD_eq_getElem?_getD]
  obtain ⟨h1, r1⟩ := uuGet_rest hX h
  obtain ⟨h2, r2⟩ := uuGet_rest (hdrop 1) r1
  rw [List.drop_drop] at r2
  obtain ⟨h3, r3⟩ := uuGet_rest (hdrop 2) r2
  rw [List.drop_drop] at r3
  obtain ⟨h4, r4⟩ := uuGet_rest (hdrop 3) r3
  rw [List.drop_drop] at r4
  rw [hgetD] at h2 h3 h4
  rw [uuHunk]
  dsimp only
  rw [h1, h2, h3, h4]
  exact ⟨rfl, r4⟩

/-- **The data of a line.** -/
theorem uuLine_rest {n : ℕ} (h : Reads d s (rest X t)) : (uuLine d n s).1 = lineBytes n X ∧
    Reads d (uuLine d n s).2 (rest (X.drop (4 * ((n + 2) / 3))) t) := by
  induction n, X using lineBytes.induct generalizing s with
  | case1 X => exact ⟨rfl, h⟩
  | case2 X =>
      obtain ⟨h1, r1⟩ := uuHunk_rest hX h
      rw [uuLine, lineBytes, h1]
      exact ⟨rfl, r1⟩
  | case3 X =>
      obtain ⟨h1, r1⟩ := uuHunk_rest hX h
      rw [uuLine, lineBytes, h1]
      exact ⟨rfl, r1⟩
  | case4 n X ih =>
      obtain ⟨h1, r1⟩ := uuHunk_rest hX h
      obtain ⟨h2, r2⟩ := ih (fun x hx => hX x (List.mem_of_mem_drop hx)) r1
      have hcount : 4 + 4 * ((n + 2) / 3) = 4 * ((n + 3 + 2) / 3) := by omega
      rw [List.drop_drop, hcount] at r2
      rw [uuLine, lineBytes, h1, ← h2]
      exact ⟨rfl, r2⟩

/-- The end of a line; one character that is left over is taken for a checksum. -/
theorem uuEnd_rest (h : Reads d s (rest X t)) :
    Reads d (uuEnd d s) (if X.length ≤ 1 then t else rest X t) := by
  cases X with
  | nil =>
      have hbreak : Reads d s (10 :: t) := h
      have hcr : ¬ d.get s = 13 := by
        rw [hbreak.get]
        decide
      rw [uuEnd, if_neg hcr, if_pos hbreak.get]
      exact hbreak.next
  | cons x X =>
      have hcons : Reads d s (uuTable x :: rest X t) := h
      obtain ⟨-, -, -, hlf, hcr⟩ := uuTable_spec (hX x (by simp))
      rw [← hcons.get] at hlf hcr
      rw [uuEnd, if_neg hcr, if_neg hlf]
      cases X with
      | nil =>
          have hbreak : Reads d (s + 1) (10 :: t) := hcons.next
          have htwo : s + 1 + 1 = s + 2 := by ring
          rw [if_pos ⟨hcons.lt, .inr hbreak.get⟩]
          exact htwo ▸ hbreak.next
      | cons y X =>
          have hnext : Reads d (s + 1) (uuTable y :: rest X t) := hcons.next
          obtain ⟨-, -, -, hlf', -⟩ := uuTable_spec (hX y (by simp))
          have hlt := hnext.lt
          rw [← hnext.get] at hlf'
          rw [if_neg (fun h => h.2.elim (by omega) hlf')]
          exact h

end Line

/-! ## Turns of the loop -/

variable {buflen total : ℤ} {fuel : ℕ}

theorem length_uuLine (d : ByteString L) (n : ℕ) (s : ℤ) : (uuLine d n s).1.length = n := by
  induction n, s using uuLine.induct d with
  | case1 s => rfl
  | case2 s => rfl
  | case3 s => rfl
  | case4 n s ih =>
      rw [uuLine, List.length_append, ih, uuHunk]
      simp only [List.length_cons, List.length_nil]
      omega

/-- The count of a line leaves the bytes within the buffer. -/
theorem uuCount_bounds (h : total ≤ buflen) :
    0 ≤ uuCount d buflen total s ∧ total + uuCount d buflen total s ≤ buflen := by
  rw [uuCount]
  split_ifs <;> omega

/-- **The loop does not write behind the end of the buffer.** -/
theorem length_uuLoop_le (d : ByteString L) (fuel : ℕ) (s : ℤ) (h : total ≤ buflen) :
    total + (uuLoop d buflen fuel total s).1.length ≤ buflen := by
  induction fuel generalizing total s with
  | zero => simpa [uuLoop] using h
  | succ n ih =>
      rw [uuLoop]
      split_ifs
      · obtain ⟨h0, h1⟩ := uuCount_bounds (d := d) (s := s) h
        have hrest := ih (uuEnd d (uuLine d (uuCount d buflen total s).toNat (s + 1)).2) h1
        dsimp only
        rw [List.length_append, length_uuLine]
        push_cast
        rw [Int.toNat_of_nonneg h0]
        omega
      · simpa using h

/-- **A turn of the loop** at numbers of which the first is a length. -/
theorem uuLoop_turn (fuel : ℕ) {x : ℕ} {X : List ℕ} (hX : ∀ y ∈ x :: X, y < 64)
    (h : Reads d s (rest (x :: X) t)) (htotal : total ≤ buflen) :
    ∃ n : ℕ, ∃ s', n ≤ x ∧ (total + n < buflen → n = x) ∧ total + n ≤ buflen ∧
      (uuLoop d buflen (fuel + 1) total s).1
        = lineBytes n X ++ (uuLoop d buflen fuel (total + n) s').1 ∧
      Reads d s' (if (X.drop (4 * ((n + 2) / 3))).length ≤ 1 then t
        else rest (X.drop (4 * ((n + 2) / 3))) t) := by
  have hcons : Reads d s (uuTable x :: rest X t) := h
  obtain ⟨hnum, hlow, hhigh, -⟩ := uuTable_spec (hX x (by simp))
  have hX' : ∀ y ∈ X, y < 64 := fun y hy => hX y (by simp [hy])
  have hbegins : uuBegins d s = true := by
    rw [uuBegins, hcons.get]
    simp [hcons.lt, hlow, hhigh]
  obtain ⟨h0, h1⟩ := uuCount_bounds (d := d) (s := s) htotal
  have hcount : uuCount d buflen total s ≤ x ∧
      (total + uuCount d buflen total s < buflen → uuCount d buflen total s = x) := by
    rw [uuCount, hcons.get, hnum]
    split_ifs <;> omega
  obtain ⟨n, hn⟩ := Int.eq_ofNat_of_zero_le h0
  rw [hn] at h1 hcount
  obtain ⟨hdata, hline⟩ := uuLine_rest (n := n) hX' hcons.next
  refine ⟨n, uuEnd d (uuLine d n (s + 1)).2, by omega, by omega, h1, ?_, ?_⟩
  · rw [uuLoop, if_pos hbegins, hn]
    dsimp only
    rw [Int.toNat_natCast, hdata]
  · exact uuEnd_rest (fun y hy => hX' y (List.mem_of_mem_drop hy)) hline

/-- A character that begins a line is the one in the table for its number. -/
theorem uuTable_of_uuBegins {n : ℕ} (h : uuBegins d s = true)
    (hget : d.get s = UInt8.ofNat (n + 32)) : UInt8.ofNat (n + 32) = uuTable (n % 64) := by
  have hrange : ∀ k : Fin 256, 32 < (k.val : ℤ).bmod 256 → (k.val : ℤ).bmod 256 < 97 →
      33 ≤ k.val ∧ k.val ≤ 96 := by decide +kernel
  simp only [uuBegins, Bool.and_eq_true, decide_eq_true_eq] at h
  obtain ⟨h0, h1⟩ := hrange ⟨(d.get s).toNat, (d.get s).toNat_lt⟩ h.1.2 h.2
  simp only [hget, UInt8.toNat_ofNat'] at h0 h1
  rw [← UInt8.toNat_inj, uuTable, UInt8.toNat_ofNat']
  split_ifs with hzero
  · have hsixty : (96 : UInt8).toNat = 96 := by decide
    rw [hsixty]
    omega
  · have hmod : 32 + n % 64 < 2 ^ 8 := by omega
    rw [UInt8.toNat_ofNat', Nat.mod_eq_of_lt hmod]
    omega

/-- A line of `u`: its length, and its numbers. -/
theorem encodedLine_uu (u t : List UInt8) :
    encodedLine true u ++ t = UInt8.ofNat (u.length + 32) :: rest (lineSextets u) t := by
  simp [encodedLine, encodeGroups_uu, rest]

/-- The length of a line that is short enough is a number, too. -/
theorem encodedLine_short {u : List UInt8} (hu : u ≠ []) (t : List UInt8) :
    encodedLine true u ++ t = rest (u.length :: lineSextets u) t := by
  have hne : u.length ≠ 0 := fun hzero => hu (List.eq_nil_of_length_eq_zero hzero)
  have hchar : UInt8.ofNat (u.length + 32) = uuTable u.length := by
    rw [uuTable, if_neg hne, Nat.add_comm]
  rw [encodedLine_uu, hchar]
  rfl

/-! ## Lines that are short enough -/

/-- The numbers of a line with its length. -/
theorem sextet_lt_of_mem {n : ℕ} (hn : n < 64) : ∀ y ∈ n :: lineSextets u, y < 64 := by
  intro y hy
  rcases List.mem_cons.mp hy with rfl | hy
  · exact hn
  · exact lineSextets_lt u y hy

/-- The loop at a line that is short enough. -/
theorem uuLoop_short (fuel : ℕ) (hu : u ≠ []) (hlen : u.length ≤ 63)
    (h : Reads d s (encodedLine true u ++ t))
    (htotal : total + u.length ≤ buflen) :
    ∃ s', (uuLoop d buflen (fuel + 1) total s).1
        = u ++ (uuLoop d buflen fuel (total + u.length) s').1 ∧ Reads d s' t := by
  rw [encodedLine_short hu] at h
  obtain ⟨n, s', hle, hfull, hroom, hloop, hreads⟩ := uuLoop_turn fuel
    (sextet_lt_of_mem (by omega)) h (show total ≤ buflen by omega)
  obtain rfl : n = u.length := by omega
  have hnone : (lineSextets u).drop (4 * ((u.length + 2) / 3)) = [] := by
    rw [← length_lineSextets, List.drop_length]
  rw [hnone, if_pos (by simp)] at hreads
  rw [lineBytes_lineSextets] at hloop
  exact ⟨s', hloop, hreads⟩

/-- **The loop over lines that are short enough.** -/
theorem uuLoop_lines {len : ℕ} (hlen : 0 < len) (hlines : Lines true len u t)
    (hshort : min len u.length ≤ 63) (h : Reads d s t) (hfuel : t.length < fuel)
    (htotal : total + u.length ≤ buflen) : (uuLoop d buflen fuel total s).1 = u := by
  induction hlines generalizing s fuel total with
  | nil =>
      have hs := h.eq_len
      cases fuel with
      | zero => rfl
      | succ fuel =>
          have hend : ¬ uuBegins d s = true := by
            intro hb
            have := lt_of_uuBegins hb
            omega
          rw [uuLoop, if_neg hend]
  | @cons u t hu ht ih =>
      obtain ⟨fuel, rfl⟩ : ∃ k, fuel = k + 1 := ⟨fuel - 1, by omega⟩
      have hne : u.take len ≠ [] := by
        rw [ne_eq, List.take_eq_nil_iff, not_or]
        exact ⟨hlen.ne', hu⟩
      have hsplit := congrArg List.length (List.take_append_drop len u)
      rw [List.length_append] at hsplit
      have hline : 0 < (encodedLine true (u.take len)).length := by simp [encodedLine]
      rw [List.length_append] at hfuel
      have htake : (u.take len).length ≤ 63 := by rwa [List.length_take]
      have htotal' : total + (u.take len).length ≤ buflen := by omega
      obtain ⟨s', hloop, hreads⟩ := uuLoop_short fuel hne htake h htotal'
      have hdrop : min len (u.drop len).length ≤ 63 := by
        rw [List.length_drop]
        omega
      have hfuel' : t.length < fuel := by omega
      rw [hloop, ih hdrop hreads hfuel' (by omega), List.take_append_drop]

/-! ## Lines that are too long -/

/-- The bits of a string are bits of a line that stand `k` places later. -/
def Lags (k : ℕ) (O : List UInt8) (X : List ℕ) : Prop :=
  ∀ i, byteBit O i = true → ∃ j ≥ i + k, bit 6 X j = true

/-- What the loop makes of a piece of a line, up to the next line: it writes `O`, and it goes on
there. -/
structure Passes (d : ByteString L) (buflen : ℤ) (fuel : ℕ) (total s : ℤ) (t O : List UInt8)
    (fuel' : ℕ) (s' : ℤ) : Prop where
  out : (uuLoop d buflen fuel total s).1
    = O ++ (uuLoop d buflen fuel' (total + O.length) s').1
  reads : Reads d s' t
  fuel_lt : t.length < fuel'
  room : total + O.length ≤ buflen

/-- **The loop within a line**: the bits come out six places too early at least, and nothing comes
out of zeros. -/
theorem uuLoop_garbage {X : List ℕ} (hX : ∀ x ∈ X, x < 64) (hne : X ≠ [])
    (h : Reads d s (rest X t)) (htotal : total ≤ buflen) (hfuel : X.length + t.length < fuel) :
    ∃ O fuel' s', Passes d buflen fuel total s t O fuel' s' ∧ Lags 6 O X ∧
      ((∀ x ∈ X, x = 0) → O = []) := by
  induction hk : X.length using Nat.strong_induction_on generalizing X s total fuel with
  | _ k ih =>
      obtain ⟨x, X, rfl⟩ := List.exists_cons_of_ne_nil hne
      obtain ⟨fuel, rfl⟩ : ∃ m, fuel = m + 1 := ⟨fuel - 1, by omega⟩
      rw [List.length_cons] at hk hfuel
      have hX' : ∀ y ∈ X, y < 64 := fun y hy => hX y (by simp [hy])
      obtain ⟨n, s', hle, -, hroom, hloop, hreads⟩ := uuLoop_turn fuel hX h htotal
      have hshift : ∀ i, bit 6 X i = bit 6 (x :: X) (i + 6) := by
        intro i
        have hdrop : bit 6 ((x :: X).drop 1) i = bit 6 (x :: X) (6 + i) := bit_drop (by decide) 1
        rw [Nat.add_comm]
        exact hdrop
      have hhead : Lags 6 (lineBytes n X) (x :: X) := by
        intro i hi
        have hin : i < 8 * n := by
          by_contra hout
          rw [byteBit_of_le (by rw [length_lineBytes]; omega)] at hi
          cases hi
        rw [bit_lineBytes hX' hin, hshift] at hi
        exact ⟨i + 6, le_rfl, hi⟩
      have hzero : (∀ y ∈ x :: X, y = 0) → n = 0 := by
        intro hall
        have := hall x (by simp)
        omega
      split_ifs at hreads with hshort
      · -- the line ends here
        refine ⟨lineBytes n X, fuel, s', ⟨?_, hreads, by omega, ?_⟩, hhead, ?_⟩
        · rw [length_lineBytes, hloop]
        · rwa [length_lineBytes]
        · intro hall
          rw [hzero hall]
          rfl
      · -- the next character is taken for another length
        have hlen := List.length_drop (i := 4 * ((n + 2) / 3)) (l := X)
        generalize hY : X.drop (4 * ((n + 2) / 3)) = Y at *
        have hsub : ∀ y ∈ Y, y ∈ X := fun y hy => List.mem_of_mem_drop (hY ▸ hy)
        have hYne : Y ≠ [] := by
          rintro rfl
          exact hshort (by decide)
        have hfuelY : Y.length + t.length < fuel := by omega
        obtain ⟨O, fuel', s'', hpass, hlags, hnone⟩ := ih Y.length (by omega)
          (fun y hy => hX' y (hsub y hy)) hYne hreads hroom hfuelY rfl
        refine ⟨lineBytes n X ++ O, fuel', s'', ⟨?_, hpass.reads, hpass.fuel_lt, ?_⟩, ?_, ?_⟩
        · have htot : total + ((lineBytes n X ++ O).length : ℕ) = total + n + O.length := by
            rw [List.length_append, length_lineBytes]
            push_cast
            ring
          rw [hloop, hpass.out, htot, List.append_assoc]
        · have := hpass.room
          rw [List.length_append, length_lineBytes]
          push_cast
          omega
        · intro i hi
          rcases Nat.lt_or_ge i (8 * n) with hlow | hhigh
          · rw [byteBit_append_left (by rwa [length_lineBytes])] at hi
            exact hhead i hi
          · obtain ⟨m, rfl⟩ := Nat.exists_eq_add_of_le hhigh
            have happend := byteBit_append_right (u := lineBytes n X) (v := O) (i := m)
            rw [length_lineBytes] at happend
            rw [happend] at hi
            obtain ⟨j, hj, hone⟩ := hlags m hi
            rw [← hY, bit_drop (by decide), hshift] at hone
            exact ⟨_, by omega, hone⟩
        · intro hall
          rw [hzero hall, hnone fun y hy => hall y (by simp [hsub y hy])]
          rfl

/-- The loop at a line that is too long: it stops, or it reads the first `n` bytes, and what comes
out behind them comes too early. -/
theorem uuLoop_long (hu : 64 ≤ u.length) (h : Reads d s (encodedLine true u ++ t))
    (htotal : total ≤ buflen) (hfuel : (encodedLine true u ++ t).length < fuel) :
    (uuLoop d buflen fuel total s).1 = [] ∨
      ∃ n O fuel' s', n < 64 ∧ Passes d buflen fuel total s t O fuel' s' ∧
        (∀ i ≥ 8 * n, byteBit O i = true → ∃ j > i, byteBit u j = true) ∧
        ((∀ j ≥ 8 * n, byteBit u j = false) → O.length = n) := by
  obtain ⟨fuel, rfl⟩ : ∃ m, fuel = m + 1 := ⟨fuel - 1, by omega⟩
  rw [encodedLine_uu] at h hfuel
  by_cases hb : uuBegins d s = true
  · right
    rw [uuTable_of_uuBegins hb h.get] at h
    have hfuel' : (lineSextets u).length + t.length < fuel := by
      simp only [rest, List.length_cons, List.length_append, List.length_map] at hfuel
      omega
    obtain ⟨n, s', hle, -, hroom, hloop, hreads⟩ := uuLoop_turn (X := lineSextets u) fuel
      (sextet_lt_of_mem (Nat.mod_lt _ (by decide))) h htotal
    have hlen := List.length_drop (i := 4 * ((n + 2) / 3)) (l := lineSextets u)
    have hbits : ∀ j, bit 6 ((lineSextets u).drop (4 * ((n + 2) / 3))) j
        = byteBit u (6 * (4 * ((n + 2) / 3)) + j) := by
      intro j
      rw [bit_drop (by decide), bit_lineSextets]
    have hlt : ∀ y ∈ (lineSextets u).drop (4 * ((n + 2) / 3)), y < 64 :=
      fun y hy => lineSextets_lt u y (List.mem_of_mem_drop hy)
    rw [length_lineSextets] at hlen
    -- a group at least is left of the line
    generalize (lineSextets u).drop (4 * ((n + 2) / 3)) = Y at *
    rw [if_neg (by omega)] at hreads
    have hne : Y ≠ [] := by
      rintro rfl
      rw [List.length_nil] at hlen
      omega
    have hfuelY : Y.length + t.length < fuel := by
      rw [length_lineSextets] at hfuel'
      omega
    obtain ⟨O, fuel', s'', hpass, hlags, hnone⟩ := uuLoop_garbage hlt hne hreads hroom hfuelY
    have htot : total + ((lineBytes n (lineSextets u) ++ O).length : ℕ) = total + n + O.length := by
      rw [List.length_append, length_lineBytes]
      push_cast
      ring
    refine ⟨n, lineBytes n (lineSextets u) ++ O, fuel', s'', by omega, ⟨?_, hpass.reads,
      hpass.fuel_lt, ?_⟩, ?_, ?_⟩
    · rw [hloop, hpass.out, htot, List.append_assoc]
    · rw [htot]
      exact hpass.room
    · intro i hi hone
      obtain ⟨m, rfl⟩ := Nat.exists_eq_add_of_le hi
      have happend := byteBit_append_right (u := lineBytes n (lineSextets u)) (v := O) (i := m)
      rw [length_lineBytes] at happend
      rw [happend] at hone
      obtain ⟨j, hj, hbit⟩ := hlags m hone
      rw [hbits] at hbit
      exact ⟨_, by omega, hbit⟩
    · intro hall
      have hzero : ∀ y ∈ Y, y = 0 := by
        refine eq_zero_of_bit (w := 6) (by decide) hlt ?_
        intro j
        rw [hbits]
        exact hall _ (by omega)
      rw [hnone hzero, List.append_nil, length_lineBytes]
  · left
    rw [uuLoop, if_neg hb]

/-- **Lines of which one is too long are not read again**: behind the bytes that are missing, or
from a line that is too long on, something else comes out. -/
theorem uuLoop_ne {len : ℕ} (hlen : 0 < len) (hlines : Lines true len u t) {P : List UInt8}
    (hP : P ≠ [] ∨ 64 ≤ (u.take len).length) (h : Reads d s t) (hfuel : t.length < fuel)
    (htotal : total + P.length + u.length < buflen) :
    (uuLoop d buflen fuel total s).1 ≠ P ++ u := by
  induction hlines generalizing s fuel total P with
  | nil =>
      have hs := h.eq_len
      have hP' : P ≠ [] := hP.resolve_right (by simp)
      obtain ⟨fuel, rfl⟩ : ∃ k, fuel = k + 1 := ⟨fuel - 1, by omega⟩
      have hend : ¬ uuBegins d s = true := by
        intro hb
        have := lt_of_uuBegins hb
        omega
      rw [uuLoop, if_neg hend, List.append_nil]
      exact hP'.symm
  | @cons u t hu ht ih =>
      intro heq
      obtain ⟨S, hS⟩ : ∃ S, u.take len = S := ⟨_, rfl⟩
      obtain ⟨R, hR⟩ : ∃ R, u.drop len = R := ⟨_, rfl⟩
      have hsplit : S ++ R = u := by rw [← hS, ← hR, List.take_append_drop]
      have hne : S ≠ [] := by
        rw [← hS, ne_eq, List.take_eq_nil_iff, not_or]
        exact ⟨hlen.ne', hu⟩
      rw [hS] at h hP hfuel
      rw [hR] at ih
      have hulen : u.length = S.length + R.length := by rw [← hsplit, List.length_append]
      -- bytes are missing still when fewer came out than the line has with those before it
      have hmissing : ∀ {O fuel' s'}, Passes d buflen fuel total s t O fuel' s' →
          ¬ O.length < P.length + S.length := by
        intro O fuel' s' hpass hlt
        have hdrop := congrArg (List.drop O.length) (hpass.out.symm.trans heq)
        rw [List.drop_left, ← hsplit, ← List.append_assoc,
          List.drop_append_of_le_length (by rw [List.length_append]; omega)] at hdrop
        have hlenP : ((P ++ S).drop O.length).length = P.length + S.length - O.length := by
          rw [List.length_drop, List.length_append]
        refine ih (P := (P ++ S).drop O.length) (.inl ?_) hpass.reads hpass.fuel_lt ?_ hdrop
        · apply List.ne_nil_of_length_pos
          omega
        · rw [hlenP]
          omega
      rcases Nat.lt_or_ge S.length 64 with hshort | hlong
      · have hP' : P ≠ [] := hP.resolve_right (by omega)
        obtain ⟨fuel, rfl⟩ : ∃ k, fuel = k + 1 := ⟨fuel - 1, by omega⟩
        have hroom : total + S.length ≤ buflen := by omega
        obtain ⟨s', hloop, hreads⟩ := uuLoop_short fuel hne (by omega) h hroom
        have hline : 0 < (encodedLine true S).length := by simp [encodedLine]
        rw [List.length_append] at hfuel
        have hpos := List.length_pos_iff.mpr hP'
        exact hmissing ⟨hloop, hreads, by omega, hroom⟩ (by omega)
      · have hroom : total ≤ buflen := by omega
        rcases uuLoop_long hlong h hroom hfuel with hnil | ⟨n, O, fuel', s', hn, hpass,
          hlate, hzero⟩
        · rw [hnil] at heq
          exact hu (List.append_eq_nil_iff.mp heq.symm).2
        · have hge := not_lt.mp (hmissing hpass)
          have hbits : ∀ i, byteBit S i = true → byteBit O (8 * P.length + i) = true := by
            intro i hi
            have hin : i < 8 * S.length := by
              by_contra hout
              rw [byteBit_of_le (not_lt.mp hout)] at hi
              cases hi
            have hleft : byteBit (uuLoop d buflen fuel total s).1 (8 * P.length + i)
                = byteBit O (8 * P.length + i) := by
              rw [hpass.out, byteBit_append_left (by omega)]
            rw [← hleft, heq, byteBit_append_right, ← hsplit, byteBit_append_left hin]
            exact hi
          -- a last bit behind the bytes that were read would come from one behind it
          have hnone : ∀ j ≥ 8 * n, byteBit S j = false := by
            intro j hj
            by_contra hone
            rw [Bool.not_eq_false] at hone
            obtain ⟨z, hz, hbit, hlast⟩ := exists_last (by decide) hone
            obtain ⟨k, hk, hlater⟩ := hlate _ (by omega) (hbits z hbit)
            have hnot := hlast k (by omega)
            rw [byteBit] at hlater
            rw [hnot] at hlater
            cases hlater
          have hcount := hzero hnone
          omega

/-! ## The round trip -/

section RoundTrip

variable (chars : ByteChars) (toS : Inum L → List UInt8) (fuel : ℕ)
  (others : UInt8 → Modifiers → ItemState L → Except (PackError ItemError) (ItemState L))

theorem packUnpack_uu (d : ByteString L) : packUnpack d [117]
    = if (L.toLong (d.len * 3)).tdiv 4 < 0 then .error .negativeSize
      else .ok [.string (uuLoop d ((L.toLong (d.len * 3)).tdiv 4) (d.len.toNat + 1) 0 0).1] := by
  have hm : unpackModifiers L 117 [] d.len = .ok (⟨false, false, 1⟩, []) := rfl
  have hunpack := packUnpack_single d rfl (by decide) hm
  have hdir : directive 117 = .u := rfl
  rw [hunpack, hdir, unpackDirective, unpackUu, strNew, sub_zero]
  split_ifs <;> rfl

variable {p : List UInt8} {m : Modifiers}

/-- The buffer is long enough for a string that comes back. -/
theorem length_le_of_packUnpack_uu (h : packUnpack d [117] = .ok [.string u]) :
    (u.length : ℤ) ≤ (L.toLong (d.len * 3)).tdiv 4 := by
  rw [packUnpack_uu] at h
  split_ifs at h with hneg
  · have hout := length_uuLoop_le d (d.len.toNat + 1) 0 (not_lt.mp hneg)
    injection h with h
    injection h with h
    injection h with h
    rw [h] at hout
    omega

/-- A line that is too long does not come back. -/
theorem not_roundTrips_uu_of_long (hm : Accepted L 117 p 1 m)
    (hlong : 64 ≤ min (lineLength m.len) u.length) :
    ¬ RoundTrips chars toS fuel others 117 p u := by
  rintro ⟨res, hpack, hlen', hback⟩
  have hlen := hlen'
  obtain ⟨hpos, h3⟩ := lineLength_spec m.len
  have hlines : Lines true (lineLength m.len) u res := lines_of_packItems true hm hpack
  have hE := hlines.length_eq hpos h3
  have hunpack := hback ⟨res, fun _ => 0, hlen'⟩ rfl
  have hbuf := length_le_of_packUnpack_uu hunpack
  rw [ByteString.len, hE] at hbuf
  rw [hE] at hlen
  have hfit := (room_iff hpos h3 hlen).mp hbuf
  -- the length of a line makes the buffer longer than the string
  have hroom : (0 : ℤ) + ([] : List UInt8).length + u.length
      < (L.toLong (linesLength true (lineLength m.len) u.length * 3)).tdiv 4 := by
    have hpos' : (0 : ℤ) < 2 ^ (L.bits - 1) := by positivity
    have hline : 0 < (u.length + lineLength m.len - 1) / lineLength m.len :=
      Nat.div_pos (by omega) hpos
    have hlow : 4 * ((u.length + 2) / 3) + 2 ≤ linesLength true (lineLength m.len) u.length := by
      simp only [linesLength, if_true]
      omega
    rw [L.toLong_eq (by omega) (by omega), Int.tdiv_eq_ediv_of_nonneg (by omega), List.length_nil]
    omega
  have hreads : Reads ⟨res, fun _ => 0, hlen'⟩ 0 res := reads_start _
  rw [packUnpack_uu, ByteString.len, hE, if_neg (by omega)] at hunpack
  have hfuel : res.length < (linesLength true (lineLength m.len) u.length : ℤ).toNat + 1 := by omega
  refine uuLoop_ne hpos hlines (.inr ?_) hreads hfuel hroom ?_
  · rwa [List.length_take]
  · injection hunpack with hlist
    injection hlist with hvalue
    injection hvalue

/-- **When the round trip succeeds**: three times the length of the text must be a `long`, and no
line may be longer than 63 bytes. -/
theorem uuRoundTrip_iff (hm : Accepted L 117 p 1 m) : RoundTrips chars toS fuel others 117 p u ↔
    (3 * linesLength true (lineLength m.len) u.length : ℤ) < 2 ^ (L.bits - 1) ∧
      min (lineLength m.len) u.length ≤ 63 := by
  obtain ⟨hpos, h3⟩ := lineLength_spec m.len
  constructor
  · intro h
    refine ⟨?_, ?_⟩
    · obtain ⟨res, hpack, hlen, hback⟩ := h
      have hE := (lines_of_packItems true hm hpack).length_eq hpos h3
      have hbuf := length_le_of_packUnpack_uu (hback ⟨res, fun _ => 0, hlen⟩ rfl)
      rw [ByteString.len, hE] at hbuf
      rw [hE] at hlen
      exact (room_iff hpos h3 hlen).mp hbuf
    · by_contra hlong
      exact not_roundTrips_uu_of_long chars toS fuel others hm (by omega) h
  · rintro ⟨hfit, hshort⟩
    obtain ⟨hlow, -⟩ := linesLength_bounds true u.length hpos h3
    have hroom := (room_iff (L := L) hpos h3 (by omega)).mpr hfit
    obtain ⟨t, ht, hlines⟩ := packLines_spec (L := L) (s := u) true m.len (by omega)
    have hE := hlines.length_eq hpos h3
    refine ⟨t, ?_, by omega, ?_⟩
    · refine (packItems_lines chars toS fuel others true u hm).trans ?_
      rw [ht]
      rfl
    · intro d hd
      have hlen : d.len = linesLength true (lineLength m.len) u.length := by
        rw [ByteString.len, hd, hE]
      have hreads : Reads d 0 t := hd ▸ reads_start d
      have htotal : (0 : ℤ) + u.length ≤ (L.toLong (d.len * 3)).tdiv 4 := by
        rwa [hlen, zero_add]
      rw [packUnpack_uu, if_neg (by omega),
        uuLoop_lines hpos hlines hshort hreads (by omega) htotal]

end RoundTrip

/-- A string of 64 bytes in a line of its own does not come back. -/
theorem not_roundTrips_uu_line : ¬ RoundTrips (L := .lp64) latin1Chars (fun _ => []) 0
    (fun _ _ st => .ok st) 117
    [54, 54] (List.replicate 64 65) := by
  have hm : Accepted .lp64 117 [54, 54] 1 ⟨false, false, 66⟩ :=
    accepted_digits (by decide) (List.all_eq_true.mp (by decide)) (by decide) 1
  exact not_roundTrips_uu_of_long latin1Chars (fun _ => []) 0 (fun _ _ st => .ok st) hm (by decide)

/-- The longest line comes back, with the byte behind it in the next one. -/
theorem uuRoundTrip_sixty_three : RoundTrips (L := .lp64) latin1Chars (fun _ => []) 0
    (fun _ _ st => .ok st) 117
    [54, 51] (List.replicate 64 65) := by
  have hm : Accepted .lp64 117 [54, 51] 1 ⟨false, false, 63⟩ :=
    accepted_digits (by decide) (List.all_eq_true.mp (by decide)) (by decide) 1
  exact (uuRoundTrip_iff latin1Chars (fun _ => []) 0 (fun _ _ st => .ok st) hm).mpr (by decide)

end MacRuby.Pack
