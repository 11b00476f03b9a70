import MacRuby.Pack.Lines

/-!
# Base64

The directive `m`. `unpack` looks for four characters of the table, skips all others on the way, and
stops at an equals sign where the third or the fourth should be. The buffer that it fills is three
quarters as long as the string, a product that overflows for a very long string.

## Main definitions

* `b64Result` — the bytes that `m` hands over.
* `Base64RoundTrip` — a string comes back, from a buffer that is long enough.

## Main results

* `b64Result_line`, `b64Result_lines` — the loop over the last line, and over all of them.
* `base64RoundTrip_iff` — the round trip succeeds exactly as long as the product does not overflow.
-/

namespace MacRuby.Pack

variable {L : LongSize} {d : ByteString L} {s : ℤ} {t : List UInt8} {c : UInt8}

/-! ## Skipping -/

theorem b64Xtable_b64Table {i : ℕ} (h : i < 64) : b64Xtable (b64Table i) = i := by
  have hall : ∀ k : Fin 64, b64Xtable (b64Table k.val) = k.val := by decide +kernel
  exact hall ⟨i, h⟩

/-- A character of the table is not skipped. -/
theorem b64Skip_char {i : ℕ} (hi : i < 64) (h : Reads d s (b64Table i :: t)) (stop : Bool) (n : ℕ) :
    b64Skip d stop n s = s := by
  cases n with
  | zero => rfl
  | succ n =>
      rw [b64Skip, h.get, b64Xtable_b64Table hi]
      exact if_neg (by omega)

/-- A line break is. -/
theorem b64Skip_newline (h : Reads d s (10 :: t)) (stop : Bool) (n : ℕ) :
    b64Skip d stop (n + 1) s = b64Skip d stop n (s + 1) := by
  have hnone : b64Xtable 10 = -1 := by decide
  rw [b64Skip, h.get, if_pos ⟨hnone, h.lt⟩, if_neg (by simp)]

/-- An equals sign ends the search for the third and the fourth character. -/
theorem b64Skip_stop (h : Reads d s (61 :: t)) (n : ℕ) : b64Skip d true n s = s := by
  have hnone : b64Xtable 61 = -1 := by decide
  cases n with
  | zero => rfl
  | succ n => rw [b64Skip, h.get, if_pos ⟨hnone, h.lt⟩, if_pos ⟨rfl, rfl⟩]

/-! ## The loop -/

theorem b64Table_ne {i : ℕ} (hi : i < 64) : b64Table i ≠ 61 := by
  intro h
  have hx := b64Xtable_b64Table hi
  rw [h] at hx
  have hnone : b64Xtable 61 = -1 := by decide
  omega

theorem b64Bytes_eq (x : ℕ × ℕ × ℕ × ℕ) : b64Bytes x.1 x.2.1 x.2.2.1 x.2.2.2 = hunkBytes x := by
  simp only [b64Bytes, hunkBytes, Int.toNat_natCast]

/-- The loop at four characters of the table. -/
theorem b64Loop_hunk {r : Base64} {a b c : UInt8} {n : ℕ}
    (h : Reads d r.s (encodeHunk b64Table a b c ++ t)) :
    b64Loop d (n + 1) r = b64Loop d n ⟨(sextets a b c).1, (sextets a b c).2.1,
      (sextets a b c).2.2.1,
      r.s + 4, r.out ++ [a, b, c]⟩ := by
  obtain ⟨h1, h2, h3, h4⟩ := sextets_lt a b c
  rw [encodeHunk_eq] at h
  have r1 : Reads d r.s (b64Table (sextets a b c).1 :: _) := h
  have r2 : Reads d (r.s + 1) (b64Table (sextets a b c).2.1 :: _) := r1.next
  have r3 : Reads d (r.s + 1 + 1) (b64Table (sextets a b c).2.2.1 :: _) := r2.next
  have r4 : Reads d (r.s + 1 + 1 + 1) (b64Table (sextets a b c).2.2.2 :: t) := r3.next
  have hcursor : r.s + 1 + 1 + 1 + 1 = r.s + 4 := by ring
  rw [b64Loop, if_pos r1.lt]
  simp only [b64Skip_char h1 r1, b64Skip_char h2 r2, b64Skip_char h3 r3, b64Skip_char h4 r4, r1.get,
    r2.get, r3.get, r4.get, b64Xtable_b64Table h1, b64Xtable_b64Table h2, b64Xtable_b64Table h3,
    b64Xtable_b64Table h4, not_le.mpr r1.lt, not_le.mpr r2.lt, not_le.mpr r3.lt, not_le.mpr r4.lt,
    b64Table_ne h3, b64Table_ne h4, or_self, if_false, b64Bytes_eq, bytes_of_sextets, hcursor]

/-- The loop at a line break that is not the last one. -/
theorem b64Loop_newline {r : Base64} {n : ℕ} (h : Reads d r.s (10 :: c :: t)) :
    b64Loop d (n + 1) r = b64Loop d (n + 1) { r with s := r.s + 1 } := by
  have hroom : (d.len - r.s).toNat = (d.len - (r.s + 1)).toNat + 1 := by
    have hlen := h.len_eq
    rw [List.length_cons, List.length_cons] at hlen
    omega
  rw [b64Loop, b64Loop, if_pos h.lt, if_pos h.next.lt, hroom, b64Skip_newline h]

/-- The bytes that `m` hands over when its loop is at `r`. -/
def b64Result (d : ByteString L) (n : ℕ) (r : Base64) : List UInt8 :=
  (b64Loop d n r).out ++ b64Rest d (b64Loop d n r)

/-- The loop at the last line break. -/
theorem b64Result_end {r : Base64} {n : ℕ} (h : Reads d r.s [10]) :
    b64Result d (n + 1) r = r.out := by
  have hroom : (d.len - r.s).toNat = 0 + 1 := by
    have hlen := h.len_eq
    rw [List.length_singleton] at hlen
    omega
  have hend : Reads d (r.s + 1) [] := h.next
  have hle : r.s + 1 ≥ d.len := hend.eq_len.ge
  rw [b64Result, b64Loop, if_pos h.lt, hroom, b64Skip_newline h, b64Skip]
  simp only [if_pos hle]
  rw [b64Rest, hend.get_end]
  simp

/-- The loop at a last group of two bytes. -/
theorem b64Result_two {r : Base64} {a b : UInt8} {n : ℕ}
    (h : Reads d r.s ((encodeHunk b64Table a b 0).take 3 ++ [61] ++ t)) :
    b64Result d (n + 1) r = r.out ++ [a, b] := by
  have hcast : ∀ i : ℕ, (i : ℤ) ≠ -1 := by omega
  obtain ⟨h1, h2, h3, -⟩ := sextets_lt a b 0
  rw [encodeHunk_eq] at h
  have r1 : Reads d r.s (b64Table (sextets a b 0).1 :: _) := h
  have r2 : Reads d (r.s + 1) (b64Table (sextets a b 0).2.1 :: _) := r1.next
  have r3 : Reads d (r.s + 1 + 1) (b64Table (sextets a b 0).2.2.1 :: _) := r2.next
  have r4 : Reads d (r.s + 1 + 1 + 1) (61 :: t) := r3.next
  have hbytes : b64Bytes (sextets a b 0).1 (sextets a b 0).2.1 (sextets a b 0).2.2.1 0
    = [a, b, 0] :=
    (b64Bytes_eq (sextets a b 0)).trans (bytes_of_sextets a b 0)
  have hloop : b64Loop d (n + 1) r = ⟨(sextets a b 0).1, (sextets a b 0).2.1, (sextets a b 0).2.2.1,
      r.s + 1 + 1 + 1, r.out⟩ := by
    rw [b64Loop, if_pos r1.lt]
    simp only [b64Skip_char h1 r1, b64Skip_char h2 r2, b64Skip_char h3 r3, b64Skip_stop r4, r1.get,
      r2.get, r3.get, r4.get, b64Xtable_b64Table h1, b64Xtable_b64Table h2, b64Xtable_b64Table h3,
      not_le.mpr r1.lt, not_le.mpr r2.lt, not_le.mpr r3.lt, b64Table_ne h3, or_self, if_false,
      true_or, if_true]
  rw [b64Result, hloop, b64Rest, if_pos ⟨hcast _, hcast _, r4.get⟩, if_neg (hcast _), hbytes]
  rfl

/-- The loop at a last group of one byte. -/
theorem b64Result_one {r : Base64} {a : UInt8} {n : ℕ}
    (h : Reads d r.s ((encodeHunk b64Table a 0 0).take 2 ++ [61, 61] ++ t)) :
    b64Result d (n + 1) r = r.out ++ [a] := by
  have hcast : ∀ i : ℕ, (i : ℤ) ≠ -1 := by omega
  obtain ⟨h1, h2, -, -⟩ := sextets_lt a 0 0
  rw [encodeHunk_eq] at h
  have r1 : Reads d r.s (b64Table (sextets a 0 0).1 :: _) := h
  have r2 : Reads d (r.s + 1) (b64Table (sextets a 0 0).2.1 :: _) := r1.next
  have r3 : Reads d (r.s + 1 + 1) (61 :: 61 :: t) := r2.next
  have hnone : b64Xtable 61 = -1 := by decide
  have hbytes : b64Bytes (sextets a 0 0).1 (sextets a 0 0).2.1 0 0 = [a, 0, 0] :=
    (b64Bytes_eq (sextets a 0 0)).trans (bytes_of_sextets a 0 0)
  have hloop : b64Loop d (n + 1) r = ⟨(sextets a 0 0).1, (sextets a 0 0).2.1, -1, r.s + 1 + 1,
      r.out⟩ := by
    rw [b64Loop, if_pos r1.lt]
    simp only [b64Skip_char h1 r1, b64Skip_char h2 r2, b64Skip_stop r3, r1.get, r2.get, r3.get,
      b64Xtable_b64Table h1, b64Xtable_b64Table h2, hnone, not_le.mpr r1.lt, not_le.mpr r2.lt,
      if_false, true_or, if_true]
  rw [b64Result, hloop, b64Rest, if_pos ⟨hcast _, hcast _, r3.get⟩, if_pos rfl, hbytes]
  rfl

/-! ## Lines -/

/-- The loop at a line of whole groups. -/
theorem b64Loop_line {u : List UInt8} {r : Base64} {n : ℕ} (h3 : 3 ∣ u.length)
    (h : Reads d r.s (encodeGroups b64Table 61 u ++ t))
    (hn : (encodeGroups b64Table 61 u ++ t).length < n) :
    ∃ m r', b64Loop d n r = b64Loop d m r' ∧ r'.out = r.out ++ u ∧ Reads d r'.s t ∧
      t.length < m := by
  induction u using encodeGroups.induct generalizing r n with
  | case1 a b c u ih =>
      obtain ⟨n, rfl⟩ : ∃ k, n = k + 1 := ⟨n - 1, by omega⟩
      rw [encodeGroups, List.append_assoc] at h hn
      have hrest : Reads d (r.s + 4) (encodeGroups b64Table 61 u ++ t) := h.skip
      rw [List.length_append, encodeHunk_eq] at hn
      simp only [List.length_cons, List.length_nil] at hn h3
      obtain ⟨m, r', hloop, hout, hreads, hm⟩ := ih (r := ⟨_, _, _, r.s + 4, r.out ++ [a, b, c]⟩)
        (n := n) (by omega) hrest (by omega)
      refine ⟨m, r', (b64Loop_hunk h).trans hloop, ?_, hreads, hm⟩
      rw [hout]
      simp
  | case2 a b => simp at h3
  | case3 a => simp at h3
  | case4 => exact ⟨n, r, rfl, by simp, h, by simpa [encodeGroups] using hn⟩

/-- The loop at the last line. -/
theorem b64Result_line {u : List UInt8} {r : Base64} {n : ℕ}
    (h : Reads d r.s (encodeGroups b64Table 61 u ++ [10]))
    (hn : (encodeGroups b64Table 61 u ++ [10]).length < n) : b64Result d n r = r.out ++ u := by
  induction u using encodeGroups.induct generalizing r n with
  | case1 a b c u ih =>
      obtain ⟨n, rfl⟩ : ∃ k, n = k + 1 := ⟨n - 1, by omega⟩
      rw [encodeGroups, List.append_assoc] at h hn
      have hrest : Reads d (r.s + 4) (encodeGroups b64Table 61 u ++ [10]) := h.skip
      rw [List.length_append, encodeHunk_eq] at hn
      simp only [List.length_cons, List.length_nil] at hn
      rw [b64Result, b64Loop_hunk h]
      refine (ih (r := ⟨_, _, _, r.s + 4, r.out ++ [a, b, c]⟩) hrest (by omega)).trans ?_
      simp
  | case2 a b =>
      obtain ⟨n, rfl⟩ : ∃ k, n = k + 1 := ⟨n - 1, by omega⟩
      exact b64Result_two h
  | case3 a =>
      obtain ⟨n, rfl⟩ : ∃ k, n = k + 1 := ⟨n - 1, by omega⟩
      exact b64Result_one h
  | case4 =>
      obtain ⟨n, rfl⟩ : ∃ k, n = k + 1 := ⟨n - 1, by omega⟩
      rw [b64Result_end h, List.append_nil]

/-- **The loop over all lines**, from the beginning of a line or from the line break before it. -/
theorem b64Result_lines {u : List UInt8} {len : ℕ} (hlen : 0 < len) (h3 : 3 ∣ len)
    (hlines : Lines false len u t) {r : Base64} {n : ℕ} (hn : t.length < n)
    (h : Reads d r.s t ∨ Reads d r.s (10 :: t)) : b64Result d n r = r.out ++ u := by
  induction hlines generalizing r n with
  | nil =>
      obtain ⟨n, rfl⟩ : ∃ k, n = k + 1 := ⟨n - 1, by omega⟩
      rw [List.append_nil]
      rcases h with h | h
      · have hs := h.eq_len
        rw [b64Result, b64Loop, if_neg (by omega), b64Rest, h.get_end]
        simp
      · exact b64Result_end h
  | @cons u t hu ht ih =>
      have hline : encodedLine false (u.take len) ++ t
          = encodeGroups b64Table 61 (u.take len) ++ (10 :: t) := by simp [encodedLine]
      rw [hline] at h hn
      -- a line break before the line is skipped
      wlog hstart : Reads d r.s (encodeGroups b64Table 61 (u.take len) ++ (10 :: t)) generalizing r
      · have htake : u.take len ≠ [] := by
          rw [ne_eq, List.take_eq_nil_iff, not_or]
          exact ⟨hlen.ne', hu⟩
        obtain ⟨c, v, hv⟩ : ∃ c v, encodeGroups b64Table 61 (u.take len) = c :: v := by
          apply List.exists_cons_of_length_pos
          rw [length_encodeGroups]
          have := List.length_pos_iff.mpr htake
          omega
        have hbreak := h.resolve_left hstart
        obtain ⟨n, rfl⟩ : ∃ k, n = k + 1 := ⟨n - 1, by omega⟩
        have hnext : Reads d (r.s + 1) (encodeGroups b64Table 61 (u.take len) ++ (10 :: t)) :=
          hbreak.next
        rw [hv] at hbreak
        rw [b64Result, b64Loop_newline hbreak]
        exact this (r := { r with s := r.s + 1 }) (.inl hnext) hnext
      rcases Nat.le_or_ge u.length len with hle | hge
      · -- the last line
        have hdrop : u.drop len = [] := List.drop_eq_nil_of_le hle
        rw [hdrop] at ht
        cases ht with
        | nil =>
            rw [List.take_of_length_le hle] at hstart hn
            exact b64Result_line hstart hn
        | cons hne => exact absurd rfl hne
      · have hdvd : 3 ∣ (u.take len).length := by rwa [List.length_take, min_eq_left hge]
        obtain ⟨m, r', hloop, hout, hreads, hm⟩ := b64Loop_line hdvd hstart hn
        rw [b64Result, hloop]
        refine (ih (r := r') (by rw [List.length_cons] at hm; omega) (.inr hreads)).trans ?_
        rw [hout, List.append_assoc, List.take_append_drop]

/-! ## The round trip -/

section RoundTrip

variable (chars : ByteChars) (toS : Inum L → List UInt8) (fuel : ℕ)
  (others : UInt8 → Modifiers → ItemState L → Except (PackError ItemError) (ItemState L))

theorem packUnpack_base64 (d : ByteString L) : packUnpack d [109]
    = if (L.toLong (d.len * 3)).tdiv 4 < 0 then .error .negativeSize
      else .ok [.string (b64Result d (d.len.toNat + 1) ⟨-1, -1, 0, 0, []⟩)] := by
  have hm : unpackModifiers L 109 [] d.len = .ok (⟨false, false, 1⟩, []) := rfl
  have hunpack := packUnpack_single d rfl (by decide) hm
  have hdir : directive 109 = .m := rfl
  rw [hunpack, hdir, unpackDirective, unpackBase64, strNew, sub_zero]
  split_ifs <;> rfl

/-- A string comes back, and the buffer that `unpack` writes it to is long enough for it. -/
def Base64RoundTrip (p s : List UInt8) : Prop :=
  RoundTrips chars toS fuel others 109 p s ∧ ∀ d : ByteString L,
    packItems chars toS fuel others [.string s] (109 :: p) = .ok d.bytes →
      (s.length : ℤ) ≤ (L.toLong (d.len * 3)).tdiv 4

variable {p u : List UInt8} {m : Modifiers}

/-- The product for the buffer does not overflow where the round trip succeeds. -/
theorem linesLength_of_base64RoundTrip (hm : Accepted L 109 p 1 m)
    (h : Base64RoundTrip chars toS fuel others p u) :
    (3 * linesLength false (lineLength m.len) u.length : ℤ) < 2 ^ (L.bits - 1) := by
  obtain ⟨⟨res, hpack, hlen, -⟩, hroom⟩ := h
  obtain ⟨hpos, h3⟩ := lineLength_spec m.len
  have hlines : Lines false (lineLength m.len) u res := lines_of_packItems false hm hpack
  have hE := hlines.length_eq hpos h3
  have hbuf := hroom ⟨res, fun _ => 0, hlen⟩ hpack
  rw [ByteString.len, hE] at hbuf
  rw [hE] at hlen
  exact (room_iff hpos h3 hlen).mp hbuf

/-- **When the round trip succeeds**: three times the length of the text must be a `long`. -/
theorem base64RoundTrip_iff (hm : Accepted L 109 p 1 m) :
    Base64RoundTrip chars toS fuel others p u ↔
    (3 * linesLength false (lineLength m.len) u.length : ℤ) < 2 ^ (L.bits - 1) := by
  refine ⟨linesLength_of_base64RoundTrip chars toS fuel others hm, ?_⟩
  intro h
  obtain ⟨hpos, h3⟩ := lineLength_spec m.len
  obtain ⟨hlow, -⟩ := linesLength_bounds false u.length hpos h3
  have hroom := (room_iff (L := L) hpos h3 (by omega)).mpr h
  obtain ⟨t, ht, hlines⟩ := packLines_spec (L := L) (s := u) false m.len (by omega)
  have hE := hlines.length_eq hpos h3
  have hpack : packItems chars toS fuel others [.string u] (109 :: p) = .ok t := by
    refine (packItems_lines chars toS fuel others false u hm).trans ?_
    rw [ht]
    rfl
  refine ⟨⟨t, hpack, by omega, ?_⟩, ?_⟩
  · intro d hd
    have hlen : d.len = linesLength false (lineLength m.len) u.length := by
      rw [ByteString.len, hd, hE]
    have hreads : Reads d 0 t := hd ▸ reads_start d
    have hread : b64Result d (d.len.toNat + 1) ⟨-1, -1, 0, 0, []⟩ = u :=
      b64Result_lines hpos h3 hlines (by omega) (.inl hreads)
    rw [packUnpack_base64, hread, hlen, if_neg (by omega)]
  · intro d hd
    rw [hpack] at hd
    rwa [ByteString.len, ← Except.ok.inj hd, hE]

end RoundTrip

/-- A string of 2^29 bytes in lines of 45 does not come back where a `long` has 32 bits: `unpack`
raises an error. -/
theorem not_roundTrips_long : ¬ RoundTrips (L := .ilp32) latin1Chars (fun _ => []) 0
    (fun _ _ st => .ok st) 109 []
    (List.replicate (2 ^ 29) 0) := by
  have hs : (List.replicate (2 ^ 29) (0 : UInt8)).length = 2 ^ 29 := List.length_replicate
  generalize List.replicate (2 ^ 29) (0 : UInt8) = s at *
  rintro ⟨res, hpack, hlen, hback⟩
  have hm : Accepted .ilp32 109 [] 1 ⟨false, false, 1⟩ := rfl
  have hlines := lines_of_packItems false hm hpack
  have hline : lineLength 1 = 45 := by decide
  have hE := hlines.length_eq (by decide) (by decide)
  rw [hs, hline] at hE
  have hunpack := hback ⟨res, fun _ => 0, hlen⟩ rfl
  have hneg : (LongSize.ilp32.toLong ((linesLength false 45 (2 ^ 29) : ℕ) * 3)).tdiv 4 < 0 := by
    decide
  rw [packUnpack_base64, ByteString.len, hE, if_pos hneg] at hunpack
  cases hunpack

/-- Two lines, of which the last one is padded. -/
theorem base64RoundTrip_three : Base64RoundTrip (L := .ilp32) latin1Chars (fun _ => []) 0
    (fun _ _ st => .ok st)
    [51] [0, 255, 16, 9, 8] := by
  have hm : Accepted .ilp32 109 [51] 1 ⟨false, false, 3⟩ :=
    accepted_digits (by decide) (List.all_eq_true.mp (by decide)) (by decide) 1
  exact (base64RoundTrip_iff latin1Chars (fun _ => []) 0 (fun _ _ st => .ok st) hm).mpr (by decide)

end MacRuby.Pack
