import MacRuby.Pack.Reads

/-!
# Quoted-printable strings

The directive `M`. What `pack` writes consists of three kinds of pieces: a byte as it is, a byte in
hex digits, and a line break that `unpack` takes away again.

## Main definitions

* `QpToken` — a piece of the text.
* `QpLine` — what a line of the text looks like.
* `Encoded` — the invariant of the loop of `pack`.

## Main results

* `qpLoop_tokens` — what `unpack` makes of pieces.
* `encoded_loop` — the invariant holds after every byte.
* `qp_roundTrip` — a string comes back, and its text is well formed.
-/

namespace MacRuby.Pack

variable {L : LongSize} {d : ByteString L} {s : ℤ} {t u : List UInt8}

/-! ## Pieces -/

/-- A piece of the text: a byte as it is, a byte in hex digits, or a soft line break. -/
inductive QpToken
  | byte (c : UInt8)
  | escape (c : UInt8)
  | soft

namespace QpToken

/-- The characters of a piece. -/
def text : QpToken → List UInt8
  | byte c => [c]
  | escape c => [61, hexTable (c.toNat >>> 4), hexTable (c.toNat &&& 0x0f)]
  | soft => [61, 10]

/-- The bytes that a piece stands for. -/
def bytes : QpToken → List UInt8
  | byte c => [c]
  | escape c => [c]
  | soft => []

/-- A byte that stands for itself needs no digits. -/
def Valid : QpToken → Prop
  | byte c => qpEscaped c = false
  | _ => True

end QpToken

/-- A printable character of ASCII, a tab or a newline. -/
def QpChar (c : UInt8) : Prop := 32 ≤ c ∧ c ≤ 126 ∨ c = 9 ∨ c = 10

instance : DecidablePred QpChar := fun _ => inferInstanceAs (Decidable (_ ∨ _))

/-- Bytes that stand for themselves. -/
theorem of_not_qpEscaped {c : UInt8} (h : qpEscaped c = false) : QpChar c ∧ c ≠ 61 := by
  have hall : ∀ k : Fin 256, qpEscaped (UInt8.ofNat k.val) = false →
      QpChar (UInt8.ofNat k.val) ∧ UInt8.ofNat k.val ≠ 61 := by decide +kernel
  have hk := hall ⟨c.toNat, c.toNat_lt⟩
  rw [UInt8.ofNat_toNat] at hk
  exact hk h

/-- The digits of a byte. -/
theorem hexTable_spec {i : ℕ} (h : i < 16) : hex2num (hexTable i) = i ∧ QpChar (hexTable i) ∧
    hexTable i ≠ 10 ∧ hexTable i ≠ 13 ∧ ¬ (hexTable i = 32 ∨ hexTable i = 9) := by
  have hall : ∀ k : Fin 16, hex2num (hexTable k.val) = k.val ∧ QpChar (hexTable k.val) ∧
      hexTable k.val ≠ 10 ∧ hexTable k.val ≠ 13 ∧
      ¬ (hexTable k.val = 32 ∨ hexTable k.val = 9) := by decide +kernel
  exact hall ⟨i, h⟩

/-- The two halves of a byte. -/
theorem halves_spec (c : UInt8) : c.toNat >>> 4 < 16 ∧ c.toNat &&& 0x0f < 16 ∧
    UInt8.ofNat ((c.toNat >>> 4) <<< 4 ||| c.toNat &&& 0x0f) = c := by
  have hall : ∀ k : Fin 256, k.val >>> 4 < 16 ∧ k.val &&& 0x0f < 16 ∧
      (k.val >>> 4) <<< 4 ||| k.val &&& 0x0f = k.val := by decide +kernel
  obtain ⟨h0, h1, h2⟩ := hall ⟨c.toNat, c.toNat_lt⟩
  exact ⟨h0, h1, by rw [h2, UInt8.ofNat_toNat]⟩

theorem qpChar_of_mem_text {k : QpToken} (hk : k.Valid) : ∀ c ∈ k.text, QpChar c := by
  intro c hc
  cases k with
  | byte b =>
      rw [List.mem_singleton.mp hc]
      exact (of_not_qpEscaped hk).1
  | escape b =>
      obtain ⟨h0, h1, -⟩ := halves_spec b
      simp only [QpToken.text, List.mem_cons, List.not_mem_nil, or_false] at hc
      rcases hc with rfl | rfl | rfl
      · decide
      · exact (hexTable_spec h0).2.1
      · exact (hexTable_spec h1).2.1
  | soft =>
      simp only [QpToken.text, List.mem_cons, List.not_mem_nil, or_false] at hc
      rcases hc with rfl | rfl <;> decide

/-- **What `unpack` makes of pieces.** -/
theorem qpLoop_tokens {ts : List QpToken} (hts : ∀ k ∈ ts, k.Valid) {n : ℕ}
    (h : Reads d s (ts.flatMap QpToken.text)) (hn : (ts.flatMap QpToken.text).length < n) :
    (qpLoop d n s).1 = ts.flatMap QpToken.bytes := by
  induction ts generalizing s n with
  | nil =>
      have hs := h.eq_len
      cases n with
      | zero => rfl
      | succ n =>
          rw [qpLoop, if_neg (by omega)]
          rfl
  | cons k ts ih =>
      obtain ⟨n, rfl⟩ : ∃ m, n = m + 1 := ⟨n - 1, by omega⟩
      have hts' : ∀ k ∈ ts, k.Valid := fun k hk => hts k (by simp [hk])
      rw [List.flatMap_cons] at h hn ⊢
      rw [List.length_append] at hn
      have hpos : 0 < k.text.length := by cases k <;> exact Nat.zero_lt_succ _
      have hn' : (ts.flatMap QpToken.text).length < n := by omega
      cases k with
      | byte c =>
          have hc : Reads d s (c :: ts.flatMap QpToken.text) := h
          have hne := (of_not_qpEscaped (hts (.byte c) (by simp))).2
          rw [← hc.get] at hne
          rw [qpLoop, if_pos hc.lt, if_neg hne, hc.get]
          dsimp only
          rw [ih hts' hc.next hn']
          rfl
      | escape c =>
          obtain ⟨h0, h1, hbyte⟩ := halves_spec c
          obtain ⟨hnum0, -, hlf0, hcr0, -⟩ := hexTable_spec h0
          obtain ⟨hnum1, -⟩ := hexTable_spec h1
          have r0 : Reads d s (61 :: hexTable (c.toNat >>> 4) :: hexTable (c.toNat &&& 0x0f)
            :: ts.flatMap QpToken.text) := h
          have r1 := r0.next
          have r2 := r1.next
          have htwo : s + 1 + 1 = s + 2 := by ring
          have hthree : s + 1 + 1 + 1 = s + 1 + 2 := by ring
          have hcr : ¬ (s + 2 < d.len ∧ d.get (s + 1) = 13 ∧ d.get (s + 2) = 10) := by
            rw [r1.get]
            exact fun hcr => hcr0 hcr.2.1
          have hn0 : hex2num (d.get (s + 1)) ≠ -1 := by
            rw [r1.get, hnum0]
            omega
          have hn1 : hex2num (d.get (s + 1 + 1)) ≠ -1 := by
            rw [r2.get, hnum1]
            omega
          have hlf : d.get (s + 1) ≠ 10 := by rwa [r1.get]
          rw [qpLoop, if_pos r0.lt, if_pos r0.get, if_neg r1.lt.ne]
          dsimp only
          rw [if_neg hcr, if_neg hlf, if_neg hn0, if_neg r2.lt.ne, if_neg hn1, r1.get,
            r2.get, hnum0, hnum1, Int.toNat_natCast, Int.toNat_natCast, hbyte, ← hthree,
            ih hts' r2.next hn']
          rfl
      | soft =>
          have r0 : Reads d s (61 :: 10 :: ts.flatMap QpToken.text) := h
          have r1 := r0.next
          have hcr : ¬ (s + 2 < d.len ∧ d.get (s + 1) = 13 ∧ d.get (s + 2) = 10) := by
            rw [r1.get]
            exact fun hcr => absurd hcr.2.1 (by decide)
          rw [qpLoop, if_pos r0.lt, if_pos r0.get, if_neg r1.lt.ne]
          dsimp only
          rw [if_neg hcr, if_pos r1.get, ih hts' r1.next hn']
          rfl

/-! ## Lines -/

/-- What a line looks like: it is at most four characters longer than `len`, and it does not end in
a space or a tab. -/
def QpLine (len : ℤ) (line : List UInt8) : Prop :=
  line.length ≤ len + 4 ∧ line.getLast? ≠ some 32 ∧ line.getLast? ≠ some 9

/-- A text of whole lines. -/
def Finished (len : ℤ) (text : List UInt8) : Prop :=
  text = [] ∨ ∃ front, text = front ++ [10] ∧ ∀ line ∈ front.splitOn 10, QpLine len line

/-- Another line. -/
theorem Finished.next {len : ℤ} {text line : List UInt8} (h : Finished len text)
    (hbreak : (10 : UInt8) ∉ line) (hline : QpLine len line) :
    Finished len (text ++ line ++ [10]) := by
  refine .inr ⟨text ++ line, rfl, ?_⟩
  rcases h with rfl | ⟨front, rfl, hall⟩
  · rw [List.nil_append, List.splitOn_eq_singleton hbreak]
    intro l hl
    rwa [List.mem_singleton.mp hl]
  · rw [List.append_assoc, List.singleton_append, List.splitOn_append_cons_self,
      List.splitOn_eq_singleton hbreak]
    intro l hl
    rcases List.mem_append.mp hl with hl | hl
    · exact hall l hl
    · rwa [List.mem_singleton.mp hl]

/-- The lines of such a text; behind the last line break there is an empty one. -/
theorem Finished.lines {len : ℤ} (hlen : 0 ≤ len) {text : List UInt8} (h : Finished len text) :
    ∀ line ∈ text.splitOn 10, QpLine len line := by
  have hempty : QpLine len [] := ⟨by simp; omega, by simp, by simp⟩
  intro l hl
  rcases h with rfl | ⟨front, rfl, hall⟩
  · rw [List.splitOn_nil, List.mem_singleton] at hl
    rwa [hl]
  · rw [List.splitOn_append_cons_self, List.splitOn_nil] at hl
    rcases List.mem_append.mp hl with hl | hl
    · exact hall l hl
    · rwa [List.mem_singleton.mp hl]

/-! ## The loop of `pack` -/

/-- The bytes `u` were encoded: what was written is pieces for them, in whole lines and a line of
`n` characters so far; `extra` is what the line may be too long, and `room` bounds the array. -/
structure Encoded (len : ℤ) (extra room : ℕ) (u : List UInt8) (st : QpState) : Prop where
  pieces : ∃ ts : List QpToken, (∀ k ∈ ts, k.Valid) ∧
    st.str ++ st.buff = ts.flatMap QpToken.text ∧ ts.flatMap QpToken.bytes = u
  lines : ∃ done line, st.str ++ st.buff = done ++ line ∧ Finished len done ∧ (10 : UInt8) ∉ line ∧
    line.length = st.n ∧
    ∀ c, line.getLast? = some c → c = 32 ∨ c = 9 → st.prev = some c
  short : (st.n : ℤ) ≤ len + extra
  fits : st.buff.length ≤ room

variable {len : ℤ} {st : QpState}

/-- A piece is written within a line. -/
theorem Encoded.piece (h : Encoded len 0 1019 u st) {k : QpToken} (hk : k.Valid) {b : UInt8}
    (hbytes : k.bytes = [b]) (hbreak : (10 : UInt8) ∉ k.text) (hshort : k.text.length ≤ 3)
    {prev : Option UInt8}
    (hprev : ∀ c, k.text.getLast? = some c → c = 32 ∨ c = 9 → prev = some c) :
    Encoded len 3 1022 (u ++ [b])
      ⟨st.str, st.buff ++ k.text, st.n + k.text.length, prev⟩ := by
  obtain ⟨ts, hts, htext, hu⟩ := h.pieces
  obtain ⟨done, line, hdone, hfin, hnone, hn, -⟩ := h.lines
  have hne : k.text ≠ [] := by cases k <;> simp [QpToken.text]
  refine ⟨⟨ts ++ [k], ?_, ?_, ?_⟩, ⟨done, line ++ k.text, ?_, hfin, ?_, ?_, ?_⟩, ?_, ?_⟩
  · intro k' hk'
    rcases List.mem_append.mp hk' with hk' | hk'
    · exact hts k' hk'
    · rwa [List.mem_singleton.mp hk']
  · rw [← List.append_assoc, htext, List.flatMap_append, List.flatMap_singleton]
  · rw [List.flatMap_append, List.flatMap_singleton, hu, hbytes]
  · rw [← List.append_assoc, hdone, List.append_assoc]
  · rw [List.mem_append, not_or]
    exact ⟨hnone, hbreak⟩
  · rw [List.length_append, hn]
  · intro c hc
    rw [List.getLast?_append_of_ne_nil _ hne] at hc
    exact hprev c hc
  · have := h.short
    dsimp only
    push_cast
    omega
  · have := h.fits
    dsimp only
    rw [List.length_append]
    omega

/-- A piece ends the line. -/
theorem Encoded.lineEnd {extra room : ℕ} (hlen : 0 ≤ len) (h : Encoded len extra room u st)
    {k : QpToken} (hk : k.Valid) {w : List UInt8} (hw : k.text = w ++ [10])
    (hbreak : (10 : UInt8) ∉ w)
    (hline : ∀ line : List UInt8, line.length = st.n →
      (∀ c, line.getLast? = some c → c = 32 ∨ c = 9 → st.prev = some c) → QpLine len (line ++ w)) :
    Encoded len 0 (room + k.text.length) (u ++ k.bytes)
      ⟨st.str, st.buff ++ k.text, 0, some 10⟩ := by
  obtain ⟨ts, hts, htext, hu⟩ := h.pieces
  obtain ⟨done, line, hdone, hfin, hnone, hn, hprev⟩ := h.lines
  have hnone' : (10 : UInt8) ∉ line ++ w := by
    rw [List.mem_append, not_or]
    exact ⟨hnone, hbreak⟩
  refine ⟨⟨ts ++ [k], ?_, ?_, ?_⟩, ⟨done ++ (line ++ w) ++ [10], [], ?_,
    hfin.next hnone' (hline line hn hprev), by simp, rfl, by simp⟩, by simpa using hlen, ?_⟩
  · intro k' hk'
    rcases List.mem_append.mp hk' with hk' | hk'
    · exact hts k' hk'
    · rwa [List.mem_singleton.mp hk']
  · rw [← List.append_assoc, htext, List.flatMap_append, List.flatMap_singleton]
  · rw [List.flatMap_append, List.flatMap_singleton, hu]
  · rw [← List.append_assoc, hdone, hw]
    simp
  · have := h.fits
    dsimp only
    rw [List.length_append]
    omega

/-- A soft line break ends a line that may be too long. -/
theorem Encoded.softBreak {extra room : ℕ} (hlen : 0 ≤ len) (hextra : extra ≤ 3)
    (h : Encoded len extra room u st) :
    Encoded len 0 (room + 2) u ⟨st.str, st.buff ++ [61, 10], 0, some 10⟩ := by
  have hshort := h.short
  have hend := h.lineEnd hlen (k := .soft) trivial (w := [61]) rfl (by decide) ?_
  · rwa [QpToken.bytes, List.append_nil] at hend
  · intro line hn _
    refine ⟨?_, by simp, by simp⟩
    rw [List.length_append, List.length_singleton]
    push_cast
    omega

/-- A line break is written after a character that may stand there. -/
theorem Encoded.newline {room : ℕ} (hlen : 0 ≤ len) (h : Encoded len 0 room u st)
    (hprev : ¬ (st.prev = some 32 ∨ st.prev = some 9)) :
    Encoded len 0 (room + 1) (u ++ [10]) ⟨st.str, st.buff ++ [10], 0, some 10⟩ := by
  have hshort := h.short
  rw [not_or] at hprev
  refine h.lineEnd hlen (k := .byte 10) (by rfl) (w := []) rfl (by simp) ?_
  intro line hn hlast
  rw [List.append_nil]
  refine ⟨by omega, ?_, ?_⟩
  · intro h32
    exact hprev.1 (hlast 32 h32 (.inl rfl))
  · intro h9
    exact hprev.2 (hlast 9 h9 (.inr rfl))

theorem Encoded.mono {extra extra' room room' : ℕ} (h : Encoded len extra room u st)
    (hshort : (st.n : ℤ) ≤ len + extra') (hroom : room ≤ room') : Encoded len extra' room' u st :=
  ⟨h.pieces, h.lines, hshort, h.fits.trans hroom⟩

/-- **A byte is written.** -/
theorem encoded_qpByte (hlen : 0 ≤ len) (h : Encoded len 0 1019 u st) (c : UInt8) :
    Encoded len 3 1022 (u ++ [c]) (qpByte c st) := by
  rw [qpByte]
  by_cases hesc : qpEscaped c = true
  · rw [if_pos hesc]
    obtain ⟨h0, h1, -⟩ := halves_spec c
    obtain ⟨-, -, hlf0, -⟩ := hexTable_spec h0
    obtain ⟨-, -, hlf1, -, hblank1⟩ := hexTable_spec h1
    refine h.piece (k := .escape c) trivial rfl ?_ le_rfl ?_
    · simp only [QpToken.text, List.mem_cons, List.not_mem_nil, or_false, not_or]
      exact ⟨by decide, hlf0.symm, hlf1.symm⟩
    · intro b hb hblank
      obtain rfl : hexTable (c.toNat &&& 0x0f) = b := Option.some.inj hb
      exact absurd hblank hblank1
  · rw [if_neg hesc]
    by_cases hlf : c = 10
    · subst hlf
      rw [if_pos rfl]
      dsimp only
      split_ifs with hblank
      · have hline := (h.softBreak hlen (by decide)).newline hlen (by simp)
        exact hline.mono (by simp; omega) le_rfl
      · have hline := h.newline hlen hblank
        rw [List.append_nil]
        exact hline.mono (by simp; omega) (by decide)
    · rw [if_neg hlf]
      rw [Bool.not_eq_true] at hesc
      have hshort : (QpToken.byte c).text.length ≤ 3 := by simp [QpToken.text]
      refine h.piece (k := .byte c) hesc rfl ?_ hshort ?_
      · rw [QpToken.text, List.mem_singleton]
        exact fun h => hlf h.symm
      · intro b hb _
        exact (Option.some.inj hb) ▸ rfl

/-- A turn of the loop. -/
theorem encoded_turn (hlen : 0 ≤ len) (h : Encoded len 0 1019 u st) (c : UInt8) :
    Encoded len 0 1019 (u ++ [c]) (qpFlush (qpBreak len (qpByte c st))) := by
  have hbyte := encoded_qpByte hlen h c
  have hbreak : Encoded len 0 1024 (u ++ [c]) (qpBreak len (qpByte c st)) := by
    rw [qpBreak]
    split_ifs with hlong
    · exact hbyte.softBreak hlen le_rfl
    · exact hbyte.mono (by push_cast; omega) (by decide)
  rw [qpFlush]
  split_ifs with hfull
  · obtain ⟨ts, hts⟩ := hbreak.pieces
    obtain ⟨done, line, hdone⟩ := hbreak.lines
    refine ⟨⟨ts, ?_⟩, ⟨done, line, ?_⟩, hbreak.short, by simp⟩
    · simpa only [List.append_nil] using hts
    · simpa only [List.append_nil] using hdone
  · exact ⟨hbreak.pieces, hbreak.lines, hbreak.short, by omega⟩

/-- **The invariant holds after every byte.** -/
theorem encoded_loop (hlen : 0 ≤ len) (s : List UInt8) :
    Encoded len 0 1019 s (qpLoopEncode len ⟨[], [], 0, none⟩ s) := by
  induction s using List.reverseRecOn with
  | nil =>
      have hstart : Encoded len 0 1019 [] ⟨[], [], 0, none⟩ :=
        ⟨⟨[], by simp, rfl, rfl⟩, ⟨[], [], rfl, .inl rfl, by simp, rfl, by simp⟩,
          by simpa using hlen, by simp⟩
      exact hstart
  | append_singleton s c ih =>
      rw [qpLoopEncode, List.foldl_append]
      exact encoded_turn hlen ih c

/-- **The array of `qpencode` is long enough** in every turn of its loop, and at its end. -/
theorem qp_array_fits (hlen : 0 ≤ len) (s : List UInt8) (c : UInt8) :
    (qpBreak len (qpByte c (qpLoopEncode len ⟨[], [], 0, none⟩ s))).buff.length ≤ 1024 ∧
    (qpLoopEncode len ⟨[], [], 0, none⟩ s).buff.length + 2 ≤ 1024 := by
  have h := encoded_loop hlen s
  have hbyte := (encoded_qpByte hlen h c).fits
  refine ⟨?_, by have := h.fits; omega⟩
  rw [qpBreak]
  split_ifs
  · dsimp only
    rw [List.length_append]
    simp only [List.length_cons, List.length_nil]
    omega
  · omega

/-- What `pack` writes. -/
theorem qpencode_spec (hlen : 0 ≤ len) (s : List UInt8) : ∃ ts : List QpToken,
    (∀ k ∈ ts, k.Valid) ∧ qpencode len s = ts.flatMap QpToken.text ∧ ts.flatMap QpToken.bytes = s ∧
      Finished len (qpencode len s) := by
  have h := encoded_loop hlen s
  rw [qpencode]
  generalize qpLoopEncode len ⟨[], [], 0, none⟩ s = st at h
  split_ifs with hn
  · have hend := h.softBreak hlen (by decide)
    obtain ⟨ts, hts, htext, hs⟩ := hend.pieces
    obtain ⟨done, line, hdone, hfin, -, hzero, -⟩ := hend.lines
    rw [List.length_eq_zero_iff.mp hzero, List.append_nil] at hdone
    exact ⟨ts, hts, htext, hs, by rwa [hdone]⟩
  · obtain ⟨ts, hts, htext, hs⟩ := h.pieces
    obtain ⟨done, line, hdone, hfin, -, hzero, -⟩ := h.lines
    have hline : line = [] := List.length_eq_zero_iff.mp (by omega)
    rw [hline, List.append_nil] at hdone
    exact ⟨ts, hts, htext, hs, by rwa [hdone]⟩

/-! ## The directive -/

section RoundTrip

variable (chars : ByteChars) (toS : Inum L → List UInt8) (fuel : ℕ)
  (others : UInt8 → Modifiers → ItemState L → Except (PackError ItemError) (ItemState L))

theorem packUnpack_qp (d : ByteString L) :
    packUnpack d [77] = .ok [.string (qpLoop d (d.len.toNat + 1) 0).1] := by
  have hm : unpackModifiers L 77 [] d.len = .ok (⟨false, false, 1⟩, []) := rfl
  have hunpack := packUnpack_single d rfl (by decide) hm
  have hdir : directive 77 = .M := rfl
  have hnn := d.len_nonneg
  rw [hunpack, hdir, unpackDirective, unpackQp, strNew, sub_zero, if_neg (not_lt.mpr hnn)]
  rfl

/-- **A string comes back from quoted-printable text, and the text is well formed**: it consists of
printable characters, tabs and newlines, and its lines are not too long and do not end in a space
or a tab. -/
theorem qp_roundTrip {p : List UInt8} {m : Modifiers} (hm : Accepted L 77 p 1 m) (s : List UInt8) :
    ∃ res, packItems chars toS fuel others [.string s] (77 :: p) = .ok res ∧
      (∀ d : ByteString L, d.bytes = res → packUnpack d [77] = .ok [.string s]) ∧
      (∀ c ∈ res, QpChar c) ∧ ∀ line ∈ res.splitOn 10, QpLine (qpLength m.len) line := by
  have hlen : 0 ≤ qpLength m.len := by
    rw [qpLength]
    split_ifs <;> omega
  obtain ⟨ts, hts, htext, hbytes, hfin⟩ := qpencode_spec hlen s
  refine ⟨qpencode (qpLength m.len) s, ?_, ?_, ?_, hfin.lines hlen⟩
  · rw [packItems_single chars toS fuel others rfl (by decide) hm]
    exact packOne_single (f := fun x => .ok (qpencode (qpLength m.len) (asString toS x)))
  · intro d hd
    have hreads : Reads d 0 (ts.flatMap QpToken.text) := by
      rw [← htext, ← hd]
      exact reads_start d
    have hn : (ts.flatMap QpToken.text).length < d.len.toNat + 1 := by
      rw [← htext, ← hd, ByteString.len]
      omega
    rw [packUnpack_qp, qpLoop_tokens hts hreads hn, hbytes]
  · intro c hc
    rw [htext] at hc
    obtain ⟨k, hk, hck⟩ := List.mem_flatMap.mp hc
    exact qpChar_of_mem_text (hts k hk) c hck

end RoundTrip

/-- A space before a line break, in lines of two characters. -/
theorem qp_roundTrip_blank : ∃ res, packItems (L := .lp64) latin1Chars (fun _ => []) 0
    (fun _ _ st => .ok st)
      [.string [97, 32, 10, 61]] [77, 50] = .ok res ∧
    (∀ d : ByteString .lp64, d.bytes = res → packUnpack d [77] = .ok [.string [97, 32, 10, 61]]) ∧
    (∀ c ∈ res, QpChar c) ∧ ∀ line ∈ res.splitOn 10, QpLine 2 line := by
  have hm : Accepted .lp64 77 [50] 1 ⟨false, false, 2⟩ :=
    accepted_digits (by decide) (List.all_eq_true.mp (by decide)) (by decide) 1
  exact qp_roundTrip latin1Chars (fun _ => []) 0 (fun _ _ st => .ok st) hm [97, 32, 10, 61]

end MacRuby.Pack
