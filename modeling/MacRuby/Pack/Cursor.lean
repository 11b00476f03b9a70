import MacRuby.Pack.Unpack

/-!
# The cursor of `String#unpack`

Every directive leaves a cursor that is inside the string inside it, but for five of them. A count
from 2^(w-1) on reads as a negative `long`, which `Z`, `x`, `X` and `@` do not expect; and `u`
passes over two characters where only one is left.

## Main definitions

* `Inside` — the cursor is inside the string.
* `DirectiveInside`, `TurnInside` — the state before a turn is not one of those that go wrong.

## Main results

* `unpackDirective_inside` — a directive keeps the cursor inside the string under the condition.
* `unpackDirective_outside` — and takes it outside without it.
* `reached_inside_iff` — the cursor stays inside in a whole run exactly under the condition.
-/

namespace MacRuby.Pack

variable {L : LongSize} {d : ByteString L} {s s' : ℤ}

/-- `start <= s <= send`. -/
structure Inside (d : ByteString L) (s : ℤ) : Prop where
  nonneg : 0 ≤ s
  le_len : s ≤ d.len

theorem ByteString.len_lt (d : ByteString L) : d.len < 2 ^ (L.bits - 1) := d.length_lt

theorem ByteString.len_nonneg (d : ByteString L) : 0 ≤ d.len := Int.natCast_nonneg _

/-- A byte up to the end of the string that is not NUL is before the end. -/
theorem ByteString.lt_of_get_ne (hs : s ≤ d.len) (hget : d.get s ≠ 0) : s < d.len := by
  rcases hs.lt_or_eq with h | h
  · exact h
  · refine absurd ?_ hget
    rw [ByteString.get, if_neg (by omega), if_pos h]

/-! ## Words -/

theorem two_pow_bits (L : LongSize) : (2 : ℤ) ^ L.bits = 2 * 2 ^ (L.bits - 1) := by
  cases L <;> rfl

/-- A number that is read as a `long` does not grow. -/
theorem toLong_le_self {n : ℤ} (hn : 0 ≤ n) : L.toLong n ≤ n := by
  have hmod : n % 2 ^ L.bits ≤ n := by
    have h := Int.emod_add_mul_ediv n (2 ^ L.bits)
    have h0 : 0 ≤ n / 2 ^ L.bits := Int.ediv_nonneg hn (by positivity)
    have h1 : (0 : ℤ) < 2 ^ L.bits := by positivity
    nlinarith
  rw [LongSize.toLong, Int.bmod_def]
  push_cast
  split_ifs
  · exact hmod
  · have h1 : (0 : ℤ) < 2 ^ L.bits := by positivity
    omega

/-- A number that is no `long` is reduced by the number of words at least. -/
theorem toLong_le_sub {x : ℤ} (h : 2 ^ (L.bits - 1) ≤ x) : L.toLong x ≤ x - 2 ^ L.bits := by
  have hlt := Int.bmod_lt (x := x) (m := 2 ^ L.bits) (by positivity)
  obtain ⟨q, hq⟩ := Int.dvd_self_sub_bmod (x := x) (m := 2 ^ L.bits)
  have hword := two_pow_bits L
  have hpos : (0 : ℤ) < 2 ^ L.bits := by positivity
  rw [LongSize.toLong]
  push_cast at hlt hq ⊢
  have hq1 : 1 ≤ q := by
    by_contra hle
    have : (2 : ℤ) ^ L.bits * q ≤ 0 := mul_nonpos_of_nonneg_of_nonpos hpos.le (by omega)
    omega
  nlinarith

/-- `PACK_LENGTH_ADJUST_SIZE` leaves a count for which there are enough bytes. -/
theorem lengthAdjust_le (unsigned star : Bool) {sz : ℕ} {len avail : ℤ} (hsz : 0 < sz)
    (h0 : 0 ≤ avail) (h1 : avail < 2 ^ (L.bits - 1)) (hlen : len < 2 ^ L.bits) :
    ((lengthAdjust L unsigned sz star len avail).1.toNat : ℤ) * sz ≤ avail := by
  have hbits := two_pow_bits L
  have hsz' : (0 : ℤ) < sz := by exact_mod_cast hsz
  have hq : (if unsigned then avail % 2 ^ L.bits / sz else avail.tdiv sz) = avail / sz := by
    rw [Int.tdiv_eq_ediv_of_nonneg h0, Int.emod_eq_of_lt h0 (by omega)]
    simp
  have hdiv : avail / sz * sz ≤ avail := Int.ediv_mul_le avail hsz'.ne'
  have hq0 : 0 ≤ avail / sz := Int.ediv_nonneg h0 hsz'.le
  -- a count that is not too large for the string has enough bytes
  have hfit : ∀ n : ℤ, n ≤ avail / sz → (n.toNat : ℤ) * sz ≤ avail := by
    intro n hn
    have hn' : (n.toNat : ℤ) ≤ avail / sz := by omega
    calc (n.toNat : ℤ) * sz ≤ avail / sz * sz := mul_le_mul_of_nonneg_right hn' hsz'.le
      _ ≤ avail := hdiv
  have hword : (if unsigned then len % 2 ^ L.bits else len) ≤ avail / sz → len ≤ avail / sz := by
    intro hle
    cases unsigned with
    | false => exact hle
    | true =>
        simp only [if_true] at hle
        rcases lt_or_ge len 0 with hneg | hpos
        · omega
        · rwa [Int.emod_eq_of_lt hpos hlen] at hle
  rw [lengthAdjust, hq]
  by_cases hgt : (if unsigned then len % 2 ^ L.bits else len) > avail / sz
  · rw [if_pos hgt]
    exact hfit _ (toLong_le_self hq0)
  · rw [if_neg hgt]
    exact hfit _ (hword (not_lt.mp hgt))

/-! ## The directives that stay inside -/

/-- A string of a negative length is not made. -/
theorem strNew_ok {len : ℤ} {k : ℕ → Effect L} (h : (strNew len k).result = .ok s') :
    0 ≤ len ∧ (k len.toNat).result = .ok s' := by
  rw [strNew] at h
  split_ifs at h with hneg
  · exact absurd h nofun
  · exact ⟨by omega, h⟩

theorem unpackA_inside {len : ℤ} (hs : Inside d s) (h : (unpackA d s len).result = .ok s') :
    Inside d s' := by
  obtain ⟨h0, hk⟩ := strNew_ok h
  cases hk
  refine ⟨by have := hs.nonneg; omega, ?_⟩
  split_ifs at h0 ⊢ <;> omega

theorem unpacka_inside {len : ℤ} (hs : Inside d s) (h : (unpacka d s len).result = .ok s') :
    Inside d s' := by
  obtain ⟨h0, hk⟩ := strNew_ok h
  cases hk
  refine ⟨by have := hs.nonneg; omega, ?_⟩
  split_ifs at h0 ⊢ <;> omega

theorem nulScan_le (d : ByteString L) (s : ℤ) (n : ℕ) : nulScan d s n ≤ n := by
  induction n generalizing s with
  | zero => exact le_rfl
  | succ n ih =>
      rw [nulScan]
      have := ih (s + 1)
      split_ifs <;> omega

/-- The loop over the digits takes a byte for each group of them. -/
theorem digitLoop_cursor (k : DigitKind) (n i : ℕ) (s bits : ℤ) :
    (digitLoop d k n i s bits).2 = s + ((i + n + (k.per - 1)) / k.per : ℕ)
      - ((i + (k.per - 1)) / k.per : ℕ) := by
  have hpos := k.pos
  induction n generalizing i s bits with
  | zero => simp [digitLoop]
  | succ n ih =>
      -- the number of groups that have begun grows at the first digit of a group
      have hstep : (i + 1 + (k.per - 1)) / k.per
          = (i + (k.per - 1)) / k.per + if i % k.per ≠ 0 then 0 else 1 := by
        rw [show i + 1 + (k.per - 1) = i + (k.per - 1) + 1 by omega, Nat.succ_div]
        have hdvd : k.per ∣ i + (k.per - 1) + 1 ↔ i % k.per = 0 := by
          rw [show i + (k.per - 1) + 1 = i + k.per by omega, Nat.dvd_add_self_right,
            Nat.dvd_iff_mod_eq_zero]
        by_cases h : i % k.per = 0
        · rw [if_pos (hdvd.mpr h), if_neg (not_not.mpr h)]
        · rw [if_neg (fun h' => h (hdvd.mp h')), if_pos h]
      simp only [digitLoop]
      rw [ih, show i + 1 + n = i + (n + 1) by omega, hstep]
      split_ifs <;> push_cast <;> omega

theorem unpackDigits_inside {k : DigitKind} {star : Bool} {len : ℤ} (hs : Inside d s)
    (h : (unpackDigits d k s star len).result = .ok s') : Inside d s' := by
  obtain ⟨h0, hk⟩ := strNew_ok h
  have hpos := k.pos
  have hs0 := hs.nonneg
  have hs1 := hs.le_len
  have hmax : L.toLong ((d.len - s) * k.per) ≤ (d.len - s) * k.per :=
    toLong_le_self (mul_nonneg (by omega) (by omega))
  set n := digitCount d k s star len with hn
  have hle : n ≤ (d.len - s) * k.per := by
    rw [hn, digitCount]
    split_ifs with hc
    · exact hmax
    · rw [not_or] at hc
      omega
  have hk' : (digitLoop d k n.toNat 0 s 0).2 = s' := Except.ok.inj hk
  rw [digitLoop_cursor, zero_add, zero_add, Nat.div_eq_of_lt (a := k.per - 1) (by omega)] at hk'
  have hgroups : (n.toNat + (k.per - 1)) / k.per ≤ (d.len - s).toNat := by
    rw [Nat.div_le_iff_le_mul_add_pred hpos]
    have hcast : (((d.len - s).toNat * k.per : ℕ) : ℤ) = (d.len - s) * k.per := by
      push_cast
      rw [Int.toNat_of_nonneg (by omega)]
    have : n.toNat ≤ (d.len - s).toNat * k.per := by omega
    rw [mul_comm k.per]
    omega
  generalize (n.toNat + (k.per - 1)) / k.per = m at hk' hgroups
  exact ⟨by omega, by omega⟩

theorem numberLoop_cursor (natint : Bool) (t : NumberType) (n : ℕ) (s : ℤ) :
    (numberLoop d natint t n s).result = .ok (s + n * t.size L natint) := by
  induction n generalizing s with
  | zero => simp [numberLoop, Effect.done]
  | succ n ih =>
      rw [numberLoop, Effect.cons, ih]
      congr 1
      push_cast
      ring

theorem NumberType.size_pos (L : LongSize) (t : NumberType) (natint : Bool) :
    0 < t.size L natint := by
  cases t <;> cases L <;> cases natint <;> decide

theorem unpackNumber_inside {natint star : Bool} {t : NumberType} {len : ℤ} (hs : Inside d s)
    (hlen : len < 2 ^ L.bits) (h : (unpackNumber d natint t s star len).result = .ok s') :
    Inside d s' := by
  have hs0 := hs.nonneg
  have hs1 := hs.le_len
  have hlt := d.len_lt
  have h0 : 0 ≤ d.len - s := by omega
  have hle := lengthAdjust_le (t.unsigned L) star (NumberType.size_pos L t natint) h0 (by omega)
    hlen
  have hres : (unpackNumber d natint t s star len).result = (numberLoop d natint t
      (lengthAdjust L (t.unsigned L) (t.size L natint) star len (d.len - s)).1.toNat s).result := by
    unfold unpackNumber
    dsimp only
    split_ifs <;> rfl
  rw [hres, numberLoop_cursor] at h
  cases h
  exact ⟨by positivity, by omega⟩

section Encodings

/-- `utf8_to_uv` stays within the bytes it is given. -/
theorem utf8ToUv_ok {p len alen : ℤ} {l : ℕ} (hlen : 0 < len)
    (h : utf8ToUv d p len = .ok (l, alen)) : 0 < alen ∧ alen ≤ len := by
  have hlead : ∀ {c n uv : ℕ}, utf8Lead c = some (n, uv) → 2 ≤ n := by
    intro c n uv hc
    unfold utf8Lead at hc
    split_ifs at hc <;> cases hc <;> decide
  unfold utf8ToUv at h
  dsimp only at h
  split_ifs at h with h1 h2
  · cases h
    omega
  · split at h
    · cases h
    · rename_i n uv hc
      have h2 := hlead hc
      split_ifs at h with h3
      split at h
      · cases h
      · split_ifs at h
        cases h
        omega

theorem utf8Loop_inside {n : ℕ} (hs : Inside d s) (h : (utf8Loop d n s).result = .ok s') :
    Inside d s' := by
  induction n generalizing s with
  | zero =>
      cases h
      exact hs
  | succ n ih =>
      rw [utf8Loop] at h
      split_ifs at h with hlt
      · split at h
        · cases h
        · rename_i l alen hc
          obtain ⟨h0, h1⟩ := utf8ToUv_ok (by omega) hc
          have hs0 := hs.nonneg
          exact ih ⟨by omega, by omega⟩ h
      · cases h
        exact hs

theorem uuGet_bounds (hs : s ≤ d.len) : s ≤ (uuGet d s).2 ∧ (uuGet d s).2 ≤ d.len := by
  rw [uuGet]
  split_ifs with h
  · exact ⟨by omega, by omega⟩
  · exact ⟨le_rfl, hs⟩

theorem uuHunk_bounds (hs : s ≤ d.len) : s ≤ (uuHunk d s).2 ∧ (uuHunk d s).2 ≤ d.len := by
  obtain ⟨ha, ha'⟩ := uuGet_bounds hs
  obtain ⟨hb, hb'⟩ := uuGet_bounds ha'
  obtain ⟨hc, hc'⟩ := uuGet_bounds hb'
  obtain ⟨he, he'⟩ := uuGet_bounds hc'
  exact ⟨by rw [uuHunk]; dsimp only; omega, he'⟩

theorem uuLine_bounds (n : ℕ) (hs : s ≤ d.len) :
    s ≤ (uuLine d n s).2 ∧ (uuLine d n s).2 ≤ d.len := by
  induction n, s using uuLine.induct d with
  | case1 s => exact ⟨le_rfl, hs⟩
  | case2 s =>
      rw [uuLine]
      exact uuHunk_bounds hs
  | case3 s =>
      rw [uuLine]
      exact uuHunk_bounds hs
  | case4 n s ih =>
      obtain ⟨h0, h1⟩ := uuHunk_bounds hs
      obtain ⟨h2, h3⟩ := ih h1
      rw [uuLine]
      exact ⟨h0.trans h2, h3⟩

/-- Behind the data of a line and a carriage return there is one character before the end, and no
line feed. -/
def UuOneLeft (d : ByteString L) (s : ℤ) : Prop :=
  let s := if d.get s = 13 then s + 1 else s
  d.get s ≠ 10 ∧ s + 1 = d.len

instance (d : ByteString L) (s : ℤ) : Decidable (UuOneLeft d s) :=
    inferInstanceAs (Decidable (_ ∧ _))

/-- The end of a line is inside the string, or one after its end. -/
theorem uuEnd_bounds (hs : s ≤ d.len) :
    s ≤ uuEnd d s ∧ (¬ UuOneLeft d s → uuEnd d s ≤ d.len) ∧
      (UuOneLeft d s → uuEnd d s = d.len + 1) := by
  have hcr : d.get s = 13 → s < d.len := by
    intro h
    exact ByteString.lt_of_get_ne hs (by rw [h]; decide)
  rw [uuEnd, UuOneLeft]
  generalize hq : (if d.get s = 13 then s + 1 else s) = q
  have hq0 : s ≤ q := by
    rw [← hq]
    split_ifs <;> omega
  have hq1 : q ≤ d.len := by
    rw [← hq]
    split_ifs with h
    · exact hcr h
    · exact hs
  by_cases hlf : d.get q = 10
  · have := ByteString.lt_of_get_ne hq1 (by rw [hlf]; decide)
    rw [if_pos hlf]
    exact ⟨by omega, fun _ => by omega, fun h => absurd hlf h.1⟩
  · rw [if_neg hlf]
    split_ifs with h
    · refine ⟨by omega, fun hone => ?_, fun hone => by omega⟩
      rcases h.2 with h' | h'
      · exact absurd ⟨hlf, h'⟩ hone
      · have := ByteString.lt_of_get_ne (d := d) (s := q + 1) (by omega) (by rw [h']; decide)
        omega
    · exact ⟨hq0, fun _ => hq1, fun hone => absurd ⟨by omega, .inl hone.2⟩ h⟩

/-- One of the lines that the loop of `u` reads leaves one character before the end. -/
def uuOverruns (d : ByteString L) (buflen : ℤ) : ℕ → ℤ → ℤ → Bool
  | 0, _, _ => false
  | fuel + 1, total, s =>
      if uuBegins d s then
        let len := uuCount d buflen total s
        let line := uuLine d len.toNat (s + 1)
        decide (UuOneLeft d line.2) || uuOverruns d buflen fuel (total + len) (uuEnd d line.2)
      else false

theorem lt_of_uuBegins (h : uuBegins d s = true) : s < d.len := by
  simp only [uuBegins, Bool.and_eq_true, decide_eq_true_eq] at h
  exact h.1.1

theorem uuLoop_bounds {buflen : ℤ} {fuel : ℕ} {total : ℤ} (hs : s ≤ d.len)
    (h : uuOverruns d buflen fuel total s = false) :
    s ≤ (uuLoop d buflen fuel total s).2 ∧ (uuLoop d buflen fuel total s).2 ≤ d.len := by
  induction fuel generalizing total s with
  | zero => exact ⟨le_rfl, hs⟩
  | succ n ih =>
      rw [uuLoop]
      rw [uuOverruns] at h
      split_ifs with hb
      · simp only [hb, if_true, Bool.or_eq_false_iff, decide_eq_false_iff_not] at h
        have hlt := lt_of_uuBegins hb
        obtain ⟨h0, h1⟩ := uuLine_bounds (uuCount d buflen total s).toNat
          (show s + 1 ≤ d.len by omega)
        obtain ⟨h2, h3, -⟩ := uuEnd_bounds h1
        obtain ⟨h4, h5⟩ := ih (h3 h.1) h.2
        exact ⟨by dsimp only; omega, h5⟩
      · exact ⟨le_rfl, hs⟩

theorem uuLoop_overruns {buflen : ℤ} {fuel : ℕ} {total : ℤ} (hs : s ≤ d.len)
    (h : uuOverruns d buflen fuel total s = true) :
    (uuLoop d buflen fuel total s).2 = d.len + 1 := by
  induction fuel generalizing total s with
  | zero => exact absurd h (by simp [uuOverruns])
  | succ n ih =>
      rw [uuLoop]
      rw [uuOverruns] at h
      split_ifs with hb
      · simp only [hb, if_true, Bool.or_eq_true, decide_eq_true_eq] at h
        have hlt := lt_of_uuBegins hb
        obtain ⟨h0, h1⟩ := uuLine_bounds (uuCount d buflen total s).toNat
          (show s + 1 ≤ d.len by omega)
        obtain ⟨h2, h3, h4⟩ := uuEnd_bounds h1
        by_cases hone : UuOneLeft d (uuLine d (uuCount d buflen total s).toNat (s + 1)).2
        · -- no line begins behind the end
          have hstop : ∀ m t, (uuLoop d buflen m t (d.len + 1)).2 = d.len + 1 := by
            intro m t
            cases m with
            | zero => rfl
            | succ m =>
                rw [uuLoop, if_neg]
                intro hb'
                have := lt_of_uuBegins hb'
                omega
          dsimp only
          rw [h4 hone]
          exact hstop n _
        · exact ih (h3 hone) (h.resolve_left hone)
      · simp [hb] at h

theorem b64Skip_bounds (stop : Bool) (n : ℕ) (hs : s ≤ d.len) :
    s ≤ b64Skip d stop n s ∧ b64Skip d stop n s ≤ d.len := by
  induction n generalizing s with
  | zero => exact ⟨le_rfl, hs⟩
  | succ n ih =>
      rw [b64Skip]
      split_ifs with h h'
      · exact ⟨le_rfl, hs⟩
      · obtain ⟨h0, h1⟩ := ih (s := s + 1) (by omega)
        exact ⟨by omega, h1⟩
      · exact ⟨le_rfl, hs⟩

theorem b64Loop_inside {n : ℕ} {r : Base64} (hr : Inside d r.s) : Inside d (b64Loop d n r).s := by
  induction n generalizing r with
  | zero => exact hr
  | succ n ih =>
      rw [b64Loop]
      by_cases h : r.s < d.len
      · have hs0 := hr.nonneg
        rw [if_pos h]
        -- each of the four characters is looked for from behind the one before
        obtain ⟨a0, a1⟩ := b64Skip_bounds false (d.len - r.s).toNat hr.le_len
        dsimp only
        generalize b64Skip d false (d.len - r.s).toNat r.s = s1 at a0 a1 ⊢
        by_cases h1 : s1 ≥ d.len
        · rw [if_pos h1]
          exact ⟨by dsimp only; omega, a1⟩
        rw [if_neg h1]
        obtain ⟨b0, b1⟩ := b64Skip_bounds false (d.len - (s1 + 1)).toNat
          (show s1 + 1 ≤ d.len by omega)
        generalize b64Skip d false (d.len - (s1 + 1)).toNat (s1 + 1) = s2 at b0 b1 ⊢
        by_cases h2 : s2 ≥ d.len
        · rw [if_pos h2]
          exact ⟨by dsimp only; omega, b1⟩
        rw [if_neg h2]
        obtain ⟨c0, c1⟩ := b64Skip_bounds true (d.len - (s2 + 1)).toNat
          (show s2 + 1 ≤ d.len by omega)
        generalize b64Skip d true (d.len - (s2 + 1)).toNat (s2 + 1) = s3 at c0 c1 ⊢
        by_cases h3 : d.get s3 = 61 ∨ s3 ≥ d.len
        · rw [if_pos h3]
          exact ⟨by dsimp only; omega, c1⟩
        rw [if_neg h3]
        rw [not_or] at h3
        obtain ⟨e0, e1⟩ := b64Skip_bounds true (d.len - (s3 + 1)).toNat
          (show s3 + 1 ≤ d.len by omega)
        generalize b64Skip d true (d.len - (s3 + 1)).toNat (s3 + 1) = s4 at e0 e1 ⊢
        by_cases h4 : d.get s4 = 61 ∨ s4 ≥ d.len
        · rw [if_pos h4]
          exact ⟨by dsimp only; omega, e1⟩
        rw [if_neg h4]
        rw [not_or] at h4
        exact ih ⟨by dsimp only; omega, by dsimp only; omega⟩
      · rw [if_neg h]
        exact hr

theorem qpLoop_bounds (n : ℕ) (hs : s ≤ d.len) :
    s ≤ (qpLoop d n s).2 ∧ (qpLoop d n s).2 ≤ d.len := by
  induction n generalizing s with
  | zero => exact ⟨le_rfl, hs⟩
  | succ n ih =>
      rw [qpLoop]
      by_cases hlt : s < d.len
      · rw [if_pos hlt]
        by_cases heq : d.get s = 61
        · rw [if_pos heq]
          by_cases hend : s + 1 = d.len
          · rw [if_pos hend]
            exact ⟨by omega, hend.le⟩
          rw [if_neg hend]
          dsimp only
          generalize ht : (if s + 2 < d.len ∧ d.get (s + 1) = 13 ∧ d.get (s + 2) = 10 then s + 2
            else s + 1) = t
          have ht' : s < t ∧ t < d.len := by
            rw [← ht]
            split_ifs <;> omega
          by_cases hlf : d.get t = 10
          · rw [if_pos hlf]
            obtain ⟨h0, h1⟩ := ih (s := t + 1) (by omega)
            exact ⟨by omega, h1⟩
          rw [if_neg hlf]
          split_ifs with h1 h2 h3
          · exact ⟨ht'.1.le, ht'.2.le⟩
          · exact ⟨by dsimp only; omega, h2.le⟩
          · exact ⟨by dsimp only; omega, by dsimp only; omega⟩
          · obtain ⟨h4, h5⟩ := ih (s := t + 2) (by omega)
            exact ⟨by dsimp only; omega, h5⟩
        · rw [if_neg heq]
          obtain ⟨h0, h1⟩ := ih (s := s + 1) (by omega)
          exact ⟨by dsimp only; omega, h1⟩
      · rw [if_neg hlt]
        exact ⟨le_rfl, hs⟩

/-- A pointer is read only where there are enough bytes. -/
theorem pointerLoop_inside {n : ℕ} (hs : Inside d s) (h : (pointerLoop d n s).result = .ok s') :
    Inside d s' := by
  induction n generalizing s with
  | zero =>
      cases h
      exact hs
  | succ n ih =>
      have hs0 := hs.nonneg
      have hs1 := hs.le_len
      have hlt := d.len_lt
      have hbits := two_pow_bits L
      rw [pointerLoop, Int.emod_eq_of_lt (by omega) (by omega)] at h
      split_ifs at h with hshort
      · cases h
        exact hs
      · rw [unpackPointer] at h
        split_ifs at h
        · cases h
        · exact ih ⟨by omega, by omega⟩ h

theorem unpackP_inside (hs : Inside d s) (h : (unpackP d s).result = .ok s') : Inside d s' := by
  have hs0 := hs.nonneg
  have hs1 := hs.le_len
  have hlt := d.len_lt
  have hbits := two_pow_bits L
  rw [unpackP, Int.emod_eq_of_lt (by omega) (by omega)] at h
  split_ifs at h with hshort
  · rw [unpackPointer] at h
    split_ifs at h
    · cases h
    · cases h
      exact ⟨by omega, by omega⟩
  · cases h
    exact hs

theorem berBig_bounds (n : ℕ) (big : Inum L) (hs : s ≤ d.len) :
    s ≤ (berBig d n big s).2 ∧ (berBig d n big s).2 ≤ d.len := by
  induction n generalizing big s with
  | zero => exact ⟨le_rfl, hs⟩
  | succ n ih =>
      rw [berBig]
      by_cases h : s < d.len
      · rw [if_pos h]
        dsimp only
        split_ifs
        · exact ⟨by dsimp only; omega, h⟩
        · obtain ⟨h0, h1⟩ := ih (rbBigPlus L (rbBigMul L big.toBignum
            (.bignum (rbUint2big L 128))).toBignum
            (.bignum (rbUint2big L ((d.get s).toNat &&& 0x7f : ℕ)))) (s := s + 1) (by omega)
          exact ⟨by omega, h1⟩
      · rw [if_neg h]
        exact ⟨le_rfl, hs⟩

theorem berLoop_inside {fuel ul : ℕ} {len : ℤ} (hs : Inside d s)
    (h : (berLoop d fuel len ul s).result = .ok s') : Inside d s' := by
  induction fuel generalizing len ul s with
  | zero =>
      cases h
      exact hs
  | succ n ih =>
      have hs0 := hs.nonneg
      rw [berLoop] at h
      by_cases hlt : 0 < len ∧ s < d.len
      · rw [if_pos hlt] at h
        dsimp only at h
        split_ifs at h
        · exact ih ⟨by omega, by omega⟩ h
        · generalize hbig : berBig d (d.len - s).toNat _ (s + 1) = r at h
          have hb := berBig_bounds (d := d) (d.len - s).toNat (.bignum (rbUint2big L
            (((ul <<< 7) % 2 ^ L.bits ||| (d.get s).toNat &&& 0x7f : ℕ) : ℤ))) (s := s + 1)
              (by omega)
          rw [hbig] at hb
          obtain ⟨big, q⟩ := r
          cases big with
          | none => exact ih ⟨by dsimp only at hb; omega, hb.2⟩ h
          | some big => exact ih ⟨by dsimp only at hb; omega, hb.2⟩ h
        · exact ih ⟨by omega, by omega⟩ h
      · rw [if_neg hlt] at h
        cases h
        exact hs

end Encodings

/-! ## One directive -/

/-- The state before a directive is not one that takes the cursor out of the string: a count that
reads as a negative number does not reach beyond the string, and no line of `u` leaves one
character before the end. -/
def DirectiveInside (d : ByteString L) (m : Modifiers) (s : ℤ) : Directive → Prop
  | .Z => m.star = false → m.len < 0 → -m.len ≤ s
  | .x => m.len < 0 → -m.len ≤ s
  | .X => m.len < 0 → -m.len ≤ d.len - s
  | .seek => 0 ≤ m.len
  | .u =>
      let buflen := (L.toLong ((d.len - s) * 3)).tdiv 4
      0 ≤ buflen → uuOverruns d buflen ((d.len - s).toNat + 1) 0 s = false
  | _ => True

theorem unpackZ_inside {star : Bool} {len : ℤ} (hs : Inside d s)
    (hlen : star = false → len < 0 → -len ≤ s) (h : (unpackZ d s star len).result = .ok s') :
    Inside d s' := by
  have hs0 := hs.nonneg
  have hs1 := hs.le_len
  have hscan := nulScan_le d s (if len > d.len - s then d.len - s else len).toNat
  cases Except.ok.inj h
  cases star with
  | true =>
      simp only [if_true]
      split_ifs at hscan ⊢ <;> constructor <;> omega
  | false =>
      have hlen' := hlen rfl
      simp only [Bool.false_eq_true, if_false]
      split_ifs <;> constructor <;> omega

/-- **A directive keeps the cursor inside the string.** -/
theorem unpackDirective_inside {t : Directive} {m : Modifiers} (hs : Inside d s)
    (hlen : m.len < 2 ^ L.bits) (hcond : DirectiveInside d m s t)
    (h : (unpackDirective d t m s).result = .ok s') : Inside d s' := by
  have hs0 := hs.nonneg
  have hs1 := hs.le_len
  cases t with
  | percent => cases h
  | A => exact unpackA_inside hs h
  | Z => exact unpackZ_inside hs hcond h
  | a => exact unpacka_inside hs h
  | digits k => exact unpackDigits_inside hs h
  | number t => exact unpackNumber_inside hs hlen h
  | U => exact utf8Loop_inside hs h
  | u =>
      obtain ⟨h0, hk⟩ := strNew_ok h
      cases Except.ok.inj hk
      obtain ⟨h1, h2⟩ := uuLoop_bounds hs1 (hcond h0)
      exact ⟨by omega, h2⟩
  | m =>
      obtain ⟨-, hk⟩ := strNew_ok h
      cases Except.ok.inj hk
      exact b64Loop_inside hs
  | M =>
      obtain ⟨-, hk⟩ := strNew_ok h
      cases Except.ok.inj hk
      obtain ⟨h1, h2⟩ := qpLoop_bounds ((d.len - s).toNat + 1) hs1
      exact ⟨by omega, h2⟩
  | seek =>
      simp only [unpackDirective, unpackAt] at h
      split_ifs at h with hgt
      · cases h
      · cases Except.ok.inj h
        exact ⟨hcond, by omega⟩
  | X =>
      have hcond' : m.len < 0 → -m.len ≤ d.len - s := hcond
      simp only [unpackDirective, unpackBack] at h
      split_ifs at h with hgt
      · cases h
      · cases Except.ok.inj h
        exact ⟨by omega, by omega⟩
  | x =>
      have hcond' : m.len < 0 → -m.len ≤ s := hcond
      simp only [unpackDirective, unpackForward] at h
      split_ifs at h with hgt
      · cases h
      · cases Except.ok.inj h
        exact ⟨by omega, by omega⟩
  | P => exact unpackP_inside hs h
  | p => exact pointerLoop_inside hs h
  | w => exact berLoop_inside hs h
  | other =>
      cases h
      exact hs

/-- **Without the condition a directive takes the cursor out of the string.** -/
theorem unpackDirective_outside {t : Directive} {m : Modifiers} (hs : Inside d s)
    (hcond : ¬ DirectiveInside d m s t) :
    ∃ s', (unpackDirective d t m s).result = .ok s' ∧ ¬ Inside d s' := by
  have hs0 := hs.nonneg
  have hs1 := hs.le_len
  cases t with
  | Z =>
      simp only [DirectiveInside, Classical.not_imp, not_le] at hcond
      obtain ⟨hstar, hneg, hlt⟩ := hcond
      refine ⟨s + m.len, ?_, fun h => by have := h.nonneg; omega⟩
      simp only [unpackDirective, unpackZ, hstar, Bool.false_eq_true, if_false]
      rw [if_neg (by omega)]
  | x =>
      simp only [DirectiveInside, Classical.not_imp, not_le] at hcond
      refine ⟨s + m.len, ?_, fun h => by have := h.nonneg; omega⟩
      simp only [unpackDirective, unpackForward]
      rw [if_neg (by omega)]
      rfl
  | X =>
      simp only [DirectiveInside, Classical.not_imp, not_le] at hcond
      refine ⟨s - m.len, ?_, fun h => by have := h.le_len; omega⟩
      simp only [unpackDirective, unpackBack]
      rw [if_neg (by omega)]
      rfl
  | seek =>
      simp only [DirectiveInside, not_le] at hcond
      have hlen := d.len_nonneg
      refine ⟨m.len, ?_, fun h => by have := h.nonneg; omega⟩
      simp only [unpackDirective, unpackAt]
      rw [if_neg (by omega)]
      rfl
  | u =>
      simp only [DirectiveInside, Classical.not_imp, Bool.not_eq_false] at hcond
      refine ⟨d.len + 1, ?_, fun h => by have := h.le_len; omega⟩
      simp only [unpackDirective, unpackUu, strNew]
      rw [if_neg (by omega)]
      dsimp only
      rw [uuLoop_overruns hs1 hcond.2]
  | _ => exact absurd trivial hcond

/-! ## A run -/

/-- The condition on the state before a turn of the loop. -/
def TurnInside (d : ByteString L) (type : UInt8) (p : List UInt8) (s : ℤ) : Prop :=
  isSpace type = false → type ≠ 35 → ∀ m p', unpackModifiers L type p (d.len - s) = .ok (m, p') →
    DirectiveInside d m s (directive type)

/-- Counts are words. -/
theorem unpackModifiers_len {type : UInt8} {p p' : List UInt8} {m : Modifiers} (hs : Inside d s)
    (h : unpackModifiers L type p (d.len - s) = .ok (m, p')) : m.len < 2 ^ L.bits := by
  have hbits := two_pow_bits L
  have hpos : (1 : ℤ) < 2 ^ (L.bits - 1) := by cases L <;> decide
  have hlt := d.len_lt
  have hs0 := hs.nonneg
  obtain ⟨-, h0 | h1 | ⟨-, h2⟩ | ⟨n, hn⟩⟩ := unpackModifiers_cases h
  · omega
  · omega
  · omega
  · have hle := Int.bmod_lt (x := n) (m := 2 ^ L.bits) (by positivity)
    rw [hn, LongSize.toLong]
    push_cast at hle
    omega

/-- A turn keeps the cursor inside the string. -/
theorem unpackTurn_inside {type : UInt8} {p : List UInt8} {y : List UInt8 × ℤ} (hs : Inside d s)
    (hcond : TurnInside d type p s) (h : (unpackTurn d type p s).result = .ok y) :
    Inside d y.2 := by
  rcases unpackTurn_cases d type p s with ⟨q, -, ht⟩ | ⟨e, ht⟩ | ⟨m, q, hspace, hcomment, hm⟩
  · rw [ht] at h
    cases h
    exact hs
  · rw [ht] at h
    cases h
  · rw [unpackTurn_directive hspace hcomment hm] at h
    dsimp only at h
    cases hres : (unpackDirective d (directive type) m s).result with
    | error e =>
        rw [hres] at h
        cases h
    | ok t =>
        rw [hres] at h
        cases h
        exact unpackDirective_inside hs (unpackModifiers_len hs hm) (hcond hspace hcomment m q hm)
          hres

/-- **The cursor of `unpack` is inside the string after every directive exactly when no directive
comes to a state that takes it out.** -/
theorem reached_inside_iff (d : ByteString L) (fmt : List UInt8) :
    (∀ p s, Reached d (fmt, 0) (p, s) → Inside d s) ↔
      ∀ type p s, Reached d (fmt, 0) (type :: p, s) → TurnInside d type p s := by
  constructor
  · intro hin type p s hreach hspace hcomment m p' hm
    by_contra hcond
    obtain ⟨s', hres, hout⟩ := unpackDirective_outside (hin _ _ hreach) hcond
    refine hout (hin p' s' (hreach.tail ⟨type, p, rfl, ?_⟩))
    rw [unpackTurn_directive hspace hcomment hm, hres]
    rfl
  · intro hcond p s hreach
    have hrun : ∀ y, Reached d (fmt, 0) y → Inside d y.2 := by
      intro y hy
      induction hy with
      | refl => exact ⟨le_rfl, d.len_nonneg⟩
      | tail hx hstep ih =>
          obtain ⟨type, q, hq, hturn⟩ := hstep
          rename_i x y
          obtain ⟨xp, t⟩ := x
          obtain rfl : xp = type :: q := hq
          exact unpackTurn_inside ih (hcond type q t hx) hturn
    exact hrun (p, s) hreach

/-- A line of uuencoded text, and one character after it. -/
def lineAndCharacter : ByteString .lp64 := ⟨[35, 56, 54, 41, 67, 120], fun _ => 0, by decide⟩

/-- **The cursor does leave the string**: `"#86)Cx".unpack("u")` ends one after its end. -/
theorem not_forall_reached_inside : ¬ ∀ (L : LongSize) (d : ByteString L) (fmt p : List UInt8)
    (s : ℤ), Reached d (fmt, 0) (p, s) → Inside d s := by
  intro h
  have hreach : Reached lineAndCharacter ([117], 0) ([], 7) :=
    .single ⟨117, [], rfl, by decide +kernel⟩
  exact absurd (h _ _ _ _ _ hreach).le_len (by decide)

end MacRuby.Pack
