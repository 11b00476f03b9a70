import MacRuby.Marshal.Image

/-!
# What is written of the parts is read back

A number, a plain text, a symbol and the name of a class are read back from what was written
of them, whatever follows. A symbol that was written before is a link to its place among the symbols
that were read, which are those that were written.

## Main results

* `rLong_wLong`, `rLong_wCount`, `rBytes_wBytes`, `rBignum_wBignum` — numbers and strings.
* `rSymbol_wSymbol`, `rClass_wClass` — symbols and classes.
* `rBignumData_rbInt2big` — a fixnum that was written as a bignum is a fixnum again.
-/

namespace MacRuby.Marshal

variable {κ F : Type} {L : LongSize} {enc : CFEncoding} {t : List UInt8}

/-! ## Bytes -/

theorem raising_eq_ok {α : Type} {x : Except MarshalError α} {a : α} :
    raising x = .ok a ↔ x = .ok a := by
  cases x with
  | ok b => simp [raising]
  | error e => simp [raising, raise]

/-- A function that reads is called. -/
theorem LoadArg.read_eq {α : Type} {f : List UInt8 → Except MarshalError (α × List UInt8)}
    {arg : LoadArg κ F L} {x : α} {src : List UInt8} (h : f arg.src = .ok (x, src)) :
    arg.read f = .ok (x, { arg with src }) := by
  rw [LoadArg.read, h]
  rfl

theorem rLong_wLong {x : BitVec L.bits} {out : List UInt8} (h : wLong L x = .ok out)
    (t : List UInt8) : rLong L (out ++ t) = .ok (x, t) := by
  have hlong := longRoundTrip x
  unfold LongRoundTrip at hlong
  split at hlong
  · obtain ⟨bytes, hbytes, hread⟩ := hlong
    rw [h] at hbytes
    cases hbytes
    exact hread t
  · rw [h] at hlong
    cases hlong

/-- A word that is small enough is read as the number that it was made of. -/
theorem toInt_ofInt_long {n : ℤ} (h0 : -2 ^ 31 ≤ n) (h1 : n < 2 ^ 31) :
    (BitVec.ofInt L.bits n).toInt = n := by
  rw [BitVec.toInt_ofInt]
  cases L
  · exact Int.bmod_eq_of_le (by simp [LongSize.bits, LongSize.bytes]; omega)
      (by simp [LongSize.bits, LongSize.bytes]; omega)
  · exact Int.bmod_eq_of_le (by simp [LongSize.bits, LongSize.bytes]; omega)
      (by simp [LongSize.bits, LongSize.bytes]; omega)

theorem toInt_ofInt_fixnum {n : ℤ} (hmin : L.fixnumMin ≤ n) (hmax : n ≤ L.fixnumMax) :
    (BitVec.ofInt L.bits n).toInt = n := by
  have hbits : (2 : ℤ) ^ L.bits = 2 * 2 ^ (L.bits - 1) := by cases L <;> rfl
  obtain ⟨hmin', hmax', hhalf⟩ := L.fixnum_range
  rw [BitVec.toInt_ofInt]
  exact LongSize.toLong_eq (by omega) (by omega)

theorem long2fix_val (n : Fixnum L) : long2fix L n.val = n := by
  have hval := (long2fix_is_of_range n.min_le n.le_max).2
  cases n
  simpa [Inum.toInt, long2fix] using hval

/-- A number of words is read back. -/
theorem rLong_wCount {n : ℕ} {out : List UInt8} (h : wCount L n = .ok out) :
    ∃ x : BitVec L.bits, x.toInt = n ∧ (n : ℤ) ≤ L.fixnumMax ∧
      ∀ t, rLong L (out ++ t) = .ok (x, t) := by
  unfold wCount at h
  split at h
  · rename_i hmax
    have hmin := fixnumMin_le_neg_one L
    exact ⟨_, toInt_ofInt_fixnum (by omega) hmax, hmax, rLong_wLong h⟩
  · cases h

/-- ASCII without NUL, whose length is an `int`. -/
structure PlainText (s : List UInt8) : Prop where
  short : s.length < 2 ^ 31
  ascii : ∀ c ∈ s, c ≠ 0 ∧ c < 0x80

theorem plainText_iff {s : List UInt8} :
    (s.length < 2 ^ 31 ∧ ∀ c ∈ s, c ≠ 0 ∧ c < 0x80) ↔ PlainText s :=
  ⟨fun h => ⟨h.1, h.2⟩, fun h => ⟨h.short, h.ascii⟩⟩

instance (s : List UInt8) : Decidable (PlainText s) :=
  letI : Decidable (∀ c ∈ s, c ≠ 0 ∧ c < 0x80) := List.decidableBAll _ s
  decidable_of_iff _ plainText_iff

theorem PlainText.not_hasHigh {s : List UInt8} (hs : PlainText s) : ¬ HasHigh s :=
  fun ⟨c, hc, hhigh⟩ => absurd (hs.ascii c hc).2 (UInt8.not_lt.mpr hhigh)

/-- ASCII is read back. -/
theorem rBytes_wBytes {s out : List UInt8} {symbols : List Ident} {data : List (Entry κ F L)}
    (h : wBytes L s = .ok out) (hshort : s.length < 2 ^ 31) (hascii : ¬ HasHigh s) :
    rBytes enc ⟨out ++ t, symbols, data⟩ = .ok (s, ⟨t, symbols, data⟩) := by
  have hint : toCInt s.length = s.length :=
    Int.bmod_eq_of_le (by push_cast; omega) (by push_cast; omega)
  rw [wBytes, hint] at h
  obtain ⟨len, hlen, h⟩ := Result.bind_eq_ok.mp h
  rw [if_neg (by omega), Int.toNat_natCast, List.take_length,
    if_neg fun hmixed => hascii hmixed.2] at h
  cases h
  have hread : LoadArg.read (rLong L) ⟨len ++ s ++ t, symbols, data⟩ =
      .ok (BitVec.ofInt L.bits s.length, (⟨s ++ t, symbols, data⟩ : LoadArg κ F L)) :=
    LoadArg.read_eq (by rw [List.append_assoc]; exact rLong_wLong hlen _)
  have hle : s.length ≤ (s ++ t).length := by
    rw [List.length_append]
    omega
  have hbytes : rBytes0 enc (BitVec.ofInt L.bits s.length).toInt (s ++ t) =
      .ok (strNew enc (s ++ t) s.length, t) := by
    rw [toInt_ofInt_long (by omega) (by omega), rBytes0_eq hle, List.drop_left]
  -- what is ASCII is not padded
  have hpad : padding enc (s ++ t) s.length = 0 := by
    by_contra hpad
    obtain ⟨-, -, -, c, hc, hhigh⟩ := (padding_pos_iff hle).mp (Nat.pos_of_ne_zero hpad)
    rw [List.take_left] at hc
    exact hascii ⟨c, hc, hhigh⟩
  rw [rBytes, hread, Result.ok_bind]
  dsimp only
  rw [LoadArg.read_eq hbytes, Result.ok_bind]
  dsimp only
  rw [cstr_strNew hle, hpad, List.take_left, List.replicate_zero, List.append_nil]

/-! ## Symbols -/

/-- A name that is a plain text. -/
def Ident.Plain (id : Ident) : Prop := PlainText id.name

theorem rSymreal_wBytes {id : Ident} {out : List UInt8} {symbols : List Ident}
    {data : List (Entry κ F L)} (h : wBytes L id.name = .ok out) (hid : id.Plain) :
    rSymreal enc ⟨out ++ t, symbols, data⟩ = .ok (id, ⟨t, symbols ++ [id], data⟩) := by
  rw [rSymreal, rBytes_wBytes h hid.short hid.not_hasHigh, Result.ok_bind]
  dsimp only
  rw [intern_name]

theorem rSymlink_wCount {id : Ident} {out : List UInt8} {symbols : List Ident}
    {data : List (Entry κ F L)} (h : wCount L (symbols.idxOf id) = .ok out) (hid : id ∈ symbols) :
    rSymlink ⟨out ++ t, symbols, data⟩ = .ok (id, ⟨t, symbols, data⟩) := by
  obtain ⟨x, hx, -, hread⟩ := rLong_wCount h
  have hlt := List.idxOf_lt_length_of_mem hid
  rw [rSymlink, LoadArg.read_eq (hread t), Result.ok_bind]
  dsimp only
  rw [hx, if_neg (by omega), Int.toNat_natCast, List.getElem?_eq_getElem hlt,
    List.getElem_idxOf hlt]

variable {s s' : DumpArg κ L} {d : List (Entry κ F L)} {out : List UInt8}

theorem wSymbol_data {id : Ident} (h : wSymbol id s = .ok (out, s')) : s'.data = s.data := by
  unfold wSymbol at h
  split at h
  · obtain ⟨num, -, h⟩ := Result.bind_eq_ok.mp h
    cases h
    rfl
  · obtain ⟨sym, -, h⟩ := Result.bind_eq_ok.mp h
    cases h
    rfl

/-- **A symbol is read back**, from its name or from its place. -/
theorem rSymbol_wSymbol (enc : CFEncoding) {id : Ident} (h : wSymbol id s = .ok (out, s'))
    (hid : id.Plain) (t : List UInt8) : rSymbol enc ⟨out ++ t, s.symbols, d⟩
      = .ok (id, ⟨t, s'.symbols, d⟩) := by
  unfold wSymbol at h
  split at h
  · rename_i hmem
    obtain ⟨num, hnum, h⟩ := Result.bind_eq_ok.mp h
    cases h
    exact rSymlink_wCount (raising_eq_ok.mp hnum) hmem
  · obtain ⟨sym, hsym, h⟩ := Result.bind_eq_ok.mp h
    cases h
    exact rSymreal_wBytes (raising_eq_ok.mp hsym) hid

variable [DecidableEq κ] {E : Classes κ F} {c : κ}

theorem class2path_eq_ok {path : Ident} (h : class2path E c = .ok path) :
    path = E.path c ∧ E.path2class path = .ok c := by
  unfold class2path at h
  dsimp only at h
  split at h
  · cases h
  · obtain ⟨c', hc', h⟩ := Result.bind_eq_ok.mp h
    split at h
    · cases h
    · rename_i hc
      cases h
      rw [raising_eq_ok.mp hc', not_not.mp hc]
      exact ⟨rfl, rfl⟩

theorem wClass_data {type : Tag} (h : wClass E type c s = .ok (out, s')) : s'.data = s.data := by
  obtain ⟨path, -, h⟩ := Result.bind_eq_ok.mp h
  obtain ⟨⟨sym, s1⟩, hsym, h⟩ := Result.bind_eq_ok.mp h
  cases h
  exact wSymbol_data hsym

theorem wUclass_data {isPure : Bool} (h : wUclass E c isPure s = .ok (out, s')) :
    s'.data = s.data := by
  unfold wUclass at h
  split at h
  · cases h
    rfl
  · exact wClass_data h

/-- **The name of a class is read back.** -/
theorem rClass_wClass {type : Tag} (h : wClass E type c s = .ok (out, s'))
    (hc : E.isModule c = false) (hshort : (E.path c).Plain) :
    ∃ sym, out = type.byte :: sym ∧
      ∀ t, rClass E ⟨sym ++ t, s.symbols, d⟩ = .ok (c, ⟨t, s'.symbols, d⟩) := by
  obtain ⟨path, hpath, h⟩ := Result.bind_eq_ok.mp h
  obtain ⟨⟨sym, s1⟩, hsym, h⟩ := Result.bind_eq_ok.mp h
  cases h
  obtain ⟨rfl, hfind⟩ := class2path_eq_ok hpath
  refine ⟨sym, rfl, fun t => ?_⟩
  rw [rClass, rSymbol_wSymbol E.enc hsym hshort, Result.ok_bind]
  dsimp only
  rw [path2class, hfind]
  simp [raising, Result.ok_bind, hc]

/-! ## Bignums -/

omit [DecidableEq κ] in
theorem rBignum_wBignum {x : Bignum} (h : wBignum L x = .ok out) (t : List UInt8) :
    rBignum L enc (out ++ t) =
      rBignumData L enc x.sign (shortlen x.digits) (wDigits x.digits ++ t) := by
  obtain ⟨len, hlen, h⟩ := Result.bind_eq_ok.mp h
  cases h
  have hsign : decide ((if x.sign then 0x2b else 0x2d : UInt8) = 0x2b) = x.sign := by
    cases x.sign <;> simp
  rw [List.cons_append, List.cons_append, List.append_assoc, rBignum_cons, rLong_wLong hlen,
    Result.ok_bind, toInt_ofInt_shortlen, hsign]

theorem len_rbInt2big_le (L : LongSize) (n : ℤ) : (rbInt2big L n).len ≤ L.digsPerLong := by
  have hpos : 0 < L.digsPerLong := by cases L <;> decide
  have hlen : ∀ n, (rbUint2big L n).len ≤ L.digsPerLong := fun n =>
    (List.length_take_le _ _).trans (trimLen_spec _ hpos).2.1
  unfold rbInt2big
  split
  · exact hlen _
  · exact hlen _

/-- A fixnum that was written as a bignum is a fixnum again. -/
theorem rBignumData_rbInt2big {n : Fixnum L} (hn : n.val ≠ 0) (t : List UInt8) :
    rBignumData L enc (rbInt2big L n.val).sign (shortlen (rbInt2big L n.val).digits)
      (wDigits (rbInt2big L n.val).digits ++ t) = .ok (.fixnum n, t) := by
  obtain ⟨hmin', hmax', hhalf⟩ := L.fixnum_range
  have hmin := n.min_le
  have hmax := n.le_max
  have hval : (rbInt2big L n.val).toInt = n.val := toInt_rbInt2big (by omega) (by omega)
  have htrim := trimmed_rbInt2big hval
  have htop := htrim.top_ne_zero (by rw [hval]; exact hn)
  have hlen := len_rbInt2big_le L n.val
  have hdigs : L.digsPerLong ≤ 2 := by cases L <;> decide
  have hfits : ((rbInt2big L n.val).len : ℤ) * 4 ≤ L.longMax := by
    have hmax : 8 ≤ L.longMax := by cases L <;> decide
    omega
  have hne : (rbInt2big L n.val).digits ≠ [] := List.length_pos_iff.mp htrim.pos
  have hshorts := (shorts_bounds hne (mt (digitAt_eq_zero_iff _ _).mpr htop)).2
  have hlen' : (rbInt2big L n.val).digits.length ≤ L.digsPerLong := hlen
  rw [rBignumData_eq htrim.pos htop hfits (by omega), bignorm_of_fixable n hval]

end MacRuby.Marshal
