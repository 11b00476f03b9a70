import MacRuby.Numeric.Literal

/-!
# Reading Integers by the Grammar

`rb_cstr_to_inum` is compared with the grammar. The steps before the digits agree with it: the base
and the prefix are those of the `Opening`, and a string that is left after preceding zeros has the
same digits. Both paths then read the number if the buffer has room for it and if a number that the
path of words is given fits a word. The length that decides this is a product that wraps, so a
string can be too long for it.

## Main definitions

* `digitsLeft` — where the digits begin that the paths read.
* `LengthSuffices` — the length that is computed leaves room for the number.
* `ExactParse` — the function accepts the grammar, and the paths agree.

## Main results

* `squeeze_spec` — preceding zeros.
* `opening_inumBase` — the base and the prefix.
* `parseDigits_reads` — the choice between the paths.
* `exactParse_iff` — the function does what is required if and only if the length suffices.
* `lengthSuffices_of_length` — it does if the string is not of the size of the memory.
-/

namespace MacRuby

/-! ## Preceding zeros -/

section Zeros

variable {r : ℕ} {t u : List UInt8}

theorem isDigitOf_zero (hr : 2 ≤ r) : IsDigitOf r 48 := by
  have htable : digitTable 48 = 0 := by decide
  refine ⟨htable.ge, ?_⟩
  rw [htable]
  omega

theorem underscored_zero (hr : 2 ≤ r) (ds : List UInt8) :
    underscored r 0 (48 :: ds) = underscored r 0 ds := by
  have htable : digitTable 48 = 0 := by decide
  rw [underscored_digit (isDigitOf_zero hr), Nat.zero_mul, htable]
  rfl

/-- What is left of a string that begins with a zero: it has the same number and the same end, or
there is no digit left and the digits end before a byte that is no white space. -/
structure SqueezedTo (r : ℕ) (t u : List UInt8) : Prop where
  digits : (∃ c ∈ u.head?, IsDigitOf r c) →
    underscored r 0 (moreDigits r t) = underscored r 0 (moreDigits r u) ∧
      t.drop (moreDigits r t).length = u.drop (moreDigits r u).length ∧ Squeezed u ∧ u <:+ t
  none : ¬ (∃ c ∈ u.head?, IsDigitOf r c) →
    underscored r 0 (moreDigits r t) = 0 ∧ ¬ Blank (t.drop (moreDigits r t).length)

theorem SqueezedTo.refl (ht : ∃ c ∈ t.head?, IsDigitOf r c) (hsq : Squeezed t) : SqueezedTo r t t :=
  ⟨fun _ => ⟨rfl, rfl, hsq, List.suffix_rfl⟩, fun h => absurd ht h⟩

/-- A zero before the digits changes nothing. -/
theorem SqueezedTo.zero (hr : 2 ≤ r) (h : SqueezedTo r t u) : SqueezedTo r (48 :: t) u := by
  have hmore := moreDigits_digit (isDigitOf_zero hr) t
  refine ⟨fun hu => ?_, fun hu => ?_⟩
  · obtain ⟨hval, hdrop, hsq, hsuf⟩ := h.digits hu
    rw [hmore, underscored_zero hr]
    exact ⟨hval, hdrop, hsq, hsuf.trans (List.suffix_cons _ _)⟩
  · rw [hmore, underscored_zero hr]
    exact h.none hu

/-- A zero and an underscore before a digit change nothing. -/
theorem SqueezedTo.underscore (hr : 2 ≤ r) (ht : ∃ c ∈ t.head?, IsDigitOf r c)
    (h : SqueezedTo r t u) : SqueezedTo r (48 :: 95 :: t) u := by
  obtain ⟨c, hc, hdigit⟩ := ht
  cases t with
  | nil => cases hc
  | cons e es =>
      cases hc
      refine SqueezedTo.zero hr ?_
      have hmore : moreDigits r (95 :: c :: es) = 95 :: moreDigits r (c :: es) := by
        rw [moreDigits_underscore hdigit, moreDigits_digit hdigit]
      refine ⟨fun hu => ?_, fun hu => ?_⟩
      · obtain ⟨hval, hdrop, hsq, hsuf⟩ := h.digits hu
        rw [hmore, underscored_underscore]
        exact ⟨hval, hdrop, hsq, hsuf.trans (List.suffix_cons _ _)⟩
      · rw [hmore, underscored_underscore]
        exact h.none hu

/-- The digits end at the zero, before a byte that is no white space. -/
theorem SqueezedTo.of_stop (hr : 2 ≤ r) {c : UInt8} {cs : List UInt8} (hc : isSpace c = false)
    (hstop : moreDigits r (c :: cs) = []) (hu : ¬ ∃ d ∈ u.head?, IsDigitOf r d) :
    SqueezedTo r (48 :: c :: cs) u := by
  have hmore : moreDigits r (48 :: c :: cs) = [48] := by
    rw [moreDigits_digit (isDigitOf_zero hr), hstop]
  refine ⟨fun h => absurd h hu, fun _ => ⟨?_, fun hblank => ?_⟩⟩
  · rw [hmore, underscored_zero hr]
    rfl
  · rw [hmore] at hblank
    have := hblank c (List.mem_cons_self ..)
    rw [hc] at this
    exact Bool.false_ne_true this

theorem head_iff {c : UInt8} {cs : List UInt8} :
    (∃ d ∈ (c :: cs).head?, IsDigitOf r d) ↔ IsDigitOf r c :=
  ⟨fun ⟨_, hd, h⟩ => by cases hd; exact h, fun h => ⟨c, rfl, h⟩⟩

/-- **The loop that squeezes zeros**, after a zero and after an underscore that follows one. -/
theorem squeezeZeros_spec (hr : 2 ≤ r) (cs : List UInt8) :
    SqueezedTo r (48 :: cs) (squeezeZeros 0 48 cs) ∧
      SqueezedTo r (48 :: 95 :: cs) (squeezeZeros 1 95 cs) := by
  have hno : ∀ es, ¬ ∃ d ∈ (95 :: es : List UInt8).head?, IsDigitOf r d :=
    fun es h => not_isDigitOf_underscore r (head_iff.mp h)
  have hstop : ∀ {es : List UInt8}, (∀ d ∈ es.head?, ¬ IsDigitOf r d) →
      moreDigits r (95 :: es) = [] :=
    fun h => moreDigits_stop (not_isDigitOf_underscore r) fun _ => h
  induction cs with
  | nil =>
      refine ⟨.refl ⟨48, rfl, isDigitOf_zero hr⟩ fun _ => .inl rfl, ?_⟩
      exact .of_stop hr rfl (hstop fun d hd => nomatch hd) (hno [])
  | cons c cs ih =>
      by_cases h48 : c = 48
      · subst h48
        have hrun : ∀ us prev, squeezeZeros us prev (48 :: cs) = squeezeZeros 0 48 cs := by
          intro us prev
          rw [squeezeZeros, if_pos rfl]
        rw [hrun, hrun]
        exact ⟨ih.1.zero hr, ih.1.underscore hr ⟨48, rfl, isDigitOf_zero hr⟩⟩
      · by_cases h95 : c = 95
        · subst h95
          have hfirst : squeezeZeros 0 48 (95 :: cs) = squeezeZeros 1 95 cs := by
            rw [squeezeZeros, if_neg h48, if_pos rfl, if_neg (by decide)]
          have hsecond : squeezeZeros 1 95 (95 :: cs) = 95 :: cs := by
            rw [squeezeZeros, if_neg h48, if_pos rfl, if_pos (by decide)]
          rw [hfirst, hsecond]
          refine ⟨ih.2, .of_stop hr rfl (hstop fun d hd => ?_) (hno cs)⟩
          cases hd
          exact not_isDigitOf_underscore r
        · by_cases hspace : isSpace c = true
          · have hdigit : ¬ IsDigitOf r c := fun h => by
              rw [h.ne.1] at hspace
              exact Bool.false_ne_true hspace
            have hrun : ∀ us prev, squeezeZeros us prev (c :: cs) = prev :: c :: cs := by
              intro us prev
              rw [squeezeZeros, if_neg h48, if_neg h95, if_pos hspace]
            rw [hrun, hrun]
            refine ⟨.refl ⟨48, rfl, isDigitOf_zero hr⟩ fun _ => .inr hspace, ?_⟩
            refine .of_stop hr rfl (hstop fun d hd => ?_) (hno _)
            cases hd
            exact hdigit
          · have hrun : ∀ us prev, squeezeZeros us prev (c :: cs) = c :: cs := by
              intro us prev
              rw [squeezeZeros, if_neg h48, if_neg h95, if_neg hspace]
            rw [hrun, hrun]
            by_cases hdigit : IsDigitOf r c
            · have hself : SqueezedTo r (c :: cs) (c :: cs) :=
                .refl ⟨c, rfl, hdigit⟩ fun h => absurd h h48
              exact ⟨hself.zero hr, hself.underscore hr ⟨c, rfl, hdigit⟩⟩
            · have hhead : ¬ ∃ d ∈ (c :: cs).head?, IsDigitOf r d := fun h => hdigit (head_iff.mp h)
              refine ⟨.of_stop hr (Bool.eq_false_iff.mpr hspace) ?_ hhead,
                .of_stop hr rfl (hstop fun d hd => ?_) hhead⟩
              · exact moreDigits_stop hdigit fun h => absurd h h95
              · cases hd
                exact hdigit

/-- **Preceding zeros are squeezed**: what is left has the same number and the same end, or there
are no digits before the end. -/
theorem squeeze_spec (hr : 2 ≤ r) (t : List UInt8) :
    ((∃ c ∈ (squeeze t).head?, IsDigitOf r c) → spanDigits r t ≠ [] ∧
      underscored r 0 (spanDigits r t) = underscored r 0 (moreDigits r (squeeze t)) ∧
      t.drop (spanDigits r t).length = (squeeze t).drop (moreDigits r (squeeze t)).length ∧
      Squeezed (squeeze t) ∧ squeeze t <:+ t) ∧
    (¬ (∃ c ∈ (squeeze t).head?, IsDigitOf r c) → underscored r 0 (spanDigits r t) = 0 ∧
      (spanDigits r t = [] ∨ ¬ Blank (t.drop (spanDigits r t).length))) := by
  by_cases h48 : t.headD 0 = 48
  · rw [squeeze, if_pos h48]
    cases t with
    | nil => exact absurd h48 (by decide)
    | cons c cs =>
        obtain rfl : c = 48 := h48
        have hspan := spanDigits_of_head (t := 48 :: cs) ⟨48, rfl, isDigitOf_zero hr⟩
        have hsq := (squeezeZeros_spec hr cs).1
        rw [List.tail_cons, hspan]
        refine ⟨fun h => ⟨?_, hsq.digits h⟩, fun h => ?_⟩
        · rw [moreDigits_digit (isDigitOf_zero hr)]
          exact List.cons_ne_nil _ _
        · obtain ⟨hval, hblank⟩ := hsq.none h
          exact ⟨hval, .inr hblank⟩
  · rw [squeeze, if_neg h48]
    refine ⟨fun h => ?_, fun h => ?_⟩
    · rw [spanDigits_of_head h]
      obtain ⟨c, hc, hdigit⟩ := h
      cases t with
      | nil => cases hc
      | cons e es =>
          cases hc
          rw [moreDigits_digit hdigit]
          exact ⟨List.cons_ne_nil _ _, rfl, rfl, fun h => absurd h h48, List.suffix_rfl⟩
    · rw [spanDigits_of_not_head h]
      exact ⟨rfl, .inl rfl⟩

end Zeros

/-! ## Bases and prefixes -/

section Bases

variable {b : ℤ} {r bits : ℕ} {x : UInt8} {t t' : List UInt8}

theorem digitBits_range {base : ℤ} (h : digitBits base = some bits) : 2 ≤ base ∧ base ≤ 36 := by
  unfold digitBits at h
  split_ifs at h
  all_goals omega

/-- There are enough bits for a digit. -/
theorem le_two_pow_digitBits {base : ℤ} (h : digitBits base = some bits) :
    base ≤ 2 ^ bits ∧ bits ≤ 6 := by
  unfold digitBits at h
  split_ifs at h
  all_goals
    cases h
    omega

theorem isPrefixLetter_iff (base : ℤ) (x : UInt8) :
    isPrefixLetter base x = true ↔ ∃ r, prefixBase x = some r ∧ base = r := by
  unfold isPrefixLetter prefixBase
  split_ifs with h2 h8 h10 h16
  · rcases h2 with rfl | rfl <;> simp
  · rcases h8 with rfl | rfl <;> simp
  · rcases h10 with rfl | rfl <;> simp
  · rcases h16 with rfl | rfl <;> simp
  · rw [not_or] at h2 h8 h10 h16
    simp [h2, h8, h10, h16]

/-- The letter after a leading zero settles the base of an argument that does not. -/
theorem inumBase_zero (hb : b ≤ 0) (cs : List UInt8) :
    inumBase b (48 :: cs) = ((prefixBase (cs.headD 0)).getD 8 : ℕ) := by
  have hhead : (48 :: cs).headD (0 : UInt8) = 48 := rfl
  rw [inumBase, if_pos hb, if_pos hhead, List.tail_cons]
  unfold prefixBase
  generalize cs.headD 0 = x
  by_cases h2 : x = 98 ∨ x = 66
  · rcases h2 with rfl | rfl <;> rfl
  · by_cases h8 : x = 111 ∨ x = 79
    · rcases h8 with rfl | rfl <;> rfl
    · by_cases h10 : x = 100 ∨ x = 68
      · rcases h10 with rfl | rfl <;> rfl
      · by_cases h16 : x = 120 ∨ x = 88
        · rcases h16 with rfl | rfl <;> rfl
        · simp only [h2, h8, h10, h16, if_false]
          rfl

/-- A permitted prefix is passed over. -/
theorem inumBase_permitted (hx : Permitted b x r) (t' : List UInt8) :
    inumBase b (48 :: x :: t') = r ∧ skipPrefix r (48 :: x :: t') = t' := by
  refine ⟨?_, if_pos ⟨rfl, (isPrefixLetter_iff _ _).mpr ⟨r, hx.1, rfl⟩⟩⟩
  rcases le_or_gt b 0 with hb | hb
  · have hhead : (x :: t').headD 0 = x := rfl
    rw [inumBase_zero hb, hhead, hx.1]
    rfl
  · rw [inumBase, if_neg (not_le.mpr hb)]
    exact hx.2.resolve_left (not_le.mpr hb)

theorem prefixBase_ne_none_of_nul : prefixBase 0 = none := by decide

/-- Without a permitted prefix nothing is passed over, and the base is that of the digits. -/
theorem inumBase_plain (ht : ∀ x r t', t = 48 :: x :: t' → ¬ Permitted b x r)
    (hlow : -2 ^ 31 ≤ b) (hbase : 2 ≤ inumBase b t) :
    inumBase b t = plainBase b t ∧ skipPrefix (inumBase b t) t = t := by
  have hcons : t.headD 0 = 48 → ∃ cs, t = 48 :: cs := by
    intro h
    cases t with
    | nil => exact absurd h (by decide)
    | cons c cs =>
        obtain rfl : c = 48 := h
        exact ⟨cs, rfl⟩
  have hletter : ∀ cs, t = 48 :: cs → ∀ r, prefixBase (cs.headD 0) = some r →
    ¬ (b ≤ 0 ∨ b = r) := by
    intro cs hcs r hr hperm
    cases cs with
    | nil =>
        rw [List.headD_nil, prefixBase_ne_none_of_nul] at hr
        cases hr
    | cons x xs => exact ht x r xs hcs ⟨hr, hperm⟩
  have hval : inumBase b t = plainBase b t := by
    rcases le_or_gt b 0 with hb | hb
    · by_cases h48 : t.headD 0 = 48
      · obtain ⟨cs, rfl⟩ := hcons h48
        rw [inumBase_zero hb, plainBase_of_zero hb]
        cases hr : prefixBase (cs.headD 0) with
        | none => rfl
        | some r => exact absurd (.inl hb) (hletter cs rfl r hr)
      · rw [inumBase, if_pos hb, if_neg h48] at hbase ⊢
        rw [plainBase, if_neg (not_lt.mpr hb), if_neg h48]
        split_ifs at hbase ⊢ with hneg
        · rw [Int.bmod_def] at hbase ⊢
          split_ifs at hbase ⊢ <;> omega
        · rfl
    · rw [inumBase, if_neg (not_le.mpr hb), plainBase_of_pos hb, Int.toNat_of_nonneg hb.le]
  refine ⟨hval, if_neg ?_⟩
  rintro ⟨h48, hskip⟩
  obtain ⟨cs, rfl⟩ := hcons h48
  obtain ⟨r, hr, hbr⟩ := (isPrefixLetter_iff _ _).mp hskip
  rcases le_or_gt b 0 with hb | hb
  · exact hletter cs rfl r hr (.inl hb)
  · rw [inumBase, if_neg (not_le.mpr hb)] at hbr
    exact hletter cs rfl r hr (.inr hbr)

/-- **The base and the prefix** are those that the grammar has for the string. -/
theorem opening_inumBase (hlow : -2 ^ 31 ≤ b) (hbits : digitBits (inumBase b t) = some bits) :
    ∃ r pre, inumBase b t = (r : ℕ) ∧ Opening b t r pre (skipPrefix (inumBase b t) t) := by
  by_cases h : ∃ x r t', t = 48 :: x :: t' ∧ Permitted b x r
  · obtain ⟨x, r, t', rfl, hx⟩ := h
    obtain ⟨hbase, hskip⟩ := inumBase_permitted hx t'
    rw [hbase, hskip]
    exact ⟨r, _, rfl, opening_prefixed hx⟩
  · have ht : ∀ x r t', t = 48 :: x :: t' → ¬ Permitted b x r :=
      fun x r t' ht hx => h ⟨x, r, t', ht, hx⟩
    obtain ⟨hbase, hskip⟩ := inumBase_plain ht hlow (digitBits_range hbits).1
    rw [hskip]
    exact ⟨_, _, hbase, opening_plain ht⟩

end Bases

/-! ## The choice between the paths -/

section Choice

variable {L : LongSize} {b bits : ℕ} {sign badcheck : Bool} {s u : List UInt8}
  {bad : ParseError} {v : ℕ} {rest : List UInt8} {run run' : Except ParseError (Inum L)}

/-- What is required settles what is done. -/
theorem Reads.unique (h : Reads L bad sign badcheck v rest run)
    (h' : Reads L bad sign badcheck v rest run') : run = run' := by
  by_cases hrej : badcheck = true ∧ rest.dropWhile isSpace ≠ []
  · rw [h.rejects hrej.1 hrej.2, h'.rejects hrej.1 hrej.2]
  · have hacc : badcheck = false ∨ rest.dropWhile isSpace = [] := by
      rw [not_and_not_right] at hrej
      cases badcheck with
      | false => exact .inl rfl
      | true => exact .inr (hrej rfl)
    obtain ⟨r, rfl, hr⟩ := h.accepts hacc
    obtain ⟨r', rfl, hr'⟩ := h'.accepts hacc
    rw [hr.unique hr']

/-- The length that is computed for the digits. -/
def computedLen (L : LongSize) (bits : ℕ) (u : List UInt8) : ℤ := L.toLong (bits * u.length)

/-- The path of words is tried first. -/
def WordsFirst (L : LongSize) (bits : ℕ) (u : List UInt8) : Prop :=
  computedLen L bits u % 2 ^ L.bits ≤ L.bits

/-- The computed length leaves room for the digits, and they fit a word if they are read as one. -/
structure Suffices (L : LongSize) (b bits : ℕ) (u : List UInt8) : Prop where
  room : HasRoom (computedLen L bits u) (underscored b 0 (moreDigits b u))
  word : WordsFirst L bits u → ¬ StopsAtUnderscore b u →
    underscored b 0 (moreDigits b u) < 2 ^ L.bits

/-- If the path of words is tried first and reads the digits, the other path does the same. -/
def PathsAgree (L : LongSize) (s : List UInt8) (b bits : ℕ) (u : List UInt8) : Prop :=
  WordsFirst L bits u → ∀ sign badcheck run, wordParse L sign badcheck s b u = some run →
    bigparse L sign badcheck s b (computedLen L bits u) u = run

theorem parseDigits_words (h : WordsFirst L bits u) :
    parseDigits L sign badcheck s b bits u = (wordParse L sign badcheck s b u).getD
      (bigparse L sign badcheck s b (computedLen L bits u) u) := if_pos h

theorem parseDigits_bigparse (h : ¬ WordsFirst L bits u) :
    parseDigits L sign badcheck s b bits u =
      bigparse L sign badcheck s b (computedLen L bits u) u := if_neg h

variable (hb : 2 ≤ b) (hb' : b ≤ 36) (hu : ∃ c ∈ u.head?, IsDigitOf b c) (hsq : Squeezed u)
  (hs : u <:+ s)

include hb hb' hu hsq hs

/-- **Both paths read the digits** if the length suffices for them. -/
theorem parseDigits_reads (h : Suffices L b bits u) :
    PathsAgree L s b bits u ∧ ∀ sign badcheck,
      Reads L (.invalidStr (some s) "Integer") sign badcheck
        (underscored b 0 (moreDigits b u)) (u.drop (moreDigits b u).length)
        (parseDigits L sign badcheck s b bits u) := by
  obtain ⟨pre, hpre⟩ := hs
  have hbig : ∀ sign badcheck, Reads L (.invalidStr (some s) "Integer") sign badcheck
      (underscored b 0 (moreDigits b u)) (u.drop (moreDigits b u).length)
      (bigparse L sign badcheck s b (computedLen L bits u) u) :=
    fun sign badcheck => (bigparse_spec L sign badcheck hb hb' hu hpre.symm _).1 h.room
  have hword : WordsFirst L bits u → ∀ sign badcheck run,
      wordParse L sign badcheck s b u = some run →
      Reads L (.invalidStr (some s) "Integer") sign badcheck
        (underscored b 0 (moreDigits b u)) (u.drop (moreDigits b u).length) run := by
    intro hfirst sign badcheck run hrun
    obtain ⟨hnone, hsome⟩ := wordParse_spec L sign badcheck s hb hb' hu hsq
    by_cases hstop : StopsAtUnderscore b u
    · rw [hnone hstop] at hrun
      cases hrun
    · obtain ⟨run', hrun', hreads, -⟩ := hsome hstop
      obtain rfl : run' = run := Option.some_injective _ (hrun'.symm.trans hrun)
      exact hreads (h.word hfirst hstop)
  refine ⟨fun hfirst sign badcheck run hrun => ?_, fun sign badcheck => ?_⟩
  · exact (hbig sign badcheck).unique (hword hfirst sign badcheck run hrun)
  · by_cases hfirst : WordsFirst L bits u
    · rw [parseDigits_words hfirst]
      cases hrun : wordParse L sign badcheck s b u with
      | none => exact hbig sign badcheck
      | some run => exact hword hfirst sign badcheck run hrun
    · rw [parseDigits_bigparse hfirst]
      exact hbig sign badcheck

/-- **The length suffices** if the paths agree and the number is found at the beginning. -/
theorem suffices_of_reads {sign : Bool} {r : Inum L} (hpaths : PathsAgree L s b bits u)
    (hrun : parseDigits L sign false s b bits u = .ok r)
    (hr : r.Is (signed sign (underscored b 0 (moreDigits b u)))) : Suffices L b bits u := by
  obtain ⟨pre, hpre⟩ := hs
  obtain ⟨hnone, hsome⟩ := wordParse_spec L sign false s hb hb' hu hsq
  have hbig := (bigparse_spec L sign false hb hb' hu hpre.symm (computedLen L bits u)).2
  refine ⟨?_, fun hfirst hstop => ?_⟩
  · -- the other path ends in the same way, and not below the buffer
    have hsame : bigparse L sign false s b (computedLen L bits u) u = .ok r := by
      by_cases hfirst : WordsFirst L bits u
      · rw [parseDigits_words hfirst] at hrun
        cases hword : wordParse L sign false s b u with
        | none =>
            rw [hword] at hrun
            exact hrun
        | some run =>
            rw [hword] at hrun
            exact (hpaths hfirst sign false run hword).trans hrun
      · rwa [parseDigits_bigparse hfirst] at hrun
    by_contra hroom
    rw [hbig hroom] at hsame
    cases hsame
  · obtain ⟨run, hword, -, hover⟩ := hsome hstop
    rw [parseDigits_words hfirst, hword, Option.getD_some] at hrun
    by_contra hlt
    obtain ⟨r', hrun', hr'⟩ := hover (not_lt.mp hlt) rfl
    obtain rfl : r = r' := Except.ok.inj (hrun.symm.trans hrun')
    have heq := hr.value.symm.trans hr'.value
    have hpos : 0 < 2 ^ L.bits := by positivity
    rw [signed, signed] at heq
    split_ifs at heq <;> omega

end Choice

/-! ## The function -/

section Function

variable {L : LongSize} {b : ℤ} {s : List UInt8} {r bits : ℕ}

/-- The string after white space and a sign. -/
def afterSign (s : List UInt8) : List UInt8 := (skipSign (s.dropWhile isSpace)).2

/-- The base that a string is read to. -/
def baseOf (b : ℤ) (s : List UInt8) : ℤ := inumBase b (afterSign s)

/-- Where the digits begin that the paths read. -/
def digitsLeft (b : ℤ) (s : List UInt8) : List UInt8 :=
  squeeze (skipPrefix (baseOf b s) (afterSign s))

/-- The argument for the base is admitted for a string: it is an `int`, and the base that is settled
is no "invalid radix". -/
structure Admits (b : ℤ) (s : List UInt8) : Prop where
  lower : -2 ^ 31 ≤ b
  upper : b < 2 ^ 31
  radix : digitBits (baseOf b s) ≠ none

theorem digitBits_ne_none {base : ℤ} (h : 2 ≤ base) (h' : base ≤ 36) : digitBits base ≠ none := by
  unfold digitBits
  rw [if_neg (by omega)]
  split_ifs <;> exact Option.some_ne_none _

/-- Every argument from -36 to 36 but 1 is admitted for every string. -/
theorem admits_of_range (hlow : -36 ≤ b) (hup : b ≤ 36) (hone : b ≠ 1) (s : List UInt8) :
    Admits b s := by
  refine ⟨by omega, by omega, ?_⟩
  rw [baseOf]
  generalize afterSign s = t
  have hrange : 2 ≤ inumBase b t ∧ inumBase b t ≤ 36 := by
    rcases le_or_gt b 0 with hb | hb
    · by_cases h48 : t.headD 0 = 48
      · rw [inumBase, if_pos hb, if_pos h48]
        dsimp only
        split_ifs <;> omega
      · rw [inumBase, if_pos hb, if_neg h48]
        split_ifs
        · rw [Int.bmod_def]
          split_ifs <;> omega
        · omega
    · rw [inumBase, if_neg (not_le.mpr hb)]
      omega
  exact digitBits_ne_none hrange.1 hrange.2

/-- **The computed length suffices** for the digits, if there are any. -/
def LengthSuffices (L : LongSize) (b : ℤ) (s : List UInt8) : Prop :=
  ∀ bits ∈ digitBits (baseOf b s),
    (∃ c ∈ (digitsLeft b s).head?, IsDigitOf (baseOf b s).toNat c) →
      Suffices L (baseOf b s).toNat bits (digitsLeft b s)

/-- **What is required of the function** for a string. -/
structure ExactParse (L : LongSize) (b : ℤ) (s : List UInt8) : Prop where
  accepts : ∀ v, Literal b s v → ∃ r, rbCstrToInum L (some s) b true = .ok r ∧ r.Is v
  rejects : (¬ ∃ v, Literal b s v) →
    rbCstrToInum L (some s) b true = .error (.invalidStr (some s) "Integer")
  longest : ∃ v r, LongestLiteral b s v ∧ rbCstrToInum L (some s) b false = .ok r ∧ r.Is v
  paths : ∀ bits ∈ digitBits (baseOf b s),
    (∃ c ∈ (digitsLeft b s).head?, IsDigitOf (baseOf b s).toNat c) →
      PathsAgree L s (baseOf b s).toNat bits (digitsLeft b s)
  buffer : ∀ badcheck, rbCstrToInum L (some s) b badcheck ≠ .error .outOfBounds

theorem head_digit_iff {u : List UInt8} :
    (∃ c ∈ u.head?, IsDigitOf r c) ↔ ¬ (digitTable (u.headD 0) < 0 ∨
    (r : ℤ) ≤ digitTable (u.headD 0)) := by
  cases u with
  | nil =>
      refine ⟨fun ⟨c, hc, _⟩ => (nomatch hc), fun h => absurd (Or.inl ?_) h⟩
      decide
  | cons c cs =>
      rw [head_iff, List.headD_cons, not_or, not_lt, not_le]
      rfl

theorem squeeze_of_ne {t : List UInt8} (h : t.headD 0 ≠ 48) : squeeze t = t := if_neg h

/-- **The steps before the digits** end with a choice: the digits are read, or there are none. -/
theorem rbCstrToInum_eq (hbase : baseOf b s = r) (hbits : digitBits (baseOf b s) = some bits)
    (badcheck : Bool) :
    rbCstrToInum L (some s) b badcheck =
      if ∃ c ∈ (digitsLeft b s).head?, IsDigitOf r c then
        parseDigits L (skipSign (s.dropWhile isSpace)).1 badcheck s r bits (digitsLeft b s)
      else if badcheck then .error (.invalidStr (some s) "Integer") else .ok (.zero L) := by
  rw [rbCstrToInum]
  unfold digitsLeft
  unfold baseOf afterSign at hbase hbits ⊢
  generalize skipSign (s.dropWhile isSpace) = start at hbase hbits ⊢
  obtain ⟨sign, t⟩ := start
  dsimp only at hbase hbits ⊢
  rw [hbase] at hbits ⊢
  by_cases hsign : t.headD 0 = 43 ∨ t.headD 0 = 45
  · -- a second sign is no digit
    have h48 : t.headD 0 ≠ 48 := by
      rcases hsign with h | h <;> rw [h] <;> decide
    have hskip : skipPrefix r t = t := if_neg fun h => h48 h.1
    have hno : ¬ ∃ c ∈ t.head?, IsDigitOf r c := by
      rw [head_digit_iff, not_not]
      rcases hsign with h | h <;> rw [h] <;> exact .inl (by decide)
    rw [if_pos hsign, hskip, squeeze_of_ne h48, if_neg hno]
  · rw [if_neg hsign, hbits]
    dsimp only
    by_cases hdigit : ∃ c ∈ (squeeze (skipPrefix r t)).head?, IsDigitOf r c
    · rw [if_pos hdigit, if_neg (head_digit_iff.mp hdigit)]
    · rw [if_neg hdigit, if_pos (not_not.mp fun h => hdigit (head_digit_iff.mpr h))]

/-- **The function accepts exactly the grammar**, and without the check reads the longest literal,
if and only if the computed length suffices. -/
theorem exactParse_iff (h : Admits b s) : ExactParse L b s ↔ LengthSuffices L b s := by
  obtain ⟨bits, hbits⟩ := Option.ne_none_iff_exists'.mp h.radix
  obtain ⟨r, pre, hbase, hopen⟩ := opening_inumBase h.lower hbits
  obtain ⟨ws, sgn, sign, t, hleads⟩ := exists_leads s
  have hafter : afterSign s = t := congrArg Prod.snd hleads.skip
  have hrange := digitBits_range hbits
  have hbase' : baseOf b s = r := hbase
  have hnat : (baseOf b s).toNat = r := by rw [hbase', Int.toNat_natCast]
  rw [hbase'] at hrange
  have hr : 2 ≤ r := by omega
  have hr' : r ≤ 36 := by omega
  have hrun := fun badcheck => rbCstrToInum_eq (L := L) hbase' hbits badcheck
  rw [hleads.skip] at hrun
  rw [hafter] at hopen
  have hleft : digitsLeft b s = squeeze (skipPrefix (inumBase b t) t) := by
    rw [digitsLeft, baseOf, hafter]
  set t' := skipPrefix (inumBase b t) t with ht'
  obtain ⟨hdigits, hnone⟩ := squeeze_spec hr t'
  rw [← hleft] at hdigits hnone
  have hlit := fun v => hopen.literal_iff hleads (v := v)
  have hlong := hopen.longestLiteral hleads
  unfold LengthSuffices
  by_cases hdigit : ∃ c ∈ (digitsLeft b s).head?, IsDigitOf r c
  · obtain ⟨hne, hval, hdrop, hsq, hsuf⟩ := hdigits hdigit
    have hs : digitsLeft b s <:+ s := by
      refine hsuf.trans ?_
      refine List.IsSuffix.trans ⟨pre, hopen.split.symm⟩ ?_
      rw [hleads.split, ← List.append_assoc]
      exact List.suffix_append _ _
    rw [hval] at hlong
    simp only [hval, hdrop] at hlit
    simp only [if_pos hdigit] at hrun
    refine ⟨fun hexact bits' hbits' _ => ?_, fun hsuff => ?_⟩
    · obtain rfl : bits' = bits := Option.some_injective _ (hbits'.symm.trans hbits)
      have hpaths := hexact.paths bits' hbits'
      rw [hnat] at hpaths ⊢
      obtain ⟨v, n, hv, hok, hn⟩ := hexact.longest
      rw [hrun] at hok
      rw [hv.unique hlong] at hn
      exact suffices_of_reads hr hr' hdigit hsq hs (hpaths hdigit) hok hn
    · have hsuff' := hsuff bits hbits
      rw [hnat] at hsuff'
      obtain ⟨hpaths, hreads⟩ := parseDigits_reads hr hr' hdigit hsq hs (hsuff' hdigit)
      have haccepts : ∀ v, Literal b s v → ∃ n, rbCstrToInum L (some s) b true = .ok n ∧
        n.Is v := by
        intro v hv
        obtain ⟨-, hblank, rfl⟩ := (hlit v).mp hv
        rw [hrun]
        exact (hreads sign true).accepts (.inr hblank.dropWhile_eq)
      have hrejects : (¬ ∃ v, Literal b s v) →
          rbCstrToInum L (some s) b true = .error (.invalidStr (some s) "Integer") := by
        intro hno
        rw [hrun]
        refine (hreads sign true).rejects rfl fun hblank => hno ⟨_, (hlit _).mpr ⟨hne, ?_, rfl⟩⟩
        exact blank_of_dropWhile hblank
      obtain ⟨n, hok, hn⟩ := (hreads sign false).accepts (.inl rfl)
      rw [← hrun] at hok
      refine ⟨haccepts, hrejects, ⟨_, n, hlong, hok, hn⟩, fun bits' hbits' _ => ?_,
        fun badcheck => ?_⟩
      · obtain rfl : bits' = bits := Option.some_injective _ (hbits'.symm.trans hbits)
        rw [hnat]
        exact hpaths
      · cases badcheck with
        | false =>
            rw [hok]
            exact fun h => nomatch h
        | true =>
            by_cases hv : ∃ v, Literal b s v
            · obtain ⟨v, hv⟩ := hv
              obtain ⟨n', hok', -⟩ := haccepts v hv
              rw [hok']
              exact fun h => nomatch h
            · rw [hrejects hv]
              exact fun h => nomatch h
  · -- there is nothing to read, and no literal
    obtain ⟨hzero, hend⟩ := hnone hdigit
    simp only [if_neg hdigit] at hrun
    rw [hzero] at hlong
    have hsigned : signed sign 0 = 0 := by cases sign <;> rfl
    rw [hsigned] at hlong
    have hno : ∀ v, ¬ Literal b s v := by
      intro v hv
      obtain ⟨hne, hblank, -⟩ := (hlit v).mp hv
      rcases hend with h | h
      · exact hne h
      · exact h hblank
    rw [hnat]
    refine ⟨fun _ _ _ h => absurd h hdigit, fun _ => ⟨fun v hv => absurd hv (hno v),
      fun _ => hrun true,
      ⟨0, _, hlong, hrun false, Inum.zero_is L⟩, fun _ _ h => ?_, fun badcheck => ?_⟩⟩
    · rw [hnat] at h
      exact absurd h hdigit
    · rw [hrun]
      cases badcheck <;> exact fun h => nomatch h

end Function

/-! ## Lengths that suffice -/

section Lengths

variable {L : LongSize} {b bits : ℕ}

/-- The number is below the power of the base for the bytes that are left. -/
theorem underscored_lt (hb : 2 ≤ b) (n : ℕ) (u : List UInt8) :
    underscored b n (moreDigits b u) < (n + 1) * b ^ u.length := by
  induction u generalizing n with
  | nil =>
      rw [List.length_nil, pow_zero, Nat.mul_one]
      exact Nat.lt_succ_self n
  | cons c cs ih =>
      have hpow : b ^ (c :: cs).length = b * b ^ cs.length := pow_succ' _ _
      rw [moreDigits]
      split_ifs with hc hunder
      · have hd : (digitTable c).toNat + 1 ≤ b := by
          have := hc.1
          have := hc.2
          omega
        rw [underscored_digit hc]
        calc underscored b (n * b + (digitTable c).toNat) (moreDigits b cs)
            < (n * b + (digitTable c).toNat + 1) * b ^ cs.length := ih _
          _ ≤ ((n + 1) * b) * b ^ cs.length := by
              refine Nat.mul_le_mul_right _ ?_
              rw [Nat.add_mul, Nat.one_mul]
              omega
          _ = (n + 1) * b ^ (c :: cs).length := by rw [hpow, Nat.mul_assoc]
      · rw [hunder.1, underscored_underscore]
        refine (ih n).trans_le (Nat.mul_le_mul_left _ ?_)
        rw [List.length_cons]
        exact Nat.pow_le_pow_right (by omega) (Nat.le_succ _)
      · have hpos : 0 < b ^ (c :: cs).length := by positivity
        calc n < n + 1 := Nat.lt_succ_self n
          _ ≤ (n + 1) * b ^ (c :: cs).length := Nat.le_mul_of_pos_right _ hpos

/-- **The length suffices if the product does not wrap.** -/
theorem suffices_of_lt {u : List UInt8} (hb : 2 ≤ b) (hbits : digitBits b = some bits)
    (hlen : bits * u.length < 2 ^ (L.bits - 1)) : Suffices L b bits u := by
  have hpos : 0 < L.bits := by cases L <;> decide
  have hdouble : (2 : ℤ) ^ L.bits = 2 * 2 ^ (L.bits - 1) := by
    rw [← pow_succ', Nat.sub_add_cancel hpos]
  have hlen' : (bits * u.length : ℤ) < 2 ^ (L.bits - 1) := by exact_mod_cast hlen
  have hcomputed : computedLen L bits u = (bits * u.length : ℕ) := by
    rw [computedLen, LongSize.toLong, Int.bmod_def]
    push_cast
    have hmod : (bits * u.length : ℤ) % 2 ^ L.bits = bits * u.length :=
      Int.emod_eq_of_lt (by positivity) (by omega)
    rw [hmod, if_pos (by omega)]
  have hval : underscored b 0 (moreDigits b u) < 2 ^ (bits * u.length) := by
    have hdigit : b ≤ 2 ^ bits := by exact_mod_cast (le_two_pow_digitBits hbits).1
    calc underscored b 0 (moreDigits b u) < (0 + 1) * b ^ u.length := underscored_lt hb 0 u
      _ = b ^ u.length := by rw [Nat.zero_add, Nat.one_mul]
      _ ≤ (2 ^ bits) ^ u.length := Nat.pow_le_pow_left hdigit _
      _ = 2 ^ (bits * u.length) := (pow_mul _ _ _).symm
  generalize bits * u.length = n at hcomputed hval hlen hlen'
  refine ⟨?_, fun hfirst _ => ?_⟩
  · have hbuffer : bufferLen n = (n / 32 + 1 : ℕ) := by
      rw [bufferLen, Int.tdiv_eq_ediv_of_nonneg (Int.natCast_nonneg n)]
      rfl
    rw [hcomputed, HasRoom, hbuffer, Int.toNat_natCast]
    refine ⟨by omega, ?_⟩
    calc (underscored b 0 (moreDigits b u) : ℤ) < 2 ^ n := by exact_mod_cast hval
      _ ≤ 2 ^ (32 * (n / 32 + 1)) := pow_le_pow_right₀ (by norm_num) (by omega)
      _ = bigrad ^ (n / 32 + 1) := by rw [pow_mul]; rfl
  · have hle : n ≤ L.bits := by
      rw [WordsFirst, hcomputed, Int.emod_eq_of_lt (by positivity) ?_] at hfirst
      · exact_mod_cast hfirst
      · have hhalf : (n : ℤ) < 2 ^ (L.bits - 1) := by exact_mod_cast hlen
        omega
    exact hval.trans_le (Nat.pow_le_pow_right (by norm_num) hle)

theorem length_squeezeZeros_le (us : ℕ) (prev : UInt8) (cs : List UInt8) :
    (squeezeZeros us prev cs).length ≤ cs.length + 1 := by
  induction cs generalizing us prev with
  | nil => exact le_rfl
  | cons c cs ih =>
      rw [squeezeZeros]
      split_ifs
      · exact (ih 0 c).trans (Nat.le_succ _)
      · exact Nat.le_succ _
      · exact (ih (us + 1) c).trans (Nat.le_succ _)
      · exact le_rfl
      · exact Nat.le_succ _

theorem length_digitsLeft_le (b : ℤ) (s : List UInt8) : (digitsLeft b s).length ≤ s.length := by
  have hafter : (afterSign s).length ≤ s.length := by
    refine le_trans ?_ (List.dropWhile_suffix (p := isSpace) (l := s)).length_le
    unfold afterSign skipSign
    split_ifs
    · exact List.length_tail.trans_le (Nat.sub_le _ _)
    · exact List.length_tail.trans_le (Nat.sub_le _ _)
    · exact le_rfl
  have hskipped : (skipPrefix (baseOf b s) (afterSign s)).length ≤ (afterSign s).length := by
    unfold skipPrefix
    split_ifs
    · exact List.length_drop.trans_le (Nat.sub_le _ _)
    · exact le_rfl
  refine le_trans ?_ (hskipped.trans hafter)
  unfold digitsLeft
  generalize skipPrefix (baseOf b s) (afterSign s) = t
  unfold squeeze
  split_ifs with h48
  · cases t with
    | nil => exact absurd h48 (by decide)
    | cons c cs => exact length_squeezeZeros_le 0 48 cs
  · exact le_rfl

/-- **A string with fewer bytes than a sixth of the largest `long`** is never too long. -/
theorem lengthSuffices_of_length {b : ℤ} {s : List UInt8} (hlen : 6 * s.length < 2 ^ (L.bits - 1)) :
    LengthSuffices L b s := by
  intro bits hbits _
  have hrange := digitBits_range hbits
  have hbits' : digitBits ((baseOf b s).toNat : ℤ) = some bits := by
    rwa [Int.toNat_of_nonneg (by omega)]
  refine suffices_of_lt (by omega) hbits' (lt_of_le_of_lt ?_ hlen)
  exact Nat.mul_le_mul (le_two_pow_digitBits hbits).2 (length_digitsLeft_le b s)

/-- "0x1_2" is read to the base that its prefix has. -/
theorem exactParse_hex : Admits 0 [48, 120, 49, 95, 50] ∧
    LengthSuffices .lp64 0 [48, 120, 49, 95, 50] ∧
    ExactParse .lp64 0 [48, 120, 49, 95, 50] :=
  have hadmits : Admits 0 [48, 120, 49, 95, 50] :=
    admits_of_range (by norm_num) (by norm_num) (by norm_num) _
  have hsuff : LengthSuffices .lp64 0 [48, 120, 49, 95, 50] :=
    lengthSuffices_of_length (by decide)
  ⟨hadmits, hsuff, (exactParse_iff hadmits).mpr hsuff⟩

end Lengths

/-! ## Strings that are too long -/

section TooLong

/-- Digits `1` are left as they are. -/
theorem digitsLeft_ones (n : ℕ) :
    baseOf 10 (List.replicate (n + 1) 49) = 10 ∧
      digitsLeft 10 (List.replicate (n + 1) 49) = List.replicate (n + 1) 49 :=
  ⟨rfl, rfl⟩

/-- **Decimal digits for half a gigabyte** wrap the length of a 32-bit `long` to its least value. -/
theorem not_forall_exactParse : ¬ ∀ (L : LongSize) (b : ℤ) (s : List UInt8),
    Admits b s → 0 ∉ s → ExactParse L b s := by
  intro h
  obtain ⟨n, hn⟩ : ∃ n, n + 1 = 2 ^ 29 := ⟨2 ^ 29 - 1, by norm_num⟩
  have hbase := (digitsLeft_ones n).1
  have hleft := (digitsLeft_ones n).2
  have hadmits : Admits 10 (List.replicate (n + 1) 49) :=
    admits_of_range (by norm_num) (by norm_num) (by norm_num) _
  have hnul : (0 : UInt8) ∉ List.replicate (n + 1) 49 := fun hmem =>
    absurd (List.eq_of_mem_replicate hmem) (by decide)
  have hsuff := (exactParse_iff hadmits).mp (h .ilp32 10 _ hadmits hnul)
  have hroom := (hsuff 4 (by rw [hbase]; decide) ?_).room.1
  · have hlen : computedLen .ilp32 4 (List.replicate (n + 1) 49) = -2 ^ 31 := by
      rw [computedLen, List.length_replicate, hn]
      decide
    rw [hleft, hlen] at hroom
    exact absurd hroom (by decide)
  · rw [hbase, hleft, List.replicate_succ]
    exact ⟨49, rfl, by decide⟩

end TooLong

end MacRuby
